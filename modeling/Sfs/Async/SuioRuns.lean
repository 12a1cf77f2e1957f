import Sfs.Async.SuioTake
import Sfs.Async.SuioRemove
import Sfs.Foundations.Lines
import Sfs.Foundations.Runs

/-!
# Queues are first in, first out

Several queues share one memory. In each, what is queued is what was appended less what was
removed, and a queue that is taken over comes behind the one that takes it. This holds in
every run in which the heap gives unused memory, the callers leave alone what they have
queued, and no segment begins where a scratch buffer ends, or where the last segment of a
queue that was taken over ended.
-/

namespace SelfCertifyingFS.Async

open Foundations Suio List Lines Option Function Subset

/-- Some queues, the memory, and how many callbacks have been set up. -/
structure SuioWorld (ι : Type*) where
  suio : ι → Suio
  arena : Arena
  registered : ℕ

/-- What is done to a queue; `others` is what anybody does to the memory. The callbacks that are
set up are numbered. -/
inductive SuioOp (ι : Type*)
  | print (i : ι) (p len : ℕ)
  | copy (i : ι) (buf : Bytes)
  | copyv (i : ι) (iov : List Bytes) (skip : ℕ)
  | fill (i : ι) (c : UInt8) (n : ℤ)
  | take (dst src : ι)
  | rembytes (i : ι) (n : ℕ)
  | clear (i : ι)
  | iovcb (i : ι)
  | others (mem : Memory)

/-- Where the queues lie. -/
structure Layout (ι : Type*) where
  self : ι → ℕ
  defbuf : ι → ℕ
  self_lt : ∀ i, self i < defbuf i
  apart : ∀ i j, i ≠ j → (Suio.new (self i) (defbuf i)).object.Apart
    (Suio.new (self j) (defbuf j)).object

namespace SuioWorld

variable {ι : Type*}

def start (L : Layout ι) (mem : Memory) (live : List Region) : SuioWorld ι where
  suio i := .new (L.self i) (L.defbuf i)
  arena := ⟨mem, live, []⟩
  registered := 0

variable [DecidableEq ι]

def set (i : ι) (r : Suio × Arena) (w : SuioWorld ι) : SuioWorld ι :=
  { w with suio := update w.suio i r.1, arena := r.2 }

def perform (h : HeapAnswer) (w : SuioWorld ι) : SuioOp ι → Option (SuioWorld ι)
  | .print i p len => (print h p len (w.suio i) w.arena).map (w.set i)
  | .copy i buf => (copy h (.ofBytes buf) (w.suio i) w.arena).map (w.set i)
  | .copyv i iov skip => (copyv h iov skip (w.suio i) w.arena).map (w.set i)
  | .fill i c n => (fill h c n (w.suio i) w.arena).map (w.set i)
  | .take dst src => (take h (w.suio src) (w.suio dst) w.arena).map fun r =>
      (w.set dst (r.1, r.2.2)).set src r.2
  | .rembytes i n => (rembytes h n (w.suio i) w.arena).map (w.set i)
  | .clear i => (clear h (w.suio i) w.arena).map (w.set i)
  | .iovcb i => some
      { w.set i (iovcb h (.user w.registered) (w.suio i) w.arena) with
        registered := w.registered + 1 }
  | .others mem => some { w with arena := { w.arena with mem := mem } }

def meaning (w : SuioWorld ι) : SuioOp ι → LineOp ι UInt8
  | .print i p len => .append i (w.arena.mem.read (Region.addrs ⟨p, len⟩))
  | .copy i buf => .append i buf
  | .copyv i iov skip => .append i (iov.flatten.drop skip)
  | .fill i c n => .append i (replicate n.toNat c)
  | .take dst src => .take dst src
  | .rembytes i n => .remove i n
  | .clear i => .remove i (w.suio i).uiobytes
  | .iovcb i => .mark i
  | .others _ => .idle

/-- One step, with the answer of the heap; there is no state after one that has no result. -/
def step : Option (SuioWorld ι) → HeapAnswer × SuioOp ι →
    Option (SuioWorld ι) × LineOp ι UInt8
  | none, _ => (none, .idle)
  | some w, (h, op) => (w.perform h op, w.meaning op)

section Conditions

omit [DecidableEq ι]

/-- The heap gives no memory that is allocated, in a queue, or queued. -/
structure HeapSound (h : HeapAnswer) (w : SuioWorld ι) : Prop where
  live : ∀ live size, w.arena.live ⊆ live → ∀ b ∈ live, Region.Apart ⟨h.malloc live size, size⟩ b
  object : ∀ i r, FromHeap h w.arena.live r → r.Apart (w.suio i).object
  known : ∀ i, ∀ x ∈ (w.suio i).addrs, ∀ r, FromHeap h w.arena.live r → x ∉ r

/-- What may be printed. Bytes that are copied do not overlap those that they are copied to;
bytes at `scratch_pos` fit in the scratch buffer; bytes that stay where they are belong to no
queue and not to the heap, and do not begin where the last segment of the queue, which is gone,
ended. -/
structure Printable (h : HeapAnswer) (w : SuioWorld ι) (i : ι) (p len : ℕ) : Prop where
  overlap : len ≤ smallbufsize → p ≠ (w.suio i).scratchPos →
    ∀ x ∈ Region.mk p len, x ∉ (w.suio i).spare
  scratch : p = (w.suio i).scratchPos → len ≤ (w.suio i).fastspace
  out : ∀ x, Referred (w.suio i) p len x → ∀ j, ∀ a ∈ (w.suio j).areas, x ∉ a
  heap : ∀ x, Referred (w.suio i) p len x → ∀ r, FromHeap h w.arena.live r → x ∉ r
  stale : smallbufsize < len → (w.suio i).iovs = [] → (w.suio i).lastiovend ≠ some p

/-- The condition on an operation and on the state before it. -/
def Admits (h : HeapAnswer) (w : SuioWorld ι) : SuioOp ι → Prop
  | .print i p len => HeapSound h w ∧ Printable h w i p len
  | .copy _ _ => HeapSound h w
  | .copyv _ iov skip => HeapSound h w ∧ skip ≤ iov.flatten.length
  | .fill _ _ _ => HeapSound h w
  | .take dst src =>
      HeapSound h w ∧ dst ≠ src ∧ CanTake h w.arena.live (w.suio src) (w.suio dst)
  | .rembytes i n => n ≤ (w.suio i).uiobytes
  | .clear _ | .iovcb _ => True
  | .others mem => ∀ i, ∀ x ∈ (w.suio i).addrs, mem x = w.arena.mem x

/-- Every queue owns its areas, and no two of them touch. -/
structure Separate (w : SuioWorld ι) : Prop where
  own : ∀ i, Own w.arena.live (w.suio i)
  avoids : ∀ i j, i ≠ j → Avoids (w.suio i) (w.suio j)

variable {h : HeapAnswer} {w : SuioWorld ι}

theorem HeapSound.served (hheap : HeapSound h w) (i : ι) :
    Served h w.arena.live (w.suio i) where
  live := hheap.live
  object := hheap.object i
  known x hx := .inl (hheap.known i x hx)

theorem HeapSound.apart (hheap : HeapSound h w) (hsep : Separate w) {r : Region}
    (hr : FromHeap h w.arena.live r) (i : ι) : ∀ a ∈ (w.suio i).areas, r.Apart a := by
  intro a ha
  rcases List.mem_cons.mp ha with rfl | ha
  · exact hheap.object i r hr
  · obtain ⟨live, size, hlive, rfl⟩ := hr
    exact hheap.live live size hlive a (hlive ((hsep.own i).live a ha).1)

theorem HeapSound.outside (hheap : HeapSound h w) (hsep : Separate w) (j : ι) (r : Region)
    (hr : FromHeap h w.arena.live r) :
    (∀ b ∈ (w.suio j).areas, r.Apart b) ∧ ∀ x ∈ (w.suio j).addrs, x ∉ r :=
  ⟨hheap.apart hsep hr j, fun x hx => hheap.known j x hx r hr⟩

end Conditions

/-- What an operation does, told by what it means. -/
inductive Moves (h : HeapAnswer) (w : SuioWorld ι) : LineOp ι UInt8 → SuioWorld ι → Prop
  | append {i : ι} {S : ℕ → Prop} {u : Suio} {m : Arena} {new : List ℕ} (hheap : HeapSound h w)
      (happ : Appended (FromHeap h w.arena.live) S (w.suio i) w.arena u m new)
      (hS : ∀ x, S x → ∀ j, ∀ a ∈ (w.suio j).areas, x ∉ a) :
      Moves h w (.append i (m.mem.read new)) (w.set i (u, m))
  | take {dst src : ι} {u : Suio} {m : Arena} {new : List ℕ} (hheap : HeapSound h w)
      (hne : dst ≠ src)
      (htaken : Taken h w.arena.live (Stays (w.suio src)) (w.suio src).default (w.suio src).iovs
        (w.suio dst) w.arena u m new)
      (hown : Own m.live (u.adopt (shifted (w.suio src) (w.suio dst)))) :
      Moves h w (.take dst src)
        ((w.set dst (u.adopt (shifted (w.suio src) (w.suio dst)), m)).set src
          ((w.suio src).emptied, m))
  | remove {i : ι} {n : ℕ} {cs : List Uiocb} {u : Suio} {m : Arena}
      (hn : n ≤ (w.suio i).uiobytes)
      (hrem : Removed n ((w.suio i).due n ++ cs) (w.suio i) w.arena u m)
      (hcs : cs.filterMap Uiocb.id = [])
      (hrest : u.uiocbs = (w.suio i).uiocbs.dropWhile (·.nbytes ≤ (w.suio i).nrembytes + n) ∨
        n = (w.suio i).uiobytes ∧ u.uiocbs = []) :
      Moves h w (.remove i n) (w.set i (u, m))
  | await {i : ι} (hne : (w.suio i).uiobytes ≠ 0) :
      Moves h w (.mark i)
        { w.set i ((w.suio i).await ((w.suio i).nrembytes + (w.suio i).uiobytes) w.registered,
            w.arena) with
          registered := w.registered + 1 }
  | now {i : ι} (hnone : (w.suio i).uiobytes = 0) :
      Moves h w (.mark i)
        { w with
          arena := { w.arena with calls := w.arena.calls ++ [w.registered] }
          registered := w.registered + 1 }
  | others {mem : Memory} (hmem : ∀ i, ∀ x ∈ (w.suio i).addrs, mem x = w.arena.mem x) :
      Moves h w .idle { w with arena := { w.arena with mem := mem } }

/-! ### Performing -/

variable {h : HeapAnswer} {w : SuioWorld ι}

theorem Moves.of_copied {i : ι} {bs : Bytes} {f : Suio → Arena → Option (Suio × Arena)}
    (hheap : HeapSound h w) (hspec : ∃ u m new, f (w.suio i) w.arena = some (u, m) ∧
      Appended (FromHeap h w.arena.live) (fun _ => False) (w.suio i) w.arena u m new ∧
      m.mem.read new = bs) :
    ∃ w', (f (w.suio i) w.arena).map (w.set i) = some w' ∧ Moves h w (.append i bs) w' := by
  obtain ⟨u, m, new, heq, happ, rfl⟩ := hspec
  rw [heq]
  exact ⟨_, rfl, .append hheap happ fun x hx => hx.elim⟩

theorem perform_moves (hsep : Separate w) {op : SuioOp ι} (hop : w.Admits h op) :
    ∃ w', w.perform h op = some w' ∧ Moves h w (w.meaning op) w' := by
  have hsub := refl w.arena.live
  cases op with
  | print i p len =>
    obtain ⟨hheap, hprint⟩ := hop
    obtain ⟨u, m, new, heq, happ, hread⟩ := print_appended (hsep.own i) (hheap.served i) hsub
      hprint.scratch (fun x hx => hprint.out x hx i) hprint.heap hprint.stale
    refine ⟨w.set i (u, m), by rw [perform, heq]; rfl, ?_⟩
    rw [meaning, ← hread]
    exact .append hheap happ hprint.out
  | copy i buf =>
    obtain ⟨u, m, new, heq, happ, hread, -⟩ := copy_copied (S := fun _ => False) (hsep.own i)
      (HeapSound.served hop i) hsub (fun x hx => hx.elim) (.ofBytes buf)
    rw [Chunk.bytes_ofBytes] at hread
    exact Moves.of_copied hop ⟨u, m, new, heq, happ, hread⟩
  | copyv i iov skip =>
    obtain ⟨hheap, hskip⟩ := hop
    exact Moves.of_copied hheap (copyv_appended (hsep.own i) (hheap.served i) hsub
      (fun x hx => hx.elim) hskip)
  | fill i c n =>
    obtain ⟨u, m, new, heq, happ, hread, -⟩ := fill_copied (S := fun _ => False) (hsep.own i)
      (HeapSound.served hop i) hsub (fun x hx => hx.elim) c n
    exact Moves.of_copied hop ⟨u, m, new, heq, happ, hread⟩
  | take dst src =>
    obtain ⟨hheap, hne, htake⟩ := hop
    obtain ⟨u, m, new, heq, htaken, hown⟩ := take_spec (hsep.own dst) (hsep.own src)
      (hsep.avoids dst src hne) (hsep.avoids src dst hne.symm) (hheap.served dst)
      (hheap.known src) htake
    exact ⟨_, by rw [perform, heq]; rfl, .take hheap hne htaken hown⟩
  | rembytes i n =>
    obtain ⟨u, m, heq, hrem, hrest⟩ := rembytes_spec h (hsep.own i) hop
    rw [← append_nil ((w.suio i).due n)] at hrem
    exact ⟨_, by rw [perform, heq]; rfl, .remove hop hrem rfl (.inl hrest)⟩
  | clear i =>
    obtain ⟨u, m, cs, heq, hrem, hcs, hrest⟩ := clear_spec h (hsep.own i)
    exact ⟨_, by rw [perform, heq]; rfl, .remove le_rfl hrem hcs (.inr ⟨rfl, hrest⟩)⟩
  | iovcb i =>
    refine ⟨_, rfl, ?_⟩
    by_cases hne : (w.suio i).uiobytes = 0
    · rw [iovcb, if_neg (not_not.mpr hne), set, update_eq_self]
      exact .now hne
    · rw [iovcb, if_pos hne]
      exact .await hne
  | others mem => exact ⟨_, rfl, .others hop⟩

/-! ### Separation -/

@[simp] theorem suio_set_self (i : ι) (r : Suio × Arena) (w : SuioWorld ι) :
    (w.set i r).suio i = r.1 :=
  update_self ..

variable {i : ι} {u : Suio} {m : Arena}

theorem suio_set_of_ne {j : ι} (hne : j ≠ i) (r : Suio × Arena) (w : SuioWorld ι) :
    (w.set i r).suio j = w.suio j :=
  update_of_ne hne ..

section

variable (hsep : Separate w)

include hsep

theorem Separate.set (hown : Own m.live u)
    (hlive : ∀ j, j ≠ i → ∀ b ∈ (w.suio j).blocks, b ∈ m.live)
    (havoids : ∀ j, j ≠ i → Avoids u (w.suio j) ∧ Avoids (w.suio j) u) :
    Separate (w.set i (u, m)) where
  own j := by
    by_cases hj : j = i
    · rw [hj, suio_set_self]
      exact hown
    · rw [suio_set_of_ne hj]
      exact (hsep.own j).of_live (hlive j hj)
  avoids j k hjk := by
    by_cases hj : j = i
    · subst hj
      rw [suio_set_self, suio_set_of_ne hjk.symm]
      exact (havoids k hjk.symm).1
    · rw [suio_set_of_ne hj]
      by_cases hk : k = i
      · subst hk
        rw [suio_set_self]
        exact (havoids j hj).2
      · rw [suio_set_of_ne hk]
        exact hsep.avoids j k hjk

theorem Separate.append (hheap : HeapSound h w) {S : ℕ → Prop} {new : List ℕ}
    (happ : Appended (FromHeap h w.arena.live) S (w.suio i) w.arena u m new)
    (hS : ∀ x, S x → ∀ j, ∀ a ∈ (w.suio j).areas, x ∉ a) : Separate (w.set i (u, m)) := by
  refine hsep.set happ.own (fun j _ b hb => happ.live ((hsep.own j).live b hb).1) fun j hj => ?_
  exact happ.avoids (hsep.avoids i j hj.symm) (hsep.avoids j i hj) (hheap.outside hsep j)
    fun x hx => hS x hx j

theorem Separate.remove {n : ℕ} {cs : List Uiocb} (hrem : Removed n cs (w.suio i) w.arena u m) :
    Separate (w.set i (u, m)) := by
  have haddrs : u.addrs ⊆ (w.suio i).addrs := by
    rw [hrem.addrs]
    exact drop_subset _ _
  refine hsep.set hrem.own (fun j hj b hb => ?_) fun j hj => ⟨?_, ?_⟩
  · -- a block of another queue is not freed
    obtain ⟨hlive, hpos⟩ := (hsep.own j).live b hb
    refine hrem.released.live b hlive fun hfreed => ?_
    have hapart := (hsep.avoids j i hj).areas b ((w.suio j).blocks_subset_areas hb) b
      (hrem.freed b hfreed).1
    exact hapart.ne hpos rfl
  · exact (hsep.avoids i j hj.symm).mono hrem.areas (refl _) (refl _)
  · exact (hsep.avoids j i hj).mono (refl _) hrem.areas haddrs

theorem Separate.take (hheap : HeapSound h w) {dst src : ι} {new : List ℕ} (hne : dst ≠ src)
    (htaken : Taken h w.arena.live (Stays (w.suio src)) (w.suio src).default (w.suio src).iovs
      (w.suio dst) w.arena u m new)
    (hown : Own m.live (u.adopt (shifted (w.suio src) (w.suio dst)))) :
    Separate ((w.set dst (u.adopt (shifted (w.suio src) (w.suio dst)), m)).set src
      ((w.suio src).emptied, m)) := by
  have happ := htaken.appended
  have hbare := (hsep.own src).emptied
  have hused := (used_sublist_areas (w.suio src)).subset
  have hempty : (w.suio src).emptied.areas ⊆ (w.suio src).areas := by
    rw [hbare.areas]
    exact List.cons_subset.mpr ⟨(w.suio src).object_mem_areas, nil_subset _⟩
  have hnil : (w.suio src).emptied.addrs ⊆ (w.suio src).addrs := by
    exact nil_subset _
  have hlive : ∀ j, ∀ b ∈ (w.suio j).blocks, b ∈ m.live := fun j b hb =>
    happ.live ((hsep.own j).live b hb).1
  -- the source gets out of the way of the destination
  have hsrc : Separate (w.set src ((w.suio src).emptied, m)) := by
    refine hsep.set hbare.own (fun j _ => hlive j) fun j hj => ⟨?_, ?_⟩
    · exact (hsep.avoids src j hj.symm).mono hempty (refl _) (refl _)
    · exact (hsep.avoids j src hj).mono (refl _) hempty hnil
  have hcomm : (w.set dst (u.adopt (shifted (w.suio src) (w.suio dst)), m)).set src
      ((w.suio src).emptied, m) = (w.set src ((w.suio src).emptied, m)).set dst
      (u.adopt (shifted (w.suio src) (w.suio dst)), m) := by
    simp only [SuioWorld.set, update_comm hne]
  rw [hcomm]
  refine hsrc.set hown (fun j hj b hb => ((hsrc.own j).live b hb).1) fun j hj => ?_
  by_cases hjs : j = src
  · subst hjs
    rw [suio_set_self]
    have havoids := happ.avoids
      ((hsep.avoids dst j hne).mono (refl _) hempty hnil)
      ((hsep.avoids j dst hne.symm).mono hempty (refl _) (refl _))
      (fun r hr => ⟨fun b hb => hheap.apart hsep hr j b (hempty hb),
        fun x hx => hheap.known j x (hnil hx) r hr⟩)
      (by
        intro x hx b hb
        rw [hbare.areas, mem_singleton] at hb
        rw [hb]
        exact hx.2)
    -- its blocks are apart from the object
    have hareas : ∀ a ∈ (w.suio j).used, ∀ b ∈ (w.suio j).emptied.areas, a.Apart b := by
      intro a ha b hb
      rw [hbare.areas, mem_singleton] at hb
      rw [hb]
      exact ((List.pairwise_cons.mp (hsep.own j).apart).1 a
        ((w.suio j).used_subset_blocks ha)).symm
    refine ⟨havoids.1.adopt_left _ _ hareas ?_, havoids.2.adopt_right _ _ hareas⟩
    intro a _ x hx
    cases hx
  · rw [suio_set_of_ne hjs]
    have havoids := happ.avoids (hsep.avoids dst j hj.symm) (hsep.avoids j dst hj)
      (hheap.outside hsep j) (fun x hx b hb => (hsep.avoids j src hjs).addrs b hb x hx.1)
    have hsrcj := hsep.avoids src j (Ne.symm hjs)
    have hareas : ∀ a ∈ (w.suio src).used, ∀ b ∈ (w.suio j).areas, a.Apart b :=
      fun a ha => hsrcj.areas a (hused ha)
    exact ⟨havoids.1.adopt_left _ _ hareas fun a ha => hsrcj.addrs a (hused ha),
      havoids.2.adopt_right _ _ hareas⟩

end

variable {op : LineOp ι UInt8} {w' : SuioWorld ι}

theorem Separate.moves (hsep : Separate w) (hmoves : Moves h w op w') : Separate w' := by
  cases hmoves with
  | append hheap happ hS => exact hsep.append hheap happ hS
  | take hheap hne htaken hown => exact hsep.take hheap hne htaken hown
  | remove hn hrem hcs hrest => exact hsep.remove hrem
  | @await i hne =>
    have hareas : ((w.suio i).await ((w.suio i).nrembytes + (w.suio i).uiobytes)
        w.registered).areas ⊆ (w.suio i).areas := by
      rw [areas_await]
      exact refl _
    have hset : Separate (w.set i ((w.suio i).await
        ((w.suio i).nrembytes + (w.suio i).uiobytes) w.registered, w.arena)) := by
      refine hsep.set ((hsep.own i).await _ _) (fun j _ b hb => ((hsep.own j).live b hb).1)
        fun j hj => ⟨?_, ?_⟩
      · exact (hsep.avoids i j hj.symm).mono hareas (refl _) (refl _)
      · exact (hsep.avoids j i hj).mono (refl _) hareas (refl _)
    exact ⟨hset.own, hset.avoids⟩
  | now hnone | others hmem => exact ⟨hsep.own, hsep.avoids⟩

/-! ### Contents -/

variable {a : Lines ι UInt8}

omit [DecidableEq ι] in
/-- What the queues hold is what their lines say. -/
structure Reads (w : SuioWorld ι) (a : Lines ι UInt8) : Prop where
  sound : ∀ i, (a.line i).Sound
  read : ∀ i, w.arena.mem.read (w.suio i).addrs = (a.line i).contents
  removed : ∀ i, (w.suio i).nrembytes = (a.line i).removed

section

variable (hreads : Reads w a)

include hreads

omit [DecidableEq ι] in
theorem Reads.uiobytes (hsep : Separate w) (i : ι) :
    (w.suio i).uiobytes = (a.line i).contents.length := by
  rw [(hsep.own i).bytes, ← hreads.read, Memory.read, length_map]

/-- One queue and its line change, and the bytes of the others do not. -/
theorem Reads.set {i : ι} {u : Suio} {m : Arena} {l : Line UInt8} (hl : l.Sound)
    (hread : m.mem.read u.addrs = l.contents) (hremoved : u.nrembytes = l.removed)
    (hmem : ∀ j, j ≠ i → ∀ x ∈ (w.suio j).addrs, m.mem x = w.arena.mem x) :
    Reads (w.set i (u, m)) (a.set i l) where
  sound := sound_set hreads.sound hl
  read j := by
    by_cases hj : j = i
    · rw [hj, suio_set_self, line_set_self]
      exact hread
    · rw [suio_set_of_ne hj, line_set_of_ne hj, ← hreads.read]
      exact Memory.read_congr (hmem j hj)
  removed j := by
    by_cases hj : j = i
    · rw [hj, suio_set_self, line_set_self]
      exact hremoved
    · rw [suio_set_of_ne hj, line_set_of_ne hj]
      exact hreads.removed j

theorem Moves.legal (hsep : Separate w) (hmoves : Moves h w op w') : a.Legal op := by
  cases hmoves with
  | append => trivial
  | take hheap hne htaken hown => exact hne
  | @remove i n cs u m hn hrem hcs hrest => exact hn.trans_eq (hreads.uiobytes hsep i)
  | await | now | others => trivial

theorem Reads.moves (hsep : Separate w) (hmoves : Moves h w op w') : Reads w' (a.step op) := by
  have hlegal := hmoves.legal hreads hsep
  -- what an append leaves alone
  have hothers {i : ι} {S : ℕ → Prop} {u : Suio} {m : Arena} {new : List ℕ}
      (hheap : HeapSound h w)
      (happ : Appended (FromHeap h w.arena.live) S (w.suio i) w.arena u m new) j
      (hj : j ≠ i) : ∀ x ∈ (w.suio j).addrs, m.mem x = w.arena.mem x := fun x hx =>
    happ.mem x (fun b hb => (hsep.avoids i j hj.symm).addrs b hb x hx)
      (fun r hr => hheap.known j x hx r hr)
  cases hmoves with
  | @append i S u m new hheap happ hS =>
    refine hreads.set ((hreads.sound i).append _) ?_ (happ.nrembytes.trans (hreads.removed i))
      (hothers hheap happ)
    rw [Line.contents_append (hreads.sound i).le, happ.addrs, Memory.read_append, ← hreads.read,
      Memory.read_congr happ.old]
  | @take dst src u m new hheap hne htaken hown =>
    have happ := htaken.appended
    have hdst := hreads.set (u := u.adopt (shifted (w.suio src) (w.suio dst)))
     
      ((hreads.sound dst).join (hreads.sound src)) (by
        have haddrs : (u.adopt (shifted (w.suio src) (w.suio dst))).addrs =
            (w.suio dst).addrs ++ new := happ.addrs
        rw [Line.contents_join (hreads.sound dst).le, haddrs, Memory.read_append,
          Memory.read_congr happ.old, htaken.read, ← hreads.read, ← hreads.read]
        rfl)
      (happ.nrembytes.trans (hreads.removed dst)) (hothers hheap happ)
    refine hdst.set (.drain _) ?_ ?_ fun j _ x _ => rfl
    · rw [Line.contents_drain]
      rfl
    · have hle := (hreads.sound src).le
      show (w.suio src).nrembytes + (w.suio src).uiobytes = (a.line src).appended.length
      rw [hreads.removed, hreads.uiobytes hsep, Line.length_contents]
      omega
  | @remove i n cs u m hn hrem hcs hrest =>
    have hset := hreads.set (m := m) (l := (a.line i).remove n)
      ((hreads.sound i).remove hlegal) (by
        rw [Line.contents_remove, ← hreads.read, hrem.addrs, Memory.read, Memory.read, ← map_drop]
        apply map_congr_left
        intro x hx
        refine hrem.released.mem x fun b hb => (hrem.freed b hb).2 x ?_
        rw [hrem.addrs]
        exact hx)
      (by rw [hrem.nrembytes, hreads.removed]; rfl)
      (fun j hj x hx => hrem.released.mem x fun b hb =>
        (hsep.avoids i j hj.symm).addrs b (hrem.freed b hb).1 x hx)
    exact ⟨hset.sound, hset.read, hset.removed⟩
  | @await i hne =>
    have hcontents : (a.line i).contents ≠ [] := by
      rw [← length_pos_iff, ← hreads.uiobytes hsep]
      exact Nat.pos_of_ne_zero hne
    rw [step_mark hcontents]
    have hset := hreads.set (i := i)
      (u := (w.suio i).await ((w.suio i).nrembytes + (w.suio i).uiobytes) w.registered)
      ((hreads.sound i).mark hcontents a.marks) (hreads.read i) (hreads.removed i)
      fun _ _ _ _ => rfl
    exact ⟨hset.sound, hset.read, hset.removed⟩
  | @now i hnone =>
    have hcontents : (a.line i).contents = [] := by
      rw [← length_eq_zero_iff, ← hreads.uiobytes hsep]
      exact hnone
    rw [step_mark_nil hcontents]
    exact ⟨hreads.sound, hreads.read, hreads.removed⟩
  | others hmem =>
    refine ⟨hreads.sound, fun i => ?_, hreads.removed⟩
    rw [Lines.step, ← hreads.read]
    exact Memory.read_congr (hmem i)

end

/-! ### Runs -/

variable (r : Run (Option (SuioWorld ι)) (HeapAnswer × SuioOp ι) (LineOp ι UInt8))

def StepAdmitted (e : HeapAnswer × SuioOp ι) : Prop :=
  ∀ w, r.state = some w → w.Admits e.1 e.2

def lines :
    Lines ι UInt8 :=
  Lines.after (r.past.map Prod.snd)

/-- A run has a state, and its queues read as the lines. -/
def RunReads : Prop :=
  ∃ w, r.state = some w ∧ Separate w ∧ Reads w (lines r)

variable (L : Layout ι) (mem : Memory) (live : List Region)

omit [DecidableEq ι] in
theorem separate_start : Separate (start L mem live) := by
  have hbare : ∀ i, Bare ((start L mem live).suio i) := fun i =>
    ⟨L.self_lt i, rfl, rfl, rfl, (some_ne_none _).symm, rfl, rfl, rfl⟩
  refine ⟨fun i => (hbare i).own, fun i j hij => ⟨?_, ?_⟩⟩
  · rw [(hbare i).areas, (hbare j).areas]
    intro b hb c hc
    rw [List.mem_singleton.mp hb, List.mem_singleton.mp hc]
    exact L.apart i j hij
  · intro b _ x hx
    cases hx

theorem runReads_start : RunReads (Run.start (some (start L mem live))) :=
  ⟨_, rfl, separate_start L mem live, fun _ => .new, fun _ => rfl, fun _ => rfl⟩

variable {r : Run (Option (SuioWorld ι)) (HeapAnswer × SuioOp ι) (LineOp ι UInt8)}
  {e : HeapAnswer × SuioOp ι}

theorem next_moves (hstate : r.state = some w) (hsep : Separate w)
    (he : StepAdmitted r e) :
    ∃ w', (r.next step e).state = some w' ∧
      lines (r.next step e) = (lines r).step (w.meaning e.2) ∧
      Moves e.1 w (w.meaning e.2) w' := by
  obtain ⟨w', heq, hmoves⟩ := perform_moves hsep (he w hstate)
  have hstep : step r.state e = (some w', w.meaning e.2) := by
    rw [hstate]
    exact congrArg (·, w.meaning e.2) heq
  exact ⟨w', congrArg Prod.fst hstep,
    congrArg (fun o => (lines r).step o) (congrArg Prod.snd hstep), hmoves⟩

theorem RunReads.next (hr : RunReads r) (he : StepAdmitted r e) : RunReads (r.next step e) := by
  obtain ⟨w, hstate, hsep, hreads⟩ := hr
  obtain ⟨w', hstep, hlines, hmoves⟩ := next_moves hstate hsep he
  refine ⟨w', hstep, hsep.moves hmoves, ?_⟩
  rw [hlines]
  exact hreads.moves hsep hmoves

end SuioWorld

namespace Suio

/-- `copyout` copies the first bytes. -/
theorem copyout_eq (mem : Memory) (len : ℕ) (vs : List Region) :
    copyout mem len vs = (mem.read (vs.flatMap Region.addrs)).take len := by
  induction vs generalizing len with
  | nil => exact (List.take_nil).symm
  | cons v vs ih =>
    have hlen : (mem.read v.addrs).length = v.size := by simp [Memory.read]
    rw [flatMap_cons, Memory.read_append]
    unfold copyout
    split
    · rename_i hge
      rw [ih, List.take_append, hlen, take_of_length_le (hlen.trans_le hge)]
    · rename_i hlt
      have hlt : len < v.size := Nat.lt_of_not_le hlt
      have haddrs : v.addrs = Region.addrs ⟨v.base, len⟩ ++
          Region.addrs ⟨v.base + len, v.size - len⟩ := by
        rw [← Region.addrs_append, Nat.add_sub_cancel' hlt.le]
      rw [take_append_of_le_length (by omega), haddrs, Memory.read_append,
        take_left' (by simp [Memory.read])]

end Suio

open SuioWorld

/-- What is queued is what was appended without what was removed. -/
structure IsFifo {ι : Type*} (w : SuioWorld ι) (a : Lines ι UInt8) : Prop where
  contents : ∀ i, w.arena.mem.read (w.suio i).addrs = (a.line i).appended.drop (a.line i).removed
  resid : ∀ i, (w.suio i).uiobytes = ((a.line i).appended.drop (a.line i).removed).length
  byteno : ∀ i, (w.suio i).nrembytes = (a.line i).removed
  copyout : ∀ i len, Suio.copyout w.arena.mem len (w.suio i).iovs =
    ((a.line i).appended.drop (a.line i).removed).take len

theorem SuioWorld.Reads.isFifo {ι : Type*} {w : SuioWorld ι} {a : Lines ι UInt8}
    (hreads : Reads w a) (hsep : Separate w) : IsFifo w a where
  contents := hreads.read
  resid := hreads.uiobytes hsep
  byteno := hreads.removed
  copyout i len := by
    rw [copyout_eq]
    exact congrArg (List.take len) (hreads.read i)

/-- In every run whose steps meet the condition, the queues are first in, first out, and a queue
that is taken over is left empty, with its default buffer. -/
theorem suio_fifo {ι : Type*} [DecidableEq ι] (L : Layout ι) (mem : Memory) (live : List Region)
    {es : List (HeapAnswer × SuioOp ι)}
    (hrun : Run.Guarded SuioWorld.step StepAdmitted (Run.start (some (start L mem live))) es) :
    ∃ w, ((Run.start (some (start L mem live))).take SuioWorld.step es).state = some w ∧
      IsFifo w (lines ((Run.start (some (start L mem live))).take SuioWorld.step es)) ∧
      ∀ h dst src, w.Admits h (.take dst src) →
        ∃ w', w.perform h (.take dst src) = some w' ∧ (w'.suio src).Bare ∧
          IsFifo w' ((lines ((Run.start (some (start L mem live))).take SuioWorld.step es)).step
            (.take dst src)) := by
  obtain ⟨w, hstate, hsep, hreads⟩ := Run.invariant_take (runReads_start L mem live)
    (fun _ _ hr he => hr.next he) hrun
  refine ⟨w, hstate, hreads.isFifo hsep, fun h dst src hadmits => ?_⟩
  obtain ⟨w', heq, hmoves⟩ := perform_moves hsep hadmits
  refine ⟨w', heq, ?_, (hreads.moves hsep hmoves).isFifo (hsep.moves hmoves)⟩
  cases hmoves with
  | take hheap hne htaken hown =>
    rw [suio_set_self]
    exact (hsep.own src).emptied

def sampleLayout : Layout Bool where
  self i := if i then 0x2000 else 0x1000
  defbuf i := if i then 0x2040 else 0x1040
  self_lt := by decide
  apart := by decide

/-- A heap that gives memory behind all that it has given. -/
def sampleHeap : HeapAnswer where
  malloc live _ := 0x100000 + (live.map fun b => b.base + b.size).sum
  junk _ := 0

theorem heapSound_sample {ι : Type*} {w : SuioWorld ι}
    (hobject : ∀ i, (w.suio i).object.base + (w.suio i).object.size ≤ 0x100000)
    (haddrs : ∀ i, ∀ x ∈ (w.suio i).addrs, x < 0x100000) : HeapSound sampleHeap w where
  live live size _ b hb := by
    refine .inr ?_
    have hle : b.base + b.size ≤ (live.map fun b => b.base + b.size).sum :=
      single_le_sum (fun _ _ => Nat.zero_le _) _ (mem_map_of_mem hb)
    exact hle.trans (Nat.le_add_left _ _)
  object i r hr := by
    obtain ⟨live, size, -, rfl⟩ := hr
    exact .inr ((hobject i).trans (Nat.le_add_right _ _))
  known i x hx r hr hmem := by
    obtain ⟨live, size, -, rfl⟩ := hr
    have hlt := haddrs i x hx
    have hge : 0x100000 + (live.map fun b => b.base + b.size).sum ≤ x := hmem.1
    omega

/-- Three bytes are queued, taken over and removed but for the last one. -/
theorem suio_fifo_three :
    ∃ w, ((Run.start (some (start sampleLayout (fun _ => 0) []))).take SuioWorld.step
        [(sampleHeap, .copy true [1, 2, 3]), (sampleHeap, .take false true),
          (sampleHeap, .rembytes false 2)]).state = some w ∧
      w.arena.mem.read (w.suio false).addrs = [3] := by
  have hrun : Run.Guarded SuioWorld.step StepAdmitted
      (Run.start (some (start sampleLayout (fun _ => 0) [])))
      [(sampleHeap, .copy true [1, 2, 3]), (sampleHeap, .take false true),
        (sampleHeap, .rembytes false 2)] := by
    refine ⟨fun w hw => ?_, fun w hw => ?_, fun w hw => ?_, trivial⟩
    · obtain rfl := some.inj hw
      exact heapSound_sample (by decide) (by decide)
    · obtain rfl := some.inj hw
      refine ⟨heapSound_sample (by decide) (by decide), by decide, by decide, ?_⟩
      intro v hv hdflt
      exact absurd ((by decide : ∀ v ∈ [Region.mk 0x2040 3], v.base ∈ Region.mk 0x2040 0x80) v hv)
        hdflt
    · obtain rfl := some.inj hw
      exact (by decide : 2 ≤ 3)
  obtain ⟨w, hstate, hfifo, -⟩ := suio_fifo sampleLayout (fun _ => 0) [] hrun
  exact ⟨w, hstate, hfifo.contents false⟩

/-- A queue whose segment was taken over still knows where it ended: what is printed next, from
there on, would extend a segment that it does not have. -/
theorem taken_queue_extends_nothing :
    (((Run.start (some (start sampleLayout (fun _ => 0) []))).take SuioWorld.step
      [(sampleHeap, .print true 0x8000 200), (sampleHeap, .take false true)]).state.isSome ∧
    ((Run.start (some (start sampleLayout (fun _ => 0) []))).take SuioWorld.step
      [(sampleHeap, .print true 0x8000 200), (sampleHeap, .take false true),
        (sampleHeap, .print true 0x80c8 200)]).state.isNone) := by
  decide +kernel

end SelfCertifyingFS.Async
