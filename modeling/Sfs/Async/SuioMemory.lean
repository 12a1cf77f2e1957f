import Sfs.Async.Suio

/-!
# The memory of a queue

A queue owns areas of memory: the object itself with its default buffer, its scratch
buffer, and the scratch buffers that it has used up and will free. It writes only to the
part of its scratch buffer that is not queued, and frees a block only when none of its
bytes is queued any more.
-/

namespace SelfCertifyingFS.Async

open Foundations List Region

def Uiocb.block (c : Uiocb) : Option Region :=
  match c.cb with
  | .user _ => none
  | .dealloc b => some b

namespace Suio

section Areas

variable (u : Suio)

/-- The addresses of the queued bytes, in order. -/
def addrs : List ℕ := u.iovs.flatMap Region.addrs

def object : Region := ⟨u.self, u.defbuf + smallbufsize - u.self⟩

def scratch : Region := ⟨u.scratchBuf, u.scratchLim - u.scratchBuf⟩

/-- The part of the scratch buffer that is not in use. -/
def spare : Region := ⟨u.scratchPos, u.scratchLim - u.scratchPos⟩

def used : List Region := u.uiocbs.filterMap Uiocb.block

/-- The blocks of the heap that the queue owns. -/
def blocks : List Region :=
  if u.scratchBuf = u.defbuf then u.used else u.scratch :: u.used

def areas : List Region := u.object :: u.blocks

/-- No area of one queue touches an area of the other one or holds a byte that it queues. -/
structure Avoids (u v : Suio) : Prop where
  areas : ∀ a ∈ u.areas, ∀ b ∈ v.areas, a.Apart b
  addrs : ∀ a ∈ u.areas, ∀ x ∈ v.addrs, x ∉ a

/-- The queue counts its bytes and knows where the last of them ends, the bytes that it may write
are not queued, and it owns its areas. -/
structure Own (live : List Region) (u : Suio) : Prop where
  self_lt : u.self < u.defbuf
  size_pos : ∀ v ∈ u.iovs, 0 < v.size
  bytes : u.uiobytes = u.addrs.length
  last : ∀ v ∈ u.iovs.getLast?, u.lastiovend = some (v.base + v.size)
  empty : u.iovs = [] → u.scratchPos = u.scratchBuf ∧ u.lastiovend ≠ some u.scratchPos
  stale : u.iovs = [] → u.lastiovend ≠ some u.defbuf
  buf_le : u.scratchBuf ≤ u.scratchPos
  pos_le : u.scratchPos ≤ u.scratchLim
  room : u.scratchBuf + smallbufsize ≤ u.scratchLim
  dflt : u.scratchBuf = u.defbuf → u.scratchLim = u.defbuf + smallbufsize
  spare : ∀ x ∈ u.addrs, x ∉ u.spare
  head : ∀ x ∈ u.addrs, ¬(u.self ≤ x ∧ x < u.defbuf)
  apart : u.areas.Pairwise Region.Apart
  live : ∀ b ∈ u.blocks, b ∈ live ∧ 0 < b.size
  passed : ∀ c ∈ u.uiocbs, ∀ b ∈ c.block, ∀ x ∈ u.addrs.drop (c.nbytes - u.nrembytes), x ∉ b

theorem object_mem_areas : u.object ∈ u.areas := mem_cons_self

theorem blocks_subset_areas : u.blocks ⊆ u.areas := subset_cons_self _ _

theorem used_subset_blocks : u.used ⊆ u.blocks := by
  unfold blocks
  split
  · exact Subset.refl _
  · exact subset_cons_self _ _

variable {live : List Region} {u : Suio}

theorem Own.fastspace_eq (h : Own live u) : u.fastspace = u.scratchLim - u.scratchPos :=
  if_pos h.pos_le

theorem Own.uiobytes_ne_zero (h : Own live u) (hne : u.iovs ≠ []) : u.uiobytes ≠ 0 := by
  obtain ⟨v, vs, hvs⟩ := exists_cons_of_ne_nil hne
  have hv := h.size_pos v (hvs ▸ mem_cons_self)
  rw [h.bytes, addrs, hvs, flatMap_cons, length_append, length_addrs]
  omega

theorem Own.of_live {live' : List Region} (h : Own live u) (hlive : ∀ b ∈ u.blocks, b ∈ live') :
    Own live' u :=
  { h with live := fun b hb => ⟨hlive b hb, (h.live b hb).2⟩ }

theorem Avoids.mono {u' v v' : Suio} (h : Avoids u v) (hu : u'.areas ⊆ u.areas)
    (hv : v'.areas ⊆ v.areas) (hx : v'.addrs ⊆ v.addrs) : Avoids u' v' where
  areas a ha b hb := h.areas a (hu ha) b (hv hb)
  addrs a ha x hmem := h.addrs a (hu ha) x (hx hmem)

theorem Own.spare_area (h : Own live u) :
    ∃ a ∈ u.areas, (∀ x ∈ u.spare, x ∈ a ∧ ¬(u.self ≤ x ∧ x < u.defbuf)) ∧
      ∀ b ∈ u.used, a.Apart b := by
  have hbuf := h.buf_le
  have hself := h.self_lt
  have hapart := h.apart
  rw [areas, blocks] at hapart
  by_cases hdef : u.scratchBuf = u.defbuf
  · have hlim := h.dflt hdef
    rw [if_pos hdef, pairwise_cons] at hapart
    refine ⟨u.object, u.object_mem_areas, ?_, hapart.1⟩
    intro x hx
    simp only [Suio.spare, object, Region.mem_iff] at hx ⊢
    omega
  · rw [if_neg hdef, pairwise_cons, pairwise_cons] at hapart
    obtain ⟨hobject, hscratch, -⟩ := hapart
    refine ⟨u.scratch, by simp [areas, blocks, hdef], ?_, hscratch⟩
    intro x hx
    have hmem : x ∈ u.scratch := by
      simp only [Suio.spare, scratch, Region.mem_iff] at hx ⊢
      omega
    have hout := (hobject _ mem_cons_self).symm.notMem hmem
    refine ⟨hmem, ?_⟩
    simp only [object, Region.mem_iff] at hout
    omega

theorem Own.addrs_eq_nil_iff (h : Own live u) : u.addrs = [] ↔ u.iovs = [] := by
  constructor
  · intro hnil
    by_contra hne
    apply h.uiobytes_ne_zero hne
    rw [h.bytes, hnil, length_nil]
  · intro hnil
    rw [addrs, hnil, flatMap_nil]

theorem Own.lastiovend_ne_defbuf (h : Own live u) : u.lastiovend ≠ some u.defbuf := by
  rcases eq_nil_or_concat' u.iovs with hnil | ⟨vs, v, hvs⟩
  · exact h.stale hnil
  · intro hend
    have hlast := h.last v (by simp [hvs])
    have hbase : v.base + v.size = u.defbuf := Option.some.inj (hlast.symm.trans hend)
    have hv : v ∈ u.iovs := by simp [hvs]
    have hpos := h.size_pos v hv
    have hself := h.self_lt
    refine h.head (u.defbuf - 1) (mem_flatMap.mpr ⟨v, hv, ?_⟩) (by omega)
    rw [mem_addrs, Region.mem_iff]
    omega

/-- Nothing is queued, and the scratch buffer is the default buffer. -/
structure Bare (u : Suio) : Prop where
  self_lt : u.self < u.defbuf
  iovs : u.iovs = []
  uiocbs : u.uiocbs = []
  uiobytes : u.uiobytes = 0
  lastiovend : u.lastiovend ≠ some u.defbuf
  scratchBuf : u.scratchBuf = u.defbuf
  scratchPos : u.scratchPos = u.defbuf
  scratchLim : u.scratchLim = u.defbuf + smallbufsize

namespace Bare

theorem addrs (h : Bare u) : u.addrs = [] := by rw [Suio.addrs, h.iovs, flatMap_nil]

theorem blocks (h : Bare u) : u.blocks = [] := by
  rw [Suio.blocks, if_pos h.scratchBuf, used, h.uiocbs, filterMap_nil]

theorem areas (h : Bare u) : u.areas = [u.object] := congrArg (u.object :: ·) h.blocks

theorem own (h : Bare u) : Own live u where
  self_lt := h.self_lt
  size_pos := by simp [h.iovs]
  bytes := by rw [h.uiobytes, h.addrs, length_nil]
  last := by simp [h.iovs]
  empty _ := by
    rw [h.scratchPos, h.scratchBuf]
    exact ⟨rfl, h.lastiovend⟩
  stale _ := h.lastiovend
  buf_le := by rw [h.scratchBuf, h.scratchPos]
  pos_le := by
    rw [h.scratchPos, h.scratchLim]
    exact Nat.le_add_right _ _
  room := by rw [h.scratchBuf, h.scratchLim]
  dflt _ := h.scratchLim
  spare := by simp [h.addrs]
  head := by simp [h.addrs]
  apart := by
    rw [h.areas]
    exact pairwise_singleton _ _
  live := by simp [h.blocks]
  passed := by simp [h.uiocbs]

end Bare

end Areas

/-- A segment is queued behind all others; what else may change is where the last one ends. -/
structure Pushed (base len : ℕ) (u u' : Suio) : Prop where
  self : u'.self = u.self
  defbuf : u'.defbuf = u.defbuf
  uiocbs : u'.uiocbs = u.uiocbs
  nrembytes : u'.nrembytes = u.nrembytes
  scratchBuf : u'.scratchBuf = u.scratchBuf
  scratchLim : u'.scratchLim = u.scratchLim
  uiobytes : u'.uiobytes = u.uiobytes + len
  scratchPos : u'.scratchPos =
    if base = u.scratchPos then u.scratchPos + len else u.scratchPos
  addrs : u'.addrs = u.addrs ++ Region.addrs ⟨base, len⟩
  size_pos : ∀ v ∈ u'.iovs, 0 < v.size
  last : ∀ v ∈ u'.iovs.getLast?, u'.lastiovend = some (v.base + v.size)
  empty : u'.iovs = [] → len = 0 ∧ u.iovs = [] ∧ u'.lastiovend = u.lastiovend

namespace Pushed

variable {base len : ℕ} {u u' : Suio}

theorem object_eq (h : Pushed base len u u') : u'.object = u.object := by
  rw [object, object, h.self, h.defbuf]

theorem blocks_eq (h : Pushed base len u u') : u'.blocks = u.blocks := by
  rw [blocks, blocks, used, used, scratch, scratch, h.scratchBuf, h.defbuf, h.scratchLim, h.uiocbs]

theorem areas_eq (h : Pushed base len u u') : u'.areas = u.areas := by
  rw [areas, areas, h.object_eq, h.blocks_eq]

end Pushed

/-- The segment is outside of the vector only if the queue is empty and its last segment, which
is gone, ended there. -/
theorem pushiov_spec {u : Suio} (base len : ℕ) (hpos : ∀ v ∈ u.iovs, 0 < v.size)
    (hlast : ∀ v ∈ u.iovs.getLast?, u.lastiovend = some (v.base + v.size))
    (hstale : u.iovs = [] → u.lastiovend ≠ some base) :
    ∃ u', u.pushiov base len = some u' ∧ Pushed base len u u' := by
  unfold pushiov
  by_cases hend : u.lastiovend = some base
  · rw [if_pos hend]
    rcases eq_nil_or_concat' u.iovs with hnil | ⟨vs, v, hvs⟩
    · exact absurd hend (hstale hnil)
    · have hv : v.base + v.size = base := by
        have hlast := hlast v (by simp [hvs])
        exact Option.some.inj (hlast.symm.trans hend)
      have hget : u.iovs.getLast? = some v := by simp [hvs]
      have hpos' : ∀ w ∈ vs, 0 < w.size := fun w hw => hpos w (by simp [hvs, hw])
      have hvpos := hpos v (by simp [hvs])
      rw [hget]
      refine ⟨_, rfl, rfl, rfl, rfl, rfl, rfl, rfl, rfl, rfl, ?_, ?_, ?_, by simp⟩
      · simp only [addrs, hvs, dropLast_concat, flatMap_append, flatMap_singleton, append_assoc]
        rw [addrs_append v.base v.size len, hv]
      · intro w hw
        rcases mem_append.mp hw with hw | hw
        · exact hpos' w (by simpa [hvs] using hw)
        · rw [mem_singleton.mp hw]
          exact Nat.add_pos_left hvpos len
      · intro w hw
        obtain rfl : _ = w := by simpa using hw
        rw [← Nat.add_assoc, hv]
  · rw [if_neg hend]
    by_cases hlen : len = 0
    · subst hlen
      refine ⟨_, rfl, rfl, rfl, rfl, rfl, rfl, rfl, rfl, rfl, by simp [Region.addrs], hpos,
        hlast, ?_⟩
      intro hnil
      exact ⟨rfl, hnil, rfl⟩
    · rw [if_pos hlen]
      refine ⟨_, rfl, rfl, rfl, rfl, rfl, rfl, rfl, rfl, rfl, by simp [addrs], ?_, by simp, by simp⟩
      intro w hw
      rcases mem_append.mp hw with hw | hw
      · exact hpos w hw
      · rw [mem_singleton.mp hw]
        exact Nat.pos_of_ne_zero hlen

section Appending

/-- A block that the heap may give, now or when more blocks are allocated. -/
def FromHeap (h : HeapAnswer) (live0 : List Region) (r : Region) : Prop :=
  ∃ live size, live0 ⊆ live ∧ r = ⟨h.malloc live size, size⟩

/-- The callbacks that a queue sets up itself while bytes are appended: each of them frees a block
and waits for bytes that were in front of it when it was set up. -/
structure Retired (u u' : Suio) (rs : List Uiocb) : Prop where
  uiocbs : u'.uiocbs = u.uiocbs ++ rs
  dealloc : ∀ c ∈ rs, ∃ b, c.cb = .dealloc b
  sorted : rs.Pairwise fun c d => c.nbytes ≤ d.nbytes
  lower : ∀ c ∈ rs, u.nrembytes + u.uiobytes ≤ c.nbytes
  waits : ∀ c ∈ rs, u.nrembytes < c.nbytes
  upper : ∀ c ∈ rs, c.nbytes ≤ u'.nrembytes + u'.uiobytes

namespace Retired

variable {u u1 u2 : Suio} {rs1 rs2 : List Uiocb}

theorem nil (h : u1.uiocbs = u.uiocbs) : Retired u u1 [] where
  uiocbs := by rw [h, append_nil]
  dealloc _ hc := absurd hc not_mem_nil
  sorted := .nil
  lower _ hc := absurd hc not_mem_nil
  waits _ hc := absurd hc not_mem_nil
  upper _ hc := absurd hc not_mem_nil

theorem append (h1 : Retired u u1 rs1) (h2 : Retired u1 u2 rs2)
    (hnrem1 : u1.nrembytes = u.nrembytes) (hnrem2 : u2.nrembytes = u1.nrembytes)
    (hbytes1 : u.uiobytes ≤ u1.uiobytes) (hbytes2 : u1.uiobytes ≤ u2.uiobytes) :
    Retired u u2 (rs1 ++ rs2) where
  uiocbs := by rw [h2.uiocbs, h1.uiocbs, append_assoc]
  dealloc c hc := (mem_append.mp hc).elim (h1.dealloc c) (h2.dealloc c)
  sorted := by
    refine pairwise_append.mpr ⟨h1.sorted, h2.sorted, fun c hc d hd => ?_⟩
    exact (h1.upper c hc).trans (h2.lower d hd)
  lower c hc := by
    rcases mem_append.mp hc with hc | hc
    · exact h1.lower c hc
    · have hlower := h2.lower c hc
      omega
  waits c hc := by
    rcases mem_append.mp hc with hc | hc
    · exact h1.waits c hc
    · exact hnrem1 ▸ h2.waits c hc
  upper c hc := by
    rcases mem_append.mp hc with hc | hc
    · have hupper := h1.upper c hc
      omega
    · exact h2.upper c hc

end Retired

/-- Bytes are queued behind all others. They lie in areas of the queue or are among `S`; a new
area comes from the heap, and nothing is written outside of the areas, or freed. -/
structure Appended (F : Region → Prop) (S : ℕ → Prop) (u : Suio) (m : Arena) (u' : Suio)
    (m' : Arena) (new : List ℕ) : Prop where
  own : Own m'.live u'
  addrs : u'.addrs = u.addrs ++ new
  origin : ∀ x ∈ new, S x ∨ ∃ a ∈ u'.areas, x ∈ a
  old : ∀ x ∈ u.addrs, m'.mem x = m.mem x
  mem : ∀ x, (∀ a ∈ u.areas, x ∉ a) → (∀ a, F a → x ∉ a) → m'.mem x = m.mem x
  areas : ∀ a ∈ u'.areas, a ∈ u.areas ∨ F a
  kept : u.areas ⊆ u'.areas
  live : m.live ⊆ m'.live
  calls : m'.calls = m.calls
  object : u'.object = u.object
  nrembytes : u'.nrembytes = u.nrembytes
  uiobytes : u'.uiobytes = u.uiobytes + new.length
  lim : u'.scratchLim = u.scratchLim ∨ ∃ r, F r ∧ u'.scratchLim = r.base + r.size
  retired : ∃ rs, Retired u u' rs

namespace Appended

variable {F : Region → Prop} {S : ℕ → Prop} {u u1 u2 : Suio} {m m1 m2 : Arena} {xs ys : List ℕ}

theorem refl (h : Own m.live u) : Appended F S u m u m [] where
  own := h
  addrs := (append_nil _).symm
  origin := by simp
  old _ _ := rfl
  mem _ _ _ := rfl
  areas _ ha := .inl ha
  kept := Subset.refl _
  live := Subset.refl _
  calls := rfl
  object := rfl
  nrembytes := rfl
  uiobytes := rfl
  lim := .inl rfl
  retired := ⟨[], .nil rfl⟩

theorem trans (h1 : Appended F S u m u1 m1 xs) (h2 : Appended F S u1 m1 u2 m2 ys) :
    Appended F S u m u2 m2 (xs ++ ys) where
  own := h2.own
  addrs := by rw [h2.addrs, h1.addrs, append_assoc]
  origin := by
    intro x hx
    rcases mem_append.mp hx with hx | hx
    · rcases h1.origin x hx with hS | ⟨a, ha, hxa⟩
      · exact .inl hS
      · exact .inr ⟨a, h2.kept ha, hxa⟩
    · exact h2.origin x hx
  old := by
    intro x hx
    rw [h2.old x (h1.addrs ▸ mem_append_left _ hx), h1.old x hx]
  mem := by
    intro x hareas hF
    rw [h2.mem x ?_ hF, h1.mem x hareas hF]
    intro a ha
    rcases h1.areas a ha with ha | ha
    · exact hareas a ha
    · exact hF a ha
  areas := by
    intro a ha
    rcases h2.areas a ha with ha | ha
    · exact h1.areas a ha
    · exact .inr ha
  kept := List.Subset.trans h1.kept h2.kept
  live := List.Subset.trans h1.live h2.live
  calls := h2.calls.trans h1.calls
  object := h2.object.trans h1.object
  nrembytes := h2.nrembytes.trans h1.nrembytes
  uiobytes := by rw [h2.uiobytes, h1.uiobytes, length_append, Nat.add_assoc]
  lim := by
    rcases h2.lim with hlim | hlim
    · rw [hlim]
      exact h1.lim
    · exact .inr hlim
  retired := by
    obtain ⟨rs1, hrs1⟩ := h1.retired
    obtain ⟨rs2, hrs2⟩ := h2.retired
    exact ⟨_, hrs1.append hrs2 h1.nrembytes h2.nrembytes (h1.uiobytes ▸ Nat.le_add_right _ _)
      (h2.uiobytes ▸ Nat.le_add_right _ _)⟩

theorem mono {S' : ℕ → Prop} (hS : ∀ x, S x → S' x) (h : Appended F S u m u1 m1 xs) :
    Appended F S' u m u1 m1 xs :=
  { h with origin := fun x hx => (h.origin x hx).imp_left (hS x) }

/-- A queue that avoids this one still does, if what is new avoids it. -/
theorem avoids {v : Suio} (h : Appended F S u m u1 m1 xs) (huv : Avoids u v) (hvu : Avoids v u)
    (hF : ∀ r, F r → (∀ b ∈ v.areas, r.Apart b) ∧ ∀ x ∈ v.addrs, x ∉ r)
    (hS : ∀ x, S x → ∀ b ∈ v.areas, x ∉ b) : Avoids u1 v ∧ Avoids v u1 := by
  have hareas : ∀ a ∈ u1.areas, ∀ b ∈ v.areas, a.Apart b := by
    intro a ha b hb
    rcases h.areas a ha with ha | ha
    · exact huv.areas a ha b hb
    · exact (hF a ha).1 b hb
  refine ⟨⟨hareas, ?_⟩, ⟨fun a ha b hb => (hareas b hb a ha).symm, ?_⟩⟩
  · intro a ha x hx
    rcases h.areas a ha with ha | ha
    · exact huv.addrs a ha x hx
    · exact (hF a ha).2 x hx
  · intro b hb x hx
    rw [h.addrs, mem_append] at hx
    rcases hx with hx | hx
    · exact hvu.addrs b hb x hx
    · rcases h.origin x hx with hx | ⟨a, ha, hxa⟩
      · exact hS x hx b hb
      · exact (hareas a ha b hb).notMem hxa

theorem read_append (h1 : Appended F S u m u1 m1 xs) (h2 : Appended F S u1 m1 u2 m2 ys) :
    m2.mem.read (xs ++ ys) = m1.mem.read xs ++ m2.mem.read ys := by
  rw [Memory.read_append]
  congr 1
  apply Memory.read_congr
  intro x hx
  exact h2.old x (h1.addrs ▸ mem_append_right _ hx)

end Appended

variable {live0 : List Region} {u : Suio} {m : Arena}

/-- Bytes that are queued outside of what is not in use, and outside of the areas that are to
be freed. -/
theorem Own.pushed (h : Own m.live u) {u' : Suio} {base len : ℕ} (hpush : Pushed base len u u')
    (hpos : u'.scratchPos ≤ u.scratchLim)
    (hspare : ∀ x ∈ Region.mk base len, x ∉ u'.spare)
    (hhead : ∀ x ∈ Region.mk base len, ¬(u.self ≤ x ∧ x < u.defbuf))
    (hused : ∀ x ∈ Region.mk base len, ∀ b ∈ u.used, x ∉ b) :
    Own m.live u' ∧ u'.areas = u.areas := by
  have hle : u.scratchPos ≤ u'.scratchPos := by
    rw [hpush.scratchPos]
    split <;> omega
  have hblocks := hpush.blocks_eq
  have hareas := hpush.areas_eq
  have hcases : ∀ x ∈ u'.addrs, x ∈ u.addrs ∨ x ∈ Region.mk base len := by
    intro x hx
    rw [hpush.addrs, mem_append, mem_addrs] at hx
    exact hx
  refine ⟨{ hpush with
    self_lt := by rw [hpush.self, hpush.defbuf]; exact h.self_lt
    bytes := by rw [hpush.uiobytes, hpush.addrs, length_append, length_addrs, h.bytes]
    empty := ?_
    stale := ?_
    buf_le := by rw [hpush.scratchBuf]; exact h.buf_le.trans hle
    pos_le := by rw [hpush.scratchLim]; exact hpos
    room := by rw [hpush.scratchBuf, hpush.scratchLim]; exact h.room
    dflt := by rw [hpush.scratchBuf, hpush.defbuf, hpush.scratchLim]; exact h.dflt
    spare := ?_
    head := ?_
    apart := by rw [hareas]; exact h.apart
    live := by rw [hblocks]; exact h.live
    passed := ?_ }, hareas⟩
  · intro hnil
    obtain ⟨rfl, hnil, hend⟩ := hpush.empty hnil
    have hscratchPos := hpush.scratchPos
    rw [Nat.add_zero, ite_self] at hscratchPos
    rw [hscratchPos, hpush.scratchBuf, hend]
    exact h.empty hnil
  · intro hnil
    obtain ⟨-, hnil, hend⟩ := hpush.empty hnil
    rw [hend, hpush.defbuf]
    exact h.stale hnil
  · intro x hx
    rcases hcases x hx with hx | hx
    · have hout := h.spare x hx
      simp only [Suio.spare, Region.mem_iff, hpush.scratchLim] at hout ⊢
      omega
    · exact hspare x hx
  · intro x hx
    rw [hpush.self, hpush.defbuf]
    rcases hcases x hx with hx | hx
    · exact h.head x hx
    · exact hhead x hx
  · intro c hc b hb x hx
    rw [hpush.uiocbs] at hc
    rw [hpush.nrembytes, hpush.addrs, drop_append, mem_append] at hx
    rcases hx with hx | hx
    · exact h.passed c hc b hb x hx
    · have hx := mem_of_mem_drop hx
      exact hused x (mem_addrs.mp hx) b (mem_filterMap.mpr ⟨c, hc, hb⟩)

/-- The scratch buffer is the same; so many bytes of it are in use now. -/
structure SameScratch (n : ℕ) (u u' : Suio) : Prop where
  uiocbs : u'.uiocbs = u.uiocbs
  defbuf : u'.defbuf = u.defbuf
  scratchBuf : u'.scratchBuf = u.scratchBuf
  scratchLim : u'.scratchLim = u.scratchLim
  scratchPos : u'.scratchPos = u.scratchPos + n

theorem put_spec (F : Region → Prop) (S : ℕ → Prop) (h : Own m.live u) {d : Chunk}
    (hd : d.size ≤ u.fastspace) :
    ∃ u' m' new, put d u m = some (u', m') ∧ Appended F S u m u' m' new ∧
      m'.mem.read new = d.bytes ∧ SameScratch d.size u u' := by
  rw [h.fastspace_eq] at hd
  have hposle := h.pos_le
  obtain ⟨a, ha, hspare, hused⟩ := h.spare_area
  have hsub : ∀ x ∈ Region.mk u.scratchPos d.size, x ∈ u.spare := by
    intro x hx
    simp only [spare, Region.mem_iff] at hx ⊢
    omega
  obtain ⟨u', heq, hpush⟩ := pushiov_spec u.scratchPos d.size h.size_pos h.last
    fun hnil => (h.empty hnil).2
  have hscratchPos : u'.scratchPos = u.scratchPos + d.size := hpush.scratchPos.trans (if_pos rfl)
  obtain ⟨hown, hareas⟩ := h.pushed hpush (by omega)
    (by
      intro x hx
      simp only [spare, Region.mem_iff] at hx ⊢
      omega)
    (fun x hx => (hspare x (hsub x hx)).2)
    (fun x hx b hb => (hused b hb).notMem (hspare x (hsub x hx)).1)
  refine ⟨u', { m with mem := m.mem.write u.scratchPos d }, _, by rw [put, heq], { hpush with
    own := hown
    origin := ?_
    old := ?_
    mem := ?_
    areas := fun b hb => .inl (hareas ▸ hb)
    kept := by rw [hareas]; exact Subset.refl _
    live := Subset.refl _
    calls := rfl
    object := hpush.object_eq
    uiobytes := by rw [hpush.uiobytes, length_addrs]
    lim := .inl hpush.scratchLim
    retired := ⟨[], .nil hpush.uiocbs⟩ }, Memory.read_write _ _ _,
    ⟨hpush.uiocbs, hpush.defbuf, hpush.scratchBuf, hpush.scratchLim, hscratchPos⟩⟩
  · intro x hx
    rw [mem_addrs] at hx
    exact .inr ⟨a, hareas ▸ ha, (hspare x (hsub x hx)).1⟩
  · intro x hx
    exact Memory.write_of_notMem fun hmem => h.spare x hx (hsub x hmem)
  · intro x hx _
    exact Memory.write_of_notMem fun hmem => hx a ha (hspare x (hsub x hmem)).1

theorem refer_spec (F : Region → Prop) {S : ℕ → Prop} (h : Own m.live u) {p len : ℕ}
    (hS : ∀ x ∈ Region.mk p len, S x) (hout : ∀ x ∈ Region.mk p len, ∀ a ∈ u.areas, x ∉ a)
    (hstale : u.iovs = [] → u.lastiovend ≠ some p) (hpos : p ≠ u.scratchPos) :
    ∃ u', u.pushiov p len = some u' ∧ Appended F S u m u' m (Region.addrs ⟨p, len⟩) ∧
      SameScratch 0 u u' := by
  obtain ⟨u', heq, hpush⟩ := pushiov_spec p len h.size_pos h.last hstale
  have hscratchPos : u'.scratchPos = u.scratchPos := hpush.scratchPos.trans (if_neg hpos)
  have hspare : u'.spare = u.spare := by rw [spare, spare, hscratchPos, hpush.scratchLim]
  obtain ⟨a, ha, hin, -⟩ := h.spare_area
  obtain ⟨hown, hareas⟩ := h.pushed hpush (by rw [hscratchPos]; exact h.pos_le)
    (by
      intro x hx hmem
      rw [hspare] at hmem
      exact hout x hx a ha (hin x hmem).1)
    (by
      intro x hx hmem
      apply hout x hx _ u.object_mem_areas
      simp only [object, Region.mem_iff]
      omega)
    (fun x hx b hb => hout x hx b (u.blocks_subset_areas (u.used_subset_blocks hb)))
  refine ⟨u', heq, { hpush with
    own := hown
    origin := fun x hx => .inl (hS x (mem_addrs.mp hx))
    old := fun _ _ => rfl
    mem := fun _ _ _ => rfl
    areas := fun b hb => .inl (hareas ▸ hb)
    kept := by rw [hareas]; exact Subset.refl _
    live := Subset.refl _
    calls := rfl
    object := hpush.object_eq
    uiobytes := by rw [hpush.uiobytes, length_addrs]
    lim := .inl hpush.scratchLim
    retired := ⟨[], .nil hpush.uiocbs⟩ },
    hpush.uiocbs, hpush.defbuf, hpush.scratchBuf, hpush.scratchLim, hscratchPos⟩

/-- The heap gives no memory that is in use: the blocks that are allocated, the queue itself, and
the queued bytes, except those that lie in the queue's own areas anyway. -/
structure Served (hp : HeapAnswer) (live0 : List Region) (u : Suio) : Prop where
  live : ∀ live size, live0 ⊆ live → ∀ b ∈ live, Region.Apart ⟨hp.malloc live size, size⟩ b
  object : ∀ r, FromHeap hp live0 r → r.Apart u.object
  known : ∀ x ∈ u.addrs, (∀ r, FromHeap hp live0 r → x ∉ r) ∨ ∃ a ∈ u.areas, x ∈ a

theorem Served.appended {hp : HeapAnswer} {S : ℕ → Prop} {u' : Suio} {m' : Arena} {new : List ℕ}
    (h : Served hp live0 u) (happ : Appended (FromHeap hp live0) S u m u' m' new)
    (hS : ∀ x, S x → ∀ r, FromHeap hp live0 r → x ∉ r) : Served hp live0 u' where
  live := h.live
  object := by rw [happ.object]; exact h.object
  known := by
    intro x hx
    rw [happ.addrs, mem_append] at hx
    rcases hx with hx | hx
    · rcases h.known x hx with hout | ⟨a, ha, hxa⟩
      · exact .inl hout
      · exact .inr ⟨a, happ.kept ha, hxa⟩
    · rcases happ.origin x hx with hxS | hxa
      · exact .inl (hS x hxS)
      · exact .inr hxa

theorem scratch_size (size : ℕ) :
    max size (blocksize - mallocresv) ≤
      (size + mallocresv + (blocksize - 1)) / blocksize * blocksize - mallocresv := by
  simp only [mallocresv, blocksize]
  omega

/-- The callback that frees the scratch buffer, if it is not the default buffer. -/
def retire (u : Suio) : List Uiocb :=
  if u.scratchBuf = u.defbuf then [] else [⟨u.nrembytes + u.uiobytes, .dealloc u.scratch⟩]

def renew (u : Suio) (r : Region) : Suio :=
  { u with
    uiocbs := u.uiocbs ++ u.retire
    scratchBuf := r.base
    scratchPos := r.base
    scratchLim := r.base + r.size }

theorem Own.retired_renew (h : Own m.live u) (hne : u.iovs ≠ []) (r : Region) :
    Retired u (u.renew r) u.retire := by
  have hbytes := h.uiobytes_ne_zero hne
  unfold retire
  split
  · rename_i hdef
    exact .nil (by simp [renew, retire, hdef])
  · rename_i hdef
    refine ⟨by simp [renew, retire, hdef], ?_, pairwise_singleton _ _, ?_, ?_, ?_⟩ <;>
      simp only [mem_singleton, forall_eq]
    · exact ⟨_, rfl⟩
    · exact le_rfl
    · omega
    · exact le_rfl

theorem morescratch_eq (hp : HeapAnswer) (h : Own m.live u) (hne : u.iovs ≠ []) (size : ℕ) :
    ∃ n, max size (blocksize - mallocresv) ≤ n ∧
      morescratch hp size u m = (u.renew ⟨hp.malloc m.live n, n⟩,
        { m with live := ⟨hp.malloc m.live n, n⟩ :: m.live }) := by
  refine ⟨_, scratch_size size, ?_⟩
  unfold morescratch renew retire
  by_cases hdef : u.scratchBuf = u.defbuf
  · simp [hdef]
  · simp [hdef, iovcb, h.uiobytes_ne_zero hne, scratch]

theorem blocks_renew {r : Region} (hr : r.base ≠ u.defbuf) :
    (u.renew r).blocks.Perm (r :: u.blocks) := by
  have hbuf : (u.renew r).scratchBuf ≠ (u.renew r).defbuf := hr
  have hscratch : (u.renew r).scratch = r := by simp [renew, scratch]
  have hused : (u.renew r).used = u.used ++ u.retire.filterMap Uiocb.block := filterMap_append
  rw [blocks, if_neg hbuf, hscratch, hused]
  refine .cons _ ?_
  unfold blocks retire
  by_cases hdef : u.scratchBuf = u.defbuf
  · simp [hdef]
  · simp only [hdef]
    exact perm_append_singleton _ _

theorem areas_renew {r : Region} (hr : r.base ≠ u.defbuf) : (u.renew r).areas.Perm (r :: u.areas) :=
  (Perm.cons _ (blocks_renew hr)).trans (.swap _ _ _)

/-- A scratch buffer from the heap: the old one will be freed. -/
theorem morescratch_spec {hp : HeapAnswer} (S : ℕ → Prop) (h : Own m.live u) (hne : u.iovs ≠ [])
    (hserved : Served hp live0 u) (hlive : live0 ⊆ m.live) (size : ℕ) :
    Appended (FromHeap hp live0) S u m (morescratch hp size u m).1 (morescratch hp size u m).2 [] ∧
      max size (blocksize - mallocresv) ≤ (morescratch hp size u m).1.fastspace ∧
      (morescratch hp size u m).1.uiocbs = u.uiocbs ++ u.retire := by
  obtain ⟨n, hn, heq⟩ := morescratch_eq hp h hne size
  have hsmall : smallbufsize ≤ n := (by decide : smallbufsize ≤ blocksize - mallocresv).trans
    ((le_max_right _ _).trans hn)
  have hsmallpos : 0 < smallbufsize := by decide
  rw [heq]
  generalize hr : Region.mk (hp.malloc m.live n) n = r
  obtain rfl : n = r.size := by rw [← hr]
  have hheap : FromHeap hp live0 r := ⟨m.live, r.size, hlive, hr.symm⟩
  have hobject := hserved.object r hheap
  have hself := h.self_lt
  have hbase : r.base ≠ u.defbuf := by
    intro hbase
    rcases hobject with hleft | hright
    · simp only [object] at hleft
      omega
    · simp only [object] at hright
      omega
  have hperm := areas_renew hbase
  have hapart : ∀ a ∈ u.areas, r.Apart a := by
    intro a ha
    rcases mem_cons.mp ha with rfl | ha
    · exact hobject
    · have hfresh := hserved.live m.live r.size hlive a (h.live a ha).1
      rwa [hr] at hfresh
  have hout : ∀ x ∈ u.addrs, x ∉ r := by
    intro x hx hxr
    rcases hserved.known x hx with hknown | ⟨a, ha, hxa⟩
    · exact hknown r hheap hxr
    · exact (hapart a ha).notMem hxr hxa
  have hspare : (u.renew r).spare = r := by simp [renew, Suio.spare]
  refine ⟨{
    own := { h with
      self_lt := hself
      empty := fun hnil => absurd hnil hne
      buf_le := le_rfl
      pos_le := Nat.le_add_right _ _
      room := Nat.add_le_add_left hsmall _
      dflt := fun hdef => absurd hdef hbase
      spare := by rw [hspare]; exact hout
      apart := by
        rw [hperm.pairwise_iff Region.Apart.symm, pairwise_cons]
        exact ⟨hapart, h.apart⟩
      live := ?_
      passed := ?_ }
    addrs := (append_nil _).symm
    origin := by simp
    old := fun _ _ => rfl
    mem := fun _ _ _ => rfl
    areas := ?_
    kept := fun a ha => hperm.mem_iff.mpr (mem_cons_of_mem _ ha)
    live := subset_cons_self _ _
    calls := rfl
    object := rfl
    nrembytes := rfl
    uiobytes := rfl
    lim := .inr ⟨r, hheap, rfl⟩
    retired := ⟨u.retire, h.retired_renew hne r⟩ }, ?_, rfl⟩
  · intro b hb
    rcases mem_cons.mp ((blocks_renew hbase).mem_iff.mp hb) with rfl | hb
    · exact ⟨mem_cons_self, hsmallpos.trans_le hsmall⟩
    · obtain ⟨hmem, hpos⟩ := h.live b hb
      exact ⟨mem_cons_of_mem _ hmem, hpos⟩
  · intro c hc b hb x hx
    rcases mem_append.mp hc with hc | hc
    · exact h.passed c hc b hb x hx
    · -- nothing is queued behind the callback
      have hall : c.nbytes = u.nrembytes + u.uiobytes := by
        unfold retire at hc
        split at hc
        · cases hc
        · rw [mem_singleton.mp hc]
      have hnone : (u.renew r).addrs.drop (c.nbytes - (u.renew r).nrembytes) = [] := by
        apply drop_eq_nil_of_le
        have hbytes := h.bytes
        have hnrem : (u.renew r).nrembytes = u.nrembytes := rfl
        have haddrs : (u.renew r).addrs = u.addrs := rfl
        rw [haddrs]
        omega
      rw [hnone] at hx
      cases hx
  · intro a ha
    rcases mem_cons.mp (hperm.mem_iff.mp ha) with rfl | ha
    · exact .inr hheap
    · exact .inl ha
  · have hroom : (u.renew r).fastspace = r.size := by
      have hle : (u.renew r).scratchPos ≤ (u.renew r).scratchLim := Nat.le_add_right _ _
      rw [fastspace, if_pos hle]
      exact Nat.add_sub_cancel_left _ _
    rw [hroom]
    exact hn

end Appending

end Suio

end SelfCertifyingFS.Async
