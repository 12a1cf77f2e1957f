import Sfs.Async.SuioMemory

/-!
# Removing from a queue

Removed bytes leave the front of the queue, and then the callbacks that waited for them are
made. A block that is freed holds no byte that is still queued.
-/

namespace SelfCertifyingFS.Async

open Foundations List Option
open Uiocb (block)

def Uiocb.id (c : Uiocb) : Option ℕ :=
  match c.cb with
  | .user id => some id
  | .dealloc _ => none

namespace Suio

section Releasing

variable {hp : HeapAnswer} {m : Arena}

/-- What callbacks leave alone. -/
structure Released (cs : List Uiocb) (m m' : Arena) : Prop where
  mem : ∀ x, (∀ b ∈ cs.filterMap block, x ∉ b) → m'.mem x = m.mem x
  live : ∀ b ∈ m.live, b ∉ cs.filterMap block → b ∈ m'.live
  calls : m'.calls = m.calls ++ cs.filterMap Uiocb.id

theorem released_call (c : Uiocb) : Released [c] m (call hp m c.cb) := by
  rcases c with ⟨n, id | b⟩
  · exact ⟨fun _ _ => rfl, fun _ hb _ => hb, rfl⟩
  · refine ⟨fun x hx => ?_, fun b' hb' hne => ?_, (append_nil _).symm⟩
    · exact if_neg (hx b (mem_singleton.mpr rfl))
    · refine (mem_erase_of_ne ?_).mpr hb'
      rintro rfl
      exact hne (mem_singleton.mpr rfl)

theorem Released.append {cs ds : List Uiocb} {m1 m2 : Arena} (h1 : Released cs m m1)
    (h2 : Released ds m1 m2) : Released (cs ++ ds) m m2 where
  mem x hx := by
    rw [filterMap_append] at hx
    rw [h2.mem x fun b hb => hx b (mem_append_right _ hb),
      h1.mem x fun b hb => hx b (mem_append_left _ hb)]
  live b hb hne := by
    rw [filterMap_append, mem_append, not_or] at hne
    exact h2.live b (h1.live b hb hne.1) hne.2
  calls := by rw [h2.calls, h1.calls, append_assoc, ← filterMap_append]

theorem released_calls (cs : List Uiocb) (m : Arena) :
    Released cs m (cs.foldl (fun m c => call hp m c.cb) m) := by
  induction cs generalizing m with
  | nil => exact ⟨fun _ _ => rfl, fun _ hb _ => hb, (append_nil _).symm⟩
  | cons c cs ih => exact (released_call c).append (ih _)

end Releasing

section Popping

variable {hp : HeapAnswer} {m : Arena} {u : Suio}

/-- The loop of `rembytes` drops so many addresses; what is left ends where it did. -/
theorem popIovs_spec (n : ℕ) (vs : List Region) (hpos : ∀ v ∈ vs, 0 < v.size)
    (hn : n ≤ (vs.flatMap Region.addrs).length) :
    ∃ vs', popIovs n vs = some vs' ∧
      vs'.flatMap Region.addrs = (vs.flatMap Region.addrs).drop n ∧
      (∀ v ∈ vs', 0 < v.size) ∧
      ∀ v ∈ vs'.getLast?, ∃ w ∈ vs.getLast?, v.base + v.size = w.base + w.size := by
  induction vs generalizing n with
  | nil =>
    obtain rfl : n = 0 := Nat.le_zero.mp hn
    exact ⟨[], rfl, rfl, hpos, fun v hv => by cases hv⟩
  | cons v vs ih =>
    have hpos' : ∀ w ∈ vs, 0 < w.size := fun w hw => hpos w (mem_cons_of_mem _ hw)
    rw [flatMap_cons, length_append, Region.length_addrs] at hn
    unfold popIovs
    by_cases hge : n ≥ v.size
    · rw [if_pos hge]
      obtain ⟨vs', heq, haddrs, hsize, hlast⟩ := ih (n - v.size) hpos' (by omega)
      refine ⟨vs', heq, ?_, hsize, fun w hw => ?_⟩
      · have hv : v.addrs.drop n = [] := drop_eq_nil_of_le (by rw [Region.length_addrs]; exact hge)
        rw [haddrs, flatMap_cons, drop_append, Region.length_addrs, hv, nil_append]
      · obtain ⟨w', hw', heq'⟩ := hlast w hw
        refine ⟨w', ?_, heq'⟩
        rw [List.getLast?_cons, mem_def.mp hw']
        rfl
    · rw [if_neg hge]
      have hlt : n < v.size := Nat.lt_of_not_le hge
      refine ⟨_, rfl, ?_, ?_, ?_⟩
      · rw [flatMap_cons, flatMap_cons,
          drop_append_of_le_length (by rw [Region.length_addrs]; exact hlt.le), v.drop_addrs hlt.le]
      · intro w hw
        rcases mem_cons.mp hw with rfl | hw
        · exact Nat.sub_pos_of_lt hlt
        · exact hpos' w hw
      · intro w hw
        cases vs with
        | nil =>
          obtain rfl := some.inj hw
          refine ⟨v, rfl, ?_⟩
          show v.base + n + (v.size - n) = v.base + v.size
          omega
        | cons v' vs => exact ⟨w, hw, rfl⟩

/-- The callbacks that are made when so many bytes are removed. -/
def due (n : ℕ) (u : Suio) : List Uiocb := u.uiocbs.takeWhile (·.nbytes ≤ u.nrembytes + n)

/-- Bytes are removed from the front, and callbacks are made. Blocks that are freed hold no byte
that is still queued. -/
structure Removed (n : ℕ) (cs : List Uiocb) (u : Suio) (m : Arena) (u' : Suio) (m' : Arena) :
    Prop where
  own : Own m'.live u'
  addrs : u'.addrs = u.addrs.drop n
  nrembytes : u'.nrembytes = u.nrembytes + n
  areas : u'.areas ⊆ u.areas
  object : u'.object = u.object
  released : Released cs m m'
  freed : ∀ b ∈ cs.filterMap block, b ∈ u.areas ∧ ∀ x ∈ u'.addrs, x ∉ b

/-- The state behind the loop of `rembytes`, before the callbacks are made. -/
def popped (n : ℕ) (vs : List Region) (u : Suio) : Suio :=
  { u with
    uiobytes := u.uiobytes - n
    nrembytes := u.nrembytes + n
    nremiov := u.nremiov + (u.iovs.length - vs.length)
    iovs := vs
    scratchPos := if vs = [] then u.scratchBuf else u.scratchPos
    lastiovend := if vs = [] then none else u.lastiovend }

theorem rembytes_eq {n : ℕ} {vs : List Region} (hn : n ≤ u.uiobytes)
    (hpop : popIovs n u.iovs = some vs) :
    rembytes hp n u m = some (makeuiocbs hp (popped n vs u) m) := by
  rw [rembytes, if_neg (Nat.not_lt.mpr hn), hpop]
  dsimp only
  unfold popped
  split_ifs <;> rfl

/-- The blocks that stay are apart from those whose callbacks are made. -/
theorem Own.apart_due {live : List Region} (h : Own live u) (p : Uiocb → Bool) :
    ∀ b ∈ blocks { u with uiocbs := u.uiocbs.dropWhile p },
      ∀ d ∈ (u.uiocbs.takeWhile p).filterMap block, b.Apart d := by
  have hused : u.used = (u.uiocbs.takeWhile p).filterMap block ++
      (u.uiocbs.dropWhile p).filterMap block := by
    rw [used, ← filterMap_append, takeWhile_append_dropWhile]
  have hblocks := (pairwise_cons.mp h.apart).2
  unfold blocks at hblocks
  intro b hb d hd
  unfold blocks at hb
  by_cases hdef : u.scratchBuf = u.defbuf
  · rw [if_pos hdef, hused] at hblocks
    rw [if_pos hdef] at hb
    exact ((pairwise_append.mp hblocks).2.2 d hd b hb).symm
  · rw [if_neg hdef, pairwise_cons, hused] at hblocks
    rw [if_neg hdef] at hb
    rcases mem_cons.mp hb with rfl | hb
    · exact hblocks.1 d (mem_append_left _ hd)
    · exact ((pairwise_append.mp hblocks.2).2.2 d hd b hb).symm

theorem areas_dropWhile_sublist (u : Suio) (p : Uiocb → Bool) :
    (areas { u with uiocbs := u.uiocbs.dropWhile p }).Sublist u.areas := by
  have hused : ((u.uiocbs.dropWhile p).filterMap block).Sublist u.used :=
    (dropWhile_sublist p).filterMap block
  refine Sublist.cons_cons _ ?_
  unfold blocks
  split
  · exact hused
  · exact hused.cons_cons _

theorem rembytes_spec (hp : HeapAnswer) (h : Own m.live u) {n : ℕ} (hn : n ≤ u.uiobytes) :
    ∃ u' m', rembytes hp n u m = some (u', m') ∧ Removed n (u.due n) u m u' m' ∧
      u'.uiocbs = u.uiocbs.dropWhile (·.nbytes ≤ u.nrembytes + n) := by
  obtain ⟨vs, hpop, haddrs, hsize, hlast⟩ := popIovs_spec n u.iovs h.size_pos (h.bytes ▸ hn)
  have haddrs : vs.flatMap Region.addrs = u.addrs.drop n := haddrs
  set p : Uiocb → Bool := (·.nbytes ≤ u.nrembytes + n) with hp'
  have hreleased : Released (u.uiocbs.takeWhile p) m
      ((u.uiocbs.takeWhile p).foldl (fun m c => call hp m c.cb) m) := released_calls _ _
  set pos := if vs = [] then u.scratchBuf else u.scratchPos with hset
  have hsub := areas_dropWhile_sublist u p
  have hspare : ∀ x ∈ u.addrs.drop n, x ∈ u.addrs := fun x => mem_of_mem_drop
  refine ⟨_, _, rembytes_eq hn hpop, {
    own := { h with
      size_pos := hsize
      bytes := ?_
      last := ?_
      empty := ?_
      stale := ?_
      buf_le := ?_
      pos_le := ?_
      spare := ?_
      head := fun x hx => h.head x (hspare x (haddrs ▸ hx))
      apart := h.apart.sublist hsub
      live := ?_
      passed := ?_ }
    addrs := haddrs
    nrembytes := rfl
    areas := hsub.subset
    object := rfl
    released := hreleased
    freed := ?_ }, rfl⟩
  · have hbytes := h.bytes
    show u.uiobytes - n = (vs.flatMap Region.addrs).length
    rw [haddrs, length_drop, hbytes]
  · intro v hv
    obtain ⟨w, hw, heq⟩ := hlast v hv
    have hne : vs ≠ [] := by
      rintro rfl
      cases hv
    show (if vs = [] then none else u.lastiovend) = _
    rw [if_neg hne, heq]
    exact h.last w hw
  · intro hnil
    subst hnil
    exact ⟨rfl, (some_ne_none _).symm⟩
  · intro hnil
    subst hnil
    exact (some_ne_none _).symm
  · show u.scratchBuf ≤ pos
    have hbuf := h.buf_le
    rw [hset]
    split <;> omega
  · show pos ≤ u.scratchLim
    have hbuf := h.buf_le
    have hpos := h.pos_le
    rw [hset]
    split <;> omega
  · intro x hx hmem
    have hne : vs ≠ [] := by
      rintro rfl
      cases hx
    refine h.spare x (hspare x (haddrs ▸ hx)) ?_
    have hmem : x ∈ Region.mk pos (u.scratchLim - pos) := hmem
    rwa [hset, if_neg hne] at hmem
  · intro b hb
    have hb' : b ∈ blocks { u with uiocbs := u.uiocbs.dropWhile p } := hb
    obtain ⟨hmem, hpos⟩ := h.live b ((Sublist.of_cons_cons hsub).subset hb')
    refine ⟨hreleased.live b hmem fun hdue => ?_, hpos⟩
    exact (h.apart_due p b hb' b hdue).ne hpos rfl
  · intro c hc b hb x hx
    have hc : c ∈ u.uiocbs := (dropWhile_sublist p).subset hc
    have hx : x ∈ (vs.flatMap Region.addrs).drop (c.nbytes - (u.nrembytes + n)) := hx
    rw [haddrs, drop_drop] at hx
    exact h.passed c hc b hb x (drop_subset_drop_left _ (by omega) hx)
  · intro b hb
    obtain ⟨c, hc, hcb⟩ := mem_filterMap.mp hb
    have hmem : c ∈ u.uiocbs := (takeWhile_sublist p).subset hc
    have hused : b ∈ u.used := mem_filterMap.mpr ⟨c, hmem, hcb⟩
    refine ⟨u.blocks_subset_areas (u.used_subset_blocks hused), fun x hx => ?_⟩
    have hle : c.nbytes ≤ u.nrembytes + n := by
      have hall : p c = true := List.all_eq_true.mp all_takeWhile c hc
      simpa [hp'] using hall
    have hx : x ∈ vs.flatMap Region.addrs := hx
    rw [haddrs] at hx
    exact h.passed c hmem b hcb x (drop_subset_drop_left _ (by omega) hx)

/-- The state that `clear` ends in. -/
def cleared (u : Suio) : Suio :=
  { u with
    iovs := []
    uiocbs := []
    scratchBuf := u.defbuf
    scratchPos := u.defbuf
    scratchLim := u.defbuf + smallbufsize }

theorem clear_eq {u1 : Suio} {m1 : Arena} (heq : rembytes hp u.uiobytes u m = some (u1, m1))
    (hdflt : u1.scratchBuf = u1.defbuf → u1.scratchLim = u1.defbuf + smallbufsize) :
    clear hp u m = some (u1.cleared, u1.retire.foldl (fun m c => call hp m c.cb) m1) := by
  unfold clear cleared retire
  rw [heq]
  by_cases hdef : u1.scratchBuf = u1.defbuf
  · simp [hdef, ← hdflt hdef]
  · simp [hdef, scratch]

/-- `clear` removes everything and goes back to the default buffer. -/
theorem clear_spec (hp : HeapAnswer) (h : Own m.live u) :
    ∃ u' m' cs, clear hp u m = some (u', m') ∧
      Removed u.uiobytes (u.due u.uiobytes ++ cs) u m u' m' ∧ cs.filterMap Uiocb.id = [] ∧
      u'.uiocbs = [] := by
  obtain ⟨u1, m1, heq, hrem, -⟩ := rembytes_spec hp h le_rfl
  have haddrs : u1.addrs = [] := by rw [hrem.addrs, h.bytes, drop_length]
  have hbytes : u1.uiobytes = 0 := by rw [hrem.own.bytes, haddrs, length_nil]
  have hbare : Bare u1.cleared :=
    ⟨hrem.own.self_lt, rfl, rfl, hbytes, hrem.own.lastiovend_ne_defbuf, rfl, rfl, rfl⟩
  refine ⟨_, _, _, clear_eq heq hrem.own.dflt, { hrem with
    own := hbare.own
    addrs := hbare.addrs.trans (haddrs.symm.trans hrem.addrs)
    areas := ?_
    released := hrem.released.append (released_calls _ _)
    freed := ?_ }, ?_, hbare.uiocbs⟩
  · rw [hbare.areas, show u1.cleared.object = u.object from hrem.object]
    exact List.cons_subset.mpr ⟨u.object_mem_areas, nil_subset _⟩
  · intro b hb
    refine ⟨?_, by simp [hbare.addrs]⟩
    rw [filterMap_append] at hb
    rcases mem_append.mp hb with hb | hb
    · exact (hrem.freed b hb).1
    · apply hrem.areas
      apply u1.blocks_subset_areas
      by_cases hdef : u1.scratchBuf = u1.defbuf
      · simp [retire, hdef] at hb
      · obtain rfl : b = u1.scratch := by simpa [retire, hdef, block] using hb
        simp [blocks, hdef]
  · unfold retire
    split <;> rfl

end Popping

section Registering

variable {live : List Region} {u : Suio}

def await (n id : ℕ) (u : Suio) : Suio := { u with uiocbs := u.uiocbs ++ [⟨n, .user id⟩] }

theorem areas_await (n id : ℕ) (u : Suio) : (u.await n id).areas = u.areas := by
  have hused : (u.await n id).used = u.used := by
    rw [used, await, filterMap_append]
    exact append_nil _
  unfold areas blocks
  rw [hused]
  rfl

theorem Own.await (h : Own live u) (n id : ℕ) : Own live (u.await n id) :=
  { h with
    apart := by
      rw [areas_await]
      exact h.apart
    live := by
      have hblocks := (List.cons.inj (areas_await n id u)).2
      rw [hblocks]
      exact h.live
    passed := by
      intro c hc b hb
      rcases mem_append.mp hc with hc | hc
      · exact h.passed c hc b hb
      · rw [mem_singleton.mp hc] at hb
        cases hb }

end Registering

end Suio

end SelfCertifyingFS.Async
