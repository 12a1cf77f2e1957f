import Sfs.Async.SuioAppend

/-!
# Taking over another queue

The segments of the other queue are queued where they are, except those in its default
buffer, which are copied. Its callbacks come behind those of this queue; while bytes are
copied, this queue may set up the deallocation of a scratch buffer in front of them.
-/

namespace SelfCertifyingFS.Async

open Foundations List Region

namespace Suio

section Segments

variable {hp : HeapAnswer} {live0 : List Region} {S : ℕ → Prop} {dflt : Region}

/-- How many bytes of some segments are copied. -/
def copied (dflt : Region) (vs : List Region) : ℕ :=
  ((vs.filter (·.base ∈ dflt)).map Region.size).sum

/-- Each byte stays where it is or is copied to an area of the queue. A scratch buffer is retired
only for a segment that is copied, in front of its end, and not at all where there is room. -/
structure Taken (hp : HeapAnswer) (live0 : List Region) (S : ℕ → Prop) (dflt : Region)
    (vs : List Region) (u : Suio) (m : Arena) (u' : Suio) (m' : Arena) (new : List ℕ) : Prop where
  appended : Appended (FromHeap hp live0) S u m u' m' new
  read : m'.mem.read new = m.mem.read (vs.flatMap Region.addrs)
  placed : List.Forall₂ (fun x y => y = x ∨ ∃ a ∈ u'.areas, y ∈ a) (vs.flatMap Region.addrs) new
  retired : ∃ rs, Retired u u' rs ∧ ∀ c ∈ rs, ∃ pre w post, vs = pre ++ w :: post ∧
    w.base ∈ dflt ∧ c.nbytes ≤ u.nrembytes + u.uiobytes + ((pre ++ [w]).map Region.size).sum
  roomy : ∀ k, Roomy (copied dflt vs + k) u → u'.uiocbs = u.uiocbs ∧ Roomy k u'

theorem Taken.nil {u : Suio} {m : Arena} (h : Own m.live u) :
    Taken hp live0 S dflt [] u m u m [] where
  appended := .refl h
  read := rfl
  placed := .nil
  retired := ⟨[], .nil rfl, fun c hc => absurd hc not_mem_nil⟩
  roomy k hk := ⟨rfl, by simpa [copied] using hk⟩

theorem copied_append (vs ws : List Region) :
    copied dflt (vs ++ ws) = copied dflt vs + copied dflt ws := by
  simp [copied]

theorem Taken.cons {u u1 u2 : Suio} {m m1 m2 : Arena} {v : Region} {vs : List Region}
    {xs ys : List ℕ} (h1 : Taken hp live0 S dflt [v] u m u1 m1 xs)
    (h2 : Taken hp live0 S dflt vs u1 m1 u2 m2 ys)
    (hmem : ∀ x ∈ vs.flatMap Region.addrs, m1.mem x = m.mem x) :
    Taken hp live0 S dflt (v :: vs) u m u2 m2 (xs ++ ys) where
  appended := h1.appended.trans h2.appended
  read := by
    rw [h1.appended.read_append h2.appended, h1.read, h2.read, Memory.read_congr hmem]
    simp
  placed := by
    have hfirst := h1.placed.imp fun x y hxy => hxy.imp_right fun ⟨a, ha, hya⟩ =>
      (⟨a, h2.appended.kept ha, hya⟩ : ∃ a ∈ u2.areas, y ∈ a)
    simpa using rel_append hfirst h2.placed
  retired := by
    obtain ⟨rs1, hrs1, hbound1⟩ := h1.retired
    obtain ⟨rs2, hrs2, hbound2⟩ := h2.retired
    have hbytes := h1.appended.uiobytes
    have hlen : xs.length = v.size := by
      have hlen := h1.placed.length_eq
      simpa using hlen.symm
    refine ⟨_, hrs1.append hrs2 h1.appended.nrembytes h2.appended.nrembytes
      (hbytes ▸ Nat.le_add_right _ _) (h2.appended.uiobytes ▸ Nat.le_add_right _ _), ?_⟩
    intro c hc
    rcases mem_append.mp hc with hc | hc
    · obtain ⟨pre, w, post, hvs, hw, hle⟩ := hbound1 c hc
      exact ⟨pre, w, post ++ vs, by rw [← singleton_append, hvs]; simp, hw, hle⟩
    · obtain ⟨pre, w, post, rfl, hw, hle⟩ := hbound2 c hc
      refine ⟨v :: pre, w, post, rfl, hw, ?_⟩
      rw [h1.appended.nrembytes] at hle
      simp only [cons_append, map_cons, sum_cons]
      omega
  roomy := by
    intro k hk
    rw [← singleton_append, copied_append, Nat.add_assoc] at hk
    obtain ⟨huiocbs, hroomy⟩ := h1.roomy _ hk
    obtain ⟨huiocbs2, hroomy2⟩ := h2.roomy k hroomy
    exact ⟨huiocbs2.trans huiocbs, hroomy2⟩

/-- What `take` needs of the segments that it is to take. -/
structure Takeable (hp : HeapAnswer) (live0 : List Region) (S : ℕ → Prop) (dflt : Region)
    (vs : List Region) (u : Suio) : Prop where
  size_pos : ∀ v ∈ vs, 0 < v.size
  known : ∀ v ∈ vs, v.base ∉ dflt → ∀ x ∈ v, S x
  heap : ∀ v ∈ vs, ∀ x ∈ v, ∀ r, FromHeap hp live0 r → x ∉ r
  out : ∀ v ∈ vs, ∀ x ∈ v, ∀ a ∈ u.areas, x ∉ a
  stale : u.iovs = [] → ∀ v ∈ vs.head?, v.base ∉ dflt → u.lastiovend ≠ some v.base
  lim : ∀ v ∈ vs, v.base ∉ dflt →
    v.base ≠ u.scratchLim ∧ ∀ r, FromHeap hp live0 r → v.base ≠ r.base + r.size

variable {u : Suio} {m : Arena} {v : Region} {vs : List Region}

theorem Takeable.head (h : Takeable hp live0 S dflt (v :: vs) u) :
    Takeable hp live0 S dflt [v] u where
  size_pos w hw := h.size_pos w (mem_cons.mpr (.inl (mem_singleton.mp hw)))
  known w hw := h.known w (mem_cons.mpr (.inl (mem_singleton.mp hw)))
  heap w hw := h.heap w (mem_cons.mpr (.inl (mem_singleton.mp hw)))
  out w hw := h.out w (mem_cons.mpr (.inl (mem_singleton.mp hw)))
  stale := h.stale
  lim w hw := h.lim w (mem_cons.mpr (.inl (mem_singleton.mp hw)))

theorem Takeable.tail {u1 : Suio} {m1 : Arena} {xs : List ℕ}
    (h : Takeable hp live0 S dflt (v :: vs) u) (happ : Taken hp live0 S dflt [v] u m u1 m1 xs) :
    Takeable hp live0 S dflt vs u1 where
  size_pos w hw := h.size_pos w (mem_cons_of_mem _ hw)
  known w hw := h.known w (mem_cons_of_mem _ hw)
  heap w hw := h.heap w (mem_cons_of_mem _ hw)
  out w hw x hx a ha := by
    have hw := mem_cons_of_mem v hw
    rcases happ.appended.areas a ha with ha | ha
    · exact h.out w hw x hx a ha
    · exact h.heap w hw x hx a ha
  stale hnil := by
    -- the queue has a segment by now
    have haddrs := happ.appended.addrs
    rw [happ.appended.own.addrs_eq_nil_iff.mpr hnil] at haddrs
    have hlen := happ.placed.length_eq
    rw [(append_eq_nil_iff.mp haddrs.symm).2] at hlen
    have hpos := h.size_pos v mem_cons_self
    have hzero : v.size = 0 := by simpa using hlen
    omega
  lim w hw hout := by
    obtain ⟨hlim, hheap⟩ := h.lim w (mem_cons_of_mem _ hw) hout
    refine ⟨?_, hheap⟩
    rcases happ.appended.lim with heq | ⟨r, hr, heq⟩
    · rw [heq]
      exact hlim
    · rw [heq]
      exact hheap r hr

theorem takeIov_spec (h : Own m.live u) (hserved : Served hp live0 u) (hlive : live0 ⊆ m.live)
    (htake : Takeable hp live0 S dflt [v] u) :
    ∃ u' m' new, takeIov hp dflt v u m = some (u', m') ∧
      Taken hp live0 S dflt [v] u m u' m' new := by
  have hmem : v ∈ [v] := mem_singleton.mpr rfl
  have hflat : [v].flatMap Region.addrs = v.addrs := by simp
  unfold takeIov
  by_cases hdflt : v.base ∈ dflt
  · rw [if_pos hdflt]
    have hcopied : copied dflt [v] = v.size := by simp [copied, hdflt]
    obtain ⟨u', m', new, heq, happ, hread, hroomy⟩ := copy_copied (S := fun _ => False) h hserved
      hlive (fun _ hx => hx.elim) ⟨v.size, fun k => m.mem (v.base + k)⟩
    rw [read_chunk] at hread hroomy
    have hlen : new.length = v.size := by
      have hlen := congrArg List.length hread
      simpa [Memory.read] using hlen
    obtain ⟨rs, hrs⟩ := happ.retired
    refine ⟨u', m', new, heq, happ.mono fun _ hx => hx.elim, by rw [hflat]; exact hread, ?_,
      ⟨rs, hrs, ?_⟩, ?_⟩
    · rw [hflat]
      refine List.forall₂_iff_get.mpr ⟨by rw [length_addrs, hlen], fun i hi hj => .inr ?_⟩
      exact (happ.origin _ (get_mem _ _)).resolve_left id
    · intro c hc
      refine ⟨[], v, [], rfl, hdflt, ?_⟩
      have hupper := hrs.upper c hc
      rw [happ.nrembytes, happ.uiobytes] at hupper
      simp only [nil_append, map_singleton, sum_singleton]
      omega
    · intro k hk
      apply hroomy k
      rw [hcopied] at hk
      simpa [Memory.read] using hk
  · rw [if_neg hdflt]
    have hsize := htake.size_pos v hmem
    have hpos : v.base ≠ u.scratchPos := by
      -- otherwise it begins in the scratch buffer, or at its end
      intro heq
      have hlim := (htake.lim v hmem hdflt).1
      have hle := h.pos_le
      obtain ⟨a, ha, hin, -⟩ := h.spare_area
      apply htake.out v hmem v.base ⟨le_rfl, by omega⟩ a ha
      apply (hin v.base _).1
      simp only [spare, mem_iff]
      omega
    obtain ⟨u', heq, happ, hsame⟩ := refer_spec (FromHeap hp live0) h
      (htake.known v hmem hdflt) (htake.out v hmem) (fun hnil => htake.stale hnil v rfl hdflt) hpos
    rw [heq]
    refine ⟨u', m, _, rfl, happ, by rw [hflat], ?_, ⟨[], .nil hsame.uiocbs, ?_⟩, ?_⟩
    · rw [hflat]
      exact List.forall₂_same.mpr fun x _ => .inl rfl
    · intro c hc
      cases hc
    · intro k hk
      have hcopied : copied dflt [v] = 0 := by simp [copied, hdflt]
      rw [hcopied] at hk
      exact ⟨hsame.uiocbs, hsame.roomy h happ.own hk⟩

theorem takeLoop_spec (hS : ∀ x, S x → ∀ r, FromHeap hp live0 r → x ∉ r) (vs : List Region)
    {u : Suio} {m : Arena} (h : Own m.live u) (hserved : Served hp live0 u) (hlive : live0 ⊆ m.live)
    (htake : Takeable hp live0 S dflt vs u) :
    ∃ u' m' new, takeLoop hp dflt vs u m = some (u', m') ∧
      Taken hp live0 S dflt vs u m u' m' new := by
  induction vs generalizing u m with
  | nil => exact ⟨u, m, [], rfl, .nil h⟩
  | cons v vs ih =>
    obtain ⟨u1, m1, xs, heq1, h1⟩ := takeIov_spec h hserved hlive htake.head
    obtain ⟨u2, m2, ys, heq2, h2⟩ := ih h1.appended.own (hserved.appended h1.appended hS)
      (List.Subset.trans hlive h1.appended.live) (htake.tail h1)
    refine ⟨u2, m2, xs ++ ys, ?_, h1.cons h2 ?_⟩
    · rw [takeLoop, heq1]
      exact heq2
    · intro x hx
      obtain ⟨w, hw, hx⟩ := mem_flatMap.mp hx
      rw [Region.mem_addrs] at hx
      have hw := mem_cons_of_mem v hw
      exact h1.appended.mem x (htake.out w hw x hx) (htake.heap w hw x hx)

end Segments

section Queues

variable {hp : HeapAnswer} {live : List Region} {src u : Suio} {m : Arena}

theorem used_sublist_areas (u : Suio) : u.used.Sublist u.areas := by
  refine .cons _ ?_
  unfold blocks
  split
  · exact List.Sublist.refl _
  · exact sublist_cons_self _ _

/-- The segments that stay where they are have nothing in the object. -/
theorem Own.notMem_object (h : Own live src) {v : Region} (hv : v ∈ src.iovs)
    (hdflt : v.base ∉ src.default) {x : ℕ} (hx : x ∈ v) : x ∉ src.object := by
  intro hobject
  have haddrs : ∀ y ∈ v, y ∈ src.addrs := fun y hy =>
    mem_flatMap.mpr ⟨v, hv, mem_addrs.mpr hy⟩
  have hself := h.self_lt
  have hhead := h.head x (haddrs x hx)
  simp only [default, object, mem_iff] at hdflt hobject hx
  -- it begins in front of the default buffer, so the byte in front of that is queued
  have hbefore := h.head (src.defbuf - 1) (haddrs _ (by rw [mem_iff]; omega))
  omega

/-- A queue after its bytes and callbacks have been taken. -/
def emptied (u : Suio) : Suio :=
  { u with
    nrembytes := u.nrembytes + u.uiobytes
    nremiov := u.nremiov + u.iovs.length
    uiobytes := 0
    iovs := []
    uiocbs := []
    scratchBuf := u.defbuf
    scratchPos := u.defbuf
    scratchLim := u.defbuf + smallbufsize }

theorem Own.emptied (h : Own live u) : Bare u.emptied :=
  ⟨h.self_lt, rfl, rfl, rfl, h.lastiovend_ne_defbuf, rfl, rfl, rfl⟩

/-- The callbacks of another queue, which wait for as many bytes more as this queue has. -/
def shifted (src u : Suio) : List Uiocb :=
  src.uiocbs.map fun c =>
    ⟨shift c.nbytes ((u.nrembytes + u.uiobytes : ℤ) - src.nrembytes), c.cb⟩

def adopt (cs : List Uiocb) (u : Suio) : Suio := { u with uiocbs := u.uiocbs ++ cs }

theorem used_adopt (src u u1 : Suio) : (u1.adopt (shifted src u)).used = u1.used ++ src.used := by
  unfold used adopt shifted
  rw [filterMap_append, filterMap_map]
  rfl

theorem areas_adopt (src u u1 : Suio) :
    (u1.adopt (shifted src u)).areas = u1.areas ++ src.used := by
  have hblocks : (u1.adopt (shifted src u)).blocks = u1.blocks ++ src.used := by
    unfold blocks
    rw [used_adopt]
    split
    · rename_i hdef
      exact (if_pos hdef).symm ▸ rfl
    · rename_i hdef
      exact (if_neg hdef).symm ▸ rfl
  exact congrArg (u1.object :: ·) hblocks

variable {u1 : Suio}

theorem Avoids.adopt_left {v : Suio} (h : Avoids u1 v) (src u : Suio)
    (hareas : ∀ a ∈ src.used, ∀ b ∈ v.areas, a.Apart b)
    (haddrs : ∀ a ∈ src.used, ∀ x ∈ v.addrs, x ∉ a) : Avoids (u1.adopt (shifted src u)) v := by
  refine ⟨fun a ha => ?_, fun a ha => ?_⟩
  · rw [areas_adopt] at ha
    exact (mem_append.mp ha).elim (h.areas a) (hareas a)
  · rw [areas_adopt] at ha
    exact (mem_append.mp ha).elim (h.addrs a) (haddrs a)

theorem Avoids.adopt_right {v : Suio} (h : Avoids v u1) (src u : Suio)
    (hareas : ∀ a ∈ src.used, ∀ b ∈ v.areas, a.Apart b) : Avoids v (u1.adopt (shifted src u)) := by
  refine ⟨fun b hb a ha => ?_, h.addrs⟩
  rw [areas_adopt] at ha
  exact (mem_append.mp ha).elim (h.areas b hb a) fun ha => (hareas a ha b hb).symm

theorem shift_eq {c nsrc : ℕ} (nrem uio : ℕ) (h : nsrc ≤ c) :
    shift c ((nrem + uio : ℤ) - nsrc) = nrem + uio + (c - nsrc) := by
  have hnonneg : 0 ≤ c + ((nrem + uio : ℤ) - nsrc) := by omega
  rw [shift, if_pos hnonneg]
  omega

theorem le_shift (c nsrc nrem uio : ℕ) :
    c - nsrc ≤ shift c ((nrem + uio : ℤ) - nsrc) - nrem - uio := by
  rcases le_total nsrc c with hle | hle
  · rw [shift_eq nrem uio hle]
    omega
  · rw [Nat.sub_eq_zero_of_le hle]
    exact Nat.zero_le _

/-- The bytes that stay where they are when a queue is taken. -/
def Stays (src : Suio) (x : ℕ) : Prop := x ∈ src.addrs ∧ x ∉ src.object

/-- No segment that stays where it is begins where the last segment of this queue, which is gone,
ended, or where a scratch buffer ends. -/
structure CanTake (hp : HeapAnswer) (live : List Region) (src u : Suio) : Prop where
  stale : u.iovs = [] → ∀ v ∈ src.iovs.head?, v.base ∉ src.default → u.lastiovend ≠ some v.base
  lim : ∀ v ∈ src.iovs, v.base ∉ src.default →
    v.base ≠ u.scratchLim ∧ ∀ r, FromHeap hp live r → v.base ≠ r.base + r.size

theorem CanTake.takeable (h : CanTake hp live src u) (hsrc : Own live src) (hus : Avoids u src)
    (hheap : ∀ x ∈ src.addrs, ∀ r, FromHeap hp live r → x ∉ r) :
    Takeable hp live (Stays src) src.default src.iovs u := by
  have haddrs : ∀ v ∈ src.iovs, ∀ x ∈ v, x ∈ src.addrs := fun v hv x hx =>
    mem_flatMap.mpr ⟨v, hv, mem_addrs.mpr hx⟩
  exact { hsrc with
    known := fun v hv hdflt x hx => ⟨haddrs v hv x hx, hsrc.notMem_object hv hdflt hx⟩
    heap := fun v hv x hx => hheap x (haddrs v hv x hx)
    out := fun v hv x hx a ha => hus.addrs a ha x (haddrs v hv x hx)
    stale := h.stale
    lim := h.lim }

/-- A block of the other queue holds none of the bytes behind the callback that frees it. -/
theorem Taken.passed {m1 : Arena} {new : List ℕ} {c : Uiocb} {b : Region} {k : ℕ} {S : ℕ → Prop}
    {dflt : Region} (htaken : Taken hp live S dflt src.iovs u m u1 m1 new) (hsrc : Own live src)
    (hc : c ∈ src.uiocbs) (hb : b ∈ c.block) (hareas : ∀ a ∈ u1.areas, a.Apart b)
    (hk : c.nbytes - src.nrembytes ≤ k) : ∀ x ∈ new.drop k, x ∉ b := by
  intro y hy
  have hdrop := forall₂_drop k htaken.placed
  obtain ⟨i, hi, rfl⟩ := getElem_of_mem hy
  have hlen := hdrop.length_eq
  have hi' : i < ((src.iovs.flatMap Region.addrs).drop k).length := by omega
  rcases List.forall₂_iff_get.mp hdrop |>.2 i hi' hi with hsame | ⟨a, ha, hya⟩
  · have hmem : ((src.iovs.flatMap Region.addrs).drop k).get ⟨i, hi'⟩ ∈
        src.addrs.drop (c.nbytes - src.nrembytes) :=
      drop_subset_drop_left _ hk (get_mem _ _)
    have hout := hsrc.passed c hc b hb _ hmem
    rw [← hsame] at hout
    exact hout
  · exact (hareas a ha).notMem hya

theorem take_spec (h : Own m.live u) (hsrc : Own m.live src) (hus : Avoids u src)
    (hsu : Avoids src u) (hserved : Served hp m.live u)
    (hheap : ∀ x ∈ src.addrs, ∀ r, FromHeap hp m.live r → x ∉ r) (htake : CanTake hp m.live src u) :
    ∃ u1 m1 new, take hp src u m = some (u1.adopt (shifted src u), src.emptied, m1) ∧
      Taken hp m.live (Stays src) src.default src.iovs u m u1 m1 new ∧
      Own m1.live (u1.adopt (shifted src u)) := by
  obtain ⟨u1, m1, new, heq, htaken⟩ := takeLoop_spec (fun x hx => hheap x hx.1) src.iovs h hserved
    (List.Subset.refl _) (htake.takeable hsrc hus hheap)
  have happ := htaken.appended
  have hused : src.used ⊆ src.areas := (used_sublist_areas src).subset
  have hareas : ∀ a ∈ u1.areas, ∀ b ∈ src.used, a.Apart b := by
    intro a ha b hb
    rcases happ.areas a ha with ha | ⟨live, size, hlive, rfl⟩
    · exact hus.areas a ha b (hused hb)
    · exact hserved.live live size hlive b (hlive (hsrc.live b (src.used_subset_blocks hb)).1)
  refine ⟨u1, m1, new, by rw [take, heq]; rfl, htaken, { happ.own with
    apart := ?_
    live := ?_
    passed := ?_ }⟩
  · rw [areas_adopt]
    exact pairwise_append.mpr
      ⟨happ.own.apart, hsrc.apart.sublist (used_sublist_areas src), hareas⟩
  · intro b hb
    have hblocks := (List.cons.inj (areas_adopt src u u1)).2
    rw [hblocks] at hb
    rcases mem_append.mp hb with hb | hb
    · exact happ.own.live b hb
    · obtain ⟨hmem, hpos⟩ := hsrc.live b (src.used_subset_blocks hb)
      exact ⟨happ.live hmem, hpos⟩
  · intro c hc b hb x hx
    rcases mem_append.mp hc with hc | hc
    · exact happ.own.passed c hc b hb x hx
    · obtain ⟨c0, hc0, rfl⟩ := mem_map.mp hc
      have hmem : b ∈ src.used := mem_filterMap.mpr ⟨c0, hc0, hb⟩
      have haddrs : (u1.adopt (shifted src u)).addrs = u.addrs ++ new := happ.addrs
      have hnrem : (u1.adopt (shifted src u)).nrembytes = u.nrembytes := happ.nrembytes
      rw [haddrs, hnrem, drop_append, mem_append, ← h.bytes] at hx
      rcases hx with hx | hx
      · exact hsu.addrs b (hused hmem) x (mem_of_mem_drop hx)
      · exact htaken.passed hsrc hc0 hb (fun a ha => hareas a ha b hmem) (le_shift _ _ _ _) x hx

end Queues

end Suio

end SelfCertifyingFS.Async
