import Sfs.Async.ItreeDelete

/-!
# Runs of insertions and removals

From an empty tree, with whatever is in the entries of the elements, every sequence
of insertions and removals ends, and leaves a red-black tree in which the elements
are sorted, those that compare equal in the order of their insertion.
-/

namespace SelfCertifyingFS.Async

open Foundations RBTree List Itree

/-- What a comparison function of the user must be: the values tell which of two elements is
smaller, and smaller or equal is transitive. -/
structure Comparison {ν : Type*} (cmp : ν → ν → ℤ) : Prop where
  flip : ∀ a b, cmp a b < 0 ↔ 0 < cmp b a
  trans : ∀ a b c, cmp a b ≤ 0 → cmp b c ≤ 0 → cmp a c ≤ 0

inductive ItreeOp (ν : Type*)
  | insert (z : ν)
  | remove (z : ν)
  deriving DecidableEq, Repr

namespace ItreeOp

variable {ν : Type*} [DecidableEq ν]

/-- The elements in the tree, the newest first. -/
def live (l : List ν) : ItreeOp ν → List ν
  | insert z => z :: l
  | remove z => l.erase z

/-- An element is inserted when it is not in the tree, and removed when it is. -/
def Admits (l : List ν) : ItreeOp ν → Prop
  | insert z => z ∉ l
  | remove z => z ∈ l

instance (l : List ν) (op : ItreeOp ν) : Decidable (op.Admits l) :=
  match op with
  | insert _ => inferInstanceAs (Decidable (_ ∉ _))
  | remove _ => inferInstanceAs (Decidable (_ ∈ _))

variable (ops : List (ItreeOp ν)) (l : List ν)

def liveAfter : List ν := ops.foldl live l

theorem length_liveAfter_le : (liveAfter ops l).length ≤ l.length + ops.length := by
  induction ops generalizing l with
  | nil => exact le_rfl
  | cons op ops ih =>
    have hop : (op.live l).length ≤ l.length + 1 := by
      cases op with
      | insert z => exact le_rfl
      | remove z => exact (List.erase_sublist.length_le).trans (Nat.le_succ _)
    have hrest := ih (op.live l)
    rw [length_cons]
    change (liveAfter ops (op.live l)).length ≤ _
    omega

/-- Every operation is admitted where it is made. -/
def Admitted : List (ItreeOp ν) → List ν → Prop
  | [], _ => True
  | op :: ops, l => op.Admits l ∧ Admitted ops (op.live l)

end ItreeOp

/-- The order of a stable sort of what is in the tree: elements that compare equal come as they
were inserted. -/
structure StablySorted {ν : Type*} (cmp : ν → ν → ℤ) (live l : List ν) : Prop where
  perm : l.Perm live
  sorted : l.Pairwise fun a b => cmp a b < 0 ∨ cmp a b = 0 ∧ [b, a].Sublist live

namespace StablySorted

variable {ν : Type*} {cmp : ν → ν → ℤ} {live : List ν} {z : ν} {l : List ν}

theorem le (h : StablySorted cmp live l) : l.Pairwise fun a b => cmp a b ≤ 0 := by
  refine h.sorted.imp ?_
  rintro a b (hlt | ⟨heq, -⟩)
  · exact hlt.le
  · exact heq.le

theorem insert {r : List ν} (h : StablySorted cmp live (l ++ r)) (hl : ∀ x ∈ l, cmp x z ≤ 0)
    (hr : ∀ x ∈ r, cmp z x < 0) : StablySorted cmp (z :: live) (l ++ z :: r) := by
  have hold : (l ++ r).Pairwise fun a b =>
      cmp a b < 0 ∨ cmp a b = 0 ∧ [b, a].Sublist (z :: live) :=
    h.sorted.imp fun hab => hab.imp_right fun heq => ⟨heq.1, heq.2.cons z⟩
  refine ⟨perm_middle.trans (h.perm.cons z), ?_⟩
  rw [pairwise_append] at hold
  obtain ⟨hll, hrr, hlr⟩ := hold
  refine pairwise_append.mpr
    ⟨hll, pairwise_cons.mpr ⟨fun x hx => .inl (hr x hx), hrr⟩, ?_⟩
  intro a ha b hb
  rcases mem_cons.mp hb with rfl | hb
  · -- the new element is the newest
    have hmem : a ∈ live := h.perm.mem_iff.mp (mem_append_left _ ha)
    rcases (hl a ha).lt_or_eq with hlt | heq
    · exact .inl hlt
    · exact .inr ⟨heq, (List.singleton_sublist.mpr hmem).cons_cons b⟩
  · exact hlr a ha b hb

theorem erase [DecidableEq ν] (h : StablySorted cmp live l) (hl : l.Nodup) (z : ν) :
    StablySorted cmp (live.erase z) (l.erase z) := by
  refine ⟨h.perm.erase z, ?_⟩
  refine (h.sorted.sublist erase_sublist).imp_of_mem ?_
  rintro a b ha hb (hlt | ⟨heq, hsub⟩)
  · exact .inl hlt
  · have haz : a ≠ z := ((hl.mem_erase_iff).mp ha).1
    have hbz : b ≠ z := ((hl.mem_erase_iff).mp hb).1
    refine .inr ⟨heq, ?_⟩
    have hpair := hsub.erase z
    rwa [erase_of_not_mem (by simp [haz.symm, hbz.symm])] at hpair

end StablySorted

namespace Itree

variable {ν : Type*} [DecidableEq ν] (cmp : ν → ν → ℤ) (fuel : ℕ) (t : Itree ν)

/-- `itree_core::insert` and `itree_core::remove`. -/
def step : ItreeOp ν → Option (Itree ν)
  | .insert z => t.itreeInsert cmp fuel z
  | .remove z => t.itreeDelete fuel z

def run (ops : List (ItreeOp ν)) : Option (Itree ν) :=
  ops.foldlM (step cmp fuel) t

variable {cmp} {t : Itree ν} {T : RBTree ν} {z : ν} {live : List ν} {fuel : ℕ}

omit [DecidableEq ν] in
/-- The place where an element is inserted: behind all that are smaller or equal, and before
all that are greater. -/
theorem place_sorted (hcmp : Comparison cmp) {q : Path ν} (hplug : q.plug leaf = T)
    (hsides : ∀ f ∈ q, f.side = sideOf cmp z f.node)
    (hT : T.toList.Pairwise fun a b => cmp a b ≤ 0) :
    (∀ x ∈ q.before .left, cmp x z ≤ 0) ∧ ∀ x ∈ q.after .left, cmp z x < 0 := by
  subst hplug
  constructor
  · refine Path.forall_before (hT.imp fun hmn hn => hcmp.trans _ _ _ hmn hn) ?_
    intro f hf hside
    have hnot : ¬cmp z f.node < 0 := by
      intro hlt
      have hleft := hsides f hf
      rw [sideOf, if_pos hlt, hside] at hleft
      cases hleft
    rw [hcmp.flip] at hnot
    exact not_lt.mp hnot
  · have hafter : ∀ x ∈ Path.before .right q, cmp z x < 0 := by
      refine Path.forall_before (t := leaf) ?_ ?_
      · have hwalk : (q.plug leaf).walk .right = (q.plug leaf).toList.reverse := walk_other .left _
        rw [hwalk, pairwise_reverse]
        refine hT.imp ?_
        intro n m hnm hn
        -- from `z < n ≤ m`
        by_contra hle
        rw [hcmp.flip, not_lt] at hle
        rw [hcmp.flip] at hn
        exact absurd (hcmp.trans _ _ _ hnm hle) (not_le.mpr hn)
      · intro f hf hside
        by_contra hnot
        have hright := hsides f hf
        rw [sideOf, if_neg hnot, hside] at hright
        cases hright
    have hrev : Path.before .right q = (q.after .left).reverse := Path.before_other .left q
    rw [hrev] at hafter
    exact fun x hx => hafter x (mem_reverse.mpr hx)

/-- What is true between two operations. -/
structure Inv (cmp : ν → ν → ℤ) (live : List ν) (t : Itree ν) (T : RBTree ν) : Prop where
  rep : t.Rep T
  redBlack : T.IsRedBlack
  perm : T.toList.Perm live
  sorted : Comparison cmp → StablySorted cmp live T.toList

theorem inv_insert (h : Inv cmp live t T) (hz : z ∉ T.toList) (hfuel : T.toList.length < fuel) :
    ∃ l r t' T', T.toList = l ++ r ∧ t.itreeInsert cmp fuel z = some t' ∧
      T'.toList = l ++ z :: r ∧ Inv cmp (z :: live) t' T' ∧
      (Comparison cmp → (∀ x ∈ l, cmp x z ≤ 0) ∧ ∀ x ∈ r, cmp z x < 0) := by
  obtain ⟨q, hplug, hsides, t', T', hinsert, hrep, hred, hlist⟩ :=
    itreeInsert_spec cmp h.rep h.redBlack hz hfuel
  have hsplit : T.toList = q.before .left ++ q.after .left := by
    rw [← hplug, toList, Path.walk_plug, walk_leaf, append_nil]
  have hplace : Comparison cmp →
      (∀ x ∈ q.before .left, cmp x z ≤ 0) ∧ ∀ x ∈ q.after .left, cmp z x < 0 :=
    fun hcmp => place_sorted hcmp hplug hsides (h.sorted hcmp).le
  refine ⟨_, _, t', T', hsplit, hinsert, hlist, ⟨hrep, hred, ?_, fun hcmp => ?_⟩, hplace⟩
  · rw [hlist]
    have hperm := h.perm
    rw [hsplit] at hperm
    exact perm_middle.trans (hperm.cons z)
  · have hsorted := h.sorted hcmp
    rw [hsplit] at hsorted
    rw [hlist]
    exact hsorted.insert (hplace hcmp).1 (hplace hcmp).2

theorem inv_remove (h : Inv cmp live t T) (hz : z ∈ T.toList) (hfuel : T.toList.length < fuel) :
    ∃ t' T', t.itreeDelete fuel z = some t' ∧ T'.toList = T.toList.erase z ∧
      Inv cmp (live.erase z) t' T' := by
  obtain ⟨t', T', hdelete, hrep, hred, hlist⟩ := itreeDelete_spec h.rep h.redBlack hz hfuel
  refine ⟨t', T', hdelete, hlist, hrep, hred, ?_, fun hcmp => ?_⟩
  · rw [hlist]
    exact h.perm.erase z
  · rw [hlist]
    exact (h.sorted hcmp).erase h.rep.nodup z

theorem inv_run (h : Inv cmp live t T) {ops : List (ItreeOp ν)} (hops : ItreeOp.Admitted ops live)
    (hfuel : live.length + ops.length < fuel) :
    ∃ t' T', t.run cmp fuel ops = some t' ∧ Inv cmp (ItreeOp.liveAfter ops live) t' T' := by
  induction ops generalizing t T live with
  | nil => exact ⟨t, T, rfl, h⟩
  | cons op ops ih =>
    obtain ⟨hop, hrest⟩ := hops
    rw [length_cons] at hfuel
    have hlen : T.toList.length < fuel := by
      rw [h.perm.length_eq]
      omega
    cases op with
    | insert z =>
      have hz : z ∉ T.toList := fun hmem => hop (h.perm.mem_iff.mp hmem)
      obtain ⟨-, -, t', T', -, hinsert, -, h', -⟩ := inv_insert h hz hlen
      obtain ⟨t'', T'', hrun, h''⟩ := ih h' hrest (by
        rw [length_cons]
        omega)
      refine ⟨t'', T'', ?_, h''⟩
      rw [run, foldlM_cons, step, hinsert]
      exact hrun
    | remove z =>
      obtain ⟨t', T', hdelete, -, h'⟩ := inv_remove h (h.perm.mem_iff.mpr hop) hlen
      obtain ⟨t'', T'', hrun, h''⟩ := ih h' hrest (by
        have hle : (live.erase z).length ≤ live.length := List.erase_sublist.length_le
        omega)
      refine ⟨t'', T'', ?_, h''⟩
      rw [run, foldlM_cons, step, hdelete]
      exact hrun

/-- `prev` goes back where `next` came from. -/
theorem prev_of_next (hrep : t.Rep T) (hfuel : T.toList.length < fuel) {m n : ν} (hn : n ∈ T.toList)
    (hnext : t.next fuel n = some (some m)) : t.prev fuel m = some (some n) := by
  obtain ⟨before, after, hlist⟩ := append_of_mem hn
  have hhead := next_spec hrep hfuel hlist
  rw [hnext] at hhead
  cases after with
  | nil => cases hhead
  | cons k after =>
    obtain rfl : m = k := by simpa using hhead
    have hsplit : T.toList = (before ++ [n]) ++ m :: after := by simpa using hlist
    have hprev := prev_spec hrep hfuel hsplit
    simpa using hprev

end Itree

/-- Every run of insertions and removals ends with a red-black tree that holds what is live, in
the order of a stable sort. From there, an element is inserted behind all that are smaller or
equal, and removed without a change to the order of the others; `first`, `next` and `prev` go
through the order, and a search returns the first element that compares equal. -/
theorem itree_runs {ν : Type*} [DecidableEq ν] (cmp : ν → ν → ℤ) (e : ν → ItreeEntry ν)
    (ops : List (ItreeOp ν)) (hops : ItreeOp.Admitted ops []) (fuel : ℕ)
    (hfuel : ops.length < fuel) :
    ∃ t T, run cmp fuel ⟨none, e⟩ ops = some t ∧ t.Rep T ∧ T.IsRedBlack ∧
      T.toList.Perm (ItreeOp.liveAfter ops []) ∧
      (Comparison cmp → StablySorted cmp (ItreeOp.liveAfter ops []) T.toList) ∧
      (∀ z ∉ T.toList, ∃ l r t' T', T.toList = l ++ r ∧ t.itreeInsert cmp fuel z = some t' ∧
        t'.Rep T' ∧ T'.IsRedBlack ∧ T'.toList = l ++ z :: r ∧
        (Comparison cmp → (∀ x ∈ l, cmp x z ≤ 0) ∧ ∀ x ∈ r, cmp z x < 0)) ∧
      (∀ z ∈ T.toList, ∃ t' T', t.itreeDelete fuel z = some t' ∧ t'.Rep T' ∧ T'.IsRedBlack ∧
        T'.toList = T.toList.erase z) ∧
      t.first fuel = some T.toList.head? ∧
      (∀ before n after, T.toList = before ++ n :: after →
        t.next fuel n = some after.head? ∧ t.prev fuel n = some before.getLast?) ∧
      (∀ n ∈ T.toList, ∀ m, t.next fuel n = some (some m) → t.prev fuel m = some (some n)) ∧
      ∀ cb, Itree.Falls cb T.toList → t.search cb fuel = some (T.toList.find? (cb · = 0)) := by
  have hstart : Itree.Inv cmp [] ⟨none, e⟩ leaf :=
    ⟨⟨rfl, trivial, nodup_nil⟩, ⟨rfl, 0, .leaf⟩, .nil, fun _ => ⟨.nil, .nil⟩⟩
  obtain ⟨t, T, hrun, h⟩ := inv_run hstart hops (by simpa using hfuel)
  have hlen : T.toList.length < fuel := by
    have hle := ItreeOp.length_liveAfter_le ops ([])
    rw [h.perm.length_eq]
    rw [length_nil] at hle
    omega
  refine ⟨t, T, hrun, h.rep, h.redBlack, h.perm, h.sorted, ?_, ?_,
    first_spec h.rep hlen.le, ?_, ?_, ?_⟩
  · intro z hz
    obtain ⟨l, r, t', T', hsplit, hinsert, hlist, h', hplace⟩ := inv_insert h hz hlen
    exact ⟨l, r, t', T', hsplit, hinsert, h'.rep, h'.redBlack, hlist, hplace⟩
  · intro z hz
    obtain ⟨t', T', hdelete, hlist, h'⟩ := inv_remove h hz hlen
    exact ⟨t', T', hdelete, h'.rep, h'.redBlack, hlist⟩
  · exact fun before n after hlist =>
      ⟨next_spec h.rep hlen hlist, prev_spec h.rep hlen hlist⟩
  · exact fun n hn m hnext => prev_of_next h.rep hlen hn hnext
  · exact fun cb hcb => search_spec h.rep hcb hlen

def cmpTens (a b : ℕ) : ℤ := (a / 10 : ℕ) - (b / 10 : ℕ)

/-- Five insertions, two of them of equal elements, and the removal of the first. -/
theorem itree_runs_tens :
    ∃ t T, run cmpTens 7 ⟨none, fun _ => ⟨none, none, none, .black⟩⟩
      [.insert 20, .insert 10, .insert 25, .insert 30, .insert 5, .remove 20] = some t ∧
      t.Rep T ∧ T.IsRedBlack ∧ T.toList.Perm [5, 30, 25, 10] := by
  have hadmitted : ItreeOp.Admitted
      [.insert 20, .insert 10, .insert 25, .insert 30, .insert 5, .remove 20] [] :=
    ⟨by decide, by decide, by decide, by decide, by decide, by decide, trivial⟩
  obtain ⟨t, T, hrun, hrep, hred, hperm, -⟩ := itree_runs cmpTens
    (fun _ => ⟨none, none, none, .black⟩) _ hadmitted 7 (by decide)
  exact ⟨t, T, hrun, hrep, hred, hperm⟩

end SelfCertifyingFS.Async
