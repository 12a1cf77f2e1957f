import Sfs.Async.ItreeLinks

/-!
# Walking and searching a tree

`first` and `next` go through the elements in the order of the tree, and `prev` goes
back. A search whose comparison falls along the tree finds the first element that
compares equal.
-/

namespace SelfCertifyingFS.Async

open Foundations RBTree List

namespace Itree

variable {ν : Type*} {t : Itree ν} {d : Side} {c : Color} {a b s T : RBTree ν} {x n : ν}
  {p : Path ν} {fuel : ℕ}

theorem extreme_spec (hrep : t.Rep (p.plug s)) (hx : s.root = some x)
    (hfuel : s.toList.length ≤ fuel) : t.extreme d fuel x = (s.walk d).head? := by
  induction fuel generalizing s p x with
  | zero =>
    have hnil := eq_nil_of_length_eq_zero (Nat.le_zero.mp hfuel)
    have hmem : x ∈ s.toList := mem_walk_of_root hx
    rw [hnil] at hmem
    cases hmem
  | succ fuel ih =>
    rcases leaf_or_bend d s with rfl | ⟨c, a, n, b, rfl⟩
    · cases hx
    · rw [root_bend, Option.some.injEq] at hx
      subst hx
      rw [extreme, hrep.child, walk_bend]
      cases ha : a.root with
      | none =>
        obtain rfl := root_eq_none.mp ha
        rfl
      | some y =>
        rw [length_bend] at hfuel
        have hnext := ih (p := ⟨d, c, n, b⟩ :: p) hrep ha (by omega)
        have hne : a.walk d ≠ [] := ne_nil_of_mem (mem_walk_of_root ha)
        dsimp only
        rw [hnext, head?_append_of_ne_nil _ hne]

theorem first_spec (hrep : t.Rep T) (hfuel : T.toList.length ≤ fuel) :
    t.first fuel = some T.toList.head? := by
  rw [first, hrep.root]
  cases hT : T.root with
  | none =>
    rw [root_eq_none.mp hT]
    rfl
  | some x =>
    have hext : t.extreme .left fuel x = T.toList.head? := extreme_spec (p := []) hrep hT hfuel
    have hne : T.toList ≠ [] := ne_nil_of_mem (mem_walk_of_root hT)
    dsimp only
    rw [itreeMinimum, hext, head?_eq_some_head hne]
    rfl

section Search

variable {cb : ν → ℤ}

/-- The comparison falls along the list, as far as its sign goes. -/
def Falls (cb : ν → ℤ) (l : List ν) : Prop :=
  l.Pairwise fun m n => (0 < cb n → 0 < cb m) ∧ (cb m < 0 → cb n < 0)

theorem find?_none_of_ne {l : List ν} (h : ∀ m ∈ l, cb m ≠ 0) : l.find? (cb · = 0) = none :=
  find?_eq_none.mpr fun m hm => by simpa using h m hm

theorem searchLoop_spec (hrep : t.Rep (p.plug s)) (hcb : Falls cb s.toList)
    (hfuel : s.toList.length < fuel) (ret : Option ν) :
    t.searchLoop cb fuel ret s.root = some ((s.toList.find? (cb · = 0)).or ret) := by
  induction fuel generalizing s p ret with
  | zero => omega
  | succ fuel ih =>
    rcases leaf_or_bend .left s with rfl | ⟨c, l, n, r, rfl⟩
    · rfl
    · have hlist : (bend .left c l n r).toList = l.toList ++ n :: r.toList := rfl
      rw [hlist] at hcb hfuel ⊢
      rw [Falls, pairwise_append, pairwise_cons] at hcb
      obtain ⟨hl, ⟨hnr, hr⟩, hlr⟩ := hcb
      rw [length_append, length_cons] at hfuel
      have hright : t.Rep (Path.plug (⟨.right, c, n, l⟩ :: p) r) := hrep
      have hchild : t.child .right n = r.root := hrep.child_other
      rw [root_bend, searchLoop, hrep.child, hchild]
      rcases lt_trichotomy (cb n) 0 with hneg | hzero | hpos
      · -- what is behind `n` compares below
        have hnone : (n :: r.toList).find? (cb · = 0) = none :=
          find?_none_of_ne (forall_mem_cons.mpr ⟨hneg.ne, fun m hm => ((hnr m hm).2 hneg).ne⟩)
        rw [if_pos hneg, ih (p := ⟨.left, c, n, r⟩ :: p) hrep hl (by omega), find?_append,
          hnone, Option.or_none]
      · -- `n` is the answer unless there is one before it
        have hfound : (n :: r.toList).find? (cb · = 0) = some n :=
          find?_cons_of_pos (by simpa using hzero)
        rw [if_neg (by omega), if_neg (by omega),
          ih (p := ⟨.left, c, n, r⟩ :: p) hrep hl (by omega), find?_append, hfound]
        cases l.toList.find? (cb · = 0) <;> rfl
      · have hnone : l.toList.find? (cb · = 0) = none :=
          find?_none_of_ne fun m hm => ((hlr m hm n mem_cons_self).1 hpos).ne'
        rw [if_neg (by omega), if_pos hpos, ih hright hr (by omega), find?_append, hnone,
          Option.none_or, find?_cons_of_neg (by simpa using hpos.ne')]

theorem search_spec (hrep : t.Rep T) (hcb : Falls cb T.toList) (hfuel : T.toList.length < fuel) :
    t.search cb fuel = some (T.toList.find? (cb · = 0)) := by
  have hloop := searchLoop_spec (p := []) hrep hcb hfuel none
  rw [Option.or_none] at hloop
  rw [search, hrep.root]
  exact hloop

end Search

section Neighbours

variable [DecidableEq ν]

theorem climb_spec (hrep : t.Rep (p.plug s)) (hx : s.root = some x) (hfuel : p.length < fuel) :
    t.climb d fuel x = some (p.after d).head? := by
  induction p generalizing s x fuel with
  | nil =>
    obtain ⟨fuel, rfl⟩ : ∃ k, fuel = k + 1 := Nat.exists_eq_add_one.mpr (by omega)
    rw [climb, hrep.up_root hx]
    rfl
  | cons f p ih =>
    obtain ⟨fuel, rfl⟩ : ∃ k, fuel = k + 1 := Nat.exists_eq_add_one.mpr (by omega)
    have hup : t.up x = some f.node := hrep.up_root hx
    rw [Path.plug_cons] at hrep
    rw [climb, hup]
    dsimp only
    rcases d.eq_or_eq_other f.side with hd | hd
    · obtain ⟨-, -, -, -, hdisj⟩ := nodup_bend hrep.nodup_parts.1
      have hother : ¬t.child d.other f.node = some x := by
        rw [← hd, hrep.child_other]
        exact fun heq => hdisj x (mem_walk_of_root hx) (mem_walk_of_root heq)
      rw [if_neg hother, Path.after, if_pos hd]
      rfl
    · have hchild : t.child d.other f.node = some x := by rw [← hd, hrep.child, hx]
      rw [if_pos hchild, ih hrep root_bend (Nat.lt_of_succ_lt_succ hfuel), Path.after,
        if_neg (by simp [hd]), nil_append]

variable {before after : List ν}

theorem neighbour_spec (hrep : t.Rep T) (hfuel : T.toList.length < fuel)
    (hwalk : T.walk d = before ++ n :: after) : t.neighbour d fuel n = some after.head? := by
  have hn : n ∈ T.toList := by
    rw [mem_walk d, hwalk]
    exact mem_append_right _ mem_cons_self
  obtain ⟨p, c, a, b, rfl⟩ := Path.exists_plug d hn
  have hnodup : ((p.plug (bend d c a n b)).walk d).Nodup := (nodup_walk .left d).mpr hrep.nodup
  obtain rfl : b.walk d ++ p.after d = after := by
    rw [hwalk] at hnodup
    have hsplit : (p.before d ++ a.walk d) ++ n :: (b.walk d ++ p.after d) =
        before ++ n :: after := by
      rw [← hwalk, Path.walk_plug]
      simp
    rw [nodup_middle, nodup_cons, mem_append, not_or] at hnodup
    exact ((append_cons_inj_of_notMem hnodup.1.1 hnodup.1.2).mp hsplit.symm).2.2.symm
  have hlen := Path.length_plug p (bend d c a n b)
  rw [length_bend] at hlen
  rw [neighbour, hrep.child_other]
  cases hb : b.root with
  | none =>
    obtain rfl := root_eq_none.mp hb
    have hpath := p.length_le_nodes
    exact climb_spec hrep root_bend (by omega)
  | some y =>
    rw [← bend_other] at hrep
    have hext : t.extreme d fuel y = (b.walk d).head? :=
      extreme_spec (p := ⟨d.other, c, n, a⟩ :: p) hrep hb (by omega)
    have hne : b.walk d ≠ [] := ne_nil_of_mem (mem_walk_of_root hb)
    dsimp only
    rw [hext, head?_append_of_ne_nil _ hne, head?_eq_some_head hne]
    rfl

/-- `next` is the element behind, in the order of the tree. -/
theorem next_spec (hrep : t.Rep T) (hfuel : T.toList.length < fuel)
    (hlist : T.toList = before ++ n :: after) : t.next fuel n = some after.head? :=
  neighbour_spec hrep hfuel hlist

/-- `prev` is the element before. -/
theorem prev_spec (hrep : t.Rep T) (hfuel : T.toList.length < fuel)
    (hlist : T.toList = before ++ n :: after) : t.prev fuel n = some before.getLast? := by
  have hwalk : T.walk .right = after.reverse ++ n :: before.reverse := by
    have hrev : T.walk .right = T.toList.reverse := walk_other .left T
    rw [hrev, hlist]
    simp
  have hprev := neighbour_spec hrep hfuel hwalk
  rwa [head?_reverse] at hprev

end Neighbours

end Itree

end SelfCertifyingFS.Async
