import Mathlib.Tactic

/-!
# Red-black trees with a place in them

Binary trees with coloured nodes, and the paths that lead to a place in a tree. A
path is the list of the nodes above the place, nearest first, each with the side
of the place and the subtree on the other side. Left and right are alike:
statements are made for a node with a given side.
-/

namespace SelfCertifyingFS.Foundations

open List

inductive Side
  | left
  | right
  deriving DecidableEq, Repr

namespace Side

def other : Side → Side
  | left => right
  | right => left

@[simp] theorem other_ne (d : Side) : d.other ≠ d := by cases d <;> decide

@[simp] theorem ne_other (d : Side) : d ≠ d.other := by cases d <;> decide

theorem eq_or_eq_other (d d' : Side) : d' = d ∨ d' = d.other := by
  cases d <;> cases d' <;> decide

end Side

inductive Color
  | black
  | red
  deriving DecidableEq, Repr

inductive RBTree (ν : Type*)
  | leaf
  | node (c : Color) (l : RBTree ν) (n : ν) (r : RBTree ν)
  deriving DecidableEq, Repr

namespace RBTree

variable {ν : Type*} {d : Side} {c : Color} {a b s t : RBTree ν} {n : ν} {h : ℕ}

def root : RBTree ν → Option ν
  | leaf => none
  | node _ _ n _ => some n

/-- Leaves are black. -/
def color : RBTree ν → Color
  | leaf => .black
  | node c _ _ _ => c

/-- The elements from the given side to the other. -/
def walk (d : Side) : RBTree ν → List ν
  | leaf => []
  | node _ l n r =>
      match d with
      | .left => walk d l ++ n :: walk d r
      | .right => walk d r ++ n :: walk d l

abbrev toList (t : RBTree ν) : List ν := t.walk .left

/-- The node with `a` on the given side and `b` on the other. -/
def bend : Side → Color → RBTree ν → ν → RBTree ν → RBTree ν
  | .left, c, a, n, b => node c a n b
  | .right, c, a, n, b => node c b n a

theorem bend_other (d : Side) (c : Color) (a : RBTree ν) (n : ν) (b : RBTree ν) :
    bend d.other c b n a = bend d c a n b := by
  cases d <;> rfl

/-- Every tree is a leaf or a node with subtrees on the given side and on the other. -/
theorem leaf_or_bend (d : Side) (t : RBTree ν) : t = leaf ∨ ∃ c a n b, t = bend d c a n b := by
  cases t with
  | leaf => exact .inl rfl
  | node c l n r =>
    cases d
    · exact .inr ⟨c, l, n, r, rfl⟩
    · exact .inr ⟨c, r, n, l, rfl⟩

theorem exists_bend (d' : Side) (d : Side) (c : Color) (a : RBTree ν) (n : ν) (b : RBTree ν) :
    ∃ a' b', bend d c a n b = bend d' c a' n b' := by
  rcases d'.eq_or_eq_other d with rfl | rfl
  · exact ⟨a, b, rfl⟩
  · exact ⟨b, a, bend_other _ _ _ _ _⟩

@[simp] theorem root_bend : (bend d c a n b).root = some n := by cases d <;> rfl

theorem bend_ne_leaf : bend d c a n b ≠ leaf := by
  cases d <;> rintro ⟨⟩

@[simp] theorem color_bend : (bend d c a n b).color = c := by cases d <;> rfl

@[simp] theorem walk_leaf : (leaf : RBTree ν).walk d = [] := rfl

@[simp] theorem walk_bend : (bend d c a n b).walk d = a.walk d ++ n :: b.walk d := by
  cases d <;> rfl

theorem root_eq_none : t.root = none ↔ t = leaf := by
  cases t <;> simp [root]

theorem mem_walk_of_root (ht : t.root = some n) : n ∈ t.walk d := by
  rcases leaf_or_bend d t with rfl | ⟨c, a, m, b, rfl⟩
  · cases ht
  · rw [root_bend, Option.some.injEq] at ht
    simp [ht]

theorem walk_other (d : Side) (t : RBTree ν) : t.walk d.other = (t.walk d).reverse := by
  induction t with
  | leaf => rfl
  | node c l n r ihl ihr =>
    cases d
    · change r.walk .right ++ n :: l.walk .right = _
      change r.walk .right = _ at ihr
      change l.walk .right = _ at ihl
      simp [walk, ihl, ihr]
    · change l.walk .left ++ n :: r.walk .left = _
      change r.walk .left = _ at ihr
      change l.walk .left = _ at ihl
      simp [walk, ihl, ihr]

theorem toList_eq_of_walk (d : Side) (hwalk : s.walk d = t.walk d) : s.toList = t.toList := by
  cases d
  · exact hwalk
  · have hrev := congrArg List.reverse hwalk
    rwa [← walk_other, ← walk_other] at hrev

theorem length_bend : (bend d c a n b).toList.length = a.toList.length + b.toList.length + 1 := by
  cases d
  · change (a.toList ++ n :: b.toList).length = _
    rw [length_append, length_cons]
    omega
  · change (b.toList ++ n :: a.toList).length = _
    rw [length_append, length_cons]
    omega

theorem mem_walk (d d' : Side) : n ∈ t.walk d' ↔ n ∈ t.walk d := by
  rcases d.eq_or_eq_other d' with rfl | rfl
  · rfl
  · rw [walk_other, mem_reverse]

theorem nodup_walk (d d' : Side) : (t.walk d').Nodup ↔ (t.walk d).Nodup := by
  rcases d.eq_or_eq_other d' with rfl | rfl
  · rfl
  · rw [walk_other, nodup_reverse]

/-- No red node has a red child, and every path from the root down passes as many black
nodes. -/
inductive Valid : RBTree ν → ℕ → Prop
  | leaf : Valid leaf 0
  | red {l r : RBTree ν} {n : ν} {h : ℕ} : Valid l h → Valid r h →
      l.color = .black → r.color = .black → Valid (node .red l n r) h
  | black {l r : RBTree ν} {n : ν} {h : ℕ} : Valid l h → Valid r h →
      Valid (node .black l n r) (h + 1)

structure IsRedBlack (t : RBTree ν) : Prop where
  root : t.color = .black
  valid : ∃ h, t.Valid h

theorem valid_bend_red : Valid (bend d .red a n b) h ↔
    Valid a h ∧ Valid b h ∧ a.color = .black ∧ b.color = .black := by
  constructor
  · intro hv
    cases d <;> cases hv <;> exact ⟨by assumption, by assumption, by assumption, by assumption⟩
  · rintro ⟨ha, hb, hca, hcb⟩
    cases d
    · exact .red ha hb hca hcb
    · exact .red hb ha hcb hca

theorem valid_bend_black : Valid (bend d .black a n b) h ↔
    ∃ k, h = k + 1 ∧ Valid a k ∧ Valid b k := by
  constructor
  · intro hv
    cases d <;> cases hv <;> exact ⟨_, rfl, by assumption, by assumption⟩
  · rintro ⟨k, rfl, ha, hb⟩
    cases d
    · exact .black ha hb
    · exact .black hb ha

theorem Valid.bend_of_pos (hv : t.Valid (h + 1)) (d : Side) : ∃ c a n b, t = bend d c a n b := by
  rcases leaf_or_bend d t with rfl | hbend
  · cases hv
  · exact hbend

/-- The tree with a black root. -/
def blacken : RBTree ν → RBTree ν
  | leaf => leaf
  | node _ l n r => node .black l n r

@[simp] theorem toList_blacken (t : RBTree ν) : t.blacken.toList = t.toList := by
  cases t <;> rfl

theorem blacken_of_black (ht : t.color = .black) : t.blacken = t := by
  cases t with
  | leaf => rfl
  | node c l n r =>
    obtain rfl : c = .black := ht
    rfl

theorem Valid.isRedBlack_blacken (hv : t.Valid h) : t.blacken.IsRedBlack := by
  cases hv with
  | leaf => exact ⟨rfl, 0, .leaf⟩
  | red hl hr _ _ | black hl hr => exact ⟨rfl, _, .black hl hr⟩

/-- A node above a place. -/
structure Frame (ν : Type*) where
  side : Side
  color : Color
  node : ν
  sibling : RBTree ν

abbrev Path (ν : Type*) := List (Frame ν)

namespace Path

variable {p q : Path ν} {f : Frame ν}

/-- The tree with `t` at the place. -/
def plug : Path ν → RBTree ν → RBTree ν
  | [], t => t
  | f :: p, t => plug p (bend f.side f.color t f.node f.sibling)

/-- The node above the place. -/
def up (p : Path ν) : Option ν := p.head?.map Frame.node

/-- The root of the tree, if that of the subtree at the place is given. -/
def top (hole : Option ν) : Path ν → Option ν
  | [] => hole
  | f :: p => top (some f.node) p

/-- The elements that are not at the place. -/
def nodes (p : Path ν) : List ν := p.flatMap fun f => f.node :: f.sibling.toList

/-- The elements on the given side of the place. -/
def before (d : Side) : Path ν → List ν
  | [] => []
  | f :: p => before d p ++ if f.side = d then [] else f.sibling.walk d ++ [f.node]

/-- The elements on the other side. -/
def after (d : Side) : Path ν → List ν
  | [] => []
  | f :: p => (if f.side = d then f.node :: f.sibling.walk d else []) ++ after d p

@[simp] theorem plug_nil (t : RBTree ν) : plug [] t = t := rfl

theorem plug_cons (f : Frame ν) (p : Path ν) (t : RBTree ν) :
    plug (f :: p) t = plug p (bend f.side f.color t f.node f.sibling) := rfl

theorem nodes_cons (f : Frame ν) (p : Path ν) :
    nodes (f :: p) = f.node :: f.sibling.toList ++ nodes p := rfl

theorem plug_append (q p : Path ν) (t : RBTree ν) : plug (q ++ p) t = plug p (plug q t) := by
  induction q generalizing t with
  | nil => rfl
  | cons f q ih => exact ih _

theorem root_plug (p : Path ν) (t : RBTree ν) : (plug p t).root = p.top t.root := by
  induction p generalizing t with
  | nil => rfl
  | cons f p ih => rw [plug_cons, ih, root_bend, top]

/-- Above a place that is not the root, the root is a node of the path. -/
theorem exists_top (hole : Option ν) (f : Frame ν) (p : Path ν) :
    ∃ r, top hole (f :: p) = some r ∧ r ∈ nodes (f :: p) := by
  induction p generalizing hole f with
  | nil => exact ⟨f.node, rfl, mem_append_left _ mem_cons_self⟩
  | cons g p ih =>
    obtain ⟨r, hr, hmem⟩ := ih (some f.node) g
    exact ⟨r, hr, mem_append_right _ hmem⟩

theorem walk_plug (d : Side) (p : Path ν) (t : RBTree ν) :
    (plug p t).walk d = p.before d ++ t.walk d ++ p.after d := by
  induction p generalizing t with
  | nil => simp [before, after]
  | cons f p ih =>
    rw [plug_cons, ih, before, after]
    rcases d.eq_or_eq_other f.side with hd | hd
    · rw [hd]
      simp
    · rw [hd, bend_other]
      simp

theorem perm_plug (p : Path ν) (t : RBTree ν) : (plug p t).toList.Perm (t.toList ++ p.nodes) := by
  induction p generalizing t with
  | nil => simp [nodes]
  | cons f p ih =>
    have hbend : (bend f.side f.color t f.node f.sibling).toList.Perm
        (t.toList ++ f.node :: f.sibling.toList) := by
      cases f.side
      · exact Perm.refl _
      · refine List.perm_append_comm.trans ?_
        exact perm_middle.symm
    rw [nodes_cons, ← append_assoc]
    exact (ih _).trans (hbend.append_right _)

theorem nodup_plug : (plug p t).toList.Nodup ↔ (t.toList ++ p.nodes).Nodup :=
  (perm_plug p t).nodup_iff

theorem mem_plug : n ∈ (plug p t).toList ↔ n ∈ t.toList ∨ n ∈ p.nodes := by
  rw [(perm_plug p t).mem_iff, mem_append]

theorem toList_plug (hs : s.toList = t.toList) : (plug p s).toList = (plug p t).toList := by
  rw [toList, toList, walk_plug, walk_plug]
  exact congrArg (fun l => before .left p ++ l ++ after .left p) hs

theorem length_plug (p : Path ν) (t : RBTree ν) :
    (plug p t).toList.length = t.toList.length + p.nodes.length := by
  rw [(perm_plug p t).length_eq, length_append]

theorem before_other (d : Side) (p : Path ν) : before d.other p = (after d p).reverse := by
  induction p with
  | nil => rfl
  | cons f p ih =>
    rw [before, after, ih, reverse_append]
    rcases d.eq_or_eq_other f.side with hd | hd
    · rw [if_neg (by simp [hd]), if_pos hd, walk_other, reverse_cons]
    · rw [if_pos hd, if_neg (by simp [hd]), reverse_nil]

/-- What holds of the nodes that are on one side of the place holds of all elements there, if
along the tree it passes on to what comes before. -/
theorem forall_before {P : ν → Prop} (hwalk : ((plug p t).walk d).Pairwise fun m n => P n → P m)
    (hnodes : ∀ f ∈ p, f.side = d.other → P f.node) : ∀ n ∈ before d p, P n := by
  induction p generalizing t with
  | nil => exact fun n hn => absurd hn not_mem_nil
  | cons f p ih =>
    rw [plug_cons] at hwalk
    rw [forall_mem_cons] at hnodes
    obtain ⟨hf, hrest⟩ := hnodes
    intro n hn
    rcases mem_append.mp hn with hn | hn
    · exact ih hwalk hrest n hn
    · rcases d.eq_or_eq_other f.side with hd | hd
      · rw [if_pos hd] at hn
        cases hn
      · rw [if_neg (by simp [hd])] at hn
        rcases mem_append.mp hn with hn | hn
        · -- the node comes behind its sibling
          rw [walk_plug, hd, bend_other, walk_bend] at hwalk
          have hmid := (pairwise_append.mp (pairwise_append.mp hwalk).1).2.1
          exact (pairwise_append.mp hmid).2.2 n hn f.node mem_cons_self (hf hd)
        · rw [mem_singleton.mp hn]
          exact hf hd

theorem exists_plug (d : Side) (hn : n ∈ t.toList) : ∃ p c a b, t = plug p (bend d c a n b) := by
  induction t with
  | leaf => cases hn
  | node c l m r ihl ihr =>
    rcases mem_append.mp hn with hl | hr
    · obtain ⟨p, c', a, b, rfl⟩ := ihl hl
      exact ⟨p ++ [⟨.left, c, m, r⟩], c', a, b, by rw [plug_append]; rfl⟩
    · rcases mem_cons.mp hr with rfl | hr
      · rcases leaf_or_bend d (node c l n r) with hleaf | ⟨c', a, m, b, heq⟩
        · cases hleaf
        · have hroot := congrArg root heq
          rw [root_bend] at hroot
          cases hroot
          exact ⟨[], c', a, b, heq⟩
      · obtain ⟨p, c', a, b, rfl⟩ := ihr hr
        exact ⟨p ++ [⟨.right, c, m, l⟩], c', a, b, by rw [plug_append]; rfl⟩

/-- The place of the first element, which has nothing before it. -/
theorem exists_plug_first (d : Side) (ht : t ≠ leaf) :
    ∃ p c n b, t = plug p (bend d c leaf n b) ∧ before d p = [] := by
  induction t with
  | leaf => exact absurd rfl ht
  | node c l m r ihl ihr =>
    obtain ⟨a, b, hbend, ih⟩ : ∃ a b, node c l m r = bend d c a m b ∧
        (a ≠ leaf → ∃ p c n b, a = plug p (bend d c leaf n b) ∧ before d p = []) := by
      cases d
      · exact ⟨l, r, rfl, ihl⟩
      · exact ⟨r, l, rfl, ihr⟩
    rw [hbend]
    by_cases ha : a = leaf
    · exact ⟨[], c, m, b, by rw [ha, plug_nil], rfl⟩
    · obtain ⟨p, c', n, b', rfl, hp⟩ := ih ha
      refine ⟨p ++ [⟨d, c, m, b⟩], c', n, b', by rw [plug_append]; rfl, ?_⟩
      have happend : ∀ q, before d (q ++ [⟨d, c, m, b⟩]) = before d q := by
        intro q
        induction q with
        | nil => simp [before]
        | cons f q ih => rw [cons_append, before, ih, before]
      rw [happend, hp]

theorem length_le_nodes (p : Path ν) : p.length ≤ p.nodes.length := by
  induction p with
  | nil => exact le_rfl
  | cons f p ih =>
    rw [nodes_cons, length_append, length_cons, length_cons]
    omega

/-- A red node may stand at the place. -/
def AllowsRed : Path ν → Prop
  | [] => False
  | f :: _ => f.color = .black

/-- With a subtree of black height `h` at the place the tree is a red-black tree, if the colour
of the subtree's root is allowed. -/
inductive Fits : Path ν → ℕ → Prop
  | root {h : ℕ} : Fits [] h
  | red {d : Side} {n : ν} {s : RBTree ν} {p : Path ν} {h : ℕ} :
      s.Valid h → s.color = .black → AllowsRed p → Fits p h → Fits (⟨d, .red, n, s⟩ :: p) h
  | black {d : Side} {n : ν} {s : RBTree ν} {p : Path ν} {h : ℕ} :
      s.Valid h → Fits p (h + 1) → Fits (⟨d, .black, n, s⟩ :: p) h

theorem isRedBlack_plug (hp : Fits p h) (ht : t.Valid h)
    (hc : t.color = .black ∨ AllowsRed p) : (plug p t).IsRedBlack := by
  induction hp generalizing t with
  | root => exact ⟨hc.resolve_right id, _, ht⟩
  | red hs hsc hp _ ih =>
    have hblack : t.color = .black := hc.resolve_right (by rintro ⟨⟩)
    exact ih (valid_bend_red.mpr ⟨ht, hs, hblack, hsc⟩) (.inr hp)
  | black hs _ ih => exact ih (valid_bend_black.mpr ⟨_, rfl, ht, hs⟩) (.inl color_bend)

theorem fits_of_isRedBlack (h : (plug p t).IsRedBlack) :
    ∃ h, Fits p h ∧ t.Valid h ∧ (t.color = .black ∨ AllowsRed p) := by
  induction p generalizing t with
  | nil =>
    obtain ⟨hroot, h, hv⟩ := h
    exact ⟨h, .root, hv, .inl hroot⟩
  | cons f p ih =>
    obtain ⟨d, c, n, s⟩ := f
    obtain ⟨k, hp, hv, hc⟩ := ih h
    cases c with
    | black =>
      obtain ⟨k, rfl, ht, hs⟩ := valid_bend_black.mp hv
      exact ⟨k, .black hs hp, ht, .inr rfl⟩
    | red =>
      obtain ⟨ht, hs, htc, hsc⟩ := valid_bend_red.mp hv
      refine ⟨k, .red hs hsc (hc.resolve_left ?_) hp, ht, .inl htc⟩
      rw [color_bend]
      rintro ⟨⟩

theorem isRedBlack_rename {m : ν} (h : (plug p (bend d c a n b)).IsRedBlack) :
    (plug p (bend d c a m b)).IsRedBlack := by
  obtain ⟨k, hp, hv, hc⟩ := fits_of_isRedBlack h
  refine isRedBlack_plug hp ?_ (by rwa [color_bend] at hc ⊢)
  cases c with
  | red => exact valid_bend_red.mpr (valid_bend_red.mp hv)
  | black => exact valid_bend_black.mpr (valid_bend_black.mp hv)

end Path

end RBTree

end SelfCertifyingFS.Foundations
