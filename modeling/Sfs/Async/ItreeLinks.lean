import Sfs.Async.Itree

/-!
# What the pointers of a tree say

The entries of a tree are linked as a red-black tree is shaped: every element points
to its parent and its children, and has its colour. At a place in the tree an entry
can be read and painted, and a rotation about it is one of the tree.
-/

namespace SelfCertifyingFS.Async

open Foundations RBTree List Path Itree

variable {ν : Type*}

section Entries

/-- The entry of an element with the child `a` on the given side and `b` on the other. -/
def entryOf (d : Side) (c : Color) (u a b : Option ν) : ItreeEntry ν :=
  match d with
  | .left => ⟨u, a, b, c⟩
  | .right => ⟨u, b, a, c⟩

variable {d : Side} {c : Color} {u a b : Option ν}

@[simp] theorem up_entryOf : (entryOf d c u a b).up = u := by cases d <;> rfl

@[simp] theorem color_entryOf : (entryOf d c u a b).color = c := by cases d <;> rfl

@[simp] theorem child_entryOf : (entryOf d c u a b).child d = a := by cases d <;> rfl

@[simp] theorem child_other_entryOf : (entryOf d c u a b).child d.other = b := by
  cases d <;> rfl

theorem entryOf_other : entryOf d.other c u b a = entryOf d c u a b := by cases d <;> rfl

variable (v : Option ν)

@[simp] theorem setChild_entryOf : (entryOf d c u a b).setChild d v = entryOf d c u v b := by
  cases d <;> rfl

@[simp] theorem setChild_other_entryOf :
    (entryOf d c u a b).setChild d.other v = entryOf d c u a v := by
  cases d <;> rfl

@[simp] theorem setUp_entryOf : { entryOf d c u a b with up := v } = entryOf d c v a b := by
  cases d <;> rfl

@[simp] theorem setColor_entryOf (c' : Color) :
    { entryOf d c u a b with color := c' } = entryOf d c' u a b := by
  cases d <;> rfl

end Entries

section Linked

/-- The entries of the elements are those of a subtree with the given parent. -/
def Linked (e : ν → ItreeEntry ν) : Option ν → RBTree ν → Prop
  | _, leaf => True
  | u, node c l n r =>
      e n = ⟨u, l.root, r.root, c⟩ ∧ Linked e (some n) l ∧ Linked e (some n) r

/-- The entries of the elements are those of the tree around a place, where `hole` is. -/
def LinkedPath (e : ν → ItreeEntry ν) : Option ν → Path ν → Prop
  | _, [] => True
  | hole, f :: p =>
      e f.node = entryOf f.side f.color (Path.up p) hole f.sibling.root ∧
        Linked e (some f.node) f.sibling ∧ LinkedPath e (some f.node) p

variable {e e' : ν → ItreeEntry ν} {d : Side} {c : Color} {a b t : RBTree ν} {n : ν}
  {u hole : Option ν} {p : Path ν}

theorem linked_bend : Linked e u (bend d c a n b) ↔
    e n = entryOf d c u a.root b.root ∧ Linked e (some n) a ∧ Linked e (some n) b := by
  cases d
  · rfl
  · exact and_congr Iff.rfl And.comm

theorem linked_plug : Linked e none (p.plug t) ↔ LinkedPath e t.root p ∧ Linked e p.up t := by
  induction p generalizing t with
  | nil => simp [LinkedPath, Path.up]
  | cons f p ih =>
    rw [plug_cons, ih, linked_bend, root_bend, LinkedPath]
    tauto

theorem Linked.congr (h : Linked e u t) (he : ∀ n ∈ t.toList, e' n = e n) : Linked e' u t := by
  induction t generalizing u with
  | leaf => trivial
  | node c l n r ihl ihr =>
    obtain ⟨hn, hl, hr⟩ := h
    refine ⟨?_, ihl hl fun m hm => he m ?_, ihr hr fun m hm => he m ?_⟩
    · rw [he n (mem_append_right _ mem_cons_self), hn]
    · exact mem_append_left _ hm
    · exact mem_append_right _ (mem_cons_of_mem _ hm)

theorem LinkedPath.congr (h : LinkedPath e hole p) (he : ∀ n ∈ p.nodes, e' n = e n) :
    LinkedPath e' hole p := by
  induction p generalizing hole with
  | nil => trivial
  | cons f p ih =>
    obtain ⟨hf, hs, hp⟩ := h
    refine ⟨?_, hs.congr fun m hm => he m ?_, ih hp fun m hm => he m ?_⟩
    · rw [he f.node (mem_append_left _ mem_cons_self), hf]
    · exact mem_append_left _ (mem_cons_of_mem _ hm)
    · exact mem_append_right _ hm

/-- A subtree gets another parent by a change of the entry of its root. -/
theorem Linked.reparent {v : Option ν} (h : Linked e u t) (ht : t.toList.Nodup)
    (hroot : ∀ r ∈ t.root, e' r = { e r with up := v })
    (hrest : ∀ n ∈ t.toList, t.root ≠ some n → e' n = e n) : Linked e' v t := by
  cases t with
  | leaf => trivial
  | node c l n r =>
    obtain ⟨hn, hl, hr⟩ := h
    obtain ⟨hnl, hnr⟩ : n ∉ l.toList ∧ n ∉ r.toList := by
      have hnodup : (l.toList ++ n :: r.toList).Nodup := ht
      rw [nodup_middle, nodup_cons, mem_append, not_or] at hnodup
      exact hnodup.1
    have hne : ∀ m, m ≠ n → (node c l n r).root ≠ some m :=
      fun m hm heq => hm (Option.some.inj heq).symm
    refine ⟨?_, hl.congr fun m hm => ?_, hr.congr fun m hm => ?_⟩
    · rw [hroot n rfl, hn]
    · exact hrest m (mem_append_left _ hm) (hne m fun heq => hnl (heq ▸ hm))
    · exact hrest m (mem_append_right _ (mem_cons_of_mem _ hm))
        (hne m fun heq => hnr (heq ▸ hm))

end Linked

namespace Itree

section Writing

variable [DecidableEq ν] {t : Itree ν} {m n : ν} (e : ItreeEntry ν)

@[simp] theorem entry_setEntry_self : (t.setEntry n e).entry n = e := Function.update_self _ _ _

@[simp] theorem root_setEntry : (t.setEntry n e).root = t.root := rfl

theorem entry_setEntry_of_ne (h : m ≠ n) :
    (t.setEntry n e).entry m = t.entry m := Function.update_of_ne h _ _

@[simp] theorem root_setUpOf (v w : Option ν) : (t.setUpOf v w).root = t.root := by
  cases v <;> rfl

variable {v : Option ν} (w : Option ν)

theorem entry_setUpOf_of_ne (h : v ≠ some m) : (t.setUpOf v w).entry m = t.entry m := by
  cases v with
  | none => rfl
  | some v => exact entry_setEntry_of_ne _ fun heq => h (heq ▸ rfl)

theorem entry_setUpOf_self (h : m ∈ v) : (t.setUpOf v w).entry m = { t.entry m with up := w } := by
  subst h
  exact entry_setEntry_self _

end Writing

/-- The entries of a tree are those of a red-black tree, whose elements are different. -/
structure Rep (t : Itree ν) (T : RBTree ν) : Prop where
  root : t.root = T.root
  linked : Linked t.entry none T
  nodup : T.toList.Nodup

variable {t : Itree ν} {d : Side} {c : Color} {a b s : RBTree ν} {m n : ν} {p : Path ν}

section Bend

variable (h : t.Rep (p.plug (bend d c a n b)))

include h

theorem Rep.entry : t.entry n = entryOf d c p.up a.root b.root :=
  (linked_bend.mp (linked_plug.mp h.linked).2).1

theorem Rep.up : t.up n = p.up := by
  rw [Itree.up, h.entry, up_entryOf]

theorem Rep.child : t.child d n = a.root := by
  rw [Itree.child, h.entry, child_entryOf]

theorem Rep.child_other : t.child d.other n = b.root := by
  rw [Itree.child, h.entry, child_other_entryOf]

theorem Rep.side (hne : b.root ≠ a.root) [DecidableEq ν] :
    (if t.child .left n = a.root then Side.left else Side.right) = d := by
  cases d with
  | left => rw [if_pos h.child]
  | right =>
    have hleft : t.child .left n = b.root := h.child_other
    rw [if_neg]
    rwa [hleft]

end Bend

theorem Rep.up_root (h : t.Rep (p.plug s)) (hm : s.root = some m) : t.up m = p.up := by
  rcases leaf_or_bend .left s with rfl | ⟨c, a, n, b, rfl⟩
  · cases hm
  · obtain rfl := Option.some.inj (root_bend ▸ hm)
    exact h.up

theorem Rep.color (h : t.Rep (p.plug s)) : t.color s.root = s.color := by
  cases s with
  | leaf => rfl
  | node c l n r =>
    change t.Rep (p.plug (bend .left c l n r)) at h
    exact (congrArg ItreeEntry.color h.entry).trans color_entryOf

theorem Rep.color_child (h : t.Rep (p.plug (bend d c a n b))) :
    t.color (t.child d n) = a.color := by
  rw [h.child]
  exact Rep.color (p := ⟨d, c, n, b⟩ :: p) h

theorem Rep.color_child_other (h : t.Rep (p.plug (bend d c a n b))) :
    t.color (t.child d.other n) = b.color := by
  rw [← bend_other] at h
  exact h.color_child

theorem Rep.nodup_parts (h : t.Rep (p.plug s)) : s.toList.Nodup ∧ p.nodes.Nodup ∧
    ∀ n ∈ s.toList, n ∉ p.nodes := by
  have hnodup := nodup_plug.mp h.nodup
  rw [nodup_append'] at hnodup
  exact ⟨hnodup.1, hnodup.2.1, fun n hs hp => hnodup.2.2 hs hp⟩

theorem nodup_bend (h : (bend d c a n b).toList.Nodup) : a.toList.Nodup ∧ b.toList.Nodup ∧
    n ∉ a.toList ∧ n ∉ b.toList ∧ ∀ m ∈ a.toList, m ∉ b.toList := by
  have hwalk : (a.walk d ++ n :: b.walk d).Nodup := by
    rw [← walk_bend]
    exact (nodup_walk .left d).mpr h
  rw [nodup_middle, nodup_cons, mem_append, not_or, nodup_append'] at hwalk
  obtain ⟨⟨hna, hnb⟩, ha, hb, hab⟩ := hwalk
  refine ⟨(nodup_walk d .left).mpr ha, (nodup_walk d .left).mpr hb, ?_, ?_, ?_⟩
  · rwa [mem_walk d]
  · rwa [mem_walk d]
  · intro m hma hmb
    rw [mem_walk d] at hma hmb
    exact hab hma hmb

theorem mem_bend : m ∈ (bend d c a n b).toList ↔ m ∈ a.toList ∨ m = n ∨ m ∈ b.toList := by
  rw [mem_walk d, walk_bend, mem_append, mem_cons, mem_walk .left, mem_walk .left (t := b)]

section Rules

theorem Rep.congr {t' : Itree ν} {T : RBTree ν} (h : t.Rep T) (hroot : t'.root = t.root)
    (he : ∀ m ∈ T.toList, t'.entry m = t.entry m) : t'.Rep T :=
  ⟨hroot.trans h.root, h.linked.congr he, h.nodup⟩

theorem Rep.of_parts (hroot : t.root = p.top s.root) (hpath : LinkedPath t.entry s.root p)
    (hs : Linked t.entry p.up s) (hnodup : (s.toList ++ p.nodes).Nodup) : t.Rep (p.plug s) :=
  ⟨by rw [hroot, root_plug], linked_plug.mpr ⟨hpath, hs⟩, nodup_plug.mpr hnodup⟩

variable [DecidableEq ν]

theorem Rep.setColor (h : t.Rep (p.plug (bend d c a n b))) (c' : Color) :
    (t.setColor n c').Rep (p.plug (bend d c' a n b)) := by
  obtain ⟨hs, -, hdisj⟩ := h.nodup_parts
  obtain ⟨-, -, hna, hnb, -⟩ := nodup_bend hs
  obtain ⟨hpath, hbend⟩ := linked_plug.mp h.linked
  obtain ⟨hn, ha, hb⟩ := linked_bend.mp hbend
  rw [root_bend] at hpath
  have hsame : ∀ m, m ≠ n → (t.setColor n c').entry m = t.entry m :=
    fun m hm => entry_setEntry_of_ne _ hm
  refine .of_parts ?_ ?_ (linked_bend.mpr ⟨?_, ha.congr ?_, hb.congr ?_⟩) ?_
  · rw [root_bend, ← root_bend (a := a) (b := b), ← root_plug]
    exact h.root
  · rw [root_bend]
    exact hpath.congr fun m hm => hsame m fun heq =>
      hdisj n (mem_bend.mpr (.inr (.inl rfl))) (heq ▸ hm)
  · rw [Itree.setColor, entry_setEntry_self, hn, setColor_entryOf]
  · exact fun m hm => hsame m fun heq => hna (heq ▸ hm)
  · exact fun m hm => hsame m fun heq => hnb (heq ▸ hm)
  · have hlist : (bend d c' a n b).toList = (bend d c a n b).toList := by cases d <;> rfl
    rw [hlist]
    exact nodup_plug.mp h.nodup

variable {c' : Color}

theorem Rep.setColor_child {d' : Side} (h : t.Rep (p.plug (bend d c (bend d' c' a m b) n s)))
    (k : Color) : (t.setColor m k).Rep (p.plug (bend d c (bend d' k a m b) n s)) := by
  have hplace : t.Rep (plug (⟨d, c, n, s⟩ :: p) (bend d' c' a m b)) := h
  exact hplace.setColor k

theorem Rep.setColor_other {d' : Side} (h : t.Rep (p.plug (bend d c s n (bend d' c' a m b))))
    (k : Color) : (t.setColor m k).Rep (p.plug (bend d c s n (bend d' k a m b))) := by
  rw [← bend_other] at h ⊢
  exact h.setColor_child k

/-- The node above a place points to something else there; no other entry changes. -/
theorem setChild_spec {f : Frame ν} {hole : Option ν} (hpath : LinkedPath t.entry hole (f :: p))
    (hnodup : (nodes (f :: p)).Nodup) (new : Option ν) :
    LinkedPath (t.setChild f.side f.node new).entry new (f :: p) ∧
      ∀ m ≠ f.node, (t.setChild f.side f.node new).entry m = t.entry m := by
  obtain ⟨hf, hs, hrest⟩ := hpath
  obtain ⟨hfs, hfp⟩ : f.node ∉ f.sibling.toList ∧ f.node ∉ p.nodes := by
    rw [nodes_cons, cons_append, nodup_cons, mem_append, not_or] at hnodup
    exact hnodup.1
  have hsame : ∀ m ≠ f.node, (t.setChild f.side f.node new).entry m = t.entry m :=
    fun m hm => entry_setEntry_of_ne _ hm
  refine ⟨⟨?_, hs.congr ?_, hrest.congr ?_⟩, hsame⟩
  · rw [setChild, entry_setEntry_self, hf, setChild_entryOf]
  · exact fun m hm => hsame m fun heq => hfs (heq ▸ hm)
  · exact fun m hm => hsame m fun heq => hfp (heq ▸ hm)

/-- What is above a place is changed to point to something else; no other entry changes. -/
theorem relink_spec {old : ν} (hpath : LinkedPath t.entry (some old) p) (hold : old ∉ p.nodes)
    (hnodup : p.nodes.Nodup) (hroot : t.root = p.top (some old)) (d : Side) (new : Option ν) :
    LinkedPath (t.relink d p.up old new).entry new p ∧
      (t.relink d p.up old new).root = p.top new ∧
      ∀ m ∉ p.nodes, (t.relink d p.up old new).entry m = t.entry m := by
  cases p with
  | nil => exact ⟨trivial, rfl, fun m _ => rfl⟩
  | cons f p =>
    have hf := hpath.1
    have hlink : t.relink d (Path.up (f :: p)) old new = t.setChild f.side f.node new := by
      have hup : Path.up (f :: p) = some f.node := rfl
      rw [hup, relink]
      rcases d.eq_or_eq_other f.side with hd | hd
      · rw [if_pos]
        · rw [hd]
        · rw [Itree.child, hf, hd, child_entryOf]
      · rw [if_neg]
        · rw [hd]
        · rw [Itree.child, hf, hd, entryOf_other, child_entryOf]
          intro heq
          refine hold (mem_append_left _ (mem_cons_of_mem _ ?_))
          exact mem_walk_of_root heq
    obtain ⟨hnew, hsame⟩ := setChild_spec hpath hnodup new
    rw [hlink]
    refine ⟨hnew, hroot, fun m hm => hsame m ?_⟩
    rintro rfl
    exact hm (mem_append_left _ mem_cons_self)

/-- The entries before `x` and `y` change places in what is above them. -/
def lowered (d : Side) (x y : ν) (b u : Option ν) (t : Itree ν) : Itree ν :=
  ((t.setChild d.other x b).setUpOf b (some x)).setUp y u

theorem rotate_eq {x y : ν} {u v : Option ν} (hxy : x ≠ y) (hvx : v ≠ some x)
    (hother : t.child d.other x = some y) (hy : t.child d y = v) (hup : t.up x = u) :
    t.rotate d x = some ((((t.lowered d x y v u).relink d u x (some y)).setChild d y
      (some x)).setUp x (some y)) := by
  have hchild : (t.setChild d.other x v).child d y = v := by
    rw [Itree.child, setChild, entry_setEntry_of_ne _ hxy.symm]
    exact hy
  have hup1 : ((t.setChild d.other x v).setUpOf v (some x)).up x = u := by
    rw [Itree.up, entry_setUpOf_of_ne _ hvx, setChild, entry_setEntry_self, ← hup]
    cases d <;> rfl
  have hup2 : (t.lowered d x y v u).up x = u := by
    rw [Itree.up, lowered, setUp, entry_setEntry_of_ne _ hxy]
    exact hup1
  simp only [rotate, hother, Option.bind_eq_bind, Option.bind_some, hy, hchild, hup1]
  change some ((((t.lowered d x y v u).relink d ((t.lowered d x y v u).up x) x
    (some y)).setChild d y (some x)).setUp x (some y)) = _
  rw [hup2]

theorem Rep.rotate {e : RBTree ν} {x y : ν} (h : t.Rep (p.plug (bend d c a x (bend d c' b y e)))) :
    ∃ t', t.rotate d x = some t' ∧ t'.Rep (p.plug (bend d c' (bend d c a x b) y e)) := by
  obtain ⟨hs, hp, hdisj⟩ := h.nodup_parts
  obtain ⟨-, hs', hxa, hxr, har⟩ := nodup_bend hs
  obtain ⟨hb, -, hyb, hye, hbe⟩ := nodup_bend hs'
  simp only [mem_bend, not_or] at hxr har
  obtain ⟨hxb, hxy, hxe⟩ := hxr
  have hxp : x ∉ p.nodes := hdisj x (mem_bend.mpr (.inr (.inl rfl)))
  have hyp : y ∉ p.nodes := hdisj y (mem_bend.mpr (.inr (.inr (mem_bend.mpr (.inr (.inl rfl))))))
  have hbp : ∀ m ∈ b.toList, m ∉ p.nodes := fun m hm =>
    hdisj m (mem_bend.mpr (.inr (.inr (mem_bend.mpr (.inl hm)))))
  obtain ⟨hpath, hbend⟩ := linked_plug.mp h.linked
  obtain ⟨hx, hla, hlr⟩ := linked_bend.mp hbend
  obtain ⟨hy, hlb, hle⟩ := linked_bend.mp hlr
  rw [root_bend] at hx hpath
  have hbroot : ∀ m, b.root = some m → m ∈ b.toList := fun m hm => mem_walk_of_root hm
  have hrot := rotate_eq hxy (fun heq => hxb (hbroot x heq))
    (by rw [Itree.child, hx, child_other_entryOf]) (by rw [Itree.child, hy, child_entryOf])
    (by rw [Itree.up, hx, up_entryOf])
  -- the entries before the place is relinked
  set t1 := t.lowered d x y b.root p.up with ht1
  have hlow : ∀ m, m ≠ x → m ≠ y → b.root ≠ some m → t1.entry m = t.entry m := by
    intro m hmx hmy hmb
    rw [ht1, lowered, setUp, entry_setEntry_of_ne _ hmy, entry_setUpOf_of_ne _ hmb,
      setChild, entry_setEntry_of_ne _ hmx]
  have hlowx : t1.entry x = entryOf d c p.up a.root b.root := by
    rw [ht1, lowered, setUp, entry_setEntry_of_ne _ hxy,
      entry_setUpOf_of_ne _ fun heq => hxb (hbroot x heq), setChild, entry_setEntry_self,
      hx, setChild_other_entryOf]
  have hlowy : t1.entry y = entryOf d c' p.up b.root e.root := by
    rw [ht1, lowered, setUp, entry_setEntry_self,
      entry_setUpOf_of_ne _ fun heq => hyb (hbroot y heq), setChild,
      entry_setEntry_of_ne _ (Ne.symm hxy), hy, setUp_entryOf]
  have hlowb : ∀ m ∈ b.root, t1.entry m = { t.entry m with up := some x } := by
    intro m hm
    have hmb := hbroot m hm
    have hmx : m ≠ x := fun heq => hxb (heq ▸ hmb)
    have hmy : m ≠ y := fun heq => hyb (heq ▸ hmb)
    rw [ht1, lowered, setUp, entry_setEntry_of_ne _ hmy, entry_setUpOf_self _ hm,
      setChild, entry_setEntry_of_ne _ hmx]
  have hlowroot : t1.root = p.top (some x) := by
    rw [ht1, lowered, setUp, root_setEntry, root_setUpOf, setChild, root_setEntry, h.root,
      root_plug, root_bend]
  have hlowpath : LinkedPath t1.entry (some x) p :=
    hpath.congr fun m hm => hlow m (fun heq => hxp (heq ▸ hm)) (fun heq => hyp (heq ▸ hm))
      fun heq => hbp m (hbroot m heq) hm
  obtain ⟨hrel, hrelroot, hrelsame⟩ := relink_spec hlowpath hxp hp hlowroot d (some y)
  -- the entries behind it
  set t2 := t1.relink d p.up x (some y)
  have hsame : ∀ m, m ≠ x → m ≠ y →
      ((t2.setChild d y (some x)).setUp x (some y)).entry m = t2.entry m := by
    intro m hmx hmy
    rw [setUp, entry_setEntry_of_ne _ hmx, setChild, entry_setEntry_of_ne _ hmy]
  have hfree : ∀ m, m ≠ x → m ≠ y → b.root ≠ some m → m ∉ p.nodes →
      ((t2.setChild d y (some x)).setUp x (some y)).entry m = t.entry m := by
    intro m hmx hmy hmb hmp
    rw [hsame m hmx hmy, hrelsame m hmp, hlow m hmx hmy hmb]
  refine ⟨_, hrot, .of_parts ?_ ?_
    (linked_bend.mpr ⟨?_, linked_bend.mpr ⟨?_, hla.congr ?_, hlb.reparent hb ?_ ?_⟩,
      hle.congr ?_⟩) ?_⟩
  · rw [root_bend]
    exact hrelroot
  · rw [root_bend]
    exact hrel.congr fun m hm =>
      hsame m (fun heq => hxp (heq ▸ hm)) fun heq => hyp (heq ▸ hm)
  · rw [setUp, entry_setEntry_of_ne _ (Ne.symm hxy), setChild, entry_setEntry_self,
      hrelsame y hyp, hlowy, setChild_entryOf, root_bend]
  · rw [setUp, entry_setEntry_self, setChild, entry_setEntry_of_ne _ hxy,
      hrelsame x hxp, hlowx, setUp_entryOf]
  · intro m hm
    obtain ⟨hmb, hmy, -⟩ := har m hm
    exact hfree m (fun heq => hxa (heq ▸ hm)) hmy (fun heq => hmb (hbroot m heq))
      (hdisj m (mem_bend.mpr (.inl hm)))
  · intro m hm
    have hmb := hbroot m hm
    have hmx : m ≠ x := fun heq => hxb (heq ▸ hmb)
    have hmy : m ≠ y := fun heq => hyb (heq ▸ hmb)
    rw [hsame m hmx hmy, hrelsame m (hbp m hmb), hlowb m hm]
  · intro m hm hroot
    exact hfree m (fun heq => hxb (heq ▸ hm)) (fun heq => hyb (heq ▸ hm)) hroot (hbp m hm)
  · intro m hm
    exact hfree m (fun heq => hxe (heq ▸ hm)) (fun heq => hye (heq ▸ hm))
      (fun heq => hbe m (hbroot m heq) hm)
      (hdisj m (mem_bend.mpr (.inr (.inr (mem_bend.mpr (.inr (.inr hm)))))))
  · have hlist : (bend d c' (bend d c a x b) y e).toList =
        (bend d c a x (bend d c' b y e)).toList := toList_eq_of_walk d (by simp)
    rw [hlist]
    exact nodup_plug.mp h.nodup

end Rules

end Itree

end SelfCertifyingFS.Async
