import Sfs.Async.ItreeLinks

/-!
# Insertion keeps a red-black tree

The loop of `itree_insert_fix` has a red element in view whose parent may be red as
well; all else is as in a red-black tree. Either the offence moves up two levels, or
it is removed by one or two rotations. The order of the elements does not change.
-/

namespace SelfCertifyingFS.Async

open Foundations RBTree Path List

namespace Itree

variable {ν : Type*} {t : Itree ν} {d : Side} {a b s y : RBTree ν} {x px gp : ν} {p q : Path ν}
  {h fuel : ℕ}

/-- The program returns a red-black tree with these elements in this order. -/
def Yields (r : Option (Itree ν)) (l : List ν) : Prop :=
  ∃ t T, r = some t ∧ t.Rep T ∧ T.IsRedBlack ∧ T.toList = l

variable [DecidableEq ν]

theorem Rep.blacken {T : RBTree ν} (hrep : t.Rep T) {r : ν} (hr : t.root = some r) :
    (t.setColor r .black).Rep T.blacken := by
  cases T with
  | leaf =>
    rw [hrep.root] at hr
    cases hr
  | node c l n m =>
    rw [hrep.root] at hr
    cases hr
    have hplace : t.Rep (plug [] (bend .left c l r m)) := hrep
    exact hplace.setColor .black

theorem insertFixLoop_done (hrep : t.Rep (p.plug (bend d .red a x b))) (hp : p.Fits h)
    (hx : (bend d .red a x b).Valid h) (hblack : p = [] ∨ p.AllowsRed) :
    Yields (insertFixLoop (fuel + 1) x t) (p.plug (bend d .red a x b)).toList := by
  have hcolor : ¬t.color (t.up x) = .red := by
    rw [hrep.up]
    rcases hblack with rfl | hblack
    · rintro ⟨⟩
    · cases p with
      | nil => exact hblack.elim
      | cons f p =>
        have hf : f.color = .black := hblack
        rw [plug_cons] at hrep
        have hread := hrep.color
        rw [root_bend, color_bend, hf] at hread
        have hup : Path.up (f :: p) = some f.node := rfl
        rw [hup, hread]
        rintro ⟨⟩
  obtain ⟨r, hr⟩ : ∃ r, t.root = some r := by
    rw [hrep.root]
    refine Option.ne_none_iff_exists'.mp fun hnone => ?_
    have hmem : x ∈ (p.plug (bend d .red a x b)).toList :=
      mem_plug.mpr (.inl (mem_bend.mpr (.inr (.inl rfl))))
    rw [root_eq_none.mp hnone] at hmem
    cases hmem
  have hloop : insertFixLoop (fuel + 1) x t = some (t.setColor r .black) := by
    rw [insertFixLoop, if_neg hcolor, hr]
    rfl
  refine ⟨_, _, hloop, hrep.blacken hr, ?_, toList_blacken _⟩
  rcases hblack with rfl | hblack
  · exact hx.isRedBlack_blacken
  · have hred := isRedBlack_plug hp hx (.inr hblack)
    rw [blacken_of_black hred.root]
    exact hred

theorem turnOut_spec {dx : Side} (hrep : t.Rep (q.plug (bend dx .red (bend d .red a x b) px s)))
    (hx : (bend d .red a x b).Valid h) (hs : s.Valid h) (hsc : s.color = .black) :
    ∃ x' t' a' b' m s', t.turnOut d x px = some (x', t') ∧
      t'.Rep (q.plug (bend d .red (bend d .red a' x' b') m s')) ∧
      (bend d .red a' x' b').Valid h ∧ s'.Valid h ∧ s'.color = .black ∧
      (bend d .red (bend d .red a' x' b') m s').toList =
        (bend dx .red (bend d .red a x b) px s).toList := by
  obtain ⟨-, -, -, -, hdisj⟩ := nodup_bend hrep.nodup_parts.1
  have hxs : s.root ≠ some x := fun heq =>
    hdisj x (mem_bend.mpr (.inr (.inl rfl))) (mem_walk_of_root heq)
  rcases d.eq_or_eq_other dx with rfl | rfl
  · -- it is outside already
    have hout : t.turnOut dx x px = some (x, t) := by
      rw [turnOut, if_neg]
      · rfl
      · rwa [hrep.child_other]
    exact ⟨x, t, a, b, px, s, hout, hrep, hx, hs, hsc, rfl⟩
  · have hchild : t.child d.other px = some x := by rw [hrep.child, root_bend]
    rw [bend_other] at hrep
    obtain ⟨t', hrot, hrep'⟩ := hrep.rotate
    have hin : t.turnOut d x px = some (px, t') := by
      rw [turnOut, if_pos hchild, hrot]
      rfl
    obtain ⟨ha, hb, hac, hbc⟩ := valid_bend_red.mp hx
    refine ⟨px, t', s, a, x, b, hin, hrep', valid_bend_red.mpr ⟨hs, ha, hsc, hac⟩, hb, hbc, ?_⟩
    rw [bend_other]
    exact toList_eq_of_walk d (by simp)

section Loop

/-- The element in view with its parent and its grandparent. -/
structure RedParent (t : Itree ν) (x px gp : ν) (d : Side) : Prop where
  up : t.up x = some px
  red : t.color (some px) = .red
  upUp : t.up px = some gp
  side : (if t.child .left gp = some px then Side.left else Side.right) = d

variable {dx dg : Side} {yn : ν}

theorem Rep.redParent (hrep : t.Rep
    (p.plug (bend dg .black (bend dx .red (bend d .red a x b) px s) gp y))) :
    RedParent t x px gp dg := by
  have hpx : t.Rep (plug (⟨dg, .black, gp, y⟩ :: p) (bend dx .red (bend d .red a x b) px s)) := hrep
  have hx : t.Rep (plug (⟨dx, .red, px, s⟩ :: ⟨dg, .black, gp, y⟩ :: p)
      (bend d .red a x b)) := hrep
  obtain ⟨-, -, -, -, hdisj⟩ := nodup_bend hrep.nodup_parts.1
  have hcolor := hpx.color
  rw [root_bend, color_bend] at hcolor
  have hside : y.root ≠ (bend dx .red (bend d .red a x b) px s).root := by
    rw [root_bend]
    exact fun heq => hdisj px (mem_bend.mpr (.inr (.inl rfl))) (mem_walk_of_root heq)
  have hd := hrep.side hside
  rw [root_bend] at hd
  exact ⟨hx.up, hcolor, hpx.up, hd⟩

theorem insertFixLoop_turn {x' m : ν} {t' t'' : Itree ν} (hview : RedParent t x px gp d)
    (hyblack : t.color (t.child d.other gp) = .black) (hturn : t.turnOut d x px = some (x', t'))
    (hm : t'.up x' = some m) (hgp' : (t'.setColor m .black).up m = some gp)
    (hrot : ((t'.setColor m .black).setColor gp .red).rotate d.other gp = some t'') :
    insertFixLoop (fuel + 1) x t = insertFixLoop fuel x' t'' := by
  have hnot : ¬t.color (t.child d.other gp) = .red := by
    rw [hyblack]
    rintro ⟨⟩
  simp [insertFixLoop, hview.up, hview.red, hview.upUp, hview.side, if_neg hnot,
    hturn, hm, hgp', hrot, Option.bind_some]

theorem recolor_spec {ya yb : RBTree ν} (hrep : t.Rep (p.plug
    (bend dg .black (bend dx .red (bend d .red a x b) px s) gp (bend dg .red ya yn yb)))) :
    Rep (((t.setColor px .black).setColor yn .black).setColor gp .red) (p.plug
      (bend dg .red (bend dx .black (bend d .red a x b) px s) gp (bend dg .black ya yn yb))) := by
  have hpx := hrep.setColor_child .black
  have hyn := hpx.setColor_other .black
  exact hyn.setColor .red

/-- With a black uncle the parent takes the place of the grandparent. -/
theorem turn_spec {m : ν} {a' b' s' : RBTree ν} {x' : ν} (hrep : t.Rep (p.plug
    (bend d .black (bend d .red (bend d .red a' x' b') m s') gp y))) :
    t.up x' = some m ∧ (t.setColor m .black).up m = some gp ∧
      ∃ t', ((t.setColor m .black).setColor gp .red).rotate d.other gp = some t' ∧
        t'.Rep (p.plug (bend d .black (bend d .red a' x' b') m (bend d .red s' gp y))) := by
  have hx' : t.Rep (plug (⟨d, .red, m, s'⟩ :: ⟨d, .black, gp, y⟩ :: p)
      (bend d .red a' x' b')) := hrep
  have hm : (t.setColor m .black).Rep (plug (⟨d, .black, gp, y⟩ :: p)
      (bend d .black (bend d .red a' x' b') m s')) := hrep.setColor_child .black
  have hgp := Rep.setColor (hrep.setColor_child .black) .red
  rw [← bend_other, ← bend_other d .black] at hgp
  obtain ⟨t', hrot, hrep'⟩ := hgp.rotate
  rw [bend_other, bend_other] at hrep'
  exact ⟨hx'.up, hm.up, t', hrot, hrep'⟩

theorem insertFixLoop_redUncle {ya yb : RBTree ν} (hrep : t.Rep (p.plug
    (bend dg .black (bend dx .red (bend d .red a x b) px s) gp (bend dg .red ya yn yb))))
    (hx : (bend d .red a x b).Valid h) (hs : s.Valid h) (hy : (bend dg .red ya yn yb).Valid h) :
    ∃ t' a' b', insertFixLoop (fuel + 1) x t = insertFixLoop fuel gp t' ∧
      t'.Rep (p.plug (bend dg .red a' gp b')) ∧ (bend dg .red a' gp b').Valid (h + 1) ∧
      (bend dg .red a' gp b').toList = (bend dg .black (bend dx .red (bend d .red a x b) px s) gp
        (bend dg .red ya yn yb)).toList := by
  have hyn : t.child dg.other gp = some yn := by rw [hrep.child_other, root_bend]
  have hynred : t.color (some yn) = .red := by rw [← hyn, hrep.color_child_other, color_bend]
  obtain ⟨hya, hyb, -, -⟩ := valid_bend_red.mp hy
  have hview := hrep.redParent
  refine ⟨_, _, _, ?_, recolor_spec hrep, ?_, ?_⟩
  · simp [insertFixLoop, hview.up, hview.red, hview.upUp, hview.side, hyn, hynred, Option.bind_some]
  · exact valid_bend_red.mpr ⟨valid_bend_black.mpr ⟨h, rfl, hx, hs⟩,
      valid_bend_black.mpr ⟨h, rfl, hya, hyb⟩, color_bend, color_bend⟩
  · cases dg <;> cases dx <;> rfl

theorem insertFixLoop_blackUncle
    (hrep : t.Rep (p.plug (bend dg .black (bend dx .red (bend d .red a x b) px s) gp y)))
    (hp : p.Fits (h + 1)) (hx : (bend d .red a x b).Valid h) (hs : s.Valid h)
    (hsc : s.color = .black) (hy : y.Valid h) (hyc : y.color = .black) :
    Yields (insertFixLoop (fuel + 2) x t)
      (p.plug (bend dg .black (bend dx .red (bend d .red a x b) px s) gp y)).toList := by
  have hview := hrep.redParent
  have hcolor : t.color (t.child dg.other gp) = .black := by rw [hrep.color_child_other, hyc]
  -- the element is seen from the side of its parent
  obtain ⟨a', b', hxd⟩ := exists_bend dg d .red a x b
  rw [hxd] at hrep hx ⊢
  have hpx : t.Rep (plug (⟨dg, .black, gp, y⟩ :: p)
    (bend dx .red (bend dg .red a' x b') px s)) := hrep
  obtain ⟨x', t', a1, b1, m, s', hturn, hrep', hx', hs', hsc', hlist⟩ := turnOut_spec hpx hx hs hsc
  obtain ⟨hm, hgp', t'', hrot, hrep''⟩ := turn_spec hrep'
  have hfits : Path.Fits (⟨dg, .black, m, bend dg .red s' gp y⟩ :: p) h :=
    .black (valid_bend_red.mpr ⟨hs', hy, hsc', hyc⟩) hp
  have hyields : Yields (insertFixLoop (fuel + 1) x' t'') (plug
      (⟨dg, .black, m, bend dg .red s' gp y⟩ :: p) (bend dg .red a1 x' b1)).toList :=
    insertFixLoop_done hrep'' hfits hx' (.inr rfl)
  have hsame : (plug (⟨dg, .black, m, bend dg .red s' gp y⟩ :: p)
      (bend dg .red a1 x' b1)).toList = (plug (⟨dg, .black, gp, y⟩ :: p)
        (bend dg .red (bend dg .red a1 x' b1) m s')).toList := by
    rw [plug_cons]
    exact toList_plug (toList_eq_of_walk dg (by simp))
  rw [insertFixLoop_turn hview hcolor hturn hm hgp' hrot]
  rw [hsame, toList_plug hlist] at hyields
  exact hyields

theorem insertFixLoop_spec (hrep : t.Rep (p.plug (bend d .red a x b))) (hp : p.Fits h)
    (hx : (bend d .red a x b).Valid h) (hfuel : p.length < fuel) :
    Yields (insertFixLoop fuel x t) (p.plug (bend d .red a x b)).toList := by
  induction fuel generalizing t d a b x p h with
  | zero => omega
  | succ fuel ih =>
    cases hp with
    | root => exact insertFixLoop_done hrep .root hx (.inl rfl)
    | black hs hp => exact insertFixLoop_done hrep (.black hs hp) hx (.inr rfl)
    | @red dx px s p h hs hsc hallows hp =>
      cases hp with
      | root => exact hallows.elim
      | red _ _ _ _ => cases hallows
      | @black dg gp y p h hy hp =>
        simp only [length_cons] at hfuel
        have hgp : t.Rep (p.plug
          (bend dg .black (bend dx .red (bend d .red a x b) px s) gp y)) := hrep
        rcases leaf_or_bend dg y with rfl | ⟨c, ya, yn, yb, rfl⟩
        · obtain ⟨fuel, rfl⟩ : ∃ k, fuel = k + 1 := Nat.exists_eq_add_one.mpr (by omega)
          exact insertFixLoop_blackUncle hgp hp hx hs hsc hy rfl
        · cases c with
          | black =>
            obtain ⟨fuel, rfl⟩ : ∃ k, fuel = k + 1 := Nat.exists_eq_add_one.mpr (by omega)
            exact insertFixLoop_blackUncle hgp hp hx hs hsc hy color_bend
          | red =>
            obtain ⟨t', a', b', hloop, hrep', hx', hlist⟩ := insertFixLoop_redUncle hgp hx hs hy
            have hyields := ih hrep' hp hx' (by omega)
            rw [toList_plug hlist] at hyields
            rw [hloop]
            exact hyields

end Loop

section Descent

variable {cmp : ν → ν → ℤ} {z : ν}

/-- The side on which `z` goes past an element. -/
def sideOf (cmp : ν → ν → ℤ) (z n : ν) : Side := if cmp z n < 0 then .left else .right

omit [DecidableEq ν] in
theorem child_sideOf (cmp : ν → ν → ℤ) (z n : ν) (t : Itree ν) :
    (if cmp z n < 0 then t.child .left n else t.child .right n) = t.child (sideOf cmp z n) n := by
  unfold sideOf
  split <;> rfl

variable (cmp z) in
omit [DecidableEq ν] in
/-- The descent ends at an empty place, and passes every element on its side. -/
theorem descend_spec (hrep : t.Rep (p.plug s)) (hfuel : s.toList.length < fuel) (r : ℤ) :
    ∃ q : Path ν, plug (q ++ p) leaf = p.plug s ∧
      descend cmp z t fuel s.root p.up r =
        some (Path.up (q ++ p), (q.head?.map fun f => cmp z f.node).getD r) ∧
      ∀ f ∈ q, f.side = sideOf cmp z f.node := by
  induction fuel generalizing s p r with
  | zero => omega
  | succ fuel ih =>
    rcases leaf_or_bend .left s with rfl | ⟨c, l, n, m, rfl⟩
    · exact ⟨[], rfl, rfl, fun f hf => absurd hf not_mem_nil⟩
    · obtain ⟨a, b, hbend⟩ := exists_bend (sideOf cmp z n) .left c l n m
      rw [hbend] at hrep hfuel ⊢
      have hlen : a.toList.length < fuel := by
        rw [length_bend] at hfuel
        omega
      obtain ⟨q, hplug, hdesc, hsides⟩ :=
        ih (p := ⟨sideOf cmp z n, c, n, b⟩ :: p) hrep hlen (cmp z n)
      refine ⟨q ++ [⟨sideOf cmp z n, c, n, b⟩], ?_, ?_, ?_⟩
      · rw [append_assoc]
        exact hplug
      · rw [root_bend, descend, child_sideOf, hrep.child]
        refine hdesc.trans ?_
        cases q <;> rfl
      · intro f hf
        rcases mem_append.mp hf with hf | hf
        · exact hsides f hf
        · rw [mem_singleton.mp hf]

def attach (z : ν) (y : Option ν) (d : Side) (t : Itree ν) : Itree ν :=
  match y with
  | none => { t.setUp z y with root := some z }
  | some n => (t.setUp z y).setChild d n (some z)

theorem attach_spec (hrep : t.Rep (q.plug leaf)) (hz : z ∉ (q.plug leaf).toList)
    (hentry : t.entry z = ⟨(t.entry z).up, none, none, (t.entry z).color⟩)
    (hd : ∀ f ∈ q.head?, f.side = d) :
    (t.attach z q.up d).Rep (q.plug (bend .left (t.entry z).color leaf z leaf)) := by
  have hzq : z ∉ q.nodes := fun hmem => hz (mem_plug.mpr (.inr hmem))
  obtain ⟨-, hq, -⟩ := hrep.nodup_parts
  have hpath : LinkedPath (t.setUp z q.up).entry none q :=
    (linked_plug.mp hrep.linked).1.congr fun m hm =>
      entry_setEntry_of_ne _ fun heq => hzq (heq ▸ hm)
  have hnew : (t.setUp z q.up).entry z = ⟨q.up, none, none, (t.entry z).color⟩ := by
    rw [setUp, entry_setEntry_self, hentry]
  have hnodup : ((bend .left (t.entry z).color leaf z leaf).toList ++ q.nodes).Nodup :=
    nodup_cons.mpr ⟨hzq, hq⟩
  cases q with
  | nil => exact .of_parts rfl trivial ⟨hnew, trivial, trivial⟩ hnodup
  | cons f q =>
    obtain rfl : f.side = d := hd f rfl
    obtain ⟨hlinked, hsame⟩ := setChild_spec hpath hq (some z)
    have hzf : z ≠ f.node := by
      rintro rfl
      exact hzq (mem_append_left _ mem_cons_self)
    refine .of_parts ?_ hlinked ⟨(hsame z hzf).trans hnew, trivial, trivial⟩ hnodup
    exact hrep.root.trans (root_plug _ _)

theorem entry_cleared (t : Itree ν) (z : ν) :
    ((t.setChild .right z none).setChild .left z none).entry z =
      ⟨(t.entry z).up, none, none, (t.entry z).color⟩ := by
  rw [setChild, entry_setEntry_self, setChild, entry_setEntry_self]
  rfl

/-- `itree_insert` in three parts: the descent, the attachment and the repair. -/
theorem itreeInsert_eq {t1 : Itree ν} (ht1 : t1 = (t.setChild .right z none).setChild .left z none)
    (hdesc : t1.descend cmp z fuel t1.root none 0 =
      some (q.up, (q.head?.map fun f => cmp z f.node).getD 0))
    (hsides : ∀ f ∈ q, f.side = sideOf cmp z f.node) :
    t.itreeInsert cmp fuel z =
      (t1.attach z q.up ((q.head?.map Frame.side).getD .left)).itreeInsertFix fuel z := by
  simp only [itreeInsert, ← ht1, hdesc, Option.bind_eq_bind, Option.bind_some]
  cases q with
  | nil => rfl
  | cons f q =>
    have hside : (((f :: q).head?.map Frame.side).getD .left) = sideOf cmp z f.node :=
      hsides f mem_cons_self
    have hup : Path.up (f :: q) = some f.node := rfl
    have hres : (((f :: q).head?.map fun g => cmp z g.node).getD 0) = cmp z f.node := rfl
    rw [hside, hup, hres, sideOf]
    dsimp only
    split <;> rfl

variable (cmp) in
/-- Insertion puts the element at some place in the order, and passes the others on the sides
that the comparison gives. -/
theorem itreeInsert_spec {T : RBTree ν} (hrep : t.Rep T) (hT : T.IsRedBlack) (hz : z ∉ T.toList)
    (hfuel : T.toList.length < fuel) :
    ∃ q : Path ν, q.plug leaf = T ∧ (∀ f ∈ q, f.side = sideOf cmp z f.node) ∧
      Yields (t.itreeInsert cmp fuel z) (q.before .left ++ z :: q.after .left) := by
  obtain ⟨t1, ht1⟩ : ∃ t1, t1 = (t.setChild .right z none).setChild .left z none := ⟨_, rfl⟩
  have hrep1 : t1.Rep T := hrep.congr (ht1 ▸ rfl) fun m hm => by
    have hmz : m ≠ z := fun heq => hz (heq ▸ hm)
    rw [ht1, setChild, entry_setEntry_of_ne _ hmz, setChild, entry_setEntry_of_ne _ hmz]
  have hentry : t1.entry z = ⟨(t1.entry z).up, none, none, (t1.entry z).color⟩ := by
    rw [ht1, entry_cleared]
  obtain ⟨q, hplug, hdesc, hsides⟩ := descend_spec cmp z (p := []) hrep1 hfuel 0
  rw [append_nil] at hplug hdesc
  rw [plug_nil] at hplug
  refine ⟨q, hplug, hsides, ?_⟩
  have hinsert := itreeInsert_eq ht1 (hrep1.root ▸ hdesc) hsides
  -- an empty place is of black height zero
  obtain ⟨h, hfits, hleaf, -⟩ := fits_of_isRedBlack (hplug ▸ hT)
  obtain rfl : h = 0 := by
    cases hleaf
    rfl
  have hlen : q.length < fuel := by
    have hnodes := q.length_le_nodes
    have hplace := length_plug q leaf
    rw [hplug] at hplace
    omega
  have hhead : ∀ f ∈ q.head?, f.side = (q.head?.map Frame.side).getD .left := by
    intro f hf
    rw [hf]
    rfl
  have hattached := attach_spec (hplug ▸ hrep1) (hplug ▸ hz) hentry hhead
  have hyields := insertFixLoop_spec (hattached.setColor .red) hfits
    (valid_bend_red.mpr ⟨.leaf, .leaf, rfl, rfl⟩) hlen
  rw [toList, walk_plug] at hyields
  rw [hinsert, itreeInsertFix]
  simpa using hyields

end Descent

end Itree

end SelfCertifyingFS.Async
