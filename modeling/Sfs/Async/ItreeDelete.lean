import Sfs.Async.ItreeInsert
import Sfs.Async.ItreeWalk

/-!
# Deletion keeps a red-black tree

When a black element is taken out, the subtree at its place lacks a black element on
every path. The loop of `itree_delete_fixup` moves the lack up, or removes it by
painting the subtree or by rotations. The order of the elements does not change.
-/

namespace SelfCertifyingFS.Async

open Foundations RBTree List Path
open Option (bind_eq_bind bind_some)

namespace Itree

variable {ν : Type*} [DecidableEq ν] {t : Itree ν} {d : Side} {c : Color}
  {a b X W wa wb : RBTree ν} {pn w : ν} {x P : Option ν} {q : Path ν} {h fuel : ℕ}

theorem deleteFixupLoop_root {T : RBTree ν} (hrep : t.Rep T) (hT : T.IsRedBlack) :
    Yields (deleteFixupLoop (fuel + 1) t.root P t) T.toList := by
  cases hr : t.root <;> rw [deleteFixupLoop, if_neg fun hgo => hgo.1 hr.symm]
  case none => exact ⟨t, T, rfl, hrep, hT, rfl⟩
  case some r =>
    have hblack := hrep.blacken hr
    rw [blacken_of_black hT.root] at hblack
    exact ⟨_, T, rfl, hblack, hT, rfl⟩

/-- At a red element it ends as well: painted black, the element makes up for the lack. -/
theorem deleteFixupLoop_red {p : Path ν} {n : ν} (hrep : t.Rep (p.plug (bend d .red a n b)))
    (hp : p.Fits h) (hn : (bend d .black a n b).Valid h) :
    Yields (deleteFixupLoop (fuel + 1) (some n) P t) (p.plug (bend d .red a n b)).toList := by
  have hcolor : t.color (some n) = .red := by
    have hread := hrep.color
    rwa [root_bend, color_bend] at hread
  have hstop : ¬(some n ≠ t.root ∧ t.color (some n) = .black) := by
    rw [hcolor]
    rintro ⟨-, ⟨⟩⟩
  rw [deleteFixupLoop, if_neg hstop]
  refine ⟨_, _, rfl, hrep.setColor .black, isRedBlack_plug hp hn (.inl color_bend), ?_⟩
  refine toList_plug ?_
  cases d <;> rfl

omit [DecidableEq ν] in
theorem sibling_of_fits (hp : Path.Fits (⟨d, c, pn, W⟩ :: q) (h + 1)) :
    W.Valid (h + 1) ∧ ∃ w, W.root = some w := by
  have hW : W.Valid (h + 1) := by
    cases hp with
    | red hW _ _ _ | black hW _ => exact hW
  obtain ⟨k, a, w, b, rfl⟩ := hW.bend_of_pos .left
  exact ⟨hW, w, root_bend⟩

/-- A red sibling is turned up; the new sibling is black. The path gets longer only if the
parent becomes red. -/
theorem lowerRed_spec (hrep : t.Rep (Path.plug (⟨d, c, pn, W⟩ :: q) X))
    (hp : Path.Fits (⟨d, c, pn, W⟩ :: q) (h + 1)) (hw : W.root = some w) :
    ∃ w' t' c' W' q', t.lowerRed d pn w = some (w', t') ∧
      t'.Rep (Path.plug (⟨d, c', pn, W'⟩ :: q') X) ∧ W'.root = some w' ∧ W'.color = .black ∧
      Path.Fits (⟨d, c', pn, W'⟩ :: q') (h + 1) ∧ (c' = .red ∨ q' = q) ∧
      (Path.plug (⟨d, c', pn, W'⟩ :: q') X).toList = (Path.plug (⟨d, c, pn, W⟩ :: q) X).toList := by
  have hplace : t.Rep (q.plug (bend d c X pn W)) := hrep
  have hcolor : t.color (some w) = W.color := by
    rw [← hw, ← hplace.child_other]
    exact hplace.color_child_other
  cases hWc : W.color with
  | black =>
    have hstay : t.lowerRed d pn w = some (w, t) := by
      rw [lowerRed, if_neg]
      · rfl
      · rw [hcolor, hWc]
        rintro ⟨⟩
    exact ⟨w, t, c, W, q, hstay, hrep, hw, hWc, hp, .inr rfl, rfl⟩
  | red =>
    cases hp with
    | red _ hblack _ _ =>
      rw [hWc] at hblack
      cases hblack
    | black hW hq =>
      obtain ⟨k, wa, m, wb, rfl⟩ := hW.bend_of_pos d
      obtain rfl : k = .red := by rwa [color_bend] at hWc
      obtain rfl : m = w := by rwa [root_bend, Option.some.injEq] at hw
      obtain ⟨hwa, hwb, hwac, hwbc⟩ := valid_bend_red.mp hW
      obtain ⟨t', hrot, hrep'⟩ := ((hplace.setColor_other .black).setColor .red).rotate
      have hnew : t'.Rep (Path.plug (⟨d, .red, pn, wa⟩ :: ⟨d, .black, m, wb⟩ :: q) X) := hrep'
      have hchild : t'.child d.other pn = wa.root := Rep.child_other hnew
      obtain ⟨k, wc, w', wd, rfl⟩ := hwa.bend_of_pos d
      have hlow : t.lowerRed d pn m = some (w', t') := by
        rw [lowerRed, if_pos (hcolor.trans hWc)]
        simp only [hrot, hchild, root_bend, bind_eq_bind, bind_some]
        rfl
      refine ⟨w', t', .red, _, _, hlow, hnew, root_bend, hwac, ?_, .inl rfl, ?_⟩
      · exact .red hwa hwac rfl (.black hwb hq)
      · rw [plug_cons, plug_cons]
        exact toList_plug (toList_eq_of_walk d (by simp))

theorem turnFar_spec
    (hrep : t.Rep (q.plug (bend d c X pn (bend d .black wa w wb)))) (hwa : wa.Valid h)
    (hwb : wb.Valid h) (hred : ¬(wa.color = .black ∧ wb.color = .black)) :
    ∃ w' t' wa' ra r rb, t.turnFar d pn w = some (w', t') ∧
      t'.Rep (q.plug (bend d c X pn (bend d .black wa' w' (bend d .red ra r rb)))) ∧
      wa'.Valid h ∧ (bend d .red ra r rb).Valid h ∧
      (bend d .black wa' w' (bend d .red ra r rb)).walk d = (bend d .black wa w wb).walk d := by
  have hW : t.Rep (Path.plug (⟨d.other, c, pn, X⟩ :: q) (bend d .black wa w wb)) := by
    rw [plug_cons]
    rwa [bend_other]
  have hcolor : t.color (t.child d.other w) = wb.color := hW.color_child_other
  cases hwbc : wb.color with
  | red =>
    rcases leaf_or_bend d wb with rfl | ⟨k, ra, r, rb, rfl⟩
    · cases hwbc
    · obtain rfl : k = .red := by rwa [color_bend] at hwbc
      have hstay : t.turnFar d pn w = some (w, t) := by
        rw [turnFar, if_neg]
        · rfl
        · rw [hcolor, hwbc]
          rintro ⟨⟩
      exact ⟨w, t, wa, ra, r, rb, hstay, hrep, hwa, hwb, rfl⟩
  | black =>
    have hwac : wa.color = .red := by
      cases hk : wa.color with
      | red => rfl
      | black => exact absurd ⟨hk, hwbc⟩ hred
    rcases leaf_or_bend d wa with rfl | ⟨k, la, l, lb, rfl⟩
    · cases hwac
    · obtain rfl : k = .red := by rwa [color_bend] at hwac
      obtain ⟨hla, hlb, -, hlbc⟩ := valid_bend_red.mp hwa
      have hl : t.child d w = some l := by rw [hW.child, root_bend]
      have hpainted := (hW.setColor_child .black).setColor .red
      rw [← bend_other, ← bend_other d .black] at hpainted
      obtain ⟨t', hrot, hrep'⟩ := hpainted.rotate
      rw [bend_other, bend_other, plug_cons] at hrep'
      rw [bend_other] at hrep'
      have hturn : t.turnFar d pn w = some (l, t') := by
        rw [turnFar, if_pos (hcolor.trans hwbc)]
        simp only [hl, hrot, hrep'.child_other, root_bend, bind_eq_bind, bind_some]
        rfl
      refine ⟨l, t', la, lb, w, wb, hturn, hrep', hla, ?_, ?_⟩
      · exact valid_bend_red.mpr ⟨hlb, hwb, hlbc, hwbc⟩
      · simp

theorem turnUp_spec {ra rb : RBTree ν} {r : ν}
    (hrep : t.Rep (q.plug (bend d c X pn (bend d .black wa w (bend d .red ra r rb))))) :
    ((t.setColor w (t.color (some pn))).setColor pn .black).child d.other w = some r ∧
      ∃ t', (((t.setColor w (t.color (some pn))).setColor pn .black).setColor r .black).rotate d
          pn = some t' ∧
        t'.Rep (q.plug (bend d c (bend d .black X pn wa) w (bend d .black ra r rb))) := by
  have hpn : t.color (some pn) = c := by
    have hread := hrep.color
    rwa [root_bend, color_bend] at hread
  rw [hpn]
  have hboth := (hrep.setColor_other c).setColor .black
  have hW : ((t.setColor w c).setColor pn .black).Rep
      (Path.plug (⟨d.other, .black, pn, X⟩ :: q) (bend d c wa w (bend d .red ra r rb))) := by
    rw [plug_cons]
    rwa [bend_other]
  have hr := hW.setColor_other .black
  rw [plug_cons] at hr
  rw [bend_other] at hr
  obtain ⟨t', hrot, hrep'⟩ := hr.rotate
  exact ⟨by rw [hW.child_other, root_bend], t', hrot, hrep'⟩

section Loop

/-- What the loop reads when it goes on. -/
structure Lacks (t : Itree ν) (x P : Option ν) (pn w : ν) (d : Side) : Prop where
  inner : x ≠ t.root
  black : t.color x = .black
  parent : x.elim P t.up = some pn
  side : (if x = t.child .left pn then Side.left else Side.right) = d
  sibling : t.child d.other pn = some w

theorem Rep.lacks (hrep : t.Rep (Path.plug (⟨d, c, pn, W⟩ :: q) X)) (hX : X.color = .black)
    (hw : W.root = some w) (hP : X = leaf → P = some pn) : Lacks t X.root P pn w d := by
  have hplace : t.Rep (q.plug (bend d c X pn W)) := hrep
  obtain ⟨hX', -, hdisj⟩ := hrep.nodup_parts
  have hne : W.root ≠ X.root := by
    rw [hw]
    intro heq
    obtain ⟨-, -, -, -, hXW⟩ := nodup_bend hplace.nodup_parts.1
    exact hXW w (mem_walk_of_root heq.symm) (mem_walk_of_root hw)
  refine ⟨?_, hrep.color.trans hX, ?_, ?_, ?_⟩
  · -- the root is above the place
    rw [hrep.root, root_plug]
    intro heq
    obtain ⟨r, hr, hmem⟩ : ∃ r, Path.top X.root (⟨d, c, pn, W⟩ :: q) = some r ∧
        r ∈ Path.nodes (⟨d, c, pn, W⟩ :: q) := exists_top _ _ _
    rw [hr] at heq
    exact hdisj r (mem_walk_of_root heq) hmem
  · rcases leaf_or_bend d X with rfl | ⟨k, a, n, b, rfl⟩
    · exact hP rfl
    · rw [root_bend]
      exact hrep.up
  · have hside := hplace.side hne
    simp only [eq_comm] at hside ⊢
    exact hside
  · rw [hplace.child_other, hw]

variable {w' : ν} {t' t'' : Itree ν}

theorem deleteFixupLoop_lift (hview : Lacks t x P pn w d)
    (hlow : t.lowerRed d pn w = some (w', t'))
    (hblack : t'.color (t'.child d w') = .black ∧ t'.color (t'.child d.other w') = .black) :
    deleteFixupLoop (fuel + 1) x P t =
      deleteFixupLoop fuel (some pn) (some pn) (t'.setColor w' .red) := by
  obtain ⟨hinner, hcolor, hparent, hside, hsib⟩ := hview
  cases x <;> dsimp only [Option.elim] at hparent
  all_goals simp only [deleteFixupLoop, ne_eq, hinner, not_false_eq_true, hcolor, and_self,
    if_true, hparent, hside, hsib, hlow, hblack, bind_eq_bind, bind_some]

theorem deleteFixupLoop_turn {w'' r : ν} {u : Itree ν} (hview : Lacks t x P pn w d)
    (hlow : t.lowerRed d pn w = some (w', t'))
    (hred : ¬(t'.color (t'.child d w') = .black ∧ t'.color (t'.child d.other w') = .black))
    (hfar : t'.turnFar d pn w' = some (w'', t''))
    (hr : ((t''.setColor w'' (t''.color (some pn))).setColor pn .black).child d.other w'' = some r)
    (hrot : (((t''.setColor w'' (t''.color (some pn))).setColor pn .black).setColor r
      .black).rotate d pn = some u) :
    deleteFixupLoop (fuel + 1) x P t = deleteFixupLoop fuel u.root (some pn) u := by
  obtain ⟨hinner, hcolor, hparent, hside, hsib⟩ := hview
  cases x <;> dsimp only [Option.elim] at hparent
  all_goals simp only [deleteFixupLoop, ne_eq, hinner, not_false_eq_true, hcolor, and_self, if_true,
    hparent, hside, hsib, hlow, if_neg hred, hfar, hr, hrot, bind_eq_bind, bind_some]

omit [DecidableEq ν] in
theorem Rep.colors_of_nephews (hrep : t.Rep (q.plug (bend d c X pn (bend d .black wa w wb)))) :
    t.color (t.child d w) = wa.color ∧ t.color (t.child d.other w) = wb.color := by
  rw [← bend_other] at hrep
  have hW : t.Rep (Path.plug (⟨d.other, c, pn, X⟩ :: q) (bend d .black wa w wb)) := hrep
  exact ⟨hW.color_child, hW.color_child_other⟩

section Nephews

variable (hview : Lacks t x P pn w d) (hlow : t.lowerRed d pn w = some (w', t'))
  (hrep : t'.Rep (q.plug (bend d c X pn (bend d .black wa w' wb))))

include hview hlow hrep

theorem deleteFixupLoop_blackNephews (hblack : wa.color = .black ∧ wb.color = .black) :
    ∃ u, deleteFixupLoop (fuel + 1) x P t = deleteFixupLoop fuel (some pn) (some pn) u ∧
      u.Rep (q.plug (bend d c X pn (bend d .red wa w' wb))) := by
  obtain ⟨hwac, hwbc⟩ := hrep.colors_of_nephews
  exact ⟨_, deleteFixupLoop_lift hview hlow ⟨hwac.trans hblack.1, hwbc.trans hblack.2⟩,
    hrep.setColor_other .red⟩

theorem deleteFixupLoop_redNephew
    (hp : Path.Fits (⟨d, c, pn, bend d .black wa w' wb⟩ :: q) (h + 1)) (hX : X.Valid h)
    (hwa : wa.Valid h) (hwb : wb.Valid h) (hred : ¬(wa.color = .black ∧ wb.color = .black)) :
    Yields (deleteFixupLoop (fuel + 2) x P t)
      (q.plug (bend d c X pn (bend d .black wa w' wb))).toList := by
  have hcolors : ¬(t'.color (t'.child d w') = .black ∧
      t'.color (t'.child d.other w') = .black) := by
    rwa [hrep.colors_of_nephews.1, hrep.colors_of_nephews.2]
  obtain ⟨w'', t'', wa', ra, r, rb, hfar, hrep', hwa', hr', hlist⟩ := turnFar_spec hrep hwa hwb hred
  obtain ⟨hr, u, hrot, hrepu⟩ := turnUp_spec hrep'
  obtain ⟨hra, hrb, -, -⟩ := valid_bend_red.mp hr'
  have hnear : (bend d .black X pn wa').Valid (h + 1) := valid_bend_black.mpr ⟨h, rfl, hX, hwa'⟩
  have hfarv : (bend d .black ra r rb).Valid (h + 1) := valid_bend_black.mpr ⟨h, rfl, hra, hrb⟩
  have hT :
      (q.plug (bend d c (bend d .black X pn wa') w'' (bend d .black ra r rb))).IsRedBlack := by
    cases hp with
    | red _ _ hallows hq =>
      exact isRedBlack_plug hq (valid_bend_red.mpr ⟨hnear, hfarv, color_bend, color_bend⟩)
        (.inr hallows)
    | black _ hq =>
      exact isRedBlack_plug hq (valid_bend_black.mpr ⟨_, rfl, hnear, hfarv⟩) (.inl color_bend)
  have hyields : Yields (deleteFixupLoop (fuel + 1) u.root (some pn) u) _ :=
    deleteFixupLoop_root hrepu hT
  rw [deleteFixupLoop_turn hview hlow hcolors hfar hr hrot]
  have hsame : (q.plug (bend d c (bend d .black X pn wa') w'' (bend d .black ra r rb))).toList =
      (q.plug (bend d c X pn (bend d .black wa w' wb))).toList := by
    refine toList_plug (toList_eq_of_walk d ?_)
    simp only [walk_bend, append_assoc, cons_append] at hlist ⊢
    rw [hlist]
  rwa [hsame] at hyields

end Nephews

theorem deleteFixupLoop_spec {p : Path ν} (hrep : t.Rep (p.plug X)) (hp : p.Fits (h + 1))
    (hX : X.Valid h) (hP : X = leaf → P = p.up) (hfuel : p.length < fuel) :
    Yields (deleteFixupLoop fuel X.root P t) (p.plug X).toList := by
  induction fuel generalizing t p X P h with
  | zero => omega
  | succ fuel ih =>
    cases hXc : X.color with
    | red =>
      rcases leaf_or_bend .left X with rfl | ⟨k, a, n, b, rfl⟩
      · cases hXc
      · obtain rfl : k = .red := by rwa [color_bend] at hXc
        obtain ⟨ha, hb, -, -⟩ := valid_bend_red.mp hX
        exact deleteFixupLoop_red hrep hp (valid_bend_black.mpr ⟨h, rfl, ha, hb⟩)
    | black =>
      cases p with
      | nil =>
        have hroot : X.root = t.root := hrep.root.symm
        rw [hroot]
        exact deleteFixupLoop_root hrep ⟨hXc, h, hX⟩
      | cons f p =>
        obtain ⟨d, c, pn, W⟩ := f
        rw [length_cons] at hfuel
        obtain ⟨hW, w, hw⟩ := sibling_of_fits hp
        have hview := hrep.lacks hXc hw hP
        obtain ⟨w', t', c', W', q, hlow, hrep', hw', hWc', hp', hpath, hlist⟩ :=
          lowerRed_spec hrep hp hw
        obtain ⟨hW', -⟩ := sibling_of_fits hp'
        obtain ⟨k, wa, m, wb, rfl⟩ := hW'.bend_of_pos d
        obtain rfl : k = .black := by rwa [color_bend] at hWc'
        obtain rfl : m = w' := by rwa [root_bend, Option.some.injEq] at hw'
        obtain ⟨j, hj, hwa, hwb⟩ := valid_bend_black.mp hW'
        obtain rfl : h = j := by omega
        rw [← hlist]
        by_cases hblack : wa.color = .black ∧ wb.color = .black
        · obtain ⟨u, hloop, hrepu⟩ : ∃ u, deleteFixupLoop (fuel + 1) X.root P t =
                deleteFixupLoop fuel (some pn) (some pn) u ∧
              u.Rep (Path.plug q (bend d c' X pn (bend d .red wa m wb))) :=
            deleteFixupLoop_blackNephews hview hlow hrep' hblack
          have hup : (bend d .black X pn (bend d .red wa m wb)).Valid (h + 1) :=
            valid_bend_black.mpr ⟨h, rfl, hX, valid_bend_red.mpr ⟨hwa, hwb, hblack.1, hblack.2⟩⟩
          have hsame : (Path.plug q (bend d c' X pn (bend d .red wa m wb))).toList =
              (Path.plug (⟨d, c', pn, bend d .black wa m wb⟩ :: q) X).toList := by
            exact toList_plug (toList_eq_of_walk d (by simp))
          rw [hloop, ← hsame]
          cases hp' with
          | red _ _ _ hq =>
            obtain ⟨fuel, rfl⟩ : ∃ k, fuel = k + 1 := Nat.exists_eq_add_one.mpr (by omega)
            exact deleteFixupLoop_red hrepu hq hup
          | black _ hq =>
            obtain rfl : q = p := hpath.resolve_left (by rintro ⟨⟩)
            have hyields := ih (P := some pn) hrepu hq hup (fun hleaf => absurd hleaf bend_ne_leaf)
              (Nat.lt_of_succ_lt_succ hfuel)
            rwa [root_bend] at hyields
        · obtain ⟨fuel, rfl⟩ : ∃ k, fuel = k + 1 := Nat.exists_eq_add_one.mpr (by omega)
          exact deleteFixupLoop_redNephew hview hlow hrep' hp' hX hwa hwb hblack

end Loop

section Unlinking

variable {y z : ν} {p : Path ν} {l R : RBTree ν}

/-- An element with at most one child is taken out. Its own entry does not change. -/
theorem unlink_spec (hrep : t.Rep (p.plug (bend d c X y leaf))) :
    (t.unlink y X.root).Rep (p.plug X) ∧ (t.unlink y X.root).entry y = t.entry y := by
  obtain ⟨hs, hp, hdisj⟩ := hrep.nodup_parts
  obtain ⟨hX, -, hyX, -, -⟩ := nodup_bend hs
  have hyp : y ∉ p.nodes := hdisj y (mem_bend.mpr (.inr (.inl rfl)))
  have hXp : ∀ m ∈ X.toList, m ∉ p.nodes := fun m hm => hdisj m (mem_bend.mpr (.inl hm))
  obtain ⟨hpath, hbend⟩ := linked_plug.mp hrep.linked
  obtain ⟨-, hlX, -⟩ := linked_bend.mp hbend
  rw [root_bend] at hpath
  have hroot : (t.setUpOf X.root p.up).root = p.top (some y) := by
    rw [root_setUpOf, hrep.root, root_plug, root_bend]
  have hpath' : LinkedPath (t.setUpOf X.root p.up).entry (some y) p :=
    hpath.congr fun m hm =>
      entry_setUpOf_of_ne _ fun heq => hXp m (mem_walk_of_root heq) hm
  obtain ⟨hrel, hrelroot, hsame⟩ := relink_spec hpath' hyp hp hroot .left X.root
  have hunlink : t.unlink y X.root = (t.setUpOf X.root p.up).relink .left p.up y X.root := by
    rw [unlink, hrep.up]
  rw [hunlink]
  refine ⟨.of_parts hrelroot hrel (hlX.reparent hX ?_ ?_) ?_, ?_⟩
  · intro m hm
    rw [hsame m (hXp m (mem_walk_of_root hm)), entry_setUpOf_self _ hm]
  · intro m hm hne
    rw [hsame m (hXp m hm), entry_setUpOf_of_ne _ hne]
  · rw [nodup_append']
    exact ⟨hX, hp, fun m hm hmp => hXp m hm hmp⟩
  · rw [hsame y hyp, entry_setUpOf_of_ne _ fun heq => hyX (mem_walk_of_root heq)]

/-- Another element takes the place of `z`. -/
theorem takePlace_spec (hrep : t.Rep (p.plug (bend .left c l z R)))
    (hy : y ∉ (p.plug (bend .left c l z R)).toList) :
    (t.takePlace y z).Rep (p.plug (bend .left c l y R)) := by
  obtain ⟨hs, hp, hdisj⟩ := hrep.nodup_parts
  obtain ⟨hl, hR, hzl, hzR, hlR⟩ := nodup_bend hs
  have hzp : z ∉ p.nodes := hdisj z (mem_bend.mpr (.inr (.inl rfl)))
  have hlp : ∀ m ∈ l.toList, m ∉ p.nodes := fun m hm => hdisj m (mem_bend.mpr (.inl hm))
  have hRp : ∀ m ∈ R.toList, m ∉ p.nodes := fun m hm => hdisj m (mem_bend.mpr (.inr (.inr hm)))
  rw [mem_plug, mem_bend, not_or, not_or, not_or] at hy
  obtain ⟨⟨hyl, -, hyR⟩, hyp⟩ := hy
  obtain ⟨hpath, hbend⟩ := linked_plug.mp hrep.linked
  obtain ⟨hz, hll, hlR'⟩ := linked_bend.mp hbend
  have hroot : t.root = p.top (some z) := by rw [hrep.root, root_plug, root_bend]
  obtain ⟨hrel, hrelroot, hsame⟩ := relink_spec hpath hzp hp hroot .left (some y)
  obtain ⟨t1, ht1⟩ : ∃ t1, t1 = t.relink .left p.up z (some y) := ⟨_, rfl⟩
  rw [← ht1] at hrel hrelroot hsame
  have hz1 : t1.entry z = ⟨p.up, l.root, R.root, c⟩ := by rw [hsame z hzp, hz]; rfl
  have hzl' : l.root ≠ some z := fun heq => hzl (mem_walk_of_root heq)
  have hzR' : R.root ≠ some z := fun heq => hzR (mem_walk_of_root heq)
  have htake : t.takePlace y z =
      ((t1.setUpOf l.root (some y)).setUpOf R.root (some y)).setEntry y
        ⟨p.up, l.root, R.root, c⟩ := by
    have hleft : t1.child .left z = l.root := by rw [Itree.child, hz1]; rfl
    have hright : (t1.setUpOf l.root (some y)).child .right z = R.root := by
      rw [Itree.child, entry_setUpOf_of_ne _ hzl', hz1]
      rfl
    have hentry : ((t1.setUpOf l.root (some y)).setUpOf R.root (some y)).entry z =
        ⟨p.up, l.root, R.root, c⟩ := by
      rw [entry_setUpOf_of_ne _ hzR', entry_setUpOf_of_ne _ hzl', hz1]
    rw [takePlace, hrep.up, ← ht1, hleft, hright, hentry]
  -- the entries of elements that are neither `y` nor a child of `z`
  have hfree : ∀ m, m ≠ y → l.root ≠ some m → R.root ≠ some m →
      (t.takePlace y z).entry m = t1.entry m := by
    intro m hmy hml hmR
    rw [htake, entry_setEntry_of_ne _ hmy, entry_setUpOf_of_ne _ hmR, entry_setUpOf_of_ne _ hml]
  have hin : ∀ {s : RBTree ν}, ∀ m ∈ s.root, m ∈ s.toList := fun m hm => mem_walk_of_root hm
  refine .of_parts ?_ ?_ (linked_bend.mpr ⟨?_, hll.reparent hl ?_ ?_, hlR'.reparent hR ?_ ?_⟩) ?_
  · rw [htake, root_setEntry, root_setUpOf, root_setUpOf, hrelroot, root_bend]
  · exact hrel.congr fun m hm => hfree m (fun heq => hyp (heq ▸ hm))
      (fun heq => hlp m (hin m heq) hm) fun heq => hRp m (hin m heq) hm
  · rw [htake, entry_setEntry_self]
    rfl
  · intro m hm
    have hml := hin m hm
    have hmy : m ≠ y := fun heq => hyl (heq ▸ hml)
    have hmR : R.root ≠ some m := fun heq => hlR m hml (hin m heq)
    rw [htake, entry_setEntry_of_ne _ hmy, entry_setUpOf_of_ne _ hmR, entry_setUpOf_self _ hm,
      hsame m (hlp m hml)]
  · intro m hm hne
    rw [hfree m (fun heq => hyl (heq ▸ hm)) hne fun heq => hlR m hm (hin m heq), hsame m (hlp m hm)]
  · intro m hm
    have hmR := hin m hm
    have hmy : m ≠ y := fun heq => hyR (heq ▸ hmR)
    have hml : l.root ≠ some m := fun heq => hlR m (hin m heq) hmR
    rw [htake, entry_setEntry_of_ne _ hmy, entry_setUpOf_self _ hm, entry_setUpOf_of_ne _ hml,
      hsame m (hRp m hmR)]
  · intro m hm hne
    rw [hfree m (fun heq => hyR (heq ▸ hm)) (fun heq => hlR m (hin m heq) hm) hne,
      hsame m (hRp m hm)]
  · have hold := nodup_plug.mp hrep.nodup
    change (l.toList ++ z :: R.toList ++ p.nodes).Nodup at hold
    change (l.toList ++ y :: R.toList ++ p.nodes).Nodup
    rw [append_assoc, cons_append, nodup_middle, nodup_cons] at hold ⊢
    refine ⟨?_, hold.2⟩
    simp only [mem_append, not_or]
    exact ⟨hyl, hyR, hyp⟩

end Unlinking

section Deletion

variable {y z : ν} {p : Path ν} {l R : RBTree ν}

omit [DecidableEq ν] in
theorem Rep.onlyChild (hrep : t.Rep (p.plug (bend d c X y leaf))) : t.onlyChild y = X.root := by
  have hchild := hrep.child
  have hother := hrep.child_other
  rw [Itree.onlyChild]
  cases d with
  | left =>
    change t.child .right y = none at hother
    rw [hchild, hother, Option.or_none]
  | right =>
    change t.child .left y = none at hother
    rw [hchild, hother, Option.none_or]

/-- The last part of `itree_delete`, with the subtree of the element that was taken out in its
place. -/
theorem fixup_spec (hrep : t.Rep (p.plug X)) (hT : (p.plug (bend d c X y leaf)).IsRedBlack)
    (hfuel : p.length < fuel) :
    Yields (if c = .black then t.itreeDeleteFixup fuel X.root p.up else some t)
      (p.plug X).toList := by
  obtain ⟨k, hp, hv, -⟩ := fits_of_isRedBlack hT
  cases c with
  | red =>
    obtain ⟨hX, -, hXc, -⟩ := valid_bend_red.mp hv
    exact ⟨t, _, rfl, hrep, isRedBlack_plug hp hX (.inl hXc), rfl⟩
  | black =>
    obtain ⟨h, rfl, hX, -⟩ := valid_bend_black.mp hv
    rw [itreeDeleteFixup, if_pos fun x (hx : x ∈ X.root) => hrep.up_root hx]
    exact deleteFixupLoop_spec hrep hp hX (fun _ => rfl) hfuel

omit [DecidableEq ν] in
theorem toList_plug_bend (p : Path ν) (c : Color) (l R : RBTree ν) (z : ν) :
    (p.plug (bend .left c l z R)).toList =
      (p.before .left ++ l.toList) ++ z :: (R.toList ++ p.after .left) := by
  rw [toList, walk_plug]
  simp

theorem erase_middle {u v : List ν} (h : (u ++ z :: v).Nodup) : (u ++ z :: v).erase z = u ++ v := by
  rw [nodup_middle, nodup_cons, mem_append, not_or] at h
  rw [erase_append_right _ h.1.1, erase_cons_head]

theorem Rep.erase (hrep : t.Rep (p.plug (bend .left c l z R))) :
    (p.plug (bend .left c l z R)).toList.erase z =
      (p.before .left ++ l.toList) ++ (R.toList ++ p.after .left) := by
  have hnodup := hrep.nodup
  rw [toList_plug_bend] at hnodup ⊢
  exact erase_middle hnodup

theorem itreeDelete_single (hrep : t.Rep (p.plug (bend d c X z leaf)))
    (hT : (p.plug (bend d c X z leaf)).IsRedBlack)
    (hfuel : (p.plug (bend d c X z leaf)).toList.length < fuel) :
    Yields (t.itreeDelete fuel z) ((p.plug (bend d c X z leaf)).toList.erase z) := by
  have hspliced : t.spliced fuel z = some z := by
    have hnone : t.child d.other z = none := hrep.child_other
    rw [spliced, if_neg]
    rintro ⟨hl, hr⟩
    cases d
    · rw [show t.child .right z = none from hnone] at hr
      cases hr
    · rw [show t.child .left z = none from hnone] at hl
      cases hl
  obtain ⟨hrep', hentry⟩ := unlink_spec hrep
  have hcolor : (t.unlink z X.root).color (some z) = c := by
    rw [color, hentry, hrep.entry, color_entryOf]
  have hdelete : t.itreeDelete fuel z = if c = .black then
      (t.unlink z X.root).itreeDeleteFixup fuel X.root p.up else some (t.unlink z X.root) := by
    simp [itreeDelete, hspliced, hrep.onlyChild, hrep.up, hcolor, bind_some, ne_eq]
  have hlen : p.length < fuel := by
    have hnodes := p.length_le_nodes
    rw [length_plug] at hfuel
    omega
  rw [hdelete]
  have hyields := fixup_spec hrep' hT hlen
  have hlist : (p.plug (bend d c X z leaf)).toList.erase z = (p.plug X).toList := by
    have hX : (p.plug X).toList = p.before .left ++ X.toList ++ p.after .left := walk_plug .left p X
    have hnil : (leaf : RBTree ν).toList = [] := rfl
    cases d with
    | left => rw [hrep.erase, hX, hnil, nil_append]
    | right =>
      have hleft : t.Rep (p.plug (bend .left c leaf z X)) := hrep
      have herase := hleft.erase
      rw [hnil, append_nil, ← append_assoc, ← hX] at herase
      exact herase
  rwa [hlist]

/-- An element with two children: the next one takes its place. -/
theorem itreeDelete_double (hrep : t.Rep (p.plug (bend .left c l z R)))
    (hT : (p.plug (bend .left c l z R)).IsRedBlack) (hl : l ≠ leaf) (hR : R ≠ leaf)
    (hfuel : (p.plug (bend .left c l z R)).toList.length < fuel) :
    Yields (t.itreeDelete fuel z) ((p.plug (bend .left c l z R)).toList.erase z) := by
  obtain ⟨m, cy, y, X, rfl, hbefore⟩ := exists_plug_first .left hR
  -- `y` is the first element below `z` on the right
  have hy : t.Rep (Path.plug (m ++ ⟨.right, c, z, l⟩ :: p) (bend .right cy X y leaf)) := by
    rw [plug_append]
    exact hrep
  have hfirst : (m.plug (bend .left cy leaf y X)).toList = y :: (X.toList ++ m.after .left) := by
    rw [toList_plug_bend, hbefore]
    rfl
  have hspliced : t.spliced fuel z = some y := by
    have hnext := next_spec hrep hfuel (toList_plug_bend p c l _ z)
    have hsucc : t.itreeSuccessor fuel z = some (some y) := by
      rw [hfirst] at hnext
      exact hnext
    have hleft : (t.child .left z).isSome := by
      rw [hrep.child, Option.isSome_iff_ne_none, ne_eq, root_eq_none]
      exact hl
    have hright : (t.child .right z).isSome := by
      have hchild : t.child .right z = _ := hrep.child_other
      rw [hchild, Option.isSome_iff_ne_none, ne_eq, root_eq_none]
      exact hR
    rw [spliced, if_pos ⟨hleft, hright⟩, hsucc]
    rfl
  obtain ⟨hsy, hnodes, hdisj⟩ := hy.nodup_parts
  obtain ⟨-, -, hyX, -, -⟩ := nodup_bend hsy
  have hyp : y ∉ Path.nodes (m ++ ⟨.right, c, z, l⟩ :: p) :=
    hdisj y (mem_bend.mpr (.inr (.inl rfl)))
  have hyz : y ≠ z := by
    rintro rfl
    refine hyp (mem_flatMap.mpr ⟨⟨.right, c, y, l⟩, ?_, mem_cons_self⟩)
    exact mem_append_right _ mem_cons_self
  -- `y` is taken out, and put where `z` was
  obtain ⟨hout, hentry⟩ := unlink_spec hy
  have hout' : (t.unlink y X.root).Rep (p.plug (bend .left c l z (m.plug X))) := by
    rw [plug_append] at hout
    exact hout
  have hynot : y ∉ (p.plug (bend .left c l z (m.plug X))).toList := by
    have hplug : (p.plug (bend .left c l z (m.plug X))).toList =
        (Path.plug (m ++ ⟨.right, c, z, l⟩ :: p) X).toList := by
      rw [plug_append]
      rfl
    rw [hplug, mem_plug, not_or]
    exact ⟨hyX, hyp⟩
  set path := m ++ ⟨.right, c, y, l⟩ :: p with hpath
  have hplaced : ((t.unlink y X.root).takePlace y z).Rep (Path.plug path X) := by
    rw [plug_append]
    exact takePlace_spec hout' hynot
  have hcolor : (t.unlink y X.root).color (some y) = cy := by
    rw [color, hentry, hy.entry, color_entryOf]
  have hup : (if t.up y = some z then some y else t.up y) = Path.up path := by
    rw [hy.up]
    cases m with
    | nil => exact if_pos rfl
    | cons f m =>
      refine if_neg fun heq => ?_
      have hfz : f.node = z := Option.some.inj heq
      rw [cons_append, nodes_cons, cons_append, nodup_cons] at hnodes
      refine hnodes.1 (mem_append_right _ (mem_flatMap.mpr
        ⟨⟨.right, c, z, l⟩, mem_append_right _ mem_cons_self, ?_⟩))
      rw [hfz]
      exact mem_cons_self
  have hdelete : t.itreeDelete fuel z = if cy = .black then
      ((t.unlink y X.root).takePlace y z).itreeDeleteFixup fuel X.root (Path.up path)
      else some ((t.unlink y X.root).takePlace y z) := by
    simp [itreeDelete, hspliced, hy.onlyChild, hcolor, hup, bind_some, ne_eq, hyz]
  have hred : (Path.plug path (bend .right cy X y leaf)).IsRedBlack := by
    rw [plug_append]
    exact isRedBlack_rename hT
  have hlen : path.length < fuel := by
    have hsame : path.length = (m ++ ⟨.right, c, z, l⟩ :: p).length := by simp [hpath]
    have hle := length_le_nodes (m ++ ⟨.right, c, z, l⟩ :: p)
    have hplug := length_plug (m ++ ⟨.right, c, z, l⟩ :: p) (bend .right cy X y leaf)
    rw [plug_append] at hplug
    have hfuel' : (Path.plug (⟨.right, c, z, l⟩ :: p)
        (m.plug (bend .right cy X y leaf))).toList.length < fuel := hfuel
    omega
  have hyields := fixup_spec hplaced hred hlen
  rw [hdelete, hrep.erase, hfirst]
  have hlist : (Path.plug path X).toList =
      p.before .left ++ l.toList ++ (y :: (X.toList ++ m.after .left) ++ p.after .left) := by
    have hplug : (Path.plug path X).toList = (p.plug (bend .left c l y (m.plug X))).toList := by
      rw [plug_append]
      rfl
    have hmX : (m.plug X).toList = m.before .left ++ X.toList ++ m.after .left :=
      walk_plug .left m X
    rw [hplug, toList_plug_bend, hmX, hbefore]
    simp
  rwa [hlist] at hyields

/-- Deletion takes the element out of the order, and changes nothing else in it. -/
theorem itreeDelete_spec {T : RBTree ν} (hrep : t.Rep T) (hT : T.IsRedBlack) (hz : z ∈ T.toList)
    (hfuel : T.toList.length < fuel) : Yields (t.itreeDelete fuel z) (T.toList.erase z) := by
  obtain ⟨p, c, l, R, rfl⟩ := exists_plug .left hz
  by_cases hl : l = leaf
  · subst hl
    exact itreeDelete_single (d := .right) hrep hT hfuel
  · by_cases hR : R = leaf
    · subst hR
      exact itreeDelete_single hrep hT hfuel
    · exact itreeDelete_double hrep hT hl hR hfuel

end Deletion

end Itree

end SelfCertifyingFS.Async
