import Mathlib.Tactic

/-!
# Lines with marks

Items are appended to a line at its end and removed at its front. A mark is set behind all
items of the line, and reached when they have all been removed. A line can be taken over
by another, with its items and marks. The marks of some lines are numbered as they are
set; each is reached once or still waits in one place.
-/

namespace SelfCertifyingFS.Foundations

open List Function
open Prod (snd)

/-- What has been appended to a line, how much of it has been removed, and the marks that
wait, each with the number of items that were appended before it. -/
structure Line (α : Type*) where
  appended : List α
  removed : ℕ
  waiting : List (ℕ × ℕ)

namespace Line

variable {α : Type*}

def new : Line α := ⟨[], 0, []⟩

/-- What has not been removed. -/
def contents (l : Line α) : List α := l.appended.drop l.removed

/-- The numbers of the marks that wait. -/
def ids (l : Line α) : List ℕ := l.waiting.map snd

def append (bs : List α) (l : Line α) : Line α := { l with appended := l.appended ++ bs }

def mark (k : ℕ) (l : Line α) : Line α :=
  { l with waiting := l.waiting ++ [(l.appended.length, k)] }

variable (n : ℕ) (l : Line α)

/-- The marks that are reached when so many items are removed. -/
def reach : List (ℕ × ℕ) := l.waiting.filter (·.1 ≤ l.removed + n)

def remove : Line α :=
  { l with
    removed := l.removed + n
    waiting := l.waiting.filter (l.removed + n < ·.1) }

/-- What another line has comes behind what this one has. -/
def join (s l : Line α) : Line α :=
  { l with
    appended := l.appended ++ s.contents
    waiting := l.waiting ++ s.waiting.map fun w => (l.appended.length + (w.1 - s.removed), w.2) }

/-- A line after it has been taken over. -/
def drain (l : Line α) : Line α := ⟨l.appended, l.appended.length, []⟩

/-- No more is removed than was appended, and the marks wait in order for items that are there. -/
structure Sound (l : Line α) : Prop where
  le : l.removed ≤ l.appended.length
  sorted : l.waiting.Pairwise fun v w => v.1 ≤ w.1
  waits : ∀ w ∈ l.waiting, l.removed < w.1
  within : ∀ w ∈ l.waiting, w.1 ≤ l.appended.length

variable {l s : Line α}

theorem length_contents (l : Line α) : l.contents.length = l.appended.length - l.removed :=
  length_drop

theorem contents_append (h : l.removed ≤ l.appended.length) (bs : List α) :
    (l.append bs).contents = l.contents ++ bs :=
  drop_append_of_le_length h

theorem contents_remove (n : ℕ) (l : Line α) : (l.remove n).contents = l.contents.drop n := by
  rw [contents, contents, drop_drop]
  rfl

theorem contents_join (h : l.removed ≤ l.appended.length) :
    (join s l).contents = l.contents ++ s.contents :=
  drop_append_of_le_length h

@[simp] theorem contents_drain (l : Line α) : l.drain.contents = [] := drop_length

@[simp] theorem ids_mark (k : ℕ) (l : Line α) : (l.mark k).ids = l.ids ++ [k] := by
  simp [ids, mark]

@[simp] theorem ids_join (s l : Line α) : (join s l).ids = l.ids ++ s.ids := by
  simp [ids, join]

/-- A removal splits the marks into those that are reached and those that still wait. -/
theorem ids_perm (n : ℕ) (l : Line α) : ((l.reach n).map snd ++ (l.remove n).ids).Perm l.ids := by
  have hperm := (filter_append_perm (·.1 ≤ l.removed + n) l.waiting).map snd
  rw [map_append] at hperm
  simpa only [reach, remove, ids, ← decide_not, Nat.not_le] using hperm

namespace Sound

theorem new : (new : Line α).Sound where
  le := le_rfl
  sorted := .nil
  waits _ hw := absurd hw not_mem_nil
  within _ hw := absurd hw not_mem_nil

theorem append (h : l.Sound) (bs : List α) : (l.append bs).Sound where
  le := by
    rw [Line.append, length_append]
    exact h.le.trans (Nat.le_add_right _ _)
  sorted := h.sorted
  waits := h.waits
  within w hw := by
    rw [Line.append, length_append]
    exact (h.within w hw).trans (Nat.le_add_right _ _)

theorem mark (h : l.Sound) (hne : l.contents ≠ []) (k : ℕ) : (l.mark k).Sound where
  le := h.le
  sorted := by
    refine pairwise_append.mpr ⟨h.sorted, pairwise_singleton _ _, ?_⟩
    intro v hv w hw
    rw [mem_singleton.mp hw]
    exact h.within v hv
  waits w hw := by
    rcases mem_append.mp hw with hw | hw
    · exact h.waits w hw
    · rw [mem_singleton.mp hw]
      have hlen := length_pos_iff.mpr hne
      rw [length_contents] at hlen
      exact Nat.lt_of_sub_pos hlen
  within w hw := by
    rcases mem_append.mp hw with hw | hw
    · exact h.within w hw
    · rw [mem_singleton.mp hw]
      rfl

theorem remove (h : l.Sound) {n : ℕ} (hn : n ≤ l.contents.length) : (l.remove n).Sound where
  le := by
    have hle := h.le
    rw [length_contents] at hn
    show l.removed + n ≤ l.appended.length
    omega
  sorted := h.sorted.filter _
  waits w hw := of_decide_eq_true (mem_filter.mp hw).2
  within w hw := h.within w (mem_filter.mp hw).1

theorem drain (l : Line α) : l.drain.Sound where
  le := le_rfl
  sorted := .nil
  waits _ hw := absurd hw not_mem_nil
  within _ hw := absurd hw not_mem_nil

theorem join (h : l.Sound) (hs : s.Sound) : (join s l).Sound where
  le := by
    rw [Line.join, length_append]
    exact h.le.trans (Nat.le_add_right _ _)
  sorted := by
    refine pairwise_append.mpr ⟨h.sorted, ?_, ?_⟩
    · refine hs.sorted.map _ fun v w hvw => ?_
      exact Nat.add_le_add_left (Nat.sub_le_sub_right hvw _) _
    · intro v hv w hw
      obtain ⟨w, -, rfl⟩ := mem_map.mp hw
      exact (h.within v hv).trans (Nat.le_add_right _ _)
  waits w hw := by
    rcases mem_append.mp hw with hw | hw
    · exact h.waits w hw
    · obtain ⟨v, hv, rfl⟩ := mem_map.mp hw
      have hle := h.le
      have hwaits := hs.waits v hv
      show l.removed < l.appended.length + (v.1 - s.removed)
      omega
  within w hw := by
    rw [Line.join, length_append, length_contents]
    rcases mem_append.mp hw with hw | hw
    · exact (h.within w hw).trans (Nat.le_add_right _ _)
    · obtain ⟨v, hv, rfl⟩ := mem_map.mp hw
      exact Nat.add_le_add_left (Nat.sub_le_sub_right (hs.within v hv) _) _

end Sound

end Line

section Spread

variable {ι : Type*}

/-- The numbers in `r` and in the lists of some places are those of `all`, each as often. -/
def Spread (ids : ι → List ℕ) (r all : List ℕ) : Prop :=
  ∃ js : List ι, js.Nodup ∧ (∀ j ∉ js, ids j = []) ∧ (r ++ js.flatMap ids).Perm all

theorem Spread.update [DecidableEq ι] {ids : ι → List ℕ} {r r' all all' xs : List ℕ} {i : ι}
    (h : Spread ids r all)
    (hcount : ∀ ys k, (r ++ (ids i ++ ys)).count k = all.count k →
      (r' ++ (xs ++ ys)).count k = all'.count k) :
    Spread (Function.update ids i xs) r' all' := by
  obtain ⟨js, hnodup, hnil, hall⟩ := h
  -- the place that changes comes first
  have hfirst : (ids i ++ (js.erase i).flatMap ids).Perm (js.flatMap ids) := by
    by_cases hi : i ∈ js
    · exact ((perm_cons_erase hi).flatMap_right ids).symm
    · rw [hnil i hi, erase_of_not_mem hi, nil_append]
  have hrest : (js.erase i).flatMap (Function.update ids i xs) = (js.erase i).flatMap ids := by
    apply flatMap_congr
    intro j hj
    apply update_of_ne
    rintro rfl
    exact hnodup.not_mem_erase hj
  refine ⟨i :: js.erase i, nodup_cons.mpr ⟨hnodup.not_mem_erase, hnodup.erase i⟩, ?_, ?_⟩
  · intro j hj
    rw [mem_cons, not_or] at hj
    rw [update_of_ne hj.1]
    exact hnil j fun hmem => hj.2 ((mem_erase_of_ne hj.1).mpr hmem)
  · rw [flatMap_cons, update_self, hrest]
    exact List.perm_iff_count.mpr fun k =>
      hcount _ k (List.perm_iff_count.mp ((hfirst.append_left r).trans hall) k)

end Spread

inductive LineOp (ι α : Type*)
  | append (i : ι) (bs : List α)
  | mark (i : ι)
  | take (dst src : ι)
  | remove (i : ι) (n : ℕ)
  | idle

/-- Some lines, how many marks have been set, and those that have been reached, in order. -/
structure Lines (ι α : Type*) where
  line : ι → Line α
  marks : ℕ
  reached : List ℕ

namespace Lines

variable {ι α : Type*}

def new : Lines ι α := ⟨fun _ => .new, 0, []⟩

/-- The marks that have been set are those that were reached and those that wait, each once. -/
def Once (s : Lines ι α) : Prop :=
  Spread (fun i => (s.line i).ids) s.reached (range s.marks)

theorem Once.new : (new : Lines ι α).Once := ⟨[], .nil, fun _ _ => rfl, .refl _⟩

variable [DecidableEq ι]

def set (i : ι) (l : Line α) (s : Lines ι α) : Lines ι α :=
  { s with line := Function.update s.line i l }

/-- A mark on an empty line is reached at once. -/
def step (s : Lines ι α) : LineOp ι α → Lines ι α
  | .append i bs => s.set i ((s.line i).append bs)
  | .mark i =>
      if (s.line i).contents.isEmpty then
        { s with marks := s.marks + 1, reached := s.reached ++ [s.marks] }
      else { s.set i ((s.line i).mark s.marks) with marks := s.marks + 1 }
  | .take dst src =>
      (s.set dst (.join (s.line src) (s.line dst))).set src (s.line src).drain
  | .remove i n =>
      { s.set i ((s.line i).remove n) with
        reached := s.reached ++ ((s.line i).reach n).map snd }
  | .idle => s

/-- The lines after some operations, newest first. -/
def after : List (LineOp ι α) → Lines ι α
  | [] => new
  | op :: past => (after past).step op

/-- What the operations need. -/
def Legal (s : Lines ι α) : LineOp ι α → Prop
  | .take dst src => dst ≠ src
  | .remove i n => n ≤ (s.line i).contents.length
  | _ => True

@[simp] theorem line_set_self (i : ι) (l : Line α) (s : Lines ι α) : (s.set i l).line i = l :=
  update_self ..

variable {i : ι}

theorem line_set_of_ne {j : ι} (h : j ≠ i) (l : Line α) (s : Lines ι α) :
    (s.set i l).line j = s.line j :=
  update_of_ne h ..

theorem ids_set (i : ι) (l : Line α) (s : Lines ι α) :
    (fun j => ((s.set i l).line j).ids) = Function.update (fun j => (s.line j).ids) i l.ids := by
  funext j
  by_cases hj : j = i
  · subst hj
    rw [line_set_self, update_self]
  · rw [line_set_of_ne hj, update_of_ne hj]

variable {s : Lines ι α}

theorem sound_set {l : Line α} (h : ∀ j, (s.line j).Sound) (hl : l.Sound) (j : ι) :
    ((s.set i l).line j).Sound := by
  by_cases hj : j = i
  · rw [hj, line_set_self]
    exact hl
  · rw [line_set_of_ne hj]
    exact h j

theorem step_mark_nil (h : (s.line i).contents = []) :
    s.step (.mark i) = { s with marks := s.marks + 1, reached := s.reached ++ [s.marks] } :=
  if_pos (List.isEmpty_iff.mpr h)

theorem step_mark (h : (s.line i).contents ≠ []) :
    s.step (.mark i) = { s.set i ((s.line i).mark s.marks) with marks := s.marks + 1 } :=
  if_neg fun hempty => h (List.isEmpty_iff.mp hempty)

theorem Once.step (h : s.Once) {op : LineOp ι α} (hop : s.Legal op) : (s.step op).Once := by
  cases op with
  | append i bs =>
    show Spread (fun j => ((s.set i ((s.line i).append bs)).line j).ids) s.reached _
    rw [ids_set]
    exact h.update fun ys k hk => hk
  | mark i =>
    by_cases hnil : (s.line i).contents = []
    · rw [step_mark_nil hnil]
      obtain ⟨js, hnodup, hempty, hall⟩ := h
      refine ⟨js, hnodup, hempty, List.perm_iff_count.mpr fun k => ?_⟩
      have hk := List.perm_iff_count.mp hall k
      simp only [range_succ, count_append] at hk ⊢
      omega
    · rw [step_mark hnil]
      show Spread (fun j => ((s.set i ((s.line i).mark s.marks)).line j).ids) s.reached _
      rw [ids_set]
      refine h.update fun ys k hk => ?_
      simp only [Line.ids_mark, range_succ, count_append] at hk ⊢
      omega
  | take dst src =>
    show Spread (fun j => (((s.set dst (.join (s.line src) (s.line dst))).set src
      (s.line src).drain).line j).ids) s.reached (range s.marks)
    rw [ids_set, ids_set]
    -- the marks are in both places for a moment
    have hboth : Spread (Function.update (fun j => (s.line j).ids) dst
        (Line.join (s.line src) (s.line dst)).ids) s.reached
        (range s.marks ++ (s.line src).ids) := by
      refine h.update fun ys k hk => ?_
      simp only [Line.ids_join, count_append] at hk ⊢
      omega
    refine hboth.update fun ys k hk => ?_
    rw [update_of_ne (hop.symm)] at hk
    simp only [Line.ids, Line.drain, map_nil, count_append, count_nil] at hk ⊢
    omega
  | remove i n =>
    show Spread (fun j => ((s.set i ((s.line i).remove n)).line j).ids)
      (s.reached ++ ((s.line i).reach n).map snd) (range s.marks)
    rw [ids_set]
    refine h.update fun ys k hk => ?_
    have hsplit := List.perm_iff_count.mp ((s.line i).ids_perm n) k
    simp only [count_append] at hk hsplit ⊢
    omega
  | idle => exact h

end Lines

end SelfCertifyingFS.Foundations
