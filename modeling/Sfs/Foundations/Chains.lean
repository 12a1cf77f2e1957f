import Mathlib.Tactic

/-!
# Chained lists with back pointers

The lists of a hash table: each starts at a place of the table, every element points to
the next one, and back to the place that points to it. An element is put in front of a
list, or taken out by its back pointer alone. The lists are also read as steps from each
element to the next.
-/

namespace SelfCertifyingFS.Foundations

open List Function Option

variable {ι : Type*}

/-- A place that holds a pointer: in the table, or in an element. -/
inductive Slot (ι : Type*)
  | tab (i : ℕ)
  | next (e : ι)
  deriving DecidableEq

theorem Slot.next_ne_tab (e : ι) (i : ℕ) : Slot.next e ≠ .tab i := by
  intro h
  cases h

/-- The pointers of a table and its elements. -/
structure Links (ι : Type*) where
  cell : Slot ι → Option ι
  pprev : ι → Slot ι

namespace Links

variable {s s' : Links ι} {e x : ι} {a b : Slot ι} {l l1 l2 : List ι} {i : ℕ} {L : ℕ → List ι}

/-- The list that starts at a place. -/
def Linked (s : Links ι) : Slot ι → List ι → Prop
  | a, [] => s.cell a = none
  | a, e :: l => s.cell a = some e ∧ s.pprev e = a ∧ Linked s (.next e) l

theorem Linked.cell_eq (h : s.Linked a l) : s.cell a = l.head? := by
  cases l with
  | nil => exact h
  | cons e l => exact h.1

theorem Linked.frame (h : s.Linked a l) (hcell : s'.cell a = s.cell a)
    (hnext : ∀ e ∈ l, s'.cell (.next e) = s.cell (.next e))
    (hback : ∀ e ∈ l, s'.pprev e = s.pprev e) : s'.Linked a l := by
  induction l generalizing a with
  | nil => exact hcell.trans h
  | cons e l ih =>
    obtain ⟨hhead, hpprev, hrest⟩ := h
    refine ⟨hcell.trans hhead, (hback e mem_cons_self).trans hpprev, ?_⟩
    apply ih hrest (hnext e mem_cons_self)
    · exact fun x hx => hnext x (mem_cons_of_mem e hx)
    · exact fun x hx => hback x (mem_cons_of_mem e hx)

/-- A list that starts at another place, with the back pointer of its first element set. -/
theorem Linked.move (h : s.Linked a l) (hnodup : l.Nodup) (hcell : s'.cell b = s.cell a)
    (hnext : ∀ e ∈ l, s'.cell (.next e) = s.cell (.next e))
    (hhead : ∀ e, l.head? = some e → s'.pprev e = b)
    (hback : ∀ e ∈ l, l.head? ≠ some e → s'.pprev e = s.pprev e) : s'.Linked b l := by
  cases l with
  | nil => exact hcell.trans h
  | cons e l =>
    obtain ⟨hfirst, -, hrest⟩ := h
    have hnot : e ∉ l := (nodup_cons.mp hnodup).1
    refine ⟨hcell.trans hfirst, hhead e rfl, ?_⟩
    apply hrest.frame (hnext e mem_cons_self)
    · exact fun x hx => hnext x (mem_cons_of_mem e hx)
    · intro x hx
      apply hback x (mem_cons_of_mem e hx)
      intro heq
      exact hnot (some.inj heq ▸ hx)

/-- The place a list ends at. -/
def endOf (a : Slot ι) : List ι → Slot ι
  | [] => a
  | e :: l => endOf (.next e) l

theorem endOf_mem (e : ι) (l : List ι) : ∃ x ∈ e :: l, endOf (.next e) l = .next x := by
  induction l generalizing e with
  | nil => exact ⟨e, mem_cons_self, rfl⟩
  | cons b l ih =>
    obtain ⟨x, hx, heq⟩ := ih b
    exact ⟨x, mem_cons_of_mem e hx, heq⟩

theorem linked_append (h : s.Linked a (l1 ++ l2)) : s.Linked (endOf a l1) l2 := by
  induction l1 generalizing a with
  | nil => exact h
  | cons e l1 ih => exact ih h.2.2

/-- The lists that start at the places of the table. -/
structure Holds (s : Links ι) (L : ℕ → List ι) : Prop where
  linked : ∀ i, s.Linked (.tab i) (L i)
  nodup : ∀ i, (L i).Nodup
  apart : ∀ i j, i ≠ j → (L i).Disjoint (L j)

/-- One list exchanged for another, which shares no element with the rest. -/
theorem Holds.replace (h : s.Holds L) (hlinked : s'.Linked (.tab i) l) (hnodup : l.Nodup)
    (hother : ∀ j, j ≠ i → s'.Linked (.tab j) (L j) ∧ l.Disjoint (L j)) :
    s'.Holds (update L i l) := by
  refine ⟨fun j => ?_, fun j => ?_, fun j k hjk => ?_⟩
  · by_cases hj : j = i
    · subst hj
      rwa [update_self]
    · rw [update_of_ne hj]
      exact (hother j hj).1
  · by_cases hj : j = i
    · subst hj
      rwa [update_self]
    · rw [update_of_ne hj]
      exact h.nodup j
  · by_cases hj : j = i
    · subst hj
      rw [update_self, update_of_ne hjk.symm]
      exact (hother k hjk.symm).2
    · rw [update_of_ne hj]
      by_cases hk : k = i
      · subst hk
        rw [update_self]
        exact (hother j hj).2.symm
      · rw [update_of_ne hk]
        exact h.apart j k hjk

theorem mem_update_cons {j : ℕ} : x ∈ update L i (e :: L i) j ↔ x = e ∧ j = i ∨ x ∈ L j := by
  by_cases hj : j = i
  · subst hj
    rw [update_self, mem_cons, and_iff_left rfl]
  · rw [update_of_ne hj, or_iff_right fun h => hj h.2]

variable [DecidableEq ι]

/-- The element that the pointer is to, if there is one, has its back pointer set. -/
def point (s : Links ι) (p : Option ι) (back : Slot ι) : Links ι :=
  match p with
  | none => s
  | some n => { s with pprev := update s.pprev n back }

/-- An element in front of a list. -/
def push (s : Links ι) (i : ℕ) (e : ι) : Links ι :=
  let np := s.cell (.tab i)
  let s := s.point np (.next e)
  ⟨update (update s.cell (.next e) np) (.tab i) (some e), update s.pprev e (.tab i)⟩

/-- An element taken out of its list. -/
def unlink (s : Links ι) (e : ι) : Links ι :=
  let np := s.cell (.next e)
  let back := s.pprev e
  let s := s.point np back
  { s with cell := update s.cell back np }

@[simp] theorem cell_point (s : Links ι) (p : Option ι) (back : Slot ι) :
    (s.point p back).cell = s.cell := by
  cases p <;> rfl

theorem pprev_point_of_ne {p : Option ι} {back : Slot ι} (h : p ≠ some e) :
    (s.point p back).pprev e = s.pprev e := by
  cases p with
  | none => rfl
  | some n => exact update_of_ne (fun heq => h (congrArg some heq.symm)) _ _

/-- What taking an element out changes: the place before it and the element behind it. -/
theorem cell_unlink_of_ne (h : b ≠ s.pprev e) : (s.unlink e).cell b = s.cell b := by
  change update (s.point _ _).cell _ _ b = _
  rw [update_of_ne h, cell_point]

theorem pprev_unlink_of_ne (h : s.cell (.next e) ≠ some x) :
    (s.unlink e).pprev x = s.pprev x := pprev_point_of_ne h

theorem pprev_unlink_of_eq (h : s.cell (.next e) = some x) : (s.unlink e).pprev x = s.pprev e := by
  change (s.point (s.cell (.next e)) _).pprev x = _
  rw [h]
  exact update_self _ _ _

theorem Linked.unlink (h : s.Linked a (l1 ++ e :: l2)) (hnodup : (l1 ++ e :: l2).Nodup)
    (hfresh : ∀ x ∈ l1 ++ e :: l2, a ≠ .next x) : (s.unlink e).Linked a (l1 ++ l2) := by
  induction l1 generalizing a with
  | nil =>
    obtain ⟨-, hpprev, hrest⟩ := h
    apply hrest.move (nodup_cons.mp hnodup).2
    · rw [← hpprev]
      exact update_self _ _ _
    · intro x hx
      apply cell_unlink_of_ne
      rw [hpprev]
      exact (hfresh x (mem_cons_of_mem e hx)).symm
    · intro x hx
      rw [pprev_unlink_of_eq (hrest.cell_eq.trans hx), hpprev]
    · intro x _ hx
      apply pprev_unlink_of_ne
      rwa [hrest.cell_eq]
  | cons b l1 ih =>
    obtain ⟨hfirst, hback, hrest⟩ := h
    obtain ⟨hnot, hnodup⟩ := nodup_cons.mp hnodup
    obtain ⟨-, hpprev, htail⟩ := linked_append hrest
    -- the place before the element is in one of the elements before it
    obtain ⟨x, hx, hend⟩ := endOf_mem b l1
    refine ⟨?_, ?_, ih hrest hnodup fun y hy heq => hnot (Slot.next.inj heq ▸ hy)⟩
    · rw [cell_unlink_of_ne, hfirst]
      rw [hpprev, hend]
      apply hfresh x
      exact mem_cons.mpr ((mem_cons.mp hx).imp_right (mem_append_left _))
    · rw [pprev_unlink_of_ne, hback]
      rw [htail.cell_eq]
      intro heq
      apply hnot
      exact mem_append_right _ (mem_cons_of_mem e (List.mem_of_mem_head? heq))

theorem cell_push_next (s : Links ι) (i : ℕ) (e : ι) :
    (s.push i e).cell (.next e) = s.cell (.tab i) := by
  simp only [Links.push, update_of_ne (Slot.next_ne_tab e i), update_self]

theorem cell_push_of_ne (htab : b ≠ .tab i) (hnext : b ≠ .next e) :
    (s.push i e).cell b = s.cell b := by
  change update (update (s.point _ _).cell (.next e) _) (.tab i) _ b = _
  rw [update_of_ne htab, update_of_ne hnext, cell_point]

theorem pprev_push_of_eq (hne : x ≠ e) (h : s.cell (.tab i) = some x) :
    (s.push i e).pprev x = .next e := by
  change update (s.point (s.cell (.tab i)) _).pprev _ _ _ = _
  rw [update_of_ne hne, h]
  exact update_self _ _ _

theorem pprev_push_of_ne (hne : x ≠ e) (h : s.cell (.tab i) ≠ some x) :
    (s.push i e).pprev x = s.pprev x := by
  change update (s.point (s.cell (.tab i)) _).pprev _ _ _ = _
  rw [update_of_ne hne, pprev_point_of_ne h]

theorem Linked.push (h : s.Linked (.tab i) l) (hnodup : l.Nodup) (hnot : e ∉ l) :
    (s.push i e).Linked (.tab i) (e :: l) := by
  refine ⟨update_self _ _ _, update_self _ _ _, ?_⟩
  have hne : ∀ x ∈ l, x ≠ e := fun x hx heq => hnot (heq ▸ hx)
  apply h.move hnodup (cell_push_next s i e)
  · exact fun x hx => cell_push_of_ne (Slot.next_ne_tab x i) fun heq => hne x hx (Slot.next.inj heq)
  · intro x hx
    exact pprev_push_of_eq (hne x (List.mem_of_mem_head? hx)) (h.cell_eq.trans hx)
  · intro x hmem hx
    apply pprev_push_of_ne (hne x hmem)
    rwa [h.cell_eq]

theorem Holds.push (h : s.Holds L) (i : ℕ) (hnew : ∀ j, e ∉ L j) :
    (s.push i e).Holds (update L i (e :: L i)) := by
  apply h.replace ((h.linked i).push (h.nodup i) (hnew i))
  · exact nodup_cons.mpr ⟨hnew i, h.nodup i⟩
  · intro j hj
    have hne : ∀ x ∈ L j, x ≠ e := fun x hx heq => hnew j (heq ▸ hx)
    constructor
    · apply (h.linked j).frame
      · exact cell_push_of_ne (fun heq => hj (Slot.tab.inj heq)) (Slot.next_ne_tab e j).symm
      · intro x hx
        exact cell_push_of_ne (Slot.next_ne_tab x i) fun heq => hne x hx (Slot.next.inj heq)
      · intro x hx
        apply pprev_push_of_ne (hne x hx)
        rw [(h.linked i).cell_eq]
        intro heq
        exact h.apart j i hj hx (List.mem_of_mem_head? heq)
    · rw [disjoint_cons_left]
      exact ⟨hnew j, h.apart i j hj.symm⟩

theorem Holds.unlink (h : s.Holds L) (hi : L i = l1 ++ e :: l2) :
    (s.unlink e).Holds (update L i (l1 ++ l2)) := by
  have hlinked := hi ▸ h.linked i
  have hnodup := hi ▸ h.nodup i
  obtain ⟨-, hpprev, htail⟩ := linked_append hlinked
  have hsub : (l1 ++ l2).Sublist (L i) := by
    rw [hi]
    exact (sublist_cons_self e l2).append_left l1
  apply h.replace (hlinked.unlink hnodup fun x _ => (Slot.next_ne_tab x i).symm)
  · exact (h.nodup i).sublist hsub
  · intro j hj
    -- the place before the element is in its own list or is the start of it
    have hplace : s.pprev e = .tab i ∨ ∃ x ∈ L i, s.pprev e = .next x := by
      rw [hpprev, hi]
      cases l1 with
      | nil => exact Or.inl rfl
      | cons b l1 =>
        obtain ⟨x, hx, hend⟩ := endOf_mem b l1
        exact Or.inr ⟨x, mem_append_left _ hx, hend⟩
    constructor
    · apply (h.linked j).frame
      · apply cell_unlink_of_ne
        rcases hplace with heq | ⟨x, -, heq⟩
        · exact heq ▸ fun h => hj (Slot.tab.inj h)
        · exact heq ▸ (Slot.next_ne_tab x j).symm
      · intro y hy
        apply cell_unlink_of_ne
        rcases hplace with heq | ⟨x, hx, heq⟩
        · exact heq ▸ Slot.next_ne_tab y i
        · exact heq ▸ fun h' => h.apart j i hj hy (Slot.next.inj h' ▸ hx)
      · intro y hy
        apply pprev_unlink_of_ne
        rw [htail.cell_eq]
        intro heq
        apply h.apart j i hj hy
        rw [hi]
        exact mem_append_right _ (mem_cons_of_mem e (List.mem_of_mem_head? heq))
    · exact fun x hx => h.apart i j hj.symm (hsub.subset hx)

end Links

/-- The elements of a walk: the first one, and from each the next, which has to be
found. -/
def Steps (nxt : ι → Option (Option ι)) : Option ι → List ι → Prop
  | p, [] => p = none
  | p, e :: l => p = some e ∧ ∃ q, nxt e = some q ∧ Steps nxt q l

/-- A walk up to the first element that the test admits; nothing when the bound on the
steps is too small. -/
def search (nxt : ι → Option (Option ι)) (stop : ι → Bool) : ℕ → Option ι → Option (Option ι)
  | 0, _ => none
  | _ + 1, none => some none
  | bound + 1, some e =>
    if stop e then some (some e) else (nxt e).bind (search nxt stop bound)

variable {nxt nxt' : ι → Option (Option ι)} {stop : ι → Bool} {p : Option ι} {l : List ι}

section

variable (h : Steps nxt p l)

include h

theorem Steps.head : p = l.head? := by
  cases l with
  | nil => exact h
  | cons e l => exact h.1

theorem Steps.congr (heq : ∀ e ∈ l, nxt' e = nxt e) : Steps nxt' p l := by
  induction l generalizing p with
  | nil => exact h
  | cons e l ih =>
    obtain ⟨hp, q, hq, hrest⟩ := h
    refine ⟨hp, q, (heq e mem_cons_self).trans hq, ?_⟩
    exact ih hrest fun x hx => heq x (mem_cons_of_mem e hx)

/-- A search finds the first element of the walk that the test admits. -/
theorem Steps.search_eq {bound : ℕ} (hbound : l.length < bound) :
    search nxt stop bound p = some (l.find? stop) := by
  induction l generalizing p bound with
  | nil =>
    obtain ⟨bound, rfl⟩ := Nat.exists_eq_succ_of_ne_zero (Nat.ne_of_gt hbound)
    obtain rfl : p = none := h
    rfl
  | cons e l ih =>
    obtain ⟨bound, rfl⟩ := Nat.exists_eq_succ_of_ne_zero (Nat.ne_of_gt (Nat.zero_lt_of_lt hbound))
    obtain ⟨rfl, q, hq, hrest⟩ := h
    rw [search, List.find?_cons]
    cases hstop : stop e with
    | true => rfl
    | false =>
      rw [hq]
      exact ih hrest (Nat.lt_of_succ_lt_succ hbound)

/-- Searching on from each element found walks through all that the test admits. -/
theorem Steps.filter {bound : ℕ} (hbound : l.length ≤ bound)
    (hnxt : ∀ e ∈ l, stop e = true → nxt' e = (nxt e).bind (search nxt stop bound)) :
    Steps nxt' (l.find? stop) (l.filter stop) := by
  induction l generalizing p with
  | nil => rfl
  | cons e l ih =>
    obtain ⟨-, q, hq, hrest⟩ := h
    have htail := ih hrest (Nat.le_of_succ_le hbound) fun x hx =>
      hnxt x (mem_cons_of_mem e hx)
    rw [List.find?_cons]
    cases hstop : stop e with
    | true =>
      rw [filter_cons_of_pos hstop]
      refine ⟨rfl, l.find? stop, ?_, htail⟩
      rw [hnxt e mem_cons_self hstop, hq]
      exact hrest.search_eq hbound
    | false =>
      rw [filter_cons_of_neg (Bool.eq_false_iff.mp hstop)]
      exact htail

end

variable {s : Links ι} {a : Slot ι}

/-- A list of a table as a walk that goes on to another one at its end. -/
theorem Links.Linked.steps_append {rest : List ι} {q : Option ι}
    (h : s.Linked a l) (hnxt : ∀ e ∈ l, nxt e = some ((s.cell (.next e)).or q))
    (hrest : Steps nxt q rest) : Steps nxt ((s.cell a).or q) (l ++ rest) := by
  induction l generalizing a with
  | nil =>
    rw [show s.cell a = none from h]
    exact hrest
  | cons e l ih =>
    obtain ⟨hfirst, -, htail⟩ := h
    refine ⟨by rw [hfirst, some_or], _, hnxt e mem_cons_self, ?_⟩
    exact ih htail fun x hx => hnxt x (mem_cons_of_mem e hx)

theorem Links.Linked.steps (h : s.Linked a l) :
    Steps (fun e => some (s.cell (.next e))) (s.cell a) l := by
  have hend : Steps (fun e => some (s.cell (.next e))) none [] := rfl
  have hwalk := h.steps_append (fun e _ => congrArg some or_none.symm) hend
  rwa [or_none, append_nil] at hwalk

end SelfCertifyingFS.Foundations
