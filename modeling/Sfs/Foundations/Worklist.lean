import Mathlib.Tactic

/-!
# Worklists

A search that takes elements from the front of a queue and puts the successors
of each new one at its end. Where finitely many elements have successors, the
work left is bounded by the queue and the successors of elements not yet seen,
and the search finds what can be reached.
-/

namespace SelfCertifyingFS.Foundations.Worklist

open List

variable {α : Type*} [DecidableEq α] (succ : α → List α)

/-- The elements seen, in the order in which they were taken from the queue. -/
def visit : ℕ → List α → List α → List α
  | 0, seen, _ | _ + 1, seen, [] => seen
  | fuel + 1, seen, e :: queue =>
      if e ∈ seen then visit fuel seen queue else visit fuel (seen ++ [e]) (queue ++ succ e)

/-- One element leads to another by steps to successors. -/
def Leads : α → α → Prop := Relation.ReflTransGen fun a b => b ∈ succ a

variable {fuel : ℕ} {seen queue : List α}

theorem leads_of_mem_visit {x : α} (h : x ∈ visit succ fuel seen queue) :
    x ∈ seen ∨ ∃ q ∈ queue, Leads succ q x := by
  induction fuel generalizing seen queue with
  | zero => exact .inl h
  | succ fuel ih =>
    cases queue with
    | nil => exact .inl h
    | cons e queue =>
      rw [visit] at h
      split_ifs at h with he
      · rcases ih h with hx | ⟨q, hq, hx⟩
        · exact .inl hx
        · exact .inr ⟨q, mem_cons_of_mem e hq, hx⟩
      · rcases ih h with hx | ⟨q, hq, hx⟩
        · rcases mem_append.mp hx with hx | hx
          · exact .inl hx
          · obtain rfl := mem_singleton.mp hx
            exact .inr ⟨x, mem_cons_self, .refl⟩
        · rcases mem_append.mp hq with hq | hq
          · exact .inr ⟨q, mem_cons_of_mem e hq, hx⟩
          · exact .inr ⟨e, mem_cons_self, .head hq hx⟩

theorem nodup_visit (h : seen.Nodup) : (visit succ fuel seen queue).Nodup := by
  induction fuel generalizing seen queue with
  | zero => exact h
  | succ fuel ih =>
    cases queue with
    | nil => exact h
    | cons e queue =>
      rw [visit]
      split_ifs with he
      · exact ih h
      · apply ih
        rw [← concat_eq_append]
        exact h.concat he

/-- The queue, and the successors of the elements that are still to be seen. -/
def work (support : Finset α) (seen queue : List α) : ℕ :=
  queue.length + ∑ a ∈ support.filter (· ∉ seen), (succ a).length

variable {succ} {support : Finset α}

theorem work_skip {e : α} :
    work succ support seen queue + 1 = work succ support seen (e :: queue) := by
  simp only [work, length_cons]
  omega

theorem visit_nil (fuel : ℕ) (seen : List α) : visit succ fuel seen [] = seen := by
  cases fuel <;> rfl

variable (hsupp : ∀ a, succ a ≠ [] → a ∈ support)

include hsupp

theorem work_visit {e : α} (he : e ∉ seen) :
    work succ support (seen ++ [e]) (queue ++ succ e) + 1 ≤
      work succ support seen (e :: queue) := by
  have hfilter : support.filter (· ∉ seen ++ [e]) = (support.filter (· ∉ seen)).erase e := by
    ext a
    simp only [Finset.mem_filter, Finset.mem_erase, mem_append, mem_singleton]
    tauto
  by_cases hmem : e ∈ support
  · have hsum := Finset.sum_erase_add (support.filter (· ∉ seen)) (fun a => (succ a).length)
      (Finset.mem_filter.mpr ⟨hmem, he⟩)
    simp only [work, hfilter, length_append, length_cons]
    omega
  · have hnil : succ e = [] := by
      by_contra hne
      exact hmem (hsupp e hne)
    have herase : (support.filter (· ∉ seen)).erase e = support.filter (· ∉ seen) :=
      Finset.erase_eq_of_notMem fun h => hmem (Finset.mem_filter.mp h).1
    simp only [work, hfilter, herase, hnil, append_nil, length_cons]
    omega

theorem visit_closed (hfuel : work succ support seen queue ≤ fuel)
    (hseen : ∀ a ∈ seen, ∀ b ∈ succ a, b ∈ seen ∨ b ∈ queue) :
    (∀ a, a ∈ seen ∨ a ∈ queue → a ∈ visit succ fuel seen queue) ∧
      ∀ a ∈ visit succ fuel seen queue, ∀ b ∈ succ a, b ∈ visit succ fuel seen queue := by
  induction fuel generalizing seen queue with
  | zero =>
    obtain rfl : queue = [] := eq_nil_of_length_eq_zero (by unfold work at hfuel; omega)
    simpa [visit] using hseen
  | succ fuel ih =>
    cases queue with
    | nil => simpa [visit] using hseen
    | cons e queue =>
      rw [visit]
      split_ifs with he
      · have hwork : work succ support seen queue ≤ fuel :=
          Nat.le_of_succ_le_succ (work_skip.trans_le hfuel)
        obtain ⟨hin, hclosed⟩ := ih hwork fun a ha b hb => by
          rcases hseen a ha b hb with h | h
          · exact .inl h
          · rcases mem_cons.mp h with rfl | h
            · exact .inl he
            · exact .inr h
        refine ⟨?_, hclosed⟩
        rintro a (ha | ha)
        · exact hin a (.inl ha)
        · rcases mem_cons.mp ha with rfl | ha
          · exact hin a (.inl he)
          · exact hin a (.inr ha)
      · have hwork : work succ support (seen ++ [e]) (queue ++ succ e) ≤ fuel :=
          Nat.le_of_succ_le_succ ((work_visit hsupp he).trans hfuel)
        obtain ⟨hin, hclosed⟩ := ih hwork fun a ha b hb => by
          rcases mem_append.mp ha with ha | ha
          · have h := hseen a ha b hb
            simp only [mem_append, mem_cons] at h ⊢
            tauto
          · obtain rfl := mem_singleton.mp ha
            exact .inr (mem_append_right queue hb)
        refine ⟨?_, hclosed⟩
        intro a ha
        apply hin a
        simp only [mem_append, mem_cons] at ha ⊢
        tauto

/-- Turns beyond the work that is left change nothing. -/
theorem visit_add (hfuel : work succ support seen queue ≤ fuel) (more : ℕ) :
    visit succ (fuel + more) seen queue = visit succ fuel seen queue := by
  induction fuel generalizing seen queue with
  | zero =>
    obtain rfl : queue = [] := eq_nil_of_length_eq_zero (by unfold work at hfuel; omega)
    rw [visit_nil, visit_nil]
  | succ fuel ih =>
    cases queue with
    | nil => rw [visit_nil, visit_nil]
    | cons e queue =>
      rw [Nat.add_right_comm, visit, visit]
      split_ifs with he
      · exact ih (Nat.le_of_succ_le_succ (work_skip.trans_le hfuel))
      · exact ih (Nat.le_of_succ_le_succ ((work_visit hsupp he).trans hfuel))

/-- With enough turns the search sees exactly what the queue leads to. -/
theorem mem_visit_iff {x : α} (hfuel : work succ support [] queue ≤ fuel) :
    x ∈ visit succ fuel [] queue ↔ ∃ q ∈ queue, Leads succ q x := by
  constructor
  · intro h
    simpa using leads_of_mem_visit succ h
  · rintro ⟨q, hq, hx⟩
    obtain ⟨hin, hclosed⟩ := visit_closed hsupp hfuel (by simp)
    induction hx with
    | refl => exact hin q (.inr hq)
    | tail _ hstep ih => exact hclosed _ ih _ hstep

end SelfCertifyingFS.Foundations.Worklist
