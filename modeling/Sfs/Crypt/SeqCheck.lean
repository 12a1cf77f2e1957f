import Sfs.Foundations.Runs

/-!
# Replay protection by a window of sequence numbers

`seqcheck` of `crypt/seqno.C` accepts each sequence number at most once. It keeps
two bit vectors for the numbers from `bottom` on and slides them upward; numbers
below the window count as used.
-/

namespace SelfCertifyingFS.Crypt

open Foundations List Function
open Run (start)

/-- The two bit vectors have `nbits` bits each. -/
structure SeqCheck where
  bottom : ℕ
  nbits : ℕ
  bv0 : ℕ → Bool
  bv1 : ℕ → Bool

namespace SeqCheck

def new (n : ℕ) : SeqCheck := ⟨0, n, fun _ => false, fun _ => false⟩

variable (s : SeqCheck) (seqno : ℕ)

/-- The window moves until it contains the number, which is at least `bottom`. -/
def slide : SeqCheck :=
  if seqno - s.bottom ≥ 3 * s.nbits then
    { s with bottom := seqno, bv0 := fun _ => false, bv1 := fun _ => false }
  else if seqno - s.bottom ≥ 2 * s.nbits then
    { s with bottom := s.bottom + s.nbits, bv0 := s.bv1, bv1 := fun _ => false }
  else s

/-- Test and set the bit of a number in the window. -/
def mark : SeqCheck × Bool :=
  let i := seqno - s.bottom
  if i ≥ s.nbits then
    if s.bv1 (i - s.nbits) then (s, false)
    else ({ s with bv1 := update s.bv1 (i - s.nbits) true }, true)
  else if s.bv0 i then (s, false)
  else ({ s with bv0 := update s.bv0 i true }, true)

def check : SeqCheck × Bool :=
  if seqno < s.bottom then (s, false) else (s.slide seqno).mark seqno

/-- The numbers that will not be accepted any more. -/
def Used (s : SeqCheck) (q : ℕ) : Prop :=
  q < s.bottom ∨
    (s.bottom ≤ q ∧ q < s.bottom + s.nbits ∧ s.bv0 (q - s.bottom) = true) ∨
    (s.bottom + s.nbits ≤ q ∧ q < s.bottom + 2 * s.nbits ∧ s.bv1 (q - s.bottom - s.nbits) = true)

variable {s : SeqCheck} {q seqno : ℕ}

theorem Used.slide (h : s.Used q) (hle : s.bottom ≤ seqno) : (s.slide seqno).Used q := by
  unfold SeqCheck.slide
  split_ifs with h3 h2
  · left
    rcases h with h | h | h <;> simp only <;> omega
  · rcases h with h | ⟨hlo, hhi, -⟩ | ⟨hlo, hhi, hbit⟩
    · left
      simp only
      omega
    · left
      exact hhi
    · have hlt : q < s.bottom + s.nbits + s.nbits := by omega
      exact .inr (.inl ⟨hlo, hlt, Nat.sub_sub q s.bottom s.nbits ▸ hbit⟩)
  · exact h

theorem slide_window (hn : 0 < s.nbits) (hle : s.bottom ≤ seqno) :
    (s.slide seqno).bottom ≤ seqno ∧
      seqno < (s.slide seqno).bottom + 2 * (s.slide seqno).nbits := by
  unfold SeqCheck.slide
  split_ifs with h3 h2
  · simp only
    omega
  · simp only
    omega
  · omega

theorem Used.mark (h : s.Used q) (seqno : ℕ) : (s.mark seqno).1.Used q := by
  have hset : ∀ f (i j : ℕ), f j = true → update f i true j = true := by
    intro f i j hj
    by_cases hij : j = i
    · rw [hij, update_self]
    · rw [update_of_ne hij, hj]
  simp only [SeqCheck.mark]
  split_ifs
  · exact h
  · exact h.imp_right fun h => h.imp_right fun h => ⟨h.1, h.2.1, hset _ _ _ h.2.2⟩
  · exact h
  · exact h.imp_right fun h => h.imp_left fun h => ⟨h.1, h.2.1, hset _ _ _ h.2.2⟩

/-- In the window, a number is accepted exactly if it has not been used, and is
used afterwards. -/
theorem mark_iff (hlo : s.bottom ≤ seqno) (hhi : seqno < s.bottom + 2 * s.nbits) :
    ((s.mark seqno).2 = true ↔ ¬s.Used seqno) ∧ (s.mark seqno).1.Used seqno := by
  simp only [SeqCheck.mark]
  split_ifs with hi hbit hbit
  · have hused : s.Used seqno := .inr (.inr ⟨by omega, hhi, hbit⟩)
    exact ⟨by simp [hused], hused⟩
  · refine ⟨⟨fun _ => ?_, fun _ => rfl⟩, .inr (.inr ⟨?_, hhi, update_self _ _ _⟩)⟩
    · rintro (h | h | h)
      · omega
      · omega
      · exact hbit h.2.2
    · simp only
      omega
  · have hused : s.Used seqno := .inr (.inl ⟨hlo, by omega, hbit⟩)
    exact ⟨by simp [hused], hused⟩
  · refine ⟨⟨fun _ => ?_, fun _ => rfl⟩, .inr (.inl ⟨hlo, ?_, update_self _ _ _⟩)⟩
    · rintro (h | h | h)
      · omega
      · exact hbit h.2.2
      · omega
    · simp only
      omega

@[simp] theorem nbits_check (s : SeqCheck) (seqno : ℕ) : (s.check seqno).1.nbits = s.nbits := by
  simp only [SeqCheck.check, SeqCheck.mark, SeqCheck.slide]
  split_ifs <;> rfl

theorem Used.check (h : s.Used q) (seqno : ℕ) : (s.check seqno).1.Used q := by
  unfold SeqCheck.check
  split_ifs with hlt
  · exact h
  · exact (h.slide (not_lt.mp hlt)).mark seqno

theorem check_accepts (hn : 0 < s.nbits) (h : (s.check seqno).2 = true) :
    ¬s.Used seqno ∧ (s.check seqno).1.Used seqno := by
  by_cases hlt : seqno < s.bottom
  · rw [SeqCheck.check, if_pos hlt] at h
    cases h
  · rw [SeqCheck.check, if_neg hlt] at *
    obtain ⟨hlo, hhi⟩ := slide_window hn (not_lt.mp hlt)
    obtain ⟨hiff, hused⟩ := mark_iff hlo hhi
    exact ⟨fun hold => hiff.mp h (hold.slide (not_lt.mp hlt)), hused⟩

/-- Sliding uses up only numbers below the one that is presented. -/
theorem used_of_slide (h : (s.slide seqno).Used q) : s.Used q ∨ q < seqno := by
  unfold SeqCheck.slide at h
  split_ifs at h with h3 h2
  · rcases h with h | ⟨-, -, hbit⟩ | ⟨-, -, hbit⟩
    · exact .inr h
    · cases hbit
    · cases hbit
  · rcases h with h | ⟨hlo, hhi, -⟩ | ⟨-, -, hbit⟩
    · simp only at h
      omega
    · simp only at hlo hhi
      omega
    · cases hbit
  · exact .inl h

/-- Marking uses up only the number itself. -/
theorem used_of_mark (hle : s.bottom ≤ seqno) (h : (s.mark seqno).1.Used q) :
    s.Used q ∨ q = seqno := by
  have hset : ∀ {f : ℕ → Bool} {i j : ℕ}, update f i true j = true → f j = true ∨ j = i := by
    intro f i j hj
    by_cases hij : j = i
    · exact .inr hij
    · exact .inl (by rwa [update_of_ne hij] at hj)
  simp only [SeqCheck.mark] at h
  split_ifs at h with hi hbit hbit
  · exact .inl h
  · rcases h with h | h | ⟨hlo, hhi, hq⟩
    · exact .inl (.inl h)
    · exact .inl (.inr (.inl h))
    · simp only at hlo hhi
      rcases hset hq with hq | hq
      · exact .inl (.inr (.inr ⟨hlo, hhi, hq⟩))
      · simp only at hq
        omega
  · exact .inl h
  · rcases h with h | ⟨hlo, hhi, hq⟩ | h
    · exact .inl (.inl h)
    · simp only at hlo hhi
      rcases hset hq with hq | hq
      · exact .inl (.inr (.inl ⟨hlo, hhi, hq⟩))
      · simp only at hq
        omega
    · exact .inl (.inr (.inr h))

theorem used_of_check (hn : 0 < s.nbits) (h : (s.check seqno).1.Used q) : s.Used q ∨ q ≤ seqno := by
  by_cases hlt : seqno < s.bottom
  · rw [SeqCheck.check, if_pos hlt] at h
    exact .inl h
  · rw [SeqCheck.check, if_neg hlt] at h
    obtain ⟨hlo, -⟩ := slide_window hn (not_lt.mp hlt)
    rcases used_of_mark hlo h with h | rfl
    · exact (used_of_slide h).imp_right Nat.le_of_lt
    · exact .inr le_rfl

theorem check_of_not_used (hn : 0 < s.nbits) (h : ¬s.Used seqno) : (s.check seqno).2 = true := by
  have hle : s.bottom ≤ seqno := not_lt.mp fun hlt => h (.inl hlt)
  rw [SeqCheck.check, if_neg (not_lt.mpr hle)]
  obtain ⟨hlo, hhi⟩ := slide_window hn hle
  apply (mark_iff hlo hhi).1.mpr
  intro hused
  rcases used_of_slide hused with hused | hlt
  · exact h hused
  · exact absurd hlt (lt_irrefl _)

/-- The numbers presented so far, with the answers, and the state of the window. -/
structure Inv (r : Run SeqCheck ℕ Bool) : Prop where
  pos : 0 < r.state.nbits
  used : ∀ q, (q, true) ∈ r.past → r.state.Used q
  once : ∀ q, r.past.count (q, true) ≤ 1
  bound : ∀ q, r.state.Used q → ∃ e ∈ r.past, q ≤ e.1

theorem inv_start {n : ℕ} (hn : 0 < n) : Inv (start (new n)) where
  pos := hn
  used _ h := by cases h
  once _ := Nat.zero_le 1
  bound q h := by
    rcases h with h | ⟨-, -, h⟩ | ⟨-, -, h⟩
    · cases h
    · cases h
    · cases h

variable (r : Run SeqCheck ℕ Bool)

theorem inv_next (seqno : ℕ) (h : Inv r) : Inv (r.next check seqno) where
  pos := (nbits_check r.state seqno).symm ▸ h.pos
  used q hq := by
    rcases mem_cons.mp hq with heq | hq
    · obtain ⟨rfl, hok⟩ := Prod.mk.inj heq
      exact (check_accepts h.pos hok.symm).2
    · exact (h.used q hq).check seqno
  once q := by
    rw [show (r.next check seqno).past = (seqno, (r.state.check seqno).2) :: r.past from rfl,
      count_cons]
    split_ifs with heq
    · -- an accepted number had not been used, so it was not accepted before
      obtain ⟨rfl, hok⟩ := Prod.mk.inj (beq_iff_eq.mp heq)
      have hnot : (seqno, true) ∉ r.past := fun hmem =>
        (check_accepts h.pos hok).1 (h.used seqno hmem)
      rw [count_eq_zero_of_not_mem hnot]
    · exact h.once q
  bound q hq := by
    rcases used_of_check h.pos hq with hq | hle
    · obtain ⟨e, he, hle⟩ := h.bound q hq
      exact ⟨e, mem_cons_of_mem _ he, hle⟩
    · exact ⟨_, mem_cons_self, hle⟩

/-- The calls with their answers, newest first, after a list of calls on one object. -/
theorem past_fst (seqnos : List ℕ) :
    (r.take check seqnos).past.map Prod.fst = seqnos.reverse ++ r.past.map Prod.fst := by
  induction seqnos generalizing r with
  | nil => rfl
  | cons q seqnos ih =>
    rw [Run.take_cons, ih, reverse_cons, append_assoc]
    rfl

/-- Replay protection: in the answers to any calls no number is accepted twice, and a
number larger than all that were presented before it is accepted. -/
theorem accepts_once_and_new {n : ℕ} (hn : 0 < n) (seqnos : List ℕ) :
    (∀ q, ((start (new n)).take check seqnos).past.count (q, true) ≤ 1) ∧
      ∀ q, (∀ p ∈ seqnos, p < q) →
        (((start (new n)).take check seqnos).state.check q).2 = true := by
  have h : Inv ((start (new n)).take check seqnos) :=
    Run.invariant (inv_start hn) inv_next seqnos
  refine ⟨h.once, fun q hq => check_of_not_used h.pos fun hused => ?_⟩
  obtain ⟨e, he, hle⟩ := h.bound q hused
  have hmem : e.1 ∈ seqnos := by
    have hfst := mem_map_of_mem (f := Prod.fst) he
    rw [past_fst] at hfst
    simpa [start] using hfst
  exact absurd (hq e.1 hmem) (not_lt.mpr hle)

theorem accepts_once_and_new_jump :
    (∀ q, ((start (new 2)).take check [0, 5, 4, 9, 5]).past.count (q, true) ≤ 1) ∧
      (((start (new 2)).take check [0, 5, 4, 9, 5]).state.check 10).2 = true :=
  ⟨(accepts_once_and_new Nat.two_pos [0, 5, 4, 9, 5]).1,
    (accepts_once_and_new Nat.two_pos [0, 5, 4, 9, 5]).2 10 (by decide)⟩

end SeqCheck

end SelfCertifyingFS.Crypt
