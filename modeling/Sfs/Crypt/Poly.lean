import Mathlib.Algebra.BigOperators.ModEq
import Mathlib.Tactic

/-!
# Polynomials by their coefficients

`polynomial` of `crypt/poly.C`. The coefficients for a list of roots are found by multiplying in
place by one factor after the other. `evaluate` begins with a coefficient behind the last one.
-/

namespace SelfCertifyingFS.Crypt.Poly

open Finset Function

/-- An assignment to an element of `coeffs`, which has `n` of them. The elements that are read for
it stand before it. -/
def put (n : ℕ) (c : ℕ → ℤ) (i : ℕ) (v : ℤ) : Option (ℕ → ℤ) :=
  if i < n then some (update c i v) else none

section Code

-- the reduction that the variants with a modulus make, and the identity in the others
variable (red : ℤ → ℤ)

/-- The loop over `j`. -/
def generateLoop (n : ℕ) (r : ℤ) : ℕ → (ℕ → ℤ) → Option (ℕ → ℤ)
  | 0, c => some c
  | j + 1, c => (put n c (j + 1) (red (red (c (j + 1) * r) * -1 + c j))).bind (generateLoop n r j)

def generateTurn (n : ℕ) (r : ℤ) (i : ℕ) (c : ℕ → ℤ) : Option (ℕ → ℤ) := do
  let c ← put n c i (c (i - 1))
  let c ← generateLoop red n r (i - 1) c
  put n c 0 (red (c 0 * r * -1))

/-- The loop over `i`. -/
def generateFrom (n : ℕ) : ℕ → List ℤ → (ℕ → ℤ) → Option (ℕ → ℤ)
  | _, [], c => some c
  | i, r :: roots, c => (generateTurn red n r i c).bind (generateFrom n (i + 1) roots)

def generateWith (roots : List ℤ) : Option (ℕ → ℤ) :=
  generateFrom red (roots.length + 1) 1 roots (update 0 0 1)

/-- The loop of `evaluate`. -/
def horner (c : ℕ → ℤ) (x : ℤ) : ℕ → ℤ → ℤ
  | 0, y => y
  | i + 1, y => horner c x i (red (y * x) + c i)

/-- `evaluate` of so many coefficients, for what is read behind them: nothing with
`CHECK_BOUNDS`. -/
def evaluateWith (beyond : Option ℤ) (n : ℕ) (c : ℕ → ℤ) (x : ℤ) : Option ℤ :=
  beyond.map fun y => red (horner red c x n y)

end Code

def generateCoeffs : List ℤ → Option (ℕ → ℤ) := generateWith id

def evaluate : Option ℤ → ℕ → (ℕ → ℤ) → ℤ → Option ℤ := evaluateWith id

def generateCoeffsMod (m : ℤ) : List ℤ → Option (ℕ → ℤ) := generateWith (·.tmod m)

def evaluateMod (m : ℤ) : Option ℤ → ℕ → (ℕ → ℤ) → ℤ → Option ℤ := evaluateWith (·.tmod m)

section Loops

variable {red : ℤ → ℤ} {m : ℤ} (hred : ∀ v, red v ≡ v [ZMOD m]) {n : ℕ}
include hred

theorem horner_modEq (c : ℕ → ℤ) (x : ℤ) (n : ℕ) (y : ℤ) :
    horner red c x n y ≡ y * x ^ n + ∑ i ∈ range n, c i * x ^ i [ZMOD m] := by
  induction n generalizing y with
  | zero => simp [horner]
  | succ n ih =>
    calc horner red c x n (red (y * x) + c n)
        ≡ (red (y * x) + c n) * x ^ n + ∑ i ∈ range n, c i * x ^ i [ZMOD m] := ih _
      _ ≡ (y * x + c n) * x ^ n + ∑ i ∈ range n, c i * x ^ i [ZMOD m] :=
        (((hred _).add_right _).mul_right _).add_right _
      _ = y * x ^ (n + 1) + ∑ i ∈ range (n + 1), c i * x ^ i := by
        rw [sum_range_succ]
        ring

/-- Each element becomes the difference that the old ones give. -/
theorem generateLoop_spec (r : ℤ) {j : ℕ} (c : ℕ → ℤ) (h : j < n) :
    ∃ d, generateLoop red n r j c = some d ∧
      (∀ t < j, d (t + 1) ≡ c t - c (t + 1) * r [ZMOD m]) ∧ ∀ t, t = 0 ∨ j < t → d t = c t := by
  induction j generalizing c with
  | zero => exact ⟨c, rfl, by simp, fun _ _ => rfl⟩
  | succ j ih =>
    obtain ⟨d, hd, hlow, hrest⟩ :=
      ih (update c (j + 1) (red (red (c (j + 1) * r) * -1 + c j))) (by omega)
    refine ⟨d, by rw [generateLoop, put, if_pos h]; exact hd, fun t ht => ?_, fun t ht => ?_⟩
    · rcases Nat.lt_succ_iff_lt_or_eq.mp ht with hlt | rfl
      · have hold := hlow t hlt
        rwa [update_of_ne (by omega), update_of_ne (by omega)] at hold
      · rw [hrest (t + 1) (.inr (by omega)), update_self,
          show c t - c (t + 1) * r = c (t + 1) * r * -1 + c t by ring]
        exact (hred _).trans (((hred _).mul_right _).add_right _)
    · rw [hrest t (by omega), update_of_ne (by omega)]

/-- One factor more, as long as the element for it is still zero. -/
theorem generateTurn_spec (r : ℤ) {k : ℕ} {c : ℕ → ℤ} (h : k + 1 < n)
    (hzero : ∀ t, k < t → c t = 0) :
    ∃ d, generateTurn red n r (k + 1) c = some d ∧ (∀ t, k + 1 < t → d t = 0) ∧
      ∀ x, ∑ t ∈ range (k + 2), d t * x ^ t ≡ (x - r) * ∑ t ∈ range (k + 1), c t * x ^ t
        [ZMOD m] := by
  obtain ⟨d, hd, hlow, hrest⟩ := generateLoop_spec hred r (update c (k + 1) (c k))
    (by omega : k < n)
  have hnew : ∀ t ≤ k, d (t + 1) ≡ c t - c (t + 1) * r [ZMOD m] := by
    intro t ht
    rcases Nat.lt_or_eq_of_le ht with hlt | rfl
    · have hold := hlow t hlt
      rwa [update_of_ne (by omega), update_of_ne (by omega)] at hold
    · rw [hrest (t + 1) (.inr (by omega)), update_self, hzero (t + 1) (by omega), zero_mul,
        sub_zero]
  refine ⟨update d 0 (red (d 0 * r * -1)), ?_, fun t ht => ?_, fun x => ?_⟩
  · simp [generateTurn, put, h, hd, (by omega : 0 < n)]
  · rw [update_of_ne (by omega), hrest t (.inr (by omega)), update_of_ne (by omega),
      hzero t (by omega)]
  have hfirst : d 0 = c 0 := (hrest 0 (.inl rfl)).trans (update_of_ne (by omega) _ _)
  calc ∑ t ∈ range (k + 2), update d 0 (red (d 0 * r * -1)) t * x ^ t
      = ∑ t ∈ range (k + 1), d (t + 1) * x ^ (t + 1) + red (c 0 * r * -1) := by
        rw [sum_range_succ']
        simp [hfirst]
    _ ≡ ∑ t ∈ range (k + 1), (c t - c (t + 1) * r) * x ^ (t + 1) + c 0 * r * -1 [ZMOD m] := by
        refine Int.ModEq.add (Int.ModEq.sum fun t ht => ?_) (hred _)
        exact (hnew t (by simpa using ht)).mul_right _
    _ = x * ∑ t ∈ range (k + 1), c t * x ^ t - r * ∑ t ∈ range (k + 2), c t * x ^ t := by
        rw [sum_range_succ' _ (k + 1), mul_add, mul_sum, mul_sum, sub_add_eq_sub_sub,
          ← sum_sub_distrib]
        congr 1
        · exact sum_congr rfl fun t _ => by ring
        · ring
    _ = (x - r) * ∑ t ∈ range (k + 1), c t * x ^ t := by
        rw [sum_range_succ _ (k + 1), hzero (k + 1) (by omega)]
        ring

theorem generateFrom_spec {roots : List ℤ} {k : ℕ} {c : ℕ → ℤ} (h : k + roots.length < n)
    (hzero : ∀ t, k < t → c t = 0) :
    ∃ d, generateFrom red n (k + 1) roots c = some d ∧
      ∀ x, ∑ t ∈ range (k + roots.length + 1), d t * x ^ t ≡
        (roots.map (x - ·)).prod * ∑ t ∈ range (k + 1), c t * x ^ t [ZMOD m] := by
  induction roots generalizing k c with
  | nil => exact ⟨c, rfl, by simp⟩
  | cons r roots ih =>
    rw [List.length_cons] at h ⊢
    obtain ⟨d, hd, hdzero, hdsum⟩ := generateTurn_spec hred (n := n) r (by omega) hzero
    obtain ⟨e, he, hesum⟩ := ih (by omega) hdzero
    refine ⟨e, by rw [generateFrom, hd]; exact he, fun x => ?_⟩
    rw [List.map_cons, List.prod_cons, mul_comm (x - r), mul_assoc, add_right_comm k]
    exact (hesum x).trans ((hdsum x).mul_left _)

/-- The value comes out if what is read behind the coefficients does not matter. -/
theorem evaluateWith_iff (roots : List ℤ) (x : ℤ) (beyond : Option ℤ) :
    ∃ c, generateWith red roots = some c ∧
      ((∃ y ∈ evaluateWith red beyond (roots.length + 1) c x,
          y ≡ (roots.map (x - ·)).prod [ZMOD m]) ↔
        ∃ v ∈ beyond, v * x ^ (roots.length + 1) ≡ 0 [ZMOD m]) := by
  obtain ⟨c, hc, hsum⟩ := @generateFrom_spec _ _ hred (roots.length + 1) roots 0 (update 0 0 1)
    (by omega) fun t ht => update_of_ne (by omega) _ _
  refine ⟨c, hc, ?_⟩
  cases beyond with
  | none => simp [evaluateWith]
  | some v =>
    have hval : red (horner red c x (roots.length + 1) v) ≡
        v * x ^ (roots.length + 1) + (roots.map (x - ·)).prod [ZMOD m] := by
      refine (hred _).trans ((horner_modEq hred c x _ v).trans (Int.ModEq.add_left _ ?_))
      simpa using hsum x
    simp only [evaluateWith, Option.map_some, Option.mem_some_iff, exists_eq_left']
    constructor
    · intro h
      apply Int.ModEq.add_right_cancel' (roots.map (x - ·)).prod
      rw [zero_add]
      exact hval.symm.trans h
    · intro h
      have hadd := h.add_right (roots.map (x - ·)).prod
      rw [zero_add] at hadd
      exact hval.trans hadd

end Loops

theorem tmod_modEq (m v : ℤ) : v.tmod m ≡ v [ZMOD m] := by
  rw [Int.modEq_iff_dvd]
  have hdiv := Int.tmod_add_mul_tdiv v m
  exact ⟨v.tdiv m, by linarith⟩

/-- No coefficient is missed when they are generated. The value at `x` comes out exactly if the
number behind them does not matter for it, and it is never read from among them. -/
theorem evaluate_generate_iff (roots : List ℤ) (x m : ℤ) (beyond : Option ℤ) :
    (∃ c, generateCoeffs roots = some c ∧
      (evaluate beyond (roots.length + 1) c x = some (roots.map (x - ·)).prod ↔
        ∃ v ∈ beyond, v * x ^ (roots.length + 1) = 0)) ∧
    (m ≠ 0 → ∃ c, generateCoeffsMod m roots = some c ∧
      ((∃ y ∈ evaluateMod m beyond (roots.length + 1) c x,
          y ≡ (roots.map (x - ·)).prod [ZMOD m]) ↔
        ∃ v ∈ beyond, v * x ^ (roots.length + 1) ≡ 0 [ZMOD m])) := by
  refine ⟨?_, fun _ => evaluateWith_iff (tmod_modEq m) roots x beyond⟩
  -- congruence modulo zero is equality
  obtain ⟨c, hc, hiff⟩ := evaluateWith_iff (m := 0) (fun v => Int.ModEq.refl v) roots x beyond
  simp only [Int.modEq_zero_iff, exists_eq_right] at hiff
  exact ⟨c, hc, hiff⟩

/-- The polynomial without roots, at one. -/
theorem evaluate_beyond :
    (generateCoeffs []).bind (evaluate none 1 · 1) = none ∧
      (generateCoeffs []).bind (evaluate (some 1) 1 · 1) = some 2 := by
  decide

end SelfCertifyingFS.Crypt.Poly
