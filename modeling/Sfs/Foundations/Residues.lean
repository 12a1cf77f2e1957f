import Mathlib.Tactic

/-!
# Residues

Facts that public-key systems rest on: how large the coefficients of the extended Euclidean
algorithm get, powers of a sum modulo the square of its second part, exact division by a
multiplication, and square roots by powers, up to a sign, modulo a prime and modulo the product
of two primes.
-/

namespace SelfCertifyingFS.Foundations

section

open Int

/-- The coefficients of the extended Euclidean algorithm change their signs in turn, and so
their absolute values add up to the second number with the remainders as weights. -/
theorem abs_xgcdAux_le {y : ℕ} : ∀ {r r' : ℕ} {s t s' t' : ℤ},
    0 < r' → (0 ≤ s ∧ s' ≤ 0 ∨ s ≤ 0 ∧ 0 ≤ s') → |s| * r' + |s'| * r = y → |s'| ≤ y →
      |(Nat.xgcdAux r s t r' s' t').2.1| ≤ y := by
  intro r
  induction r using Nat.strong_induction_on with
  | h r ih =>
    intro r' s t s' t' hr' hsign hsum hs'
    rcases Nat.eq_zero_or_pos r with rfl | hr
    · rw [Nat.xgcd_zero_left]
      exact hs'
    · rw [Nat.xgcdAux_rec hr]
      have hquot : 0 ≤ (r' : ℤ) / r := by positivity
      have hdiv : r * ((r' : ℤ) / r) + ((r' % r : ℕ) : ℤ) = r' := by
        exact mul_ediv_add_emod _ _
      refine ih (r' % r) (Nat.mod_lt _ hr) hr ?_ ?_ ?_
      · rcases hsign with ⟨hs, hs'⟩ | ⟨hs, hs'⟩
        · exact .inr ⟨by nlinarith, hs⟩
        · exact .inl ⟨by nlinarith, hs⟩
      · have habs : |s' - r' / r * s| = |s'| + (r' : ℤ) / r * |s| := by
          rcases hsign with ⟨hs, hs'⟩ | ⟨hs, hs'⟩
          · rw [abs_of_nonneg hs, abs_of_nonpos hs', abs_of_nonpos (by nlinarith)]
            ring
          · rw [abs_of_nonpos hs, abs_of_nonneg hs', abs_of_nonneg (by nlinarith)]
            ring
        rw [habs]
        calc (|s'| + r' / r * |s|) * r + |s| * ((r' % r : ℕ) : ℤ)
            = |s| * (r * ((r' : ℤ) / r) + ((r' % r : ℕ) : ℤ)) + |s'| * r := by ring
          _ = y := by rw [hdiv, hsum]
      · nlinarith [abs_nonneg s, abs_nonneg s', mul_nonneg (abs_nonneg s') (natCast_nonneg r)]

theorem abs_gcdA_le (x : ℕ) {y : ℕ} (hy : 0 < y) : |Nat.gcdA x y| ≤ y :=
  abs_xgcdAux_le hy (.inl ⟨Int.one_nonneg, le_rfl⟩) (by simp) (by simp)

theorem abs_intGcdA_le (x : ℤ) {y : ℤ} (hy : 0 < y) : |gcdA x y| ≤ y := by
  obtain ⟨y, rfl⟩ := eq_ofNat_of_zero_le hy.le
  have hpos : 0 < y := by exact_mod_cast hy
  cases x with
  | ofNat m => exact abs_gcdA_le m hpos
  | negSucc m =>
    change |-Nat.gcdA m.succ y| ≤ y
    rw [abs_neg]
    exact abs_gcdA_le m.succ hpos

section Powers

variable {a b n : ℤ}

theorem add_pow_modEq (h : n ∣ b * b) (k : ℕ) :
    (a + b) ^ k ≡ a ^ k + k * a ^ (k - 1) * b [ZMOD n] := by
  induction k with
  | zero => simp
  | succ k ih =>
    have hlast : k * a ^ (k - 1) * a = k * a ^ k := by
      cases k with
      | zero => simp
      | succ k => rw [Nat.add_sub_cancel, mul_assoc, ← pow_succ]
    calc (a + b) ^ (k + 1) = (a + b) ^ k * (a + b) := pow_succ _ _
      _ ≡ (a ^ k + k * a ^ (k - 1) * b) * (a + b) [ZMOD n] := ih.mul_right _
      _ = a ^ (k + 1) + (k * a ^ (k - 1) * a + a ^ k) * b + k * a ^ (k - 1) * (b * b) := by ring
      _ ≡ a ^ (k + 1) + (k * a ^ (k - 1) * a + a ^ k) * b + 0 [ZMOD n] :=
          Int.ModEq.rfl.add ((modEq_zero_iff_dvd).mpr (h.mul_left _))
      _ = a ^ (k + 1) + (k + 1) * a ^ (k + 1 - 1) * b := by
          rw [hlast]
          push_cast
          ring

theorem one_add_pow_modEq (t : ℤ) (k : ℕ) : (1 + n * t) ^ k ≡ 1 + n * (k * t) [ZMOD n * n] := by
  have h := add_pow_modEq (a := 1) (b := n * t) (n := n * n) ⟨t * t, by ring⟩ k
  simp only [one_pow, mul_one] at h
  calc (1 + n * t) ^ k ≡ 1 + k * (n * t) [ZMOD n * n] := h
    _ = 1 + n * (k * t) := by ring

theorem pow_modEq_one_of_modEq_one (h : a ≡ 1 [ZMOD n]) {k : ℕ} (hk : n ∣ k) :
    a ^ k ≡ 1 [ZMOD n * n] := by
  obtain ⟨t, ht⟩ := h.symm.dvd
  obtain ⟨c, hc⟩ := hk
  obtain rfl : a = 1 + n * t := by linarith
  calc (1 + n * t) ^ k ≡ 1 + n * (k * t) [ZMOD n * n] := one_add_pow_modEq t k
    _ = 1 + n * n * (c * t) := by rw [hc]; ring
    _ ≡ 1 [ZMOD n * n] := modEq_add_fac_self

/-- A power with an exponent that is one more than a multiple of `p - 1` is the number itself
modulo `p`, also for the multiples of `p`. -/
theorem pow_modEq_self {p : ℕ} (hp : p.Prime) (a : ℤ) {k : ℕ} (hk : 0 < k)
    (h : k ≡ 1 [MOD p - 1]) : a ^ k ≡ a [ZMOD p] := by
  have : Fact p.Prime := ⟨hp⟩
  rw [← ZMod.intCast_eq_intCast_iff, cast_pow]
  by_cases ha : (a : ZMod p) = 0
  · rw [ha, zero_pow hk.ne']
  · obtain ⟨c, hc⟩ := (Nat.modEq_iff_dvd' hk).mp h.symm
    obtain rfl : k = (p - 1) * c + 1 := by omega
    rw [pow_succ, pow_mul, ZMod.pow_card_sub_one_eq_one ha, one_pow, one_mul]

end Powers

/-- The number `c` has the logarithm `m`: its power `e` is `m` times `t` above one, counted in
multiples of `l` modulo the square of `l`. -/
def HasLog (l : ℤ) (e : ℕ) (t c m : ℤ) : Prop := c ^ e ≡ 1 + l * (m * t) [ZMOD l * l]

namespace HasLog

variable {l t c c' m m' : ℤ} {e : ℕ}

section

variable (h : HasLog l e t c m)

include h

theorem congr (hc : c' ≡ c [ZMOD l * l]) : HasLog l e t c' m := (hc.pow e).trans h

theorem congr_log (hm : m' ≡ m [ZMOD l]) : HasLog l e t c m' := by
  have hl : l * (m' * t) ≡ l * (m * t) [ZMOD l * l] := (hm.mul_right t).mul_left'
  exact Int.ModEq.trans h (Int.ModEq.rfl.add hl.symm)

theorem mul (h' : HasLog l e t c' m') : HasLog l e t (c * c') (m + m') := by
  calc (c * c') ^ e = c ^ e * c' ^ e := mul_pow _ _ _
    _ ≡ (1 + l * (m * t)) * (1 + l * (m' * t)) [ZMOD l * l] := Int.ModEq.mul h h'
    _ = 1 + l * ((m + m') * t) + l * l * (m * t * (m' * t)) := by ring
    _ ≡ 1 + l * ((m + m') * t) [ZMOD l * l] := modEq_add_fac_self

theorem pow (k : ℕ) : HasLog l e t (c ^ k) (k * m) := by
  induction k with
  | zero => simp [HasLog]
  | succ k ih =>
    have hsum : ((k + 1 : ℕ) : ℤ) * m = k * m + m := by push_cast; ring
    rw [pow_succ, hsum]
    exact ih.mul h

theorem inverse (hc : c * c' ≡ 1 [ZMOD l * l]) : HasLog l e t c' (-m) := by
  have hprod : c ^ e * c' ^ e ≡ 1 [ZMOD l * l] := by
    rw [← mul_pow]
    simpa using hc.pow e
  have hunit : (1 + l * (-m * t)) * c ^ e ≡ 1 [ZMOD l * l] := by
    calc (1 + l * (-m * t)) * c ^ e ≡ (1 + l * (-m * t)) * (1 + l * (m * t)) [ZMOD l * l] :=
          Int.ModEq.mul_left _ h
      _ = 1 + l * l * (-(m * t * (m * t))) := by ring
      _ ≡ 1 [ZMOD l * l] := modEq_add_fac_self
  calc c' ^ e = 1 * c' ^ e := (one_mul _).symm
    _ ≡ (1 + l * (-m * t)) * c ^ e * c' ^ e [ZMOD l * l] := hunit.symm.mul_right _
    _ = (1 + l * (-m * t)) * (c ^ e * c' ^ e) := mul_assoc _ _ _
    _ ≡ (1 + l * (-m * t)) * 1 [ZMOD l * l] := hprod.mul_left _
    _ = 1 + l * (-m * t) := mul_one _

/-- A power by a multiple of `l` has the logarithm zero. -/
theorem pow_multiple {n : ℕ} (hn : l ∣ n) : HasLog l e t (c ^ n) 0 := by
  apply (h.pow n).congr_log
  exact ((modEq_zero_iff_dvd).mpr (hn.mul_right m)).symm

/-- What has a logarithm is coprime to `l`. -/
theorem isCoprime (he : 0 < e) : IsCoprime c l := by
  have hone : c ^ e ≡ 1 [ZMOD l] := (Int.ModEq.of_dvd (Dvd.intro _ rfl) h).trans modEq_add_fac_self
  obtain ⟨d, hd⟩ := hone.symm.dvd
  have hpow : IsCoprime (c ^ e) l := ⟨1, -d, by linarith⟩
  exact (IsCoprime.pow_left_iff he).mp hpow

end

end HasLog

/-- A product divided by one of its factors, by a multiplication with the inverse modulo a
number that the quotient does not reach. -/
theorem mul_inverse_emod {x l m w : ℤ} (hinv : x * l ≡ 1 [ZMOD w]) (h0 : 0 ≤ m) (hw : m < w) :
    x * m * l % w = m := by
  have h : x * m * l ≡ m [ZMOD w] := by
    calc x * m * l = x * l * m := by ring
      _ ≡ 1 * m [ZMOD w] := hinv.mul_right m
      _ = m := one_mul m
  rw [h, emod_eq_of_lt h0 hw]

end

open Nat

section Primes

variable {p : ℕ} [Fact p.Prime]

theorem legendreSym_pow_odd {a : ℤ} (ha : (a : ZMod p) ≠ 0) {h : ℕ} (hh : Odd h) :
    legendreSym p a ^ h = legendreSym p a := by
  rcases legendreSym.eq_one_or_neg_one p ha with hs | hs
  · rw [hs, one_pow]
  · rw [hs, hh.neg_one_pow]

theorem sq_pow_half (hp : p ≠ 2) {b : ZMod p} (hb : b ≠ 0) : (b ^ 2) ^ (p / 2) = 1 := by
  have hodd := (Fact.out : p.Prime).eq_two_or_odd.resolve_left hp
  rw [← pow_mul, show 2 * (p / 2) = p - 1 by omega]
  exact ZMod.pow_card_sub_one_eq_one hb

variable {k h : ℕ}

/-- The power with a square factor that is divided out and multiplied in again. -/
theorem blinded_pow (hp : p ≠ 2) (hk : 2 * k = p / 2 * h + 1) (hh : Odd h) {a : ℤ}
    (ha : (a : ZMod p) ≠ 0) {b : ZMod p} (hb : b ≠ 0) :
    ((b ^ 2)⁻¹ * (a : ZMod p)) ^ (2 * k) * b ^ 2 = (legendreSym p a : ZMod p) * a := by
  have hb2 : b ^ 2 ≠ 0 := pow_ne_zero 2 hb
  calc ((b ^ 2)⁻¹ * a) ^ (2 * k) * b ^ 2
      = (((b ^ 2) ^ (p / 2))⁻¹ * a ^ (p / 2)) ^ h * ((b ^ 2)⁻¹ * a) * b ^ 2 := by
        rw [hk, pow_succ, pow_mul, mul_pow, inv_pow]
    _ = (a ^ (p / 2)) ^ h * a * ((b ^ 2)⁻¹ * b ^ 2) := by
        rw [sq_pow_half hp hb]
        ring
    _ = (legendreSym p a) * a := by
        rw [inv_mul_cancel₀ hb2, mul_one, ← legendreSym.eq_pow, ← Int.cast_pow,
          legendreSym_pow_odd ha hh]

theorem pow_mod_sub_one {a : ZMod p} (ha : a ≠ 0) (k : ℕ) : a ^ (k % (p - 1)) = a ^ k := by
  conv_rhs => rw [← mod_add_div k (p - 1), pow_add, pow_mul, ZMod.pow_card_sub_one_eq_one ha,
    one_pow, mul_one]

end Primes

section Products

variable {p q : ℕ} {x y : ℤ}

theorem modEq_mul_of_casts (hcop : p.Coprime q) (hp : (x : ZMod p) = y) (hq : (x : ZMod q) = y) :
    x ≡ y [ZMOD (p * q : ℕ)] := by
  rw [ZMod.intCast_eq_intCast_iff] at hp hq
  have hcop' : (p : ℤ).natAbs.Coprime (q : ℤ).natAbs := by simpa using hcop
  have h := (Int.modEq_and_modEq_iff_modEq_mul hcop').mp ⟨hp, hq⟩
  simpa using h

theorem eq_of_modEq {n : ℤ} (h : y ≡ x [ZMOD n]) (hy : 0 ≤ y) (hyn : y < n) (hx : 0 ≤ x)
    (hxn : x < n) : y = x := by
  rw [← Int.emod_eq_of_lt hy hyn, ← Int.emod_eq_of_lt hx hxn]
  exact h

theorem eq_or_eq_sub {n s : ℤ} (hs : s = 1 ∨ s = -1) (h : y ≡ s * x [ZMOD n]) (hy : 0 ≤ y)
    (hyn : y < n) (hx : 0 < x) (hxn : x < n) : y = x ∨ y = n - x := by
  rcases hs with rfl | rfl
  · rw [one_mul] at h
    exact .inl (eq_of_modEq h hy hyn hx.le hxn)
  · have hsub : -1 * x ≡ n - x [ZMOD n] := Int.modEq_iff_dvd.mpr ⟨1, by ring⟩
    exact .inr (eq_of_modEq (h.trans hsub) hy hyn (by omega) (by omega))

end Products

section LeastNegative

/-- The least positive number whose Jacobi symbol is minus one. -/
structure LeastNegative (n a : ℕ) : Prop where
  neg : jacobiSym a n = -1
  least : ∀ c : ℕ, 0 < c → c < a → jacobiSym c n ≠ -1

variable {n a : ℕ}

theorem exists_leastNegative {b : ℕ} (hb : jacobiSym b n = -1) (hn : 1 < n) :
    ∃ a, 0 < a ∧ a ≤ b ∧ LeastNegative n a := by
  have hpos : 0 < b := by
    rcases Nat.eq_zero_or_pos b with rfl | hpos
    · rw [cast_zero, jacobiSym.zero_left hn] at hb
      norm_num at hb
    · exact hpos
  have hex : ∃ c, 0 < c ∧ jacobiSym (c : ℕ) n = -1 := ⟨b, hpos, hb⟩
  classical
  refine ⟨Nat.find hex, (Nat.find_spec hex).1, Nat.find_min' hex ⟨hpos, hb⟩,
    (Nat.find_spec hex).2, ?_⟩
  intro c hc hlt hneg
  exact Nat.find_min hex hlt ⟨hc, hneg⟩

theorem LeastNegative.coprime (h : LeastNegative n a) : Nat.Coprime a n := by
  by_contra hne
  have hzero : jacobiSym a n = 0 := by
    refine jacobiSym.eq_zero_iff.mpr ⟨?_, by simpa using hne⟩
    rintro rfl
    have hneg := h.neg
    simp at hneg
  rw [h.neg] at hzero
  norm_num at hzero

/-- A symbol below the least negative one, if it is negative of another such, is zero. -/
theorem LeastNegative.eq_zero (h : LeastNegative n a) {c d : ℕ} (hc : 0 < c) (hca : c < a)
    (hd : 0 < d) (hda : d < a) (hcd : jacobiSym d n = -jacobiSym c n) : jacobiSym c n = 0 := by
  have hc' := h.least c hc hca
  have hd' := h.least d hd hda
  rcases jacobiSym.trichotomy c n with hs | hs | hs
  · exact hs
  · rw [hs] at hcd
    exact absurd hcd hd'
  · exact absurd hs hc'

variable (h : LeastNegative n a)

include h

theorem LeastNegative.odd (ha : 0 < a) (htwo : jacobiSym 2 n = 1) : Odd a := by
  by_contra heven
  obtain ⟨c, rfl⟩ := (Nat.not_odd_iff_even.mp heven).two_dvd
  refine h.least c (by omega) (by omega) ?_
  have hneg := h.neg
  rwa [cast_mul, cast_ofNat, jacobiSym.mul_left, htwo, one_mul] at hneg

theorem LeastNegative.one_lt (ha : 0 < a) : 1 < a := by
  refine lt_of_le_of_ne ha ?_
  rintro rfl
  have hneg := h.neg
  simp at hneg

/-- The quotient by the least negative number, and the next number, have symbol zero if they
are smaller: the remainders would be negative otherwise. -/
theorem LeastNegative.quotients (hminus : jacobiSym (-1) n = 1) (ha : 0 < a) {c : ℕ}
    (hc : c = n / a) :
    (0 < c → c < a → jacobiSym c n = 0) ∧ (c + 1 < a → jacobiSym (c + 1 : ℕ) n = 0) := by
  have hrem : 0 < n % a := by
    refine Nat.pos_of_ne_zero fun hzero => (h.one_lt ha).ne' ?_
    exact Nat.Coprime.eq_one_of_dvd h.coprime (dvd_of_mod_eq_zero hzero)
  have hlt : n % a < a := mod_lt _ ha
  have hdiv : (a : ℤ) * c + (n % a : ℕ) = n := by
    rw [hc]
    exact_mod_cast div_add_mod n a
  constructor
  · intro hc0 hca
    have hmod : ((n % a : ℕ) : ℤ) ≡ -1 * (a * c) [ZMOD n] := Int.modEq_iff_dvd.mpr ⟨-1, by linarith⟩
    refine h.eq_zero hc0 hca hrem hlt ?_
    rw [jacobiSym.mod_left' hmod, jacobiSym.mul_left, jacobiSym.mul_left, hminus, h.neg]
    ring
  · intro hca
    have hmod : ((a - n % a : ℕ) : ℤ) ≡ a * (c + 1 : ℕ) [ZMOD n] := by
      refine Int.modEq_iff_dvd.mpr ⟨1, ?_⟩
      push_cast [hlt.le] at hdiv ⊢
      linarith
    refine h.eq_zero (succ_pos c) hca (show 0 < a - n % a by omega) (by omega) ?_
    rw [jacobiSym.mod_left' hmod, jacobiSym.mul_left, h.neg]
    ring

/-- With a number its negative has the same symbol, so that the least one is in the lower
half. -/
theorem LeastNegative.two_mul_lt (hminus : jacobiSym (-1) n = 1) (hn : Odd n) (han : a < n) :
    2 * a < n := by
  by_contra hge
  have hne : n ≠ 2 * a := by
    rintro rfl
    exact Nat.not_odd_iff_even.mpr (even_two_mul a) hn
  refine h.least (n - a) (by omega) (by omega) ?_
  have hmod : ((n - a : ℕ) : ℤ) ≡ -1 * a [ZMOD n] := by
    refine Int.modEq_iff_dvd.mpr ⟨-1, ?_⟩
    push_cast [han.le]
    ring
  rw [jacobiSym.mod_left' hmod, jacobiSym.mul_left, hminus, h.neg]
  ring

end LeastNegative

end SelfCertifyingFS.Foundations
