import Mathlib.Data.Nat.Size
import Mathlib.Tactic

/-!
# Barrett reduction

`barrett` of `crypt/modalg.C`. The quotient is estimated from the leading limbs; the estimate is
at most two too small, and what is left over is taken off by the loop at the end. That loop stops
at the modulus itself.
-/

namespace SelfCertifyingFS.Crypt

open Nat

/-- The members of `barrett` that `set` fills in, for limbs of `w` bits. -/
structure Barrett where
  w : ℕ
  mp : ℕ
  k : ℕ
  bk1 : ℕ
  u : ℕ
  deriving DecidableEq

namespace Barrett

/-- `set`, with its assertions. -/
def set (w m : ℕ) : Option Barrett :=
  if 0 < m ∧ m.testBit 0 then
    let k := (m.size + w - 1) / w
    some ⟨w, m, k, 2 ^ ((k + 1) * w), 2 ^ (2 * w * k) / m⟩
  else none

/-- `while (mpz_cmp (r, mp) > 0) mpz_sub (r, r, mp);` -/
def subLoop (m : ℕ) : ℕ → ℕ → ℕ
  | 0, r => r
  | fuel + 1, r => if m < r then subLoop m fuel (r - m) else r

def quotient (s : Barrett) (a : ℕ) : ℕ :=
  a / 2 ^ ((s.k - 1) * s.w) * s.u / 2 ^ ((s.k + 1) * s.w)

/-- `mpz_sub (r, &r1, &r2)` for numbers below `bk1`, which is added to a negative difference. -/
def truncSub (bk1 r1 r2 : ℕ) : ℕ := if r1 < r2 then r1 + bk1 - r2 else r1 - r2

/-- `mpz_reduce`, with its assertion on the size of a number that is not negative. -/
def reduce (s : Barrett) (a : ℕ) : Option ℕ :=
  if a < 2 ^ (2 * s.k * s.w) then
    let r1 := a % 2 ^ ((s.k + 1) * s.w)
    let r2 := s.quotient a * s.mp % 2 ^ ((s.k + 1) * s.w)
    let r := truncSub s.bk1 r1 r2
    some (subLoop s.mp r r)
  else none

theorem subLoop_eq {m : ℕ} (hm : 0 < m) {fuel r : ℕ} (h : r ≤ fuel) :
    subLoop m fuel r = if r = 0 then 0 else (r - 1) % m + 1 := by
  induction fuel generalizing r with
  | zero =>
    obtain rfl : r = 0 := by omega
    rfl
  | succ fuel ih =>
    rw [subLoop]
    split_ifs with hlt hzero hzero
    · omega
    · have hstep : (r - m - 1) % m = (r - 1) % m := by
        rw [show r - 1 = r - m - 1 + m by omega, add_mod_right]
      rw [ih (by omega), if_neg (by omega), hstep]
    · exact hzero
    · rw [mod_eq_of_lt (by omega)]
      omega

/-- The estimate of the quotient, for `c` and `R` the two powers that are divided by. -/
theorem quotient_bounds {c R m a : ℕ} (hm : 0 < m) (hR : 0 < R) (hc : 0 < c) (hcm : c ≤ m)
    (ha : a < c * R) :
    a / c * (c * R / m) / R * m ≤ a ∧ a < a / c * (c * R / m) / R * m + 3 * m := by
  have hq1 := div_add_mod a c
  have hq1lt : a % c < c := Nat.mod_lt a hc
  have hu := div_add_mod (c * R) m
  have hult : c * R % m < m := Nat.mod_lt _ hm
  have hq := div_add_mod (a / c * (c * R / m)) R
  have hqlt : a / c * (c * R / m) % R < R := Nat.mod_lt _ hR
  generalize a / c = q1 at *
  generalize c * R / m = u at *
  generalize q1 * u / R = q at *
  have hlow : R * (q * m) ≤ R * a := by
    calc R * (q * m) = R * q * m := by ring
      _ ≤ q1 * u * m := Nat.mul_le_mul_right m (by omega)
      _ = q1 * (m * u) := by ring
      _ ≤ q1 * (c * R) := mul_le_mul_left q1 (by omega)
      _ = R * (c * q1) := by ring
      _ ≤ R * a := mul_le_mul_left R (by omega)
  refine ⟨le_of_mul_le_mul_left hlow hR, ?_⟩
  nlinarith

/-- The difference of the truncated numbers is the remainder of the estimate. -/
theorem truncSub_mod {R a b : ℕ} (hab : b ≤ a) (hlt : a - b < R) :
    truncSub R (a % R) (b % R) = a - b := by
  obtain ⟨d, rfl⟩ := Nat.exists_eq_add_of_le hab
  rw [Nat.add_sub_cancel_left] at hlt ⊢
  have hb : b % R < R := Nat.mod_lt _ (by omega)
  rw [truncSub, add_mod, mod_eq_of_lt hlt]
  rcases lt_or_ge (b % R + d) R with hsmall | hlarge
  · rw [mod_eq_of_lt hsmall, if_neg (by omega)]
    omega
  · rw [mod_eq_sub_mod hlarge, mod_eq_of_lt (by omega), if_pos (by omega)]
    omega

theorem size_bounds {w m : ℕ} (hw : 2 ≤ w) (hm : 0 < m) :
    ∃ j, (m.size + w - 1) / w = j + 1 ∧ 2 ^ (j * w) ≤ m ∧ 3 * m ≤ 2 ^ ((j + 1 + 1) * w) := by
  have hsize : 0 < m.size := size_pos.mpr hm
  have hpos : 0 < (m.size + w - 1) / w := div_pos (by omega) (by omega)
  obtain ⟨j, hj : _ = j + 1⟩ := exists_eq_succ_of_ne_zero hpos.ne'
  have hdiv := div_add_mod' (m.size + w - 1) w
  have hrem : (m.size + w - 1) % w < w := Nat.mod_lt _ (by omega)
  rw [hj] at hdiv
  have hexp : (j + 1) * w = j * w + w := succ_mul j w
  have hlow : 2 ^ (j * w) ≤ m := lt_size.mp (by omega)
  have hhigh : m < 2 ^ ((j + 1) * w) := Nat.size_le.mp (by omega)
  have hfour : 2 ^ 2 ≤ 2 ^ w := Nat.pow_le_pow_right (by norm_num) hw
  refine ⟨j, hj, hlow, ?_⟩
  calc 3 * m ≤ 2 ^ ((j + 1) * w) * 2 ^ w := by nlinarith
    _ = 2 ^ ((j + 1 + 1) * w) := by rw [← pow_add, ← succ_mul]

/-- What the loop is left with for a number of twice the limbs of the modulus. -/
theorem reduce_eq {w m a : ℕ} {s : Barrett} (hw : 2 ≤ w) (hs : set w m = some s)
    (ha : a < 2 ^ (2 * s.k * w)) :
    s.quotient a * m ≤ a ∧ s.reduce a = some (if a - s.quotient a * m = 0 then 0
      else (a - s.quotient a * m - 1) % m + 1) := by
  rw [set] at hs
  split_ifs at hs with hm
  obtain ⟨j, hj, hlow, hhigh⟩ := size_bounds hw hm.1
  simp only [hj] at hs
  obtain rfl := Option.some.inj hs
  have hsplit : 2 ^ (2 * w * (j + 1)) = 2 ^ (j * w) * 2 ^ ((j + 1 + 1) * w) := by ring
  have hbounds := quotient_bounds hm.1 (Nat.two_pow_pos ((j + 1 + 1) * w))
    (Nat.two_pow_pos (j * w)) hlow (by rwa [← hsplit, mul_right_comm])
  rw [← hsplit] at hbounds
  rw [reduce, if_pos ha]
  generalize hq : quotient _ a = q
  obtain ⟨hle, hlt⟩ : q * m ≤ a ∧ a < q * m + 3 * m := hq ▸ hbounds
  dsimp only
  refine ⟨hle, ?_⟩
  rw [truncSub_mod hle (by omega), subLoop_eq hm.1 le_rfl]

theorem loop_end_iff {m : ℕ} (hm : 0 < m) (d : ℕ) :
    (if d = 0 then 0 else (d - 1) % m + 1) = d % m ↔ (m ∣ d → d / m = 0) := by
  have hd := div_add_mod d m
  split_ifs with hzero
  · simp [hzero]
  rcases Nat.eq_zero_or_pos (d % m) with hdvd | hpos
  · have hquot : d / m ≠ 0 := by
      intro h
      simp [h] at hd
      omega
    simp [dvd_of_mod_eq_zero hdvd, hquot, hdvd]
  · have hpred : d - 1 = m * (d / m) + (d % m - 1) := by omega
    have hlt : d % m < m := Nat.mod_lt d hm
    rw [hpred, mul_add_mod, mod_eq_of_lt (by omega)]
    omega

end Barrett
end SelfCertifyingFS.Crypt
