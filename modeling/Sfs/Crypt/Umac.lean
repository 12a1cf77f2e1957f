import Mathlib.Data.Nat.ModEq
import Mathlib.Tactic.NormNum.GCD
import Mathlib.Tactic.Ring

/-!
# Polynomial hashes

The step of `umac_poly` of `crypt/umac.h`, as the template has it for any type of numbers, and
as it is written out for 64 bits. Words that are not below the threshold take two steps. The
template takes the offset from such a word; what is written out for 64 bits does not.
-/

namespace SelfCertifyingFS.Crypt.Umac

open Nat

def prime : ℕ := 0xffffffffffffffc5

def offset : ℕ := 59

def marker : ℕ := prime - 1

def maxword : ℕ := 0xffffffff00000000

/-- `umac_poly<n>::poly_inner` with the constants for 64 bits. Numbers of `prime_t` are taken
modulo `W`, which is zero for a type without a largest number. -/
def polyInner (W yp k m : ℕ) : ℕ :=
  if maxword ≤ m then
    ((yp * k + marker) % W % prime * k + (m - offset)) % W % prime
  else (yp * k + m) % W % prime

/-- `umac_poly<64>::poly_inner`, on large integers. -/
def polyInner64 (yp k m : ℕ) : ℕ :=
  if maxword ≤ m then ((yp * k + marker) % prime * k + m) % prime
  else (yp * k + m) % prime

/-- What the template has too little, in multiples of the offset: the carries that it loses, and
the offset itself. -/
def shortfall (W yp k m : ℕ) : ℕ :=
  if maxword ≤ m then
    (yp * k + marker) / W * k +
      ((yp * k + marker) % W % prime * k + (m - offset)) / W + 1
  else (yp * k + m) / W

theorem mod_eq_mod_iff {a b c : ℕ} (h : b + offset * c ≡ a [MOD prime]) :
    a % prime = b % prime ↔ prime ∣ c := by
  have hcop : Nat.Coprime prime offset := by norm_num [prime, offset]
  calc a % prime = b % prime ↔ b + offset * c ≡ b + 0 [MOD prime] := ⟨h.trans, h.symm.trans⟩
    _ ↔ offset * c ≡ 0 [MOD prime] := ⟨ModEq.add_left_cancel' b, ModEq.add_left b⟩
    _ ↔ prime ∣ c := by rw [modEq_zero_iff_dvd, hcop.dvd_mul_left]

section

variable {W : ℕ} (hW : ∀ x, x % W + offset * (x / W) ≡ x [MOD prime])

include hW

theorem large_word (s k : ℕ) {m : ℕ} (hm : offset ≤ m) :
    (s % W % prime * k + (m - offset)) % W +
        offset * (s / W * k + (s % W % prime * k + (m - offset)) / W + 1) ≡
      s % prime * k + m [MOD prime] := by
  set r := s % W % prime * k + (m - offset) with hr
  calc r % W + offset * (s / W * k + r / W + 1)
      = r % W + offset * (r / W) + (offset * (s / W) * k + offset) := by ring
    _ ≡ r + (offset * (s / W) * k + offset) [MOD prime] := (hW r).add_right _
    _ = s % W % prime * k + (offset * (s / W) * k + m) := by omega
    _ ≡ s % W * k + (offset * (s / W) * k + m) [MOD prime] :=
        ((mod_modEq _ _).mul_right k).add_right _
    _ = (s % W + offset * (s / W)) * k + m := by ring
    _ ≡ s * k + m [MOD prime] := ((hW s).mul_right k).add_right m
    _ ≡ s % prime * k + m [MOD prime] := ((mod_modEq s prime).symm.mul_right k).add_right m

theorem polyInner64_eq_iff_dvd (yp k m : ℕ) :
    polyInner64 yp k m = polyInner W yp k m ↔ prime ∣ shortfall W yp k m := by
  unfold polyInner64 polyInner shortfall
  split_ifs with hm
  · exact mod_eq_mod_iff (large_word hW _ k (le_trans (by decide) hm))
  · exact mod_eq_mod_iff (hW _)

end

/-- With numbers of any size the two agree for the words below the threshold alone. With words
of 64 bits, as the template would be instantiated, they agree if what is lost is a multiple of
the prime. -/
theorem polyInner64_eq_iff (yp k m : UInt64) :
    (polyInner64 yp.toNat k.toNat m.toNat = polyInner 0 yp.toNat k.toNat m.toNat ↔
      m.toNat < maxword) ∧
    (polyInner64 yp.toNat k.toNat m.toNat = polyInner (2 ^ 64) yp.toNat k.toNat m.toNat ↔
      prime ∣ shortfall (2 ^ 64) yp.toNat k.toNat m.toNat) := by
  refine ⟨?_, polyInner64_eq_iff_dvd ?_ _ _ _⟩
  · rw [polyInner64_eq_iff_dvd fun x => by simp [ModEq.refl], ← not_le]
    unfold shortfall
    split_ifs with hm
    · simp [hm, prime]
    · simp [hm]
  · intro x
    have hpow : offset ≡ 2 ^ 64 [MOD prime] := by decide
    calc x % 2 ^ 64 + offset * (x / 2 ^ 64)
        ≡ x % 2 ^ 64 + 2 ^ 64 * (x / 2 ^ 64) [MOD prime] := (hpow.mul_right _).add_left _
      _ = x := mod_add_div x (2 ^ 64)

theorem polyInner64_threshold :
    polyInner64 1 1 0xffffffff00000000 = 0xffffffff00000000 ∧
      polyInner 0 1 1 0xffffffff00000000 = 0xfffffffeffffffc5 ∧
      polyInner (2 ^ 64) 1 1 0xffffffff00000000 = 0xfffffffeffffffc5 := by
  decide

end SelfCertifyingFS.Crypt.Umac
