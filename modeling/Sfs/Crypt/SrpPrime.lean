import Mathlib.Data.Nat.Size
import Mathlib.FieldTheory.Finite.Basic
import Mathlib.NumberTheory.LucasPrimality
import Mathlib.NumberTheory.Padics.PadicVal.Basic
import Mathlib.Tactic.NormNum.Prime
import Mathlib.Tactic.ReduceModChar

/-!
# Primality tests

`prime_test` of `crypt/random_prime.C` is the test of Miller and Rabin. It draws numbers as limbs
that it does not normalize. `srpprime_test` of `crypt/random_prime.C` decides whether `n` and `(n -
1) / 2` are both prime: it tests the second number by Miller and Rabin, and the first by
Pocklington's criterion, for which a power of two has to be computed.
-/

namespace SelfCertifyingFS.Crypt

open Nat List

/-- The size of a number in limbs of `w` bits. -/
def limbs (w n : ℕ) : ℕ := (n.size + w - 1) / w

/-- The loop of `fermat2_test` over the bits below `i`. -/
def fermat2Loop (w n : ℕ) : ℕ → ℕ → ℕ
  | 0, t1 => t1
  | i + 1, t1 =>
      let t1 := t1 * t1
      -- it is reduced only when it takes more room than the modulus
      let t1 := if limbs w t1 > limbs w n then t1 % n else t1
      fermat2Loop w n i (if n.testBit i then 2 * t1 else t1)

def fermat2Test (w n : ℕ) : Bool :=
  let t1 := fermat2Loop w n n.size 1
  (if t1 > n then t1 % n else t1) = 2

/-- The rounds of `prime_test` that square: `j` more of them. -/
def primeLoop (n : ℕ) : ℕ → ℕ → Bool
  | 0, y => y = n - 1
  | j + 1, y => y = n - 1 || (y * y % n ≠ 1 && primeLoop n j (y * y % n))

/-- The numbers drawn that the inner loop lets through. They have as many limbs as `n`, leading
zeros included, and for more than one limb that makes `a <= 1` false. -/
def bases (w n : ℕ) (draws : List ℕ) (iter : ℕ) : List ℕ :=
  (draws.filter fun a => a < n - 1 ∧ (limbs w n ≤ 1 → 1 < a)).take iter

/-- `prime_test`, of a number that is not negative. -/
def primeTest (w : ℕ) (draws : List ℕ) (iter n : ℕ) : Bool :=
  if n ≤ 7 then n ≠ 0 && n ≠ 1 && n ≠ 4 && n ≠ 6
  else if n % 2 = 0 then false
  else
    let s := padicValNat 2 (n - 1)
    let r := (n - 1) / 2 ^ s
    (bases w n draws iter).all fun a =>
      a ^ r % n = 1 || primeLoop n (s - 1) (a ^ r % n)

/-- The table without the zero at its end: the odd primes up to 17881. -/
def smallPrimes : List ℕ := (range 17882).filter fun r => 2 < r ∧ r.Prime

def srpprimeTest (w : ℕ) (draws : List ℕ) (iter : ℕ) (n : ℤ) : Bool :=
  if n % 2 = 0 ∨ (n ≤ 0 ∨ limbs w n.toNat ≤ 1) ∧ n < 5 then false
  else if n.toNat % 3 = 0 ∨ fermat2Test w n.toNat = false then false
  else
    let q := n.toNat / 2
    if smallPrimes.any fun r => q % r = 0 then false else primeTest w draws iter q

section Fermat

variable {w n : ℕ}

theorem fermat2Loop_modEq (i t : ℕ) :
    fermat2Loop w n i t ≡ t ^ 2 ^ i * 2 ^ (n % 2 ^ i) [MOD n] := by
  induction i generalizing t with
  | zero =>
    simp only [pow_zero, pow_one, mod_one, mul_one]
    rfl
  | succ i ih =>
    have hreduced : (if limbs w (t * t) > limbs w n then t * t % n else t * t) ≡ t * t [MOD n] := by
      split_ifs
      · exact mod_modEq _ _
      · rfl
    have hdigit : n / 2 ^ i % 2 = (n.testBit i).toNat := by
      rw [testBit_eq_decide_div_mod_eq]
      rcases mod_two_eq_zero_or_one (n / 2 ^ i) with h | h <;> simp [h]
    rw [fermat2Loop]
    generalize (if limbs w (t * t) > limbs w n then t * t % n else t * t) = u at hreduced
    have hbit : (if n.testBit i then 2 * u else u) ≡ 2 ^ (n.testBit i).toNat * (t * t) [MOD n] := by
      cases n.testBit i with
      | false => simpa using hreduced
      | true => simpa using hreduced.mul_left 2
    calc fermat2Loop w n i (if n.testBit i then 2 * u else u)
        ≡ (if n.testBit i then 2 * u else u) ^ 2 ^ i * 2 ^ (n % 2 ^ i) [MOD n] := ih _
      _ ≡ (2 ^ (n.testBit i).toNat * (t * t)) ^ 2 ^ i * 2 ^ (n % 2 ^ i) [MOD n] :=
          (hbit.pow _).mul_right _
      _ = t ^ 2 ^ (i + 1) * 2 ^ (n % 2 ^ (i + 1)) := by
          rw [mod_pow_succ, hdigit]
          ring

theorem fermat2Test_iff (hn : 2 < n) : fermat2Test w n = true ↔ 2 ^ n ≡ 2 [MOD n] := by
  have hloop : fermat2Loop w n n.size 1 ≡ 2 ^ n [MOD n] := by
    have h := fermat2Loop_modEq (w := w) (n := n) n.size 1
    rwa [one_pow, one_mul, mod_eq_of_lt (lt_size_self n)] at h
  unfold fermat2Test
  generalize fermat2Loop w n n.size 1 = t at hloop
  have hmod : 2 ^ n ≡ 2 [MOD n] ↔ t % n = 2 := by
    rw [Nat.ModEq, ← hloop, mod_eq_of_lt hn]
  rw [decide_eq_true_iff, hmod]
  split_ifs with ht
  · rfl
  · rcases (not_lt.mp ht).eq_or_lt with rfl | hlt
    · rw [mod_self]
      omega
    · rw [mod_eq_of_lt hlt]

/-- Pocklington's criterion for `2 * q + 1`. -/
theorem prime_of_fermat2 {q : ℕ} (hq : q.Prime) (hthree : ¬3 ∣ 2 * q + 1)
    (h : 2 ^ (2 * q + 1) ≡ 2 [MOD 2 * q + 1]) : (2 * q + 1).Prime := by
  by_contra hcomposite
  have hp : (2 * q + 1).minFac.Prime := minFac_prime (by have := hq.pos; omega)
  have hdvd := minFac_dvd (2 * q + 1)
  have hsq := minFac_sq_le_self (by omega) hcomposite
  generalize (2 * q + 1).minFac = p at hp hdvd hsq
  have hfive : 5 ≤ p := by
    by_contra hsmall
    have htwo := hp.two_le
    interval_cases p
    · omega
    · exact hthree hdvd
    · exact absurd hp (by decide)
  have hlt : p - 1 < q := by
    have hmul : 5 * p ≤ p ^ 2 := by
      rw [sq]
      exact mul_le_mul_right p hfive
    omega
  have : Fact p.Prime := ⟨hp⟩
  have htwo : (2 : ZMod p) ≠ 0 := by
    intro hzero
    have hle := le_of_dvd (by omega) ((ZMod.natCast_eq_zero_iff 2 p).mp (by exact_mod_cast hzero))
    omega
  have hpow : (2 : ZMod p) ^ (2 * q) = 1 := by
    have hcast := (ZMod.natCast_eq_natCast_iff _ _ p).mpr (h.of_dvd hdvd)
    push_cast at hcast
    rw [pow_succ] at hcast
    exact mul_right_cancel₀ htwo (hcast.trans (one_mul _).symm)
  -- the order of 2 divides `2 * q` and `p - 1`, which has no factor in common with `q`
  have horder := ZMod.orderOf_dvd_card_sub_one htwo
  have hcoprime : (orderOf (2 : ZMod p)).Coprime q :=
    (coprime_of_lt_prime (by omega) hlt hq).symm.coprime_dvd_left horder
  have hfour : (2 : ZMod p) ^ 2 = 1 :=
    orderOf_dvd_iff_pow_eq_one.mp (hcoprime.dvd_of_dvd_mul_right (orderOf_dvd_of_pow_eq_one hpow))
  have hzero : (3 : ZMod p) = 0 := by
    linear_combination hfour
  have hle := le_of_dvd (by omega) ((ZMod.natCast_eq_zero_iff 3 p).mp hzero)
  omega

end Fermat

section Rounds

theorem primeLoop_zero {n : ℕ} (hn : 1 < n) (j : ℕ) : primeLoop n j 0 = false := by
  induction j with
  | zero => simpa [primeLoop] using (by omega : ¬0 = n - 1)
  | succ j ih => simpa [primeLoop, ih] using (by omega : ¬0 = n - 1)

theorem exists_of_primeLoop {n j y : ℕ} (hy : y < n) (h : primeLoop n j y = true) :
    ∃ i ≤ j, y ^ 2 ^ i % n = n - 1 := by
  induction j generalizing y with
  | zero => exact ⟨0, le_rfl, by simpa [mod_eq_of_lt hy] using of_decide_eq_true h⟩
  | succ j ih =>
    rcases (Bool.or_eq_true _ _).mp h with hend | hrest
    · exact ⟨0, zero_le _, by simpa [mod_eq_of_lt hy] using of_decide_eq_true hend⟩
    · obtain ⟨i, hi, hpow⟩ := ih (mod_lt _ (by omega)) ((Bool.and_eq_true _ _).mp hrest).2
      rw [← pow_mod, ← sq, ← pow_mul, ← pow_succ'] at hpow
      exact ⟨i + 1, by omega, hpow⟩

variable {n : ℕ} [Fact n.Prime]

/-- For a prime the squares of a number whose power is one end at minus one. -/
theorem primeLoop_of_prime {j y : ℕ} (hy : y < n) (hone : y ≠ 1)
    (hpow : (y : ZMod n) ^ 2 ^ (j + 1) = 1) : primeLoop n j y = true := by
  have hlast : ∀ {y : ℕ}, y < n → y ≠ 1 → (y : ZMod n) ^ 2 = 1 → y = n - 1 := by
    intro y hy hone hsq
    have hlt : 1 < n := (Fact.out : n.Prime).one_lt
    rcases mul_self_eq_one_iff.mp ((sq _).symm.trans hsq) with h | h
    · rw [← cast_one, ZMod.natCast_eq_natCast_iff', mod_eq_of_lt hy, mod_eq_of_lt hlt] at h
      exact absurd h hone
    · have hzero : ((y + 1 : ℕ) : ZMod n) = 0 := by
        rw [cast_add, h, cast_one, neg_add_cancel]
      have hle := le_of_dvd (succ_pos y) ((ZMod.natCast_eq_zero_iff _ _).mp hzero)
      omega
  induction j generalizing y with
  | zero => simpa [primeLoop] using hlast hy hone (by simpa using hpow)
  | succ j ih =>
    rw [primeLoop]
    by_cases hend : y = n - 1
    · simp [hend]
    · have hsq : y * y % n ≠ 1 := by
        intro hsq
        apply hend
        apply hlast hy hone
        have hcast := congrArg (Nat.cast : ℕ → ZMod n) hsq
        rwa [ZMod.natCast_mod, cast_mul, ← sq, cast_one] at hcast
      have hrest : primeLoop n j (y * y % n) = true := by
        apply ih (mod_lt _ (zero_lt_of_lt hy)) hsq
        rw [ZMod.natCast_mod, cast_mul, ← sq, ← pow_mul, ← pow_succ']
        exact hpow
      simp [hsq, hrest]

/-- A prime is refused for the base zero and for no other. -/
theorem primeTest_iff_of_prime (w : ℕ) (draws : List ℕ) (iter : ℕ) (h : 7 < n) :
    primeTest w draws iter n = true ↔ 0 ∉ bases w n draws iter := by
  have hprime : n.Prime := Fact.out
  have hodd : n % 2 = 1 := hprime.eq_two_or_odd.resolve_left (by omega)
  have hval : 2 ^ padicValNat 2 (n - 1) ∣ n - 1 := pow_padicValNat_dvd
  have hr : (n - 1) / 2 ^ padicValNat 2 (n - 1) ≠ 0 :=
    (div_pos (le_of_dvd (by omega) hval) (by positivity)).ne'
  rw [primeTest, if_neg (by omega), if_neg (by omega)]
  simp only [all_eq_true, Bool.or_eq_true, decide_eq_true_eq]
  constructor
  · intro hall hzero
    have := hall 0 hzero
    rw [zero_pow hr, zero_mod, primeLoop_zero (by omega)] at this
    simp at this
  intro hzero a ha
  have hlt : a < n - 1 := (of_decide_eq_true (mem_filter.mp (mem_of_mem_take ha)).2).1
  have hne : (a : ZMod n) ≠ 0 := by
    rw [Ne, ZMod.natCast_eq_zero_iff]
    intro hdvd
    have := eq_zero_of_dvd_of_lt hdvd (by omega)
    exact hzero (this ▸ ha)
  have hpos : 1 ≤ padicValNat 2 (n - 1) := one_le_padicValNat_of_dvd (by omega) (by omega)
  by_cases hround : a ^ ((n - 1) / 2 ^ padicValNat 2 (n - 1)) % n = 1
  · exact .inl hround
  · refine .inr (primeLoop_of_prime (mod_lt _ (by omega)) hround ?_)
    rw [ZMod.natCast_mod, cast_pow, ← pow_mul, Nat.sub_add_cancel hpos, Nat.div_mul_cancel hval]
    exact ZMod.pow_card_sub_one_eq_one hne

end Rounds

/-- `a` does not show that `n` is composite. -/
def StrongBase (n a : ℕ) : Prop :=
  ∃ s r, n - 1 = 2 ^ s * r ∧ Odd r ∧ (a ^ r % n = 1 ∨ ∃ j < s, a ^ (r * 2 ^ j) % n = n - 1)

theorem strongBase_of_primeTest {w iter n : ℕ} {draws : List ℕ}
    (h : primeTest w draws iter n = true) (hn : 7 < n) {a : ℕ} (ha : a ∈ bases w n draws iter) :
    StrongBase n a := by
  rw [primeTest, if_neg (by omega)] at h
  split_ifs at h with heven
  have hpos : 1 ≤ padicValNat 2 (n - 1) := one_le_padicValNat_of_dvd (by omega) (by omega)
  refine ⟨padicValNat 2 (n - 1), (n - 1) / 2 ^ padicValNat 2 (n - 1),
    (Nat.mul_div_cancel' pow_padicValNat_dvd).symm, ?_, ?_⟩
  · rw [← Nat.not_even_iff_odd, even_iff_two_dvd]
    intro hdvd
    apply pow_succ_padicValNat_not_dvd (p := 2) (n := n - 1) (by omega)
    exact pow_succ 2 _ ▸ mul_dvd_of_dvd_div pow_padicValNat_dvd hdvd
  rcases (Bool.or_eq_true _ _).mp (all_eq_true.mp h a ha) with hone | hloop
  · exact .inl (of_decide_eq_true hone)
  · obtain ⟨i, hi, hpow⟩ := exists_of_primeLoop (mod_lt _ (by omega)) hloop
    rw [← pow_mod, ← pow_mul] at hpow
    exact .inr ⟨i, by omega, hpow⟩

/-- Every prime passes, and every base is one for which `n` may be a prime, unless zero is drawn
for a prime. -/
theorem prime_test_iff (w : ℕ) (draws : List ℕ) (iter : ℕ) (n : ℤ) :
    ((n.toNat.Prime → primeTest w draws iter n.toNat = true) ∧
      (primeTest w draws iter n.toNat = true → 7 < n →
        ∀ a ∈ bases w n.toNat draws iter, StrongBase n.toNat a)) ↔
    (n.toNat.Prime → 7 < n → 0 ∉ bases w n.toNat draws iter) := by
  constructor
  · rintro ⟨hprime, -⟩ hn hlt
    have : Fact n.toNat.Prime := ⟨hn⟩
    exact (primeTest_iff_of_prime w draws iter (by omega)).mp (hprime hn)
  · intro hzero
    refine ⟨fun hn => ?_, fun h hlt a => strongBase_of_primeTest h (by omega)⟩
    have : Fact n.toNat.Prime := ⟨hn⟩
    rcases le_or_gt n.toNat 7 with hsmall | hlt
    · generalize n.toNat = m at *
      rw [primeTest]
      interval_cases m <;> simp_all +decide
    · exact (primeTest_iff_of_prime w draws iter hlt).mpr (hzero hn (by omega))

theorem two_limbs : Nat.Prime 19912716231399964673 := by
  have hpred : 19912716231399964673 - 1 = 2 ^ 22 * 7 ^ 15 := rfl
  apply lucas_primality _ 3
  · reduce_mod_char
  · intro q hq hdvd
    rw [hpred, hq.dvd_mul] at hdvd
    have hcases : q = 2 ∨ q = 7 := hdvd.imp
      (fun h => (prime_dvd_prime_iff_eq hq prime_two).mp (hq.dvd_of_dvd_pow h))
      (fun h => (prime_dvd_prime_iff_eq hq (by norm_num)).mp (hq.dvd_of_dvd_pow h))
    rcases hcases with rfl | rfl <;> norm_num <;> reduce_mod_char <;> decide

theorem zero_mem_bases : 0 ∈ bases 64 19912716231399964673 [0] 1 := by
  have hsize : 64 < size 19912716231399964673 := lt_size.mpr (by norm_num)
  have hlimbs : 1 < limbs 64 19912716231399964673 := by
    rw [limbs]
    omega
  simp [bases, hlimbs]

theorem primeTest_two_limbs : primeTest 64 [0] 1 19912716231399964673 = false := by
  have : Fact (Nat.Prime 19912716231399964673) := ⟨two_limbs⟩
  apply Bool.eq_false_iff.mpr
  intro h
  exact (primeTest_iff_of_prime 64 [0] 1 (by norm_num)).mp h zero_mem_bases

/-- When the limbs drawn are zeros a prime is refused. -/
theorem prime_refused : Nat.Prime 19912716231399964673 ∧
    primeTest 64 [0] 1 19912716231399964673 = false :=
  ⟨two_limbs, primeTest_two_limbs⟩

/-- A number that is accepted is prime if the test of its half is right about that; and a safe
prime is accepted if its half is behind the table, unless zero is drawn. -/
theorem srpprime_test_exact (w : ℕ) (draws : List ℕ) (iter : ℕ) (n : ℤ) :
    (srpprimeTest w draws iter n = true →
      (primeTest w draws iter (n.toNat / 2) = true → (n.toNat / 2).Prime) → n.toNat.Prime) ∧
    (n.toNat.Prime → ((n.toNat - 1) / 2).Prime → (∀ r ∈ smallPrimes, r < (n.toNat - 1) / 2) →
      (srpprimeTest w draws iter n = true ↔ 0 ∉ bases w ((n.toNat - 1) / 2) draws iter)) := by
  unfold srpprimeTest
  constructor
  · intro htest hinner
    dsimp only at htest
    split_ifs at htest with hsmall hfermat htable
    obtain ⟨hthree, hfermat⟩ : ¬n.toNat % 3 = 0 ∧ fermat2Test w n.toNat = true := by
      simpa using hfermat
    have hfive : 5 ≤ n := by
      by_contra hlt
      obtain rfl : n = 1 := by omega
      have hone : limbs w (1 : ℤ).toNat ≤ 1 := Nat.div_le_of_le_mul (by simp)
      exact hsmall (.inr ⟨.inr hone, by decide⟩)
    rw [fermat2Test_iff (by omega)] at hfermat
    have hq := hinner htest
    obtain ⟨q, hodd⟩ : ∃ q, n.toNat = 2 * q + 1 := ⟨n.toNat / 2, by omega⟩
    have hhalf : n.toNat / 2 = q := by omega
    rw [hhalf] at hq
    rw [hodd] at hfermat hthree ⊢
    exact prime_of_fermat2 hq (fun hdvd => hthree (mod_eq_zero_of_dvd hdvd)) hfermat
  · intro hn hq htable
    have : Fact n.toNat.Prime := ⟨hn⟩
    have hlast := htable 17881 (by simp [smallPrimes]; norm_num)
    have hodd : n.toNat % 2 = 1 := hn.eq_two_or_odd.resolve_left (by omega)
    have hhalf : n.toNat / 2 = (n.toNat - 1) / 2 := by omega
    have hthree : n.toNat % 3 ≠ 0 := fun hmod => by
      have := (prime_dvd_prime_iff_eq prime_three hn).mp (dvd_of_mod_eq_zero hmod)
      omega
    have hfermat : fermat2Test w n.toNat = true := by
      rw [fermat2Test_iff (by omega), ← ZMod.natCast_eq_natCast_iff]
      push_cast
      exact ZMod.pow_card 2
    have hsmall : smallPrimes.any (fun r => (n.toNat - 1) / 2 % r = 0) = false := by
      rw [any_eq_false]
      intro r hr hmod
      have hdvd := dvd_of_mod_eq_zero (of_decide_eq_true hmod)
      have hlt := htable r hr
      have hgt : 2 < r := (of_decide_eq_true (mem_filter.mp hr).2).1
      rcases (dvd_prime hq).mp hdvd with rfl | rfl <;> omega
    have : Fact ((n.toNat - 1) / 2).Prime := ⟨hq⟩
    rw [if_neg (by omega), if_neg (by simp [hthree, hfermat]), hhalf]
    dsimp only
    rw [hsmall]
    exact primeTest_iff_of_prime w draws iter (by omega)

/-- The same for the half of a safe prime. -/
theorem safe_prime_refused : Nat.Prime 39825432462799929347 ∧
    Nat.Prime ((39825432462799929347 - 1) / 2) ∧
      srpprimeTest 64 [0] 1 39825432462799929347 = false := by
  have hhalf : Nat.Prime ((39825432462799929347 - 1) / 2) := two_limbs
  refine ⟨?_, hhalf, ?_⟩
  · apply lucas_primality _ 2
    · reduce_mod_char
    · intro q hq hdvd
      rw [show 39825432462799929347 - 1 = 2 * 19912716231399964673 from rfl, hq.dvd_mul] at hdvd
      have hcases : q = 2 ∨ q = 19912716231399964673 := hdvd.imp
        (prime_dvd_prime_iff_eq hq prime_two).mp (prime_dvd_prime_iff_eq hq two_limbs).mp
      rcases hcases with rfl | rfl <;> norm_num <;> reduce_mod_char <;> decide
  · rw [srpprimeTest]
    split_ifs
    · rfl
    · rfl
    · simp only [show (39825432462799929347 : ℤ).toNat / 2 = 19912716231399964673 from rfl,
        primeTest_two_limbs, ite_self]

end SelfCertifyingFS.Crypt
