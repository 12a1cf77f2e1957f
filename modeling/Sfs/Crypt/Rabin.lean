import Sfs.Crypt.Schnorr

/-!
# The Rabin-Williams scheme

The four operations of `crypt/rabin.C` on numbers, and the two ways to make a private
key. Random numbers are arguments. `D2` computes, modulo each of the two primes, a power
of its argument; the random factor goes in and comes out again. On a square of a number
with Jacobi symbol one the result is that number or its negative, and `D1` reads the
message off either.
-/

namespace SelfCertifyingFS.Crypt

section

def kroneckerTwo (a : ℤ) : ℤ :=
  if a % 2 = 0 then 0 else if a % 8 = 1 ∨ a % 8 = 7 then 1 else -1

/-- `mpz_jacobi`. It is defined for even numbers below, too. -/
def jacobi (a b : ℤ) : ℤ :=
  kroneckerTwo a ^ padicValNat 2 b.toNat *
    jacobiSym a (b.toNat / 2 ^ padicValNat 2 b.toNat)

/-- `rabin_pub::E1`. -/
def rabinE1 (n i : ℤ) : Option ℤ :=
  let m := i * 2 + 1
  if jacobi m n = 1 then if m * 4 ≥ n then none else some (m * 4)
  else if jacobi m n = -1 then if m * 2 ≥ n then none else some (m * 2)
  else none

/-- `rabin_pub::D1`. -/
def rabinD1 (n i : ℤ) : ℤ :=
  match i.natAbs % 4 with
  | 0 => (i - 4).tdiv 8
  | 1 => (n - i - 4).tdiv 8
  | 2 => (i - 2).tdiv 4
  | _ => (n - i - 2).tdiv 4

/-- `rabin_pub::E2`. -/
def rabinE2 (n i : ℤ) : ℤ := (i * i).tmod n

/-- `rabin_priv`. -/
structure RabinPriv where
  p : ℤ
  q : ℤ
  u : ℤ
  kp : ℤ
  kq : ℤ
  deriving DecidableEq, Repr

namespace RabinPriv

def n (key : RabinPriv) : ℤ := key.p * key.q

/-- The constructor and `init`, which asserts the order of the factors. -/
def new (n1 n2 : ℤ) : Option RabinPriv :=
  if n1 < n2 then
    let k := ((n1 - 1) * (n2 - 1) + 4).tdiv 8
    some {
      p := n1
      q := n2
      u := invert n2 n1 % n1
      kp := k.tmod (n1 - 1)
      kq := k.tmod (n2 - 1) }
  else none

/-- `make`, with an exact test for primes. -/
def make (n1 n2 : ℤ) : Option RabinPriv :=
  if n1 = n2 ∨ n1 ≤ 1 ∨ n2 ≤ 1 ∨ ¬ n1.toNat.Prime ∨ ¬ n2.toNat.Prime then none
  else if n1 < n2 then new n1 n2
  else new n2 n1

variable (key : RabinPriv)

/-- `D2`, for the random number `rnd`. -/
def D2 (rnd i rsel : ℤ) : Option ℤ :=
  let ri := (rnd * rnd).tmod key.n
  let r := (invert (ri * ri) key.n * i).tmod key.n
  (powm r key.kp key.p).bind fun op =>
    (powm r key.kq key.q).bind fun oq =>
      -- `rsel` selects which of four square roots
      let op := if rsel % 2 ≠ 0 then key.p - op else op
      let oq := if rsel / 2 % 2 ≠ 0 then key.q - oq else oq
      let m := (op - oq) * key.u % key.p * key.q + oq
      some ((m * ri).tmod key.n)

/-- What `decrypt` computes behind `encrypt`. -/
def decrypts (rnd i : ℤ) : Option ℤ :=
  (key.D2 rnd i 0).map (rabinD1 key.n)

/-- What `verify` computes behind `sign`. -/
def verifies (rnd i rsel : ℤ) : Option ℤ :=
  (key.D2 rnd i rsel).map fun s => rabinD1 key.n (rabinE2 key.n s)

end RabinPriv

end

open Foundations Int Option
open RabinPriv (new)
open Fact (out)

theorem jacobi_of_odd {n : ℕ} (hn : n % 2 = 1) (a : ℤ) : jacobi a n = jacobiSym a n := by
  have hval : padicValNat 2 n = 0 := padicValNat.eq_zero_of_not_dvd (by omega)
  simp [jacobi, hval]

theorem jacobi_one (b : ℤ) : jacobi 1 b = 1 := by
  simp [jacobi, kroneckerTwo]

/-- `D1` undoes the encoding of a message, for the code and for its negative. -/
theorem rabinD1_of_mul {n M y c : ℤ} (hc : c = 4 ∨ c = 2) (hn : n % 4 = 1) (hM : 0 ≤ M)
    (hlt : (M * 2 + 1) * c < n) (hy : y = (M * 2 + 1) * c ∨ y = n - (M * 2 + 1) * c) :
    rabinD1 n y = M := by
  have hmod : y.natAbs % 4 = 0 ∨ y.natAbs % 4 = 1 ∨ y.natAbs % 4 = 2 ∨ y.natAbs % 4 = 3 := by omega
  rcases hc with rfl | rfl <;> rcases hmod with h | h | h | h <;> simp only [rabinD1, h]
  all_goals
    rw [tdiv_eq_ediv_of_nonneg (by omega)]
    omega

section Powers

variable (p q : ℕ)

/-- The exponent of `D2`. -/
def rabinExp : ℕ := ((p - 1) * (q - 1) + 4) / 8

def rabinKey : RabinPriv where
  p := p
  q := q
  u := invert q p % p
  kp := (rabinExp p q % (p - 1) : ℕ)
  kq := (rabinExp p q % (q - 1) : ℕ)

variable {p q}

theorem new_eq_rabinKey (hp : 0 < p) (hpq : p < q) : new p q = some (rabinKey p q) := by
  have hp1 : (p - 1) = ((p - 1 : ℕ) : ℤ) := by omega
  have hq1 : (q - 1) = ((q - 1 : ℕ) : ℤ) := by omega
  rw [new, if_pos (by exact_mod_cast hpq)]
  rw [hp1, hq1]
  rfl

variable {n : ℤ} {m : ℕ}

theorem gcd_blind {rnd : ℤ} (hr : Int.gcd rnd n = 1) :
    Int.gcd ((rnd * rnd).tmod n * (rnd * rnd).tmod n) n = 1 := by
  rw [← isCoprime_iff_gcd_eq_one] at hr ⊢
  have hri : IsCoprime ((rnd * rnd).tmod n) n := by
    have hsq := (hr.mul_left hr).add_mul_left_left (-(rnd * rnd).tdiv n)
    rwa [mul_neg, ← sub_eq_add_neg, ← tmod_def] at hsq
  exact hri.mul_left hri

theorem cast_tmod (h : (m : ℤ) ∣ n) (a : ℤ) : ((a.tmod n : ℤ) : ZMod m) = a :=
  (ZMod.intCast_eq_intCast_iff _ _ _).mpr ((tmod_modEq a n).of_dvd h)

/-- What `D2` raises to its power. -/
theorem cast_blinded [Fact m.Prime] {rnd : ℤ} (hm : (m : ℤ) ∣ n) (hr : Int.gcd rnd n = 1) (i : ℤ) :
    (((invert ((rnd * rnd).tmod n * (rnd * rnd).tmod n) n * i).tmod n : ℤ) : ZMod m) =
      (rnd ^ 4 : ZMod m)⁻¹ * i := by
  have hinv := (ZMod.intCast_eq_intCast_iff _ _ m).mpr
    ((mul_invert_modEq (gcd_blind hr)).of_dvd hm)
  have hfour : (rnd ^ 4 : ZMod m) = rnd * rnd * (rnd * rnd) := by ring
  rw [cast_tmod hm, cast_mul, hfour]
  congr 1
  apply eq_inv_of_mul_eq_one_right
  simpa [cast_tmod hm] using hinv

theorem cast_recombined {p q : ℕ} (hcop : Int.gcd q p = 1) (op oq : ℤ) :
    (((op - oq) * (invert q p % p) % p * q + oq : ℤ) : ZMod p) = op ∧
      (((op - oq) * (invert q p % p) % p * q + oq : ℤ) : ZMod q) = oq := by
  have hmod : ∀ a, ((a % p : ℤ) : ZMod p) = a :=
    fun a => (ZMod.intCast_eq_intCast_iff _ _ _).mpr (mod_modEq a p)
  have hinv := (ZMod.intCast_eq_intCast_iff _ _ p).mpr (mul_invert_modEq hcop)
  push_cast at hinv
  constructor
  · push_cast [hmod]
    linear_combination (op - oq) * hinv
  · simp

theorem cast_selected (b : Prop) [Decidable b] (o : ℤ) (ho : 0 ≤ o) (hm : o < m) :
    ∃ σ : ℤ, (σ = 1 ∨ σ = -1) ∧ (¬ b → σ = 1) ∧ 0 ≤ (if b then (m : ℤ) - o else o) ∧
      (((if b then (m : ℤ) - o else o) : ℤ) : ZMod m) = σ * o := by
  by_cases hb : b
  · refine ⟨-1, .inr rfl, fun h => absurd hb h, ?_, ?_⟩
    · omega
    · rw [if_pos hb]
      simp
  · refine ⟨1, .inl rfl, fun _ => rfl, ?_, ?_⟩
    · rwa [if_neg hb]
    · rw [if_neg hb]
      simp

/-- `D2` on the key of two positive numbers, with its parts named. -/
theorem D2_eq (hp : 0 < p) (hq : 0 < q) {rnd i rsel ri r op oq : ℤ}
    (hri : (rnd * rnd).tmod (p * q : ℕ) = ri)
    (hr : (invert (ri * ri) (p * q : ℕ) * i).tmod (p * q : ℕ) = r)
    (hop : (if rsel % 2 ≠ 0 then (p : ℤ) - r ^ (rabinExp p q % (p - 1)) % p
      else r ^ (rabinExp p q % (p - 1)) % p) = op)
    (hoq : (if rsel / 2 % 2 ≠ 0 then (q : ℤ) - r ^ (rabinExp p q % (q - 1)) % q
      else r ^ (rabinExp p q % (q - 1)) % q) = oq) :
    (rabinKey p q).D2 rnd i rsel =
      some ((((op - oq) * (invert q p % p) % p * q + oq) * ri).tmod (p * q : ℕ)) := by
  have hn : (rabinKey p q).n = (p * q : ℕ) := by simp [RabinPriv.n, rabinKey]
  have hpow : powm r (rabinKey p q).kp p = some (r ^ (rabinExp p q % (p - 1)) % p) :=
    powm_of_pos (by exact_mod_cast hp) (natCast_nonneg _)
  have hqow : powm r (rabinKey p q).kq q = some (r ^ (rabinExp p q % (q - 1)) % q) :=
    powm_of_pos (by exact_mod_cast hq) (natCast_nonneg _)
  have hkp : (rabinKey p q).p = p := rfl
  have hkq : (rabinKey p q).q = q := rfl
  simp only [RabinPriv.D2, hn, hri, hr, hkp, hkq, hpow, hqow, bind_some, hop, hoq]
  rfl

variable [Fact p.Prime] [Fact q.Prime]

theorem D2_spec (hpq : p < q) {rnd : ℤ} (hr : Int.gcd rnd (p * q : ℕ) = 1) (i rsel : ℤ) :
    ∃ y, (rabinKey p q).D2 rnd i rsel = some y ∧ 0 ≤ y ∧ y < (p * q : ℕ) ∧
      ∃ σ τ : ℤ, (σ = 1 ∨ σ = -1) ∧ (τ = 1 ∨ τ = -1) ∧ (rsel = 0 → σ = 1 ∧ τ = 1) ∧
        (y : ZMod p) = σ * ((rnd ^ 4 : ZMod p)⁻¹ * i) ^ (rabinExp p q % (p - 1)) * rnd ^ 2 ∧
        (y : ZMod q) = τ * ((rnd ^ 4 : ZMod q)⁻¹ * i) ^ (rabinExp p q % (q - 1)) * rnd ^ 2 := by
  have hp0 : 0 < p := (out : p.Prime).pos
  have hq0 : 0 < q := (out : q.Prime).pos
  have hp : (0 : ℤ) < p := by exact_mod_cast hp0
  have hq : (0 : ℤ) < q := by exact_mod_cast hq0
  have hpn : (p : ℤ) ∣ (p * q : ℕ) := by exact_mod_cast Dvd.intro q rfl
  have hqn : (q : ℤ) ∣ (p * q : ℕ) := by exact_mod_cast Dvd.intro_left p rfl
  have hcop : Int.gcd q p = 1 := by
    simpa using (Nat.coprime_primes out (out : p.Prime)).mpr hpq.ne'
  have hblindp := cast_blinded hpn hr i
  have hblindq := cast_blinded hqn hr i
  have hrip := cast_tmod hpn (rnd * rnd)
  have hriq := cast_tmod hqn (rnd * rnd)
  have hri0 : 0 ≤ (rnd * rnd).tmod (p * q : ℕ) := tmod_nonneg _ (mul_self_nonneg rnd)
  generalize hri : (rnd * rnd).tmod (p * q : ℕ) = ri at *
  generalize hrr : (invert (ri * ri) (p * q : ℕ) * i).tmod (p * q : ℕ) = r at *
  obtain ⟨σ, hσ, hσ1, -, hop⟩ := cast_selected (rsel % 2 ≠ 0)
    (r ^ (rabinExp p q % (p - 1)) % p) (emod_nonneg _ hp.ne') (emod_lt_of_pos _ hp)
  obtain ⟨τ, hτ, hτ1, hoq0, hoq⟩ := cast_selected (rsel / 2 % 2 ≠ 0)
    (r ^ (rabinExp p q % (q - 1)) % q) (emod_nonneg _ hq.ne') (emod_lt_of_pos _ hq)
  have hD2 : (rabinKey p q).D2 rnd i rsel = _ := D2_eq hp0 hq0 hri hrr rfl rfl
  generalize (if rsel % 2 ≠ 0 then p - r ^ (rabinExp p q % (p - 1)) % p
    else r ^ (rabinExp p q % (p - 1)) % p) = op at *
  generalize (if rsel / 2 % 2 ≠ 0 then q - r ^ (rabinExp p q % (q - 1)) % q
    else r ^ (rabinExp p q % (q - 1)) % q) = oq at *
  obtain ⟨hmp, hmq⟩ := cast_recombined hcop op oq
  have hm0 : 0 ≤ (op - oq) * (invert q p % p) % p * q + oq :=
    add_nonneg (mul_nonneg (emod_nonneg _ hp.ne') hq.le) hoq0
  refine ⟨_, hD2, tmod_nonneg _ (mul_nonneg hm0 hri0), tmod_lt_of_pos _ ?_, σ, τ, hσ, hτ,
    ?_, ?_, ?_⟩
  · exact_mod_cast Nat.mul_pos hp0 hq0
  · rintro rfl
    exact ⟨hσ1 (by simp), hτ1 (by simp)⟩
  · rw [cast_tmod hpn, cast_mul, hmp, hop, hrip, ← hblindp]
    push_cast
    ring
  · rw [cast_tmod hqn, cast_mul, hmq, hoq, hriq, ← hblindq]
    push_cast
    ring

theorem two_mul_rabinExp (hp : p % 4 = 3) (hq : q % 4 = 3) :
    2 * rabinExp p q = p / 2 * (q / 2) + 1 ∧ Odd (p / 2) ∧ Odd (q / 2) := by
  obtain ⟨a, rfl⟩ : ∃ a, p = 4 * a + 3 := ⟨p / 4, by omega⟩
  obtain ⟨b, rfl⟩ : ∃ b, q = 4 * b + 3 := ⟨q / 4, by omega⟩
  have hpa : (4 * a + 3) / 2 = 2 * a + 1 := by omega
  have hqb : (4 * b + 3) / 2 = 2 * b + 1 := by omega
  rw [hpa, hqb]
  refine ⟨?_, ⟨a, rfl⟩, ⟨b, rfl⟩⟩
  have hprod : (4 * a + 3 - 1) * (4 * b + 3 - 1) + 4 = 8 * (2 * a * b + a + b + 1) := by
    rw [show 4 * a + 3 - 1 = 4 * a + 2 by omega, show 4 * b + 3 - 1 = 4 * b + 2 by omega]
    ring
  rw [rabinExp, hprod, Nat.mul_div_cancel_left _ (by norm_num)]
  ring

/-- The two primes of a key, both three modulo four. -/
structure BlumPair (p q : ℕ) [Fact p.Prime] [Fact q.Prime] : Prop where
  lt : p < q
  left : p % 4 = 3
  right : q % 4 = 3

theorem cast_ne_zero_of_gcd {n : ℕ} [Fact m.Prime] (hm : m ∣ n) {a : ℤ} (ha : Int.gcd a n = 1) :
    (a : ZMod m) ≠ 0 := by
  intro hzero
  have hdvd := (ZMod.intCast_zmod_eq_zero_iff_dvd a m).mp hzero
  have hgcd := dvd_coe_gcd hdvd (Int.natCast_dvd_natCast.mpr hm)
  rw [ha] at hgcd
  exact (out : m.Prime).not_dvd_one (Int.natCast_dvd_natCast.mp hgcd)

variable {rnd : ℤ} (hr : Int.gcd rnd (p * q : ℕ) = 1)

include hr

/-- On a square `D2` returns the root up to its symbols. -/
theorem D2_square (hpq : BlumPair p q) {x : ℤ} (hx : Int.gcd x (p * q : ℕ) = 1) :
    ∃ y, (rabinKey p q).D2 rnd (rabinE2 (p * q : ℕ) x) 0 = some y ∧ 0 ≤ y ∧ y < (p * q : ℕ) ∧
      (y : ZMod p) = legendreSym p x * x ∧ (y : ZMod q) = legendreSym q x * x := by
  obtain ⟨hk, hhp, hhq⟩ := two_mul_rabinExp hpq.left hpq.right
  obtain ⟨y, hD2, hy0, hyn, σ, τ, -, -, hone, hyp, hyq⟩ := D2_spec hpq.lt hr (rabinE2 (p * q) x) 0
  obtain ⟨rfl, rfl⟩ := hone rfl
  have hpn : p ∣ p * q := Dvd.intro q rfl
  have hqn : q ∣ p * q := Dvd.intro_left p rfl
  have hroot : ∀ {m : ℕ} [Fact m.Prime] {h : ℕ}, m ≠ 2 → m ∣ p * q → Odd h →
      2 * rabinExp p q = m / 2 * h + 1 →
      ((1 : ℤ) : ZMod m) * ((rnd ^ 4 : ZMod m)⁻¹ * (rabinE2 (p * q : ℕ) x : ℤ)) ^
        (rabinExp p q % (m - 1)) * rnd ^ 2 = legendreSym m x * x := by
    intro m _ h hm2 hm hodd hexp
    have hxm := cast_ne_zero_of_gcd hm hx
    have hrm := cast_ne_zero_of_gcd hm hr
    have hsq : (rnd ^ 4 : ZMod m)⁻¹ * (rabinE2 (p * q : ℕ) x : ℤ) =
        ((rnd ^ 2 : ZMod m)⁻¹ * x) ^ 2 := by
      rw [rabinE2, cast_tmod (Int.natCast_dvd_natCast.mpr hm)]
      push_cast
      ring
    have hne : ((rnd ^ 2 : ZMod m)⁻¹ * x) ^ 2 ≠ 0 :=
      pow_ne_zero 2 (mul_ne_zero (inv_ne_zero (pow_ne_zero 2 hrm)) hxm)
    rw [hsq, pow_mod_sub_one hne, ← pow_mul, cast_one, one_mul]
    exact blinded_pow hm2 hexp hodd hxm hrm
  refine ⟨y, hD2, hy0, hyn, ?_, ?_⟩
  · rw [hyp]
    exact hroot (by have := hpq.left; omega) hpn hhq hk
  · rw [hyq]
    exact hroot (by have := hpq.right; omega) hqn hhp (by rw [hk, mul_comm])

/-- What `D2` returns is a root of its argument up to the symbols. -/
theorem D2_root (hpq : BlumPair p q) {i : ℤ} (hi : Int.gcd i (p * q : ℕ) = 1) (rsel : ℤ) :
    ∃ y, (rabinKey p q).D2 rnd i rsel = some y ∧
      (y : ZMod p) ^ 2 = legendreSym p i * i ∧ (y : ZMod q) ^ 2 = legendreSym q i * i := by
  obtain ⟨hk, hhp, hhq⟩ := two_mul_rabinExp hpq.left hpq.right
  obtain ⟨y, hD2, -, -, σ, τ, hσ, hτ, -, hyp, hyq⟩ := D2_spec hpq.lt hr i rsel
  have hpn : p ∣ p * q := Dvd.intro q rfl
  have hqn : q ∣ p * q := Dvd.intro_left p rfl
  have hroot : ∀ {m : ℕ} [Fact m.Prime] {h : ℕ} {ρ : ℤ}, m ≠ 2 → m ∣ p * q → Odd h →
      2 * rabinExp p q = m / 2 * h + 1 → (ρ = 1 ∨ ρ = -1) →
      (ρ * ((rnd ^ 4 : ZMod m)⁻¹ * i) ^ (rabinExp p q % (m - 1)) * rnd ^ 2) ^ 2 =
        legendreSym m i * i := by
    intro m _ h ρ hm2 hm hodd hexp hρ
    have him := cast_ne_zero_of_gcd hm hi
    have hrm := cast_ne_zero_of_gcd hm hr
    have hne : (rnd ^ 4 : ZMod m)⁻¹ * i ≠ 0 := mul_ne_zero (inv_ne_zero (pow_ne_zero 4 hrm)) him
    have hρ2 : (ρ : ZMod m) ^ 2 = 1 := by
      rcases hρ with rfl | rfl <;> simp
    have hfour : (rnd ^ 4) = ((rnd : ZMod m) ^ 2) ^ 2 := by ring
    have hpow := blinded_pow hm2 hexp hodd him (pow_ne_zero 2 hrm)
    rw [pow_mod_sub_one hne, mul_pow, mul_pow, hρ2, one_mul, ← pow_mul,
      mul_comm (rabinExp p q) 2, hfour, hpow]
  refine ⟨y, hD2, ?_, ?_⟩
  · rw [hyp]
    exact hroot (by have := hpq.left; omega) hpn hhq hk hσ
  · rw [hyq]
    exact hroot (by have := hpq.right; omega) hqn hhp (by rw [hk, mul_comm]) hτ

end Powers

section RoundTrips

variable {p q : ℕ} [Fact p.Prime] [Fact q.Prime]

theorem jacobiSym_mul_eq (x : ℤ) : jacobiSym x (p * q) = legendreSym p x * legendreSym q x := by
  have hp : p ≠ 0 := (out : p.Prime).ne_zero
  have hq : q ≠ 0 := (out : q.Prime).ne_zero
  rw [jacobiSym.mul_right' x hp hq, ← jacobiSym.legendreSym.to_jacobiSym,
    ← jacobiSym.legendreSym.to_jacobiSym]

variable {x : ℤ}

theorem exists_sign_of_jacobiSym (hx : jacobiSym x (p * q) = 1) :
    Int.gcd x (p * q : ℕ) = 1 ∧
      ∃ s : ℤ, (s = 1 ∨ s = -1) ∧ legendreSym p x = s ∧ legendreSym q x = s := by
  have hgcd : Int.gcd x (p * q) = 1 := by
    by_contra hne
    have hzero := jacobiSym.eq_zero_iff.mpr
      ⟨Nat.mul_ne_zero (out : p.Prime).ne_zero (out : q.Prime).ne_zero, hne⟩
    rw [hzero] at hx
    exact zero_ne_one hx
  rw [jacobiSym_mul_eq] at hx
  refine ⟨hgcd, legendreSym p x, ?_, rfl, ?_⟩
  · exact legendreSym.eq_one_or_neg_one p (cast_ne_zero_of_gcd (Dvd.intro q rfl) hgcd)
  · rcases Int.mul_eq_one_iff_eq_one_or_neg_one.mp hx with ⟨h1, h2⟩ | ⟨h1, h2⟩ <;> rw [h1, h2]

theorem BlumPair.coprime (hpq : BlumPair p q) : p.Coprime q :=
  (Nat.coprime_primes out out).mpr hpq.lt.ne

variable {rnd : ℤ} (hr : Int.gcd rnd (p * q : ℕ) = 1) (hpq : BlumPair p q)

include hr hpq

theorem D2_E2 (hx : jacobiSym x (p * q) = 1) (hx0 : 0 < x) (hxn : x < (p * q : ℕ)) :
    ∃ y, (rabinKey p q).D2 rnd (rabinE2 (p * q : ℕ) x) 0 = some y ∧
      (y = x ∨ y = (p * q : ℕ) - x) := by
  obtain ⟨hgcd, s, hs, hsp, hsq⟩ := exists_sign_of_jacobiSym hx
  obtain ⟨y, hD2, hy0, hyn, hyp, hyq⟩ := D2_square hr hpq hgcd
  refine ⟨y, hD2, eq_or_eq_sub hs (modEq_mul_of_casts hpq.coprime ?_ ?_) hy0 hyn
    hx0 hxn⟩
  · rw [hyp, hsp]
    push_cast
    rfl
  · rw [hyq, hsq]
    push_cast
    rfl

theorem E2_D2 (hx : jacobiSym x (p * q) = 1) (hx0 : 0 < x) (hxn : x < (p * q : ℕ)) (rsel : ℤ) :
    ∃ y, (rabinKey p q).D2 rnd x rsel = some y ∧
      (rabinE2 (p * q : ℕ) y = x ∨ rabinE2 (p * q : ℕ) y = (p * q : ℕ) - x) := by
  obtain ⟨hgcd, s, hs, hsp, hsq⟩ := exists_sign_of_jacobiSym hx
  obtain ⟨y, hD2, hyp, hyq⟩ := D2_root hr hpq hgcd rsel
  refine ⟨y, hD2, eq_or_eq_sub hs (modEq_mul_of_casts hpq.coprime ?_ ?_)
    (tmod_nonneg _ (mul_self_nonneg y)) (tmod_lt_of_pos _ (by omega)) hx0 hxn⟩
  · rw [rabinE2, cast_tmod (by exact_mod_cast Dvd.intro q rfl)]
    push_cast
    rw [← sq, hyp, hsp]
  · rw [rabinE2, cast_tmod (by exact_mod_cast Dvd.intro_left p rfl)]
    push_cast
    rw [← sq, hyq, hsq]

end RoundTrips

def WilliamsPair (p q : ℕ) : Prop := (p % 8 = 3 ∧ q % 8 = 7) ∨ (p % 8 = 7 ∧ q % 8 = 3)

theorem WilliamsPair.mod_eight {p q : ℕ} (h : WilliamsPair p q) : p * q % 8 = 5 := by
  rcases h with ⟨hp, hq⟩ | ⟨hp, hq⟩ <;> simp [Nat.mul_mod, hp, hq]

theorem jacobiSym_two_of_mod_eight {n : ℕ} (hn : n % 8 = 5) : jacobiSym 2 n = -1 := by
  rw [jacobiSym.at_two (Nat.odd_iff.mpr (by omega)), ZMod.χ₈_nat_eq_if_mod_eight]
  omega

/-- The code of a message has symbol one, and lies between zero and the modulus. -/
theorem rabinE1_spec {n : ℕ} (hn : n % 8 = 5) {M x : ℤ} (hM : 0 ≤ M) (h : rabinE1 n M = some x) :
    jacobiSym x n = 1 ∧ 0 < x ∧ x < n ∧ ∀ y, (y = x ∨ y = n - x) → rabinD1 n y = M := by
  have hodd : n % 2 = 1 := by omega
  rw [rabinE1] at h
  simp only [jacobi_of_odd hodd] at h
  split_ifs at h with h1 hlt h2 hlt
  · obtain rfl := some.inj h
    refine ⟨?_, by omega, by omega,
      fun y hy => rabinD1_of_mul (.inl rfl) (by omega) hM (by omega) hy⟩
    rw [jacobiSym.mul_left, h1, jacobiSym.at_four (Nat.odd_iff.mpr hodd), one_mul]
  · obtain rfl := some.inj h
    refine ⟨?_, by omega, by omega,
      fun y hy => rabinD1_of_mul (.inr rfl) (by omega) hM (by omega) hy⟩
    rw [jacobiSym.mul_left, h2, jacobiSym_two_of_mod_eight hn]
    norm_num

/-- Decryption inverts encryption, and verification recovers what was signed. -/
theorem rabin_round_trips {p q : ℕ} (hp : p.Prime) (hq : q.Prime) (hpq : p < q)
    (hres : WilliamsPair p q) {M : ℕ} {x : ℤ} (hx : rabinE1 (p * q : ℕ) M = some x) {rnd : ℤ}
    (hr : Int.gcd rnd (p * q : ℕ) = 1) (rsel : ℤ) :
    ∃ key, new p q = some key ∧
      key.decrypts rnd (rabinE2 (p * q : ℕ) x) = some (M : ℤ) ∧
      key.verifies rnd x rsel = some (M : ℤ) := by
  have : Fact p.Prime := ⟨hp⟩
  have : Fact q.Prime := ⟨hq⟩
  have hpair : BlumPair p q := by
    refine ⟨hpq, ?_, ?_⟩ <;> rcases hres with ⟨h1, h2⟩ | ⟨h1, h2⟩ <;> omega
  obtain ⟨hsym, hx0, hxn, hD1⟩ := rabinE1_spec hres.mod_eight (natCast_nonneg M) hx
  obtain ⟨y, hy, hroot⟩ := D2_E2 hr hpair hsym hx0 hxn
  obtain ⟨s, hs, hsquare⟩ := E2_D2 hr hpair hsym hx0 hxn rsel
  have hn : (rabinKey p q).n = (p * q : ℕ) := by simp [RabinPriv.n, rabinKey]
  refine ⟨rabinKey p q, new_eq_rabinKey hp.pos hpq, ?_, ?_⟩
  · rw [RabinPriv.decrypts, hy, map_some, hn, hD1 y hroot]
  · rw [RabinPriv.verifies, hs, map_some, hn, hD1 _ hsquare]

/-- The smallest key and message. -/
theorem rabin_round_trips_three_seven :
    ∃ key, new 3 7 = some key ∧ key.decrypts 2 (rabinE2 21 4) = some 0 ∧
      key.verifies 2 4 3 = some 0 := by
  have hx : rabinE1 ((3 * 7) : ℤ) (0 : ℕ) = some 4 := by
    simp [rabinE1, jacobi_one]
  exact rabin_round_trips (by norm_num) (by norm_num) (by norm_num) (.inl ⟨rfl, rfl⟩) hx
    (by decide) 3

end SelfCertifyingFS.Crypt
