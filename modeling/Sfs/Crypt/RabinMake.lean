import Sfs.Crypt.Rabin
import Mathlib.Data.Nat.Size

/-!
# Which keys decrypt

`rabin_priv::make` takes any two different primes. A key decrypts every message
that can be encrypted with it exactly if one prime is three and the other seven
modulo eight, or if the modulus is six or ten and there is only one message.
Otherwise a message is lost: zero if a prime is two or one modulo four, and one
whose code has symbol minus one if the primes agree modulo eight.
-/

namespace SelfCertifyingFS.Crypt

open Foundations Int RabinPriv
open Nat hiding cast_mul cast_one
open Option (map_some some.inj)

/-- Every message that can be encrypted is decrypted, whatever random number is drawn. -/
def RabinPriv.RoundTrips (key : RabinPriv) : Prop :=
  ∀ (M : ℕ) (x : ℤ), rabinE1 key.n M = some x →
    ∀ rnd : ℕ, rnd < 2 ^ (key.n.toNat.size - 1) → Int.gcd rnd key.n = 1 →
      key.decrypts rnd (rabinE2 key.n x) = some (M : ℤ)

theorem RabinPriv.make_cases {n1 n2 : ℤ} {key : RabinPriv} (h : make n1 n2 = some key) :
    ∃ p q : ℕ, p.Prime ∧ q.Prime ∧ p < q ∧ key = rabinKey p q ∧
      ((n1 = p ∧ n2 = q) ∨ (n1 = q ∧ n2 = p)) := by
  rw [make] at h
  split_ifs at h with hbad hlt <;> push Not at hbad <;> obtain ⟨hne, h1, h2, hp, hq⟩ := hbad <;>
    obtain ⟨p, rfl⟩ := eq_ofNat_of_zero_le (show 0 ≤ n1 by omega) <;>
    obtain ⟨q, rfl⟩ := eq_ofNat_of_zero_le (show 0 ≤ n2 by omega) <;>
    simp only [toNat_natCast] at hp hq
  · have hpq : p < q := by exact_mod_cast hlt
    rw [new_eq_rabinKey (by omega) hpq] at h
    exact ⟨p, q, hp, hq, hpq, (some.inj h).symm, .inl ⟨rfl, rfl⟩⟩
  · have hqp : q < p := by omega
    rw [new_eq_rabinKey (by omega) hqp] at h
    exact ⟨q, p, hq, hp, hqp, (some.inj h).symm, .inr ⟨rfl, rfl⟩⟩

section Losses

variable {p q : ℕ}

theorem rabinKey_n (p q : ℕ) : (rabinKey p q).n = (p * q : ℕ) := by
  simp [n, rabinKey]

theorem rabinE1_zero {n : ℤ} (hn : 4 < n) : rabinE1 n (0 : ℕ) = some 4 := by
  simp [rabinE1, jacobi_one, hn]

/-- The message zero is decrypted to zero whatever is drawn. -/
theorem RoundTrips.zero (h : (rabinKey p q).RoundTrips) (hn : 4 < p * q) {rnd : ℕ}
    (hsize : rnd < 2 ^ ((p * q).size - 1)) (hr : Int.gcd rnd (p * q : ℕ) = 1) {y : ℤ}
    (hy : (rabinKey p q).D2 rnd (rabinE2 (p * q : ℕ) 4) 0 = some y) :
    rabinD1 (p * q : ℕ) y = 0 := by
  have hE1 : rabinE1 (rabinKey p q).n 0 = some 4 := by
    rw [rabinKey_n]
    exact rabinE1_zero (by exact_mod_cast hn)
  have hdec := h 0 4 hE1 rnd (by rwa [rabinKey_n]) (by rwa [rabinKey_n])
  rw [rabinKey_n, decrypts, hy] at hdec
  exact some.inj hdec

theorem cast_ne_of_odd {m : ℕ} [Fact m.Prime] (hm : m % 2 = 1) : (2 : ZMod m) ≠ 0 := by
  intro hzero
  have hdvd : m ∣ 2 := (ZMod.natCast_eq_zero_iff 2 m).mp (by exact_mod_cast hzero)
  have hle := le_of_dvd (by norm_num) hdvd
  have htwo := (Fact.out : m.Prime).two_le
  omega

theorem four_mul_rabinExp (hp : p % 2 = 1) (hq : q % 2 = 1) (hfour : p % 4 = 1 ∨ q % 4 = 1) :
    4 * rabinExp p q = (p - 1) * (q / 2) ∧ 4 * rabinExp p q = (q - 1) * (p / 2) := by
  obtain ⟨a, rfl⟩ : ∃ a, p = 2 * a + 1 := ⟨p / 2, by omega⟩
  obtain ⟨b, rfl⟩ : ∃ b, q = 2 * b + 1 := ⟨q / 2, by omega⟩
  have hab : a * b % 2 = 0 := by
    rcases hfour with h | h
    · simp [mul_mod, show a % 2 = 0 by omega]
    · simp [mul_mod, show b % 2 = 0 by omega]
  have hprod : (2 * a + 1 - 1) * (2 * b + 1 - 1) = 4 * (a * b) := by
    rw [Nat.add_sub_cancel, Nat.add_sub_cancel]
    ring
  have hk : rabinExp (2 * a + 1) (2 * b + 1) = a * b / 2 := by
    rw [rabinExp]
    omega
  rw [show (2 * b + 1) / 2 = b by omega, show (2 * a + 1) / 2 = a by omega,
    Nat.add_sub_cancel, Nat.add_sub_cancel, mul_assoc, mul_assoc, mul_comm b a]
  omega

variable [Fact p.Prime] [Fact q.Prime]

/-- What `D2` returns for the code of the message zero. -/
theorem D2_zero (hpq : p < q) {rnd : ℕ} (hr : Int.gcd rnd (p * q : ℕ) = 1) {c : ℕ} (hc : c < p * q)
    (hp : ((rnd ^ 4 : ZMod p)⁻¹ * 16) ^ (rabinExp p q % (p - 1)) * rnd ^ 2 = c)
    (hq : ((rnd ^ 4 : ZMod q)⁻¹ * 16) ^ (rabinExp p q % (q - 1)) * rnd ^ 2 = c) :
    (rabinKey p q).D2 rnd (rabinE2 (p * q : ℕ) 4) 0 = some (c : ℤ) := by
  obtain ⟨y, hD2, hy0, hyn, σ, τ, -, -, hone, hyp, hyq⟩ := D2_spec hpq hr (rabinE2 (p * q : ℕ) 4) 0
  obtain ⟨rfl, rfl⟩ := hone rfl
  have hE2 : ∀ {m : ℕ}, m ∣ p * q → ((rabinE2 (p * q : ℕ) 4 : ℤ) : ZMod m) = 16 := by
    intro m hm
    rw [rabinE2, cast_tmod (Int.natCast_dvd_natCast.mpr hm)]
    norm_num
  rw [hE2 (Dvd.intro q rfl), cast_one, one_mul, cast_natCast, hp] at hyp
  rw [hE2 (Dvd.intro_left p rfl), cast_one, one_mul, cast_natCast, hq] at hyq
  have hcop : p.Coprime q := (coprime_primes Fact.out Fact.out).mpr hpq.ne
  rw [hD2, eq_of_modEq (modEq_mul_of_casts hcop (by simpa using hyp) (by simpa using hyq)) hy0 hyn
    (natCast_nonneg c) (by exact_mod_cast hc)]

/-- With a prime that is one modulo four the message zero is decrypted as one would be. -/
theorem not_roundTrips_of_one_mod_four (hpq : p < q) (hp : p % 2 = 1) (hq : q % 2 = 1)
    (hfour : p % 4 = 1 ∨ q % 4 = 1) : ¬ (rabinKey p q).RoundTrips := by
  intro h
  have hp3 : 3 ≤ p := by
    have := (Fact.out : p.Prime).two_le
    omega
  have hn : 15 ≤ p * q := Nat.mul_le_mul hp3 (show 5 ≤ q by omega)
  -- four times the exponent is a multiple of the order of both groups
  obtain ⟨hexpp, hexpq⟩ := four_mul_rabinExp hp hq hfour
  have hone : ∀ {m d : ℕ} [Fact m.Prime], m % 2 = 1 → 4 * rabinExp p q = (m - 1) * d →
      (((1 : ℕ) ^ 4 : ZMod m)⁻¹ * 16) ^ (rabinExp p q % (m - 1)) * ((1 : ℕ) : ZMod m) ^ 2 =
        (1 : ℕ) := by
    intro m d _ hm hd
    have htwo := cast_ne_of_odd hm
    have hsixteen : (16 : ZMod m) = 2 ^ 4 := by norm_num
    rw [Nat.cast_one, one_pow, inv_one, one_mul, one_pow, mul_one, hsixteen, pow_mod_sub_one
      (pow_ne_zero 4 htwo), ← pow_mul, hd, pow_mul, ZMod.pow_card_sub_one_eq_one htwo, one_pow]
  have hD2 : (rabinKey p q).D2 1 (rabinE2 (p * q : ℕ) 4) 0 = some ((1 : ℕ) : ℤ) :=
    D2_zero hpq (by simp) (by omega) (hone hp hexpp) (hone hq hexpq)
  have hsize : 1 < 2 ^ ((p * q).size - 1) := by
    have hlt : 1 < (p * q).size := Nat.lt_size.mpr (by omega)
    exact Nat.one_lt_two_pow (by omega)
  have hD1 := RoundTrips.zero h (by omega) hsize (by simp) hD2
  have hval : rabinD1 (p * q : ℕ) ((1 : ℕ) : ℤ) = ((p * q) - 5 : ℤ).tdiv 8 := by
    simp [rabinD1]
    ring_nf
  rw [hval, tdiv_eq_ediv_of_nonneg (by omega)] at hD1
  omega

end Losses

section EvenModulus

variable {q : ℕ} [Fact q.Prime]

/-- For twice a prime only the residue modulo the prime matters: the result is odd. -/
theorem D2_zero_two (hq : 2 < q) {rnd : ℕ} (hr : Int.gcd rnd (2 * q : ℕ) = 1) {c : ℕ}
    (hc : c < 2 * q) (hodd : Odd c) {w : ZMod q} (hw : w * rnd ^ 4 = 1)
    (hres : (w * 16) ^ (rabinExp 2 q % (q - 1)) * rnd ^ 2 = c) :
    (rabinKey 2 q).D2 rnd (rabinE2 (2 * q : ℕ) 4) 0 = some (c : ℤ) := by
  rw [eq_inv_of_mul_eq_one_left hw] at hres
  refine D2_zero hq hr hc ?_ hres
  have hrodd : (rnd : ZMod 2) = 1 := by
    have hne := cast_ne_zero_of_gcd (Dvd.intro q rfl) hr
    have hval : ∀ a : ZMod 2, a ≠ 0 → a = 1 := by decide
    exact hval _ (by simpa using hne)
  rw [ZMod.natCast_eq_one_iff_odd.mpr hodd, hrodd, mod_one, pow_zero, one_pow, one_mul]

/-- The number drawn takes zero to `c`, in numbers that can be evaluated. -/
abbrev Takes (q rnd c w : ℕ) : Prop :=
  c < 2 * q ∧ Odd c ∧ w * rnd ^ 4 % q = 1 ∧
    (w * 16) ^ (rabinExp 2 q % (q - 1)) * rnd ^ 2 % q = c % q

theorem D2_zero_of_takes {rnd c w : ℕ} (hq : 2 < q) (hr : Int.gcd rnd (2 * q : ℕ) = 1)
    (h : Takes q rnd c w) :
    (rabinKey 2 q).D2 rnd (rabinE2 (2 * q : ℕ) 4) 0 = some (c : ℤ) := by
  obtain ⟨hc, hodd, hw, hres⟩ := h
  have hw' : w * (rnd : ZMod q) ^ 4 = 1 := by
    have hmod : w * rnd ^ 4 ≡ 1 [MOD q] := by
      rw [Nat.ModEq, hw, mod_eq_of_lt (by omega)]
    have hcast := (ZMod.natCast_eq_natCast_iff _ _ _).mpr hmod
    exact_mod_cast hcast
  have hres' : (w * 16) ^ (rabinExp 2 q % (q - 1)) * (rnd : ZMod q) ^ 2 = c := by
    have hcast := (ZMod.natCast_eq_natCast_iff _ _ _).mpr hres
    exact_mod_cast hcast
  exact D2_zero_two hq hr hc hodd hw' hres'

omit [Fact q.Prime] in
theorem lt_size_two_mul {rnd : ℕ} (h : rnd < q) : rnd < 2 ^ ((2 * q).size - 1) := by
  have hlt := lt_size_self (2 * q)
  have hpos : 0 < (2 * q).size := size_pos.mpr (by omega)
  obtain ⟨k, hk⟩ : ∃ k, (2 * q).size = k + 1 := ⟨(2 * q).size - 1, by omega⟩
  rw [hk] at hlt
  rw [hk, Nat.add_sub_cancel]
  omega

/-- The random number `q - 2` takes the message zero to `q + 4`. -/
theorem not_roundTrips_two_of_large (hq : q % 2 = 1) (hlarge : 17 ≤ q) :
    ¬ (rabinKey 2 q).RoundTrips := by
  intro h
  have hcast : ((q - 2 : ℕ) : ZMod q) = -2 := by
    push_cast [show 2 ≤ q by omega]
    simp
  have hsixteen : (16 : ZMod q) ≠ 0 := by
    intro hzero
    have hdvd : q ∣ 16 := (ZMod.natCast_eq_zero_iff 16 q).mp (by exact_mod_cast hzero)
    have hle := le_of_dvd (by norm_num) hdvd
    omega
  have hr : Int.gcd (q - 2 : ℕ) (2 * q) = 1 := by
    have htwo : (q - 2).Coprime 2 := coprime_two_right.mpr (odd_iff.mpr (by omega))
    have hprime : (q - 2).Coprime q :=
      ((Fact.out : q.Prime).coprime_iff_not_dvd.mpr (not_dvd_of_pos_of_lt (by omega)
        (by omega))).symm
    exact htwo.mul_right hprime
  have hw : 16⁻¹ * ((q - 2 : ℕ) : ZMod q) ^ 4 = 1 := by
    rw [hcast, show (-2 : ZMod q) ^ 4 = 16 by norm_num, inv_mul_cancel₀ hsixteen]
  have hres : (16⁻¹ * 16) ^ (rabinExp 2 q % (q - 1)) * ((q - 2 : ℕ) : ZMod q) ^ 2 =
      (q + 4 : ℕ) := by
    rw [inv_mul_cancel₀ hsixteen, hcast]
    norm_num
  have hD2 := D2_zero_two (by omega) hr (by omega) (odd_iff.mpr (by omega)) hw hres
  have hD1 := RoundTrips.zero h (by omega) (lt_size_two_mul (by omega)) hr hD2
  have habs : ((q + 4 : ℕ) : ℤ).natAbs % 4 = (q + 4) % 4 := by omega
  have hcases : (q + 4) % 4 = 1 ∨ (q + 4) % 4 = 3 := by omega
  rcases hcases with hmod | hmod <;>
  · simp only [rabinD1, habs, hmod] at hD1
    rw [tdiv_eq_ediv_of_nonneg (by omega)] at hD1
    omega

theorem not_roundTrips_two (hq : q % 2 = 1) (hge : 7 ≤ q) : ¬ (rabinKey 2 q).RoundTrips := by
  rcases lt_or_ge q 17 with hlt | hlarge
  · intro h
    have hprime := (Fact.out : q.Prime)
    have hnine : q ≠ 9 := by
      rintro rfl
      exact absurd hprime (by decide)
    have hfifteen : q ≠ 15 := by
      rintro rfl
      exact absurd hprime (by decide)
    have hzero : ∀ rnd c w : ℕ, rnd < q → Int.gcd rnd (2 * q) = 1 → Takes q rnd c w →
        rabinD1 (2 * q) c = 0 := by
      intro rnd c w hrnd hr htakes
      exact RoundTrips.zero h (by omega) (lt_size_two_mul hrnd) hr
        (D2_zero_of_takes (by omega) hr htakes)
    have hcases : q = 7 ∨ q = 11 ∨ q = 13 := by omega
    -- another number that can be drawn takes zero to one, five or nine
    rcases hcases with rfl | rfl | rfl
    · exact absurd (hzero 3 1 2 (by decide) (by decide) (by decide)) (by decide)
    · exact absurd (hzero 1 5 1 (by decide) (by decide) (by decide)) (by decide)
    · exact absurd (hzero 1 9 1 (by decide) (by decide) (by decide)) (by decide)
  · exact not_roundTrips_two_of_large hq hlarge

end EvenModulus

section EqualResidues

variable {M m : ℕ}

theorem bounds_of_tdiv {a k : ℤ} (hk : 0 < k) (hM : 0 < M) (h : a.tdiv k = M) :
    k * M ≤ a ∧ a < k * M + k := by
  have ha : 0 ≤ a := by
    by_contra hneg
    have hle : a.tdiv k ≤ 0 := by
      have := Int.tdiv_nonneg (show 0 ≤ -a by omega) hk.le
      rw [Int.neg_tdiv] at this
      omega
    omega
  rw [tdiv_eq_ediv_of_nonneg ha] at h
  have h1 := mul_ediv_add_emod a k
  have h2 := emod_nonneg a hk.ne'
  have h3 := emod_lt_of_pos a hk
  rw [h] at h1
  constructor <;> linarith

/-- The numbers that `D1` takes to a message. -/
theorem rabinD1_cases {n y : ℤ} (hn : n % 4 = 1) (hM : 0 < M) (hy : 0 ≤ y) (h : rabinD1 n y = M) :
    ∃ c : ℤ, (c = 4 * M + 2 ∨ c = 8 * M + 4 ∨ c = 8 * M + 8) ∧ (y = c ∨ y = n - c) := by
  have habs : y.natAbs % 4 = (y % 4).toNat := by omega
  have hcases : y % 4 = 0 ∨ y % 4 = 1 ∨ y % 4 = 2 ∨ y % 4 = 3 := by omega
  rcases hcases with hmod | hmod | hmod | hmod <;> simp [rabinD1, habs, hmod] at h <;>
    have hb := bounds_of_tdiv (by norm_num) hM h
  · exact ⟨y, by omega, .inl rfl⟩
  · exact ⟨n - y, by omega, .inr (by ring)⟩
  · exact ⟨y, by omega, .inl rfl⟩
  · exact ⟨n - y, by omega, .inr (by ring)⟩

theorem accident_residue [Fact m.Prime] (hm : m % 2 = 1) {b : ℕ} {s : ℤ} (hb : (b : ZMod m) ≠ 0)
    (hs : s = 1 ∨ s = -1) (hM : b = 2 * M + 1) {c : ℤ}
    (hc : c = 4 * M + 2 ∨ c = 8 * M + 4 ∨ c = 8 * M + 8) (h : (s : ZMod m) * (2 * b) = c) :
    (c = 4 * M + 2 ∧ s = 1) ∨ (c = 8 * M + 4 ∧ s = -1) ∨
      (c = 8 * M + 8 ∧ ((s = 1 ∧ m ∣ b + 2) ∨ (s = -1 ∧ m ∣ 3 * b + 2))) := by
  have htwo := cast_ne_of_odd hm
  have hbM : (b : ZMod m) = 2 * M + 1 := by
    rw [hM]
    push_cast
    ring
  rcases hc with rfl | rfl | rfl
  · refine .inl ⟨rfl, ?_⟩
    rcases hs with rfl | rfl
    · rfl
    · exfalso
      push_cast at h
      have h4 : (2 : ZMod m) * (2 * b) = 0 := by rw [hbM] at h ⊢; linear_combination -h
      exact mul_ne_zero htwo (mul_ne_zero htwo hb) h4
  · refine .inr (.inl ⟨rfl, ?_⟩)
    rcases hs with rfl | rfl
    · exfalso
      push_cast at h
      have h2 : (2 : ZMod m) * b = 0 := by rw [hbM] at h ⊢; linear_combination -h
      exact mul_ne_zero htwo hb h2
    · rfl
  · refine .inr (.inr ⟨rfl, ?_⟩)
    rcases hs with rfl | rfl
    · left
      refine ⟨rfl, (ZMod.natCast_eq_zero_iff _ _).mp ?_⟩
      push_cast at h ⊢
      have h2 : (2 : ZMod m) * (b + 2) = 0 := by rw [hbM] at h ⊢; linear_combination -h
      exact (mul_eq_zero.mp h2).resolve_left htwo
    · right
      refine ⟨rfl, (ZMod.natCast_eq_zero_iff _ _).mp ?_⟩
      push_cast at h ⊢
      have h2 : (2 : ZMod m) * (3 * b + 2) = 0 := by rw [hbM] at h ⊢; linear_combination -h
      exact (mul_eq_zero.mp h2).resolve_left htwo

variable {p q : ℕ} [Fact p.Prime] [Fact q.Prime]

theorem jacobiSym_of_one_mod_eight {n : ℕ} (hn : n % 8 = 1) :
    jacobiSym 2 n = 1 ∧ jacobiSym (-1) n = 1 := by
  have hodd : Odd n := odd_iff.mpr (by omega)
  rw [jacobiSym.at_two hodd, jacobiSym.at_neg_one hodd, ZMod.χ₈_nat_eq_if_mod_eight,
    ZMod.χ₄_nat_one_mod_four (by omega)]
  omega

/-- A message with a code of symbol minus one survives only by accident. -/
theorem RoundTrips.accident (h : (rabinKey p q).RoundTrips) (hpq : BlumPair p q)
    (hn : p * q % 8 = 1) {b : ℕ} (hodd : Odd b) (hneg : jacobiSym b (p * q) = -1)
    (hlt : 2 * b < p * q) : (p ∣ b + 2 ∧ q ∣ 3 * b + 2) ∨ (p ∣ 3 * b + 2 ∧ q ∣ b + 2) := by
  obtain ⟨M, rfl⟩ := hodd
  have hM : 0 < M := by
    rcases Nat.eq_zero_or_pos M with rfl | hM
    · simp at hneg
    · exact hM
  have hcast : ((2 * M + 1 : ℕ) : ℤ) = M * 2 + 1 := by
    push_cast
    ring
  set e : ℤ := ((2 * M + 1 : ℕ) : ℤ) * 2 with he
  have hE1 : rabinE1 (p * q : ℕ) M = some e := by
    rw [rabinE1]
    simp only [jacobi_of_odd (show p * q % 2 = 1 by omega), ← hcast, hneg]
    norm_num
    exact_mod_cast by omega
  have hsym : jacobiSym e (p * q) = -1 := by
    rw [jacobiSym.mul_left, hneg, (jacobiSym_of_one_mod_eight hn).1]
    norm_num
  have hgcd : Int.gcd e (p * q) = 1 := by
    by_contra hne
    have hzero := jacobiSym.eq_zero_iff.mpr ⟨by omega, hne⟩
    rw [hsym] at hzero
    norm_num at hzero
  have hone : Int.gcd ((1 : ℕ) : ℤ) (p * q) = 1 := by simp
  obtain ⟨y, hD2, hy0, hyn, hyp, hyq⟩ := D2_square hone hpq hgcd
  have hsize : 1 < 2 ^ ((p * q).size - 1) := by
    have hlt : 1 < (p * q).size := Nat.lt_size.mpr (by omega)
    exact Nat.one_lt_two_pow (by omega)
  have hdec := h M _ (by exact hE1) 1
    (by rwa [rabinKey_n]) (by rwa [rabinKey_n])
  rw [rabinKey_n, decrypts, hD2, rabinKey_n] at hdec
  obtain ⟨c, hc, hyc⟩ := rabinD1_cases (by omega) hM hy0 (some.inj hdec)
  obtain ⟨ε, hε, hyε⟩ : ∃ ε, (ε = 1 ∨ ε = -1) ∧ ∀ m, m ∣ p * q → (y : ZMod m) = ε * c := by
    rcases hyc with rfl | rfl
    · exact ⟨1, .inl rfl, fun m _ => by simp⟩
    · refine ⟨-1, .inr rfl, fun m hm => ?_⟩
      have hzero := (ZMod.natCast_eq_zero_iff _ _).mpr hm
      push_cast at hzero ⊢
      rw [hzero]
      ring
  -- the two symbols differ, so that the root is the code up to different signs
  have hpn : p ∣ p * q := Dvd.intro q rfl
  have hqn : q ∣ p * q := Dvd.intro_left p rfl
  have hprod := jacobiSym_mul_eq (p := p) (q := q) e
  have hLp := legendreSym.eq_one_or_neg_one p (cast_ne_zero_of_gcd hpn hgcd)
  have hLq : legendreSym q e = -legendreSym p e := by
    rcases hLp with hL | hL <;> rw [hL] at hprod ⊢ <;> omega
  have hresidue : ∀ {m : ℕ} [Fact m.Prime], m ∣ p * q → m % 2 = 1 → ∀ L : ℤ,
      (L = 1 ∨ L = -1) → y = L * (e : ZMod m) →
      (c = 4 * M + 2 ∧ ε * L = 1) ∨ (c = 8 * M + 4 ∧ ε * L = -1) ∨
        (c = 8 * M + 8 ∧ ((ε * L = 1 ∧ m ∣ 2 * M + 1 + 2) ∨
          (ε * L = -1 ∧ m ∣ 3 * (2 * M + 1) + 2))) := by
    intro m _ hm hm2 L hL hy
    have hb : ((2 * M + 1 : ℕ) : ZMod m) ≠ 0 := by
      intro hzero
      refine cast_ne_zero_of_gcd hm hgcd ?_
      rw [cast_mul, cast_natCast, hzero, zero_mul]
    refine accident_residue hm2 hb ?_ rfl hc ?_
    · rcases hε with rfl | rfl <;> rcases hL with rfl | rfl <;> simp
    · have hε2 : (ε : ZMod m) * ε = 1 := by
        rcases hε with rfl | rfl <;> simp
      rw [hyε m hm, he] at hy
      push_cast at hy ⊢
      linear_combination (-ε) * hy + (c : ZMod m) * hε2
  have hp := hresidue hpn (by have := hpq.left; omega) _ hLp hyp
  have hq := hresidue hqn (by have := hpq.right; omega) _
    (by rw [hLq]; rcases hLp with hL | hL <;> rw [hL] <;> simp) hyq
  rw [hLq, mul_neg] at hq
  omega

theorem exists_jacobiSym_neg (hpq : BlumPair p q) :
    ∃ b : ℕ, b < p * q ∧ jacobiSym b (p * q) = -1 := by
  have hp := (Fact.out : p.Prime)
  have hq := (Fact.out : q.Prime)
  obtain ⟨hbp, hbq⟩ := (chineseRemainder hpq.coprime (p - 1) 1).2
  have hlt := chineseRemainder_lt_mul hpq.coprime (p - 1) 1 hp.ne_zero hq.ne_zero
  generalize ((chineseRemainder hpq.coprime (p - 1) 1 : _) : ℕ) = b at *
  refine ⟨b, hlt, ?_⟩
  have hsp : legendreSym p b = -1 := by
    have hmod : (b : ℤ) % p = -1 % p := by
      have hcast := (Int.natCast_modEq_iff.mpr hbp)
      have hminus : ((p - 1 : ℕ) : ℤ) ≡ -1 [ZMOD p] := by
        refine Int.modEq_iff_dvd.mpr ⟨-1, ?_⟩
        push_cast [hp.one_le]
        ring
      exact hcast.trans hminus
    rw [legendreSym.mod, hmod, ← legendreSym.mod,
      legendreSym.at_neg_one (by have := hpq.left; omega), ZMod.χ₄_nat_three_mod_four hpq.left]
  have hsq : legendreSym q b = 1 := by
    have hmod : (b : ℤ) % q = 1 % q := Int.natCast_modEq_iff.mpr hbq
    rw [legendreSym.mod, hmod, ← legendreSym.mod, legendreSym.at_one]
  rw [jacobiSym_mul_eq, hsp, hsq]
  norm_num

theorem dvd_of_jacobiSym_eq_zero {c : ℕ} (h : jacobiSym c (p * q) = 0) : p ∣ c ∨ q ∣ c := by
  by_contra hno
  rw [not_or] at hno
  have hcop : c.Coprime (p * q) :=
    ((Nat.Prime.coprime_iff_not_dvd Fact.out).mpr hno.1).symm.mul_right
      ((Nat.Prime.coprime_iff_not_dvd Fact.out).mpr hno.2).symm
  exact jacobiSym.ne_zero (by exact hcop) h

omit [Fact p.Prime] in
/-- The only primes to be considered that divide a small number. -/
theorem three_or_seven {c : ℕ} (hp : p % 4 = 3) (hc : 0 < c) (hc' : c ≤ 10) (h : p ∣ c) :
    (p = 3 ∧ c % 3 = 0) ∨ (p = 7 ∧ c % 7 = 0) := by
  have hle := le_of_dvd hc h
  have hcases : p = 3 ∨ p = 7 := by omega
  rcases hcases with rfl | rfl
  · exact .inl ⟨rfl, mod_eq_zero_of_dvd h⟩
  · exact .inr ⟨rfl, mod_eq_zero_of_dvd h⟩

theorem ten_mul_lt (hpq : BlumPair p q) (heq : p % 8 = q % 8) (hn : p * q % 8 = 1) {a : ℕ}
    (ha : LeastNegative (p * q) a) (hge : 11 ≤ a) (hlt : 2 * a < p * q) : 10 * a < p * q := by
  by_contra hle
  have hminus := (jacobiSym_of_one_mod_eight hn).2
  obtain ⟨hq1, hq2⟩ := ha.quotients hminus (by omega) rfl
  have hlo : 2 ≤ p * q / a := by
    rw [le_div_iff_mul_le (by omega)]
    omega
  have hhi : p * q / a < 10 := by
    rw [div_lt_iff_lt_mul (by omega)]
    omega
  have hd1 := dvd_of_jacobiSym_eq_zero (hq1 (by omega) (by omega))
  have hd2 := dvd_of_jacobiSym_eq_zero (hq2 (by omega))
  generalize p * q / a = c at *
  have hsmall : ∀ d, 0 < d → d ≤ 10 → p ∣ d ∨ q ∣ d →
      (p = 3 ∨ q = 3) ∧ d % 3 = 0 ∨ (p = 7 ∨ q = 7) ∧ d % 7 = 0 := by
    rintro d hpos hle (h | h)
    · have := three_or_seven hpq.left hpos hle h
      omega
    · have := three_or_seven hpq.right hpos hle h
      omega
  have h1 := hsmall c (by omega) (by omega) hd1
  have h2 := hsmall (c + 1) (by omega) (by omega) hd2
  omega

/-- Numbers that an accident would need as multiples of one of the primes. -/
theorem not_dvd_of_mod_four {d : ℕ} (hm : m % 4 = 3)
    (hd : d = 4 ∨ d = 5 ∨ d = 8 ∨ d = 17 ∨ d = 29) : ¬ m ∣ d := by
  intro h
  rcases hd with rfl | rfl | rfl | rfl | rfl <;>
  · have hle := le_of_dvd (by norm_num) h
    interval_cases m <;> omega

theorem mod_eight_of_dvd {m' : ℕ} (hm : m % 4 = 3) (hm' : m' % 4 = 3) (h : m ∣ 9) (h' : m' ∣ 23) :
    m % 8 ≠ m' % 8 := by
  have hle := le_of_dvd (by norm_num) h
  have hle' := le_of_dvd (by norm_num) h'
  have hthree : m = 3 := by interval_cases m <;> omega
  have hlarge : m' = 23 := by interval_cases m' <;> omega
  omega

/-- A number and five times the number are not both saved by an accident. -/
theorem not_both_accidents {m' a : ℕ} (hm : m % 4 = 3) (hm' : m' % 4 = 3) (h : m ∣ a + 2)
    (h' : m' ∣ 3 * a + 2)
    (h5 : (m ∣ 5 * a + 2 ∧ m' ∣ 3 * (5 * a) + 2) ∨ (m ∣ 3 * (5 * a) + 2 ∧ m' ∣ 5 * a + 2)) :
    False := by
  rcases h5 with ⟨h5, -⟩ | ⟨-, h5⟩
  · have hd : m ∣ 5 * (a + 2) - (5 * a + 2) := dvd_sub (h.mul_left 5) h5
    exact not_dvd_of_mod_four hm (d := 8) (by norm_num) (by convert hd using 1; omega)
  · have hd : m' ∣ 5 * (3 * a + 2) - 3 * (5 * a + 2) := dvd_sub (h'.mul_left 5) (h5.mul_left 3)
    exact not_dvd_of_mod_four hm' (d := 4) (by norm_num) (by convert hd using 1; omega)

/-- With equal residues modulo eight, the least number with symbol minus one or five times it
is the code of a message that is lost. -/
theorem not_roundTrips_of_mod_eight_eq (hpq : BlumPair p q) (heq : p % 8 = q % 8) :
    ¬ (rabinKey p q).RoundTrips := by
  intro h
  have hn : p * q % 8 = 1 := by
    have hcases : p % 8 = 3 ∨ p % 8 = 7 := by
      have := hpq.left
      omega
    rcases hcases with hp | hp <;> rw [mul_mod, ← heq, hp]
  obtain ⟨htwo, hminus⟩ := jacobiSym_of_one_mod_eight hn
  obtain ⟨b, hbn, hb⟩ := exists_jacobiSym_neg hpq
  have hone : 1 < p * q :=
    lt_of_lt_of_le (Fact.out : p.Prime).one_lt (Nat.le_mul_of_pos_right p (Fact.out : q.Prime).pos)
  obtain ⟨a, ha0, hab, ha⟩ := exists_leastNegative hb hone
  have hodd := ha.odd ha0 htwo
  have hlt := ha.two_mul_lt hminus (odd_iff.mpr (by omega)) (by omega)
  have hacc := RoundTrips.accident h hpq hn hodd ha.neg hlt
  rcases lt_or_ge a 11 with hsmall | hge
  · have hone := ha.one_lt ha0
    rw [Nat.odd_iff] at hodd
    have hcases : a = 3 ∨ a = 7 ∨ a = 5 ∨ a = 9 := by omega
    rcases hcases with rfl | rfl | hcases
    · rcases hacc with ⟨hd, -⟩ | ⟨-, hd⟩
      · exact not_dvd_of_mod_four hpq.left (by norm_num) hd
      · exact not_dvd_of_mod_four hpq.right (by norm_num) hd
    · rcases hacc with ⟨hd, hd'⟩ | ⟨hd, hd'⟩
      · exact mod_eight_of_dvd hpq.left hpq.right hd hd' heq
      · exact mod_eight_of_dvd hpq.right hpq.left hd' hd heq.symm
    · have := hpq.left
      have := hpq.right
      rcases hcases with rfl | rfl <;> rcases hacc with ⟨-, hd⟩ | ⟨hd, -⟩ <;>
        exact not_dvd_of_mod_four ‹_› (by norm_num) hd
  · have hfive : jacobiSym (5 : ℕ) (p * q) = 1 := by
      rcases jacobiSym.trichotomy 5 (p * q) with hs | hs | hs
      · rcases dvd_of_jacobiSym_eq_zero hs with hd | hd
        · exact absurd hd (not_dvd_of_mod_four hpq.left (by norm_num))
        · exact absurd hd (not_dvd_of_mod_four hpq.right (by norm_num))
      · exact hs
      · exact absurd hs (ha.least 5 (by norm_num) (by omega))
    have hneg : jacobiSym (5 * a : ℕ) (p * q) = -1 := by
      rw [Nat.cast_mul, jacobiSym.mul_left, hfive, ha.neg]
      norm_num
    have hten := ten_mul_lt hpq heq hn ha hge hlt
    have hacc5 := RoundTrips.accident h hpq hn (Odd.mul (by decide) hodd) hneg (by omega)
    rcases hacc with ⟨hd, hd'⟩ | ⟨hd, hd'⟩
    · exact not_both_accidents hpq.left hpq.right hd hd' hacc5
    · exact not_both_accidents hpq.right hpq.left hd' hd
        (hacc5.symm.imp And.symm And.symm)

end EqualResidues

section Keys

variable {p q : ℕ} [Fact p.Prime] [Fact q.Prime]

theorem roundTrips_of_williamsPair (hpq : p < q) (hres : WilliamsPair p q) :
    (rabinKey p q).RoundTrips := by
  have hpair : BlumPair p q := by
    refine ⟨hpq, ?_, ?_⟩ <;> rcases hres with ⟨h1, h2⟩ | ⟨h1, h2⟩ <;> omega
  intro M x hx rnd _ hr
  rw [rabinKey_n] at hx hr ⊢
  obtain ⟨hsym, hx0, hxn, hD1⟩ := rabinE1_spec hres.mod_eight (natCast_nonneg M) hx
  obtain ⟨y, hy, hroot⟩ := D2_E2 hr hpair hsym hx0 hxn
  rw [decrypts, hy, map_some, rabinKey_n, hD1 y hroot]

/-- The moduli six and ten have only the message zero. -/
theorem eq_zero_of_rabinE1 {n : ℕ} (hn : n = 6 ∨ n = 10) {M : ℕ} {x : ℤ}
    (h : rabinE1 n M = some x) : M = 0 ∧ x = 4 := by
  rw [rabinE1] at h
  split_ifs at h with h1 hlt h2 hlt
  · have hM : M = 0 := by omega
    subst hM
    exact ⟨rfl, by simpa using (some.inj h).symm⟩
  · have hM : M = 0 ∨ (M = 1 ∧ n = 10) := by omega
    rcases hM with rfl | ⟨rfl, rfl⟩
    · simp [jacobi_one] at h1
    · have hthree : jacobi 3 10 = 1 := by
        have hval : padicValNat 2 10 = 1 := by
          rw [show 10 = 2 * 5 by norm_num, padicValNat.mul (by norm_num) (by norm_num)]
          simp
        have hfive : jacobiSym 3 5 = -1 := by norm_num
        simp [jacobi, hval, kroneckerTwo, hfive]
      exact absurd hthree h1

theorem roundTrips_of_small (hq : q = 3 ∨ q = 5) : (rabinKey 2 q).RoundTrips := by
  intro M x hx rnd hsize hr
  obtain ⟨rfl, rfl⟩ := eq_zero_of_rabinE1 (by omega) hx
  have hdec : ∀ c w : ℕ, Takes q rnd c w → rabinD1 (2 * q : ℕ) c = 0 →
      (rabinKey 2 q).decrypts rnd (rabinE2 (2 * q : ℕ) 4) = some ((0 : ℕ) : ℤ) := by
    intro c w htakes hD1
    rw [decrypts, D2_zero_of_takes (by omega) hr htakes, map_some, rabinKey_n, hD1]
    rfl
  rcases hq with rfl | rfl
  · have hlt : rnd < 4 := lt_of_lt_of_le hsize (by decide)
    interval_cases rnd <;> try exact absurd hr (by decide)
    exact hdec 1 1 (by decide) (by decide)
  · have hlt : rnd < 8 := lt_of_lt_of_le hsize (by decide)
    interval_cases rnd <;> try exact absurd hr (by decide)
    · exact hdec 1 1 (by decide) (by decide)
    · exact hdec 9 1 (by decide) (by decide)
    · exact hdec 9 1 (by decide) (by decide)

theorem rabinKey_roundTrips_iff (hpq : p < q) :
    (rabinKey p q).RoundTrips ↔ WilliamsPair p q ∨ p * q = 6 ∨ p * q = 10 := by
  have hp2 := (Fact.out : p.Prime).two_le
  have hqodd : q % 2 = 1 := (Fact.out : q.Prime).eq_two_or_odd.resolve_left (by omega)
  constructor
  · intro h
    rcases (Fact.out : p.Prime).eq_two_or_odd with rfl | hpodd
    · by_contra hno
      exact not_roundTrips_two hqodd (by omega) h
    · have hfour : ¬ (p % 4 = 1 ∨ q % 4 = 1) := fun hfour =>
        not_roundTrips_of_one_mod_four hpq hpodd hqodd hfour h
      have heq : p % 8 ≠ q % 8 := fun heq =>
        not_roundTrips_of_mod_eight_eq ⟨hpq, by omega, by omega⟩ heq h
      unfold WilliamsPair
      omega
  · rintro (hres | hsmall)
    · exact roundTrips_of_williamsPair hpq hres
    · have hp : p = 2 := by
        by_contra hne
        have hle : 3 * 4 ≤ p * q := Nat.mul_le_mul (by omega) (by omega)
        omega
      subst hp
      exact roundTrips_of_small (by omega)

end Keys

/-- `make` accepts every two primes. -/
theorem RabinPriv.make_of_primes {p q : ℕ} (hp : p.Prime) (hq : q.Prime) (hpq : p < q) :
    make p q = some (rabinKey p q) := by
  have hp1 := hp.one_lt
  unfold make
  rw [if_neg, if_pos (by exact_mod_cast hpq), new_eq_rabinKey hp.pos hpq]
  push Not
  exact ⟨by omega, by omega, by omega, by simpa using hp, by simpa using hq⟩

end SelfCertifyingFS.Crypt
