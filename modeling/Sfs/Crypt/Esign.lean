import Sfs.Crypt.Schnorr

/-!
# ESIGN signatures

`esign_pub` and `esign_priv` of `crypt/esign.C` on numbers. A signature of `v` is a
number whose `k`-th power modulo `p * p * q` lies in a window above `v`; it is found
from a random number, or from an entry computed ahead of time.
-/

namespace SelfCertifyingFS.Crypt

open Foundations Rpc Int Option

/-- `esign_pub`. -/
structure EsignPub where
  n : ℤ
  k : ℕ
  t : ℤ
  deriving DecidableEq, Repr

namespace EsignPub

/-- The constructor; `calc_log2k` asserts that the exponent is above four. -/
def new (nn : ℤ) (kk : ℕ) : Option EsignPub :=
  if kk > 4 then
    let nb := nbits nn
    let nb := (2 * nb + 2) / 3
    some ⟨nn, kk, 2 ^ nb⟩
  else none

def kpow (key : EsignPub) (x : ℤ) : Option ℤ := powm x key.k key.n

def rawVerify (key : EsignPub) (z sig : ℤ) : Option Bool :=
  (key.kpow sig).map fun u => if u < z then false else u - key.t ≤ z

end EsignPub

/-- `precomp`. -/
structure Precomp where
  x : ℤ
  xk : ℤ
  xOverKxk : ℤ
  deriving DecidableEq, Repr

/-- `esign_priv`. -/
structure EsignPriv extends EsignPub where
  p : ℤ
  q : ℤ
  pq : ℤ
  prevec : List Precomp
  deriving DecidableEq, Repr

namespace EsignPriv

/-- The constructor, which asserts the order of the factors. -/
def new (p q : ℤ) (kk : ℕ) : Option EsignPriv :=
  (EsignPub.new (p * p * q) kk).bind fun pub =>
    if p > q then some { toEsignPub := pub, p := p, q := q, pq := p * q, prevec := [] } else none

variable (key : EsignPriv)

/-- The entry that `precompute` adds for the random number `x`. -/
def precomp (x : ℤ) : Option Precomp :=
  (key.kpow x).map fun xk => ⟨x, xk, invert (xk * key.k) key.p * x⟩

def precompute (x : ℤ) : Option EsignPriv :=
  (key.precomp x).map fun prc => { key with prevec := key.prevec ++ [prc] }

/-- The number of multiples of `pq` between the power of the random number and `v`, rounded up
as `mpz_cdiv_q` does; it is asserted to be positive. -/
def distance (v xk : ℤ) : Option ℤ :=
  let w := v - xk
  let w := if w < 0 then w + key.n else w
  if key.pq = 0 then none
  else
    let w := -(-w).fdiv key.pq
    if w > 0 then some w else none

/-- `raw_sign`, for the random number `x` that is drawn if nothing is precomputed. -/
def rawSign (v x : ℤ) : Option (ℤ × EsignPriv) :=
  match key.prevec with
  | [] =>
    (key.kpow x).bind fun xk =>
      (key.distance v xk).map fun w =>
        let xk := xk * key.k
        let xk := invert xk key.p
        let xk := xk * x
        let xk := xk * w
        let xk := xk % key.p
        ((x + xk * key.pq) % key.n, key)
  | prc :: prevec =>
    (key.distance v prc.xk).map fun w =>
      let w := w * prc.xOverKxk
      let w := w % key.p
      let w := w * key.pq
      let w := w + prc.x
      (w % key.n, { key with prevec := prevec })

end EsignPriv

section Keys

variable (p q k : ℕ) (prevec : List Precomp)

def esignKey : EsignPriv where
  n := p * p * q
  k := k
  t := 2 ^ ((2 * nbits ((p : ℤ) * p * q) + 2) / 3)
  p := p
  q := q
  pq := p * q
  prevec := prevec

variable {p q k}

theorem EsignPriv.new_spec {key : EsignPriv} (h : EsignPriv.new p q k = some key) :
    key = esignKey p q k [] ∧ 4 < k ∧ q < p := by
  obtain ⟨pub, hpub, h⟩ := bind_eq_some_iff.mp h
  unfold EsignPub.new at hpub
  split_ifs at hpub with hk
  obtain rfl := some.inj hpub
  split_ifs at h with hpq
  exact ⟨(some.inj h).symm, hk, by exact_mod_cast hpq⟩

theorem EsignPriv.new_eq_esignKey (hk : 4 < k) (hpq : q < p) :
    EsignPriv.new p q k = some (esignKey p q k []) := by
  rw [EsignPriv.new, EsignPub.new, if_pos hk, bind_some,
    if_pos (by exact_mod_cast hpq : (p : ℤ) > q)]
  rfl

variable {prevec} {v x : ℤ}

theorem kpow_eq (hp : 0 < p) (hq : 0 < q) (x : ℤ) :
    (esignKey p q k prevec).kpow x = some (x ^ k % (p * p * q)) := by
  have hn : (0 : ℤ) < p * p * q := by positivity
  exact powm_of_pos hn (natCast_nonneg k)

end Keys

section Distance

variable {p q : ℕ} {v xk : ℤ}

/-- The multiples of `pq` lead from the power to `v` or less than one multiple beyond. -/
theorem distance_spec (k : ℕ) (prevec : List Precomp) (hp : 0 < p) (hq : 0 < q) (hv0 : 0 ≤ v)
    (hxk : xk < p * p * q) (hne : xk ≠ v) :
    ∃ w δ : ℤ, (esignKey p q k prevec).distance v xk = some w ∧ 0 ≤ δ ∧ δ < p * q ∧
      xk + w * (p * q) ≡ v + δ [ZMOD p * p * q] := by
  have hpq : (0 : ℤ) < p * q := by positivity
  set d := if v - xk < 0 then v - xk + p * p * q else v - xk with hd
  have hdmod : xk + d ≡ v [ZMOD p * p * q] := by
    rw [hd]
    split_ifs
    · calc xk + (v - xk + p * p * q) = v + p * p * q * 1 := by ring
        _ ≡ v [ZMOD p * p * q] := modEq_add_fac_self
    · rw [add_sub_cancel]
  have hfdiv : (-d).fdiv (p * q) = -d / (p * q) := fdiv_eq_ediv_of_nonneg _ hpq.le
  set w := -(-d / (p * q) : ℤ) with hw
  have hlo : d ≤ w * (p * q) := by
    have := Int.ediv_mul_le (-d) hpq.ne'
    linarith
  have hhi : w * (p * q) < d + p * q := by
    have := lt_ediv_add_one_mul_self (-d) hpq
    linarith
  have hw0 : 0 < w := by
    by_contra hle
    have : w * (p * q) ≤ 0 := mul_nonpos_of_nonpos_of_nonneg (by omega) hpq.le
    omega
  refine ⟨w, w * (p * q) - d, ?_, by omega, by omega, ?_⟩
  · have hdist : (esignKey p q k prevec).distance v xk =
        if (p : ℤ) * q = 0 then none
        else if -(-d).fdiv (p * q) > 0 then some (-(-d).fdiv (p * q)) else none := rfl
    rw [hdist, if_neg hpq.ne', hfdiv, if_pos hw0]
  · calc xk + w * (p * q) = xk + d + (w * (p * q) - d) := by ring
      _ ≡ v + (w * (p * q) - d) [ZMOD p * p * q] := hdmod.add_right _

end Distance

section Signing

variable {p q k : ℕ}

/-- The power of a signature: the multiples of `pq` are raised as the derivative of the power
says, since the square of `pq` vanishes. -/
theorem pow_signature {x w i : ℤ} (hk : 0 < k) (hinv : x ^ k * k * i ≡ 1 [ZMOD p]) :
    ((x + i * x * w % p * (p * q)) % (p * p * q)) ^ k ≡ x ^ k + w * (p * q) [ZMOD p * p * q] := by
  set c := i * x * w % p with hc
  have hsquare : (p : ℤ) * p * q ∣ c * (p * q) * (c * (p * q)) := ⟨c * c * q, by ring⟩
  have hcoeff : k * x ^ (k - 1) * c ≡ w [ZMOD p] := by
    calc k * x ^ (k - 1) * c ≡ k * x ^ (k - 1) * (i * x * w) [ZMOD p] := (mod_modEq _ _).mul_left _
      _ = x ^ (k - 1) * x * k * i * w := by ring
      _ = x ^ k * k * i * w := by rw [← pow_succ, Nat.sub_add_cancel hk]
      _ ≡ 1 * w [ZMOD p] := hinv.mul_right w
      _ = w := one_mul w
  calc ((x + c * (p * q)) % (p * p * q)) ^ k ≡ (x + c * (p * q)) ^ k [ZMOD p * p * q] :=
        (mod_modEq _ _).pow k
    _ ≡ x ^ k + k * x ^ (k - 1) * (c * (p * q)) [ZMOD p * p * q] := add_pow_modEq hsquare k
    _ = x ^ k + k * x ^ (k - 1) * c * (p * q) := by ring
    _ ≡ x ^ k + w * (p * q) [ZMOD p * p * q] := by
        apply Int.ModEq.rfl.add
        have h := hcoeff.mul_right' (c := (p * q))
        rwa [← mul_assoc] at h

/-- The window of the verification is at least as wide as a multiple of `pq`. -/
theorem mul_lt_window (hpq : q < p) :
    (p : ℤ) * q < 2 ^ ((2 * nbits ((p : ℤ) * p * q) + 2) / 3) := by
  set b := nbits (p * p * q) with hb
  have hn : p * p * q < 2 ^ b := by
    have h := natAbs_lt_two_pow_nbits (p * p * q)
    rwa [← Nat.cast_mul] at h
  have hcube : (p * q) ^ 3 < (2 ^ ((2 * b + 2) / 3)) ^ 3 := by
    calc (p * q) ^ 3 = p ^ 3 * q ^ 2 * q := by ring
      _ ≤ p ^ 3 * q ^ 2 * p := Nat.mul_le_mul_left _ hpq.le
      _ = (p * p * q) ^ 2 := by ring
      _ < (2 ^ b) ^ 2 := Nat.pow_lt_pow_left hn (by decide)
      _ = 2 ^ (2 * b) := by rw [← pow_mul, mul_comm]
      _ ≤ 2 ^ ((2 * b + 2) / 3 * 3) := Nat.pow_le_pow_right (by decide) (by omega)
      _ = (2 ^ ((2 * b + 2) / 3)) ^ 3 := pow_mul _ _ _
  have hlt := lt_of_pow_lt_pow_left' 3 hcube
  exact_mod_cast hlt

theorem rawVerify_of_modEq (hp : 0 < p) (hpq : q < p) (hq : 0 < q) {prevec : List Precomp}
    {v δ sig : ℤ} (hv0 : 0 ≤ v) (hv : v < p * p * q - p * q) (hδ0 : 0 ≤ δ) (hδ : δ < p * q)
    (hsig : sig ^ k ≡ v + δ [ZMOD p * p * q]) :
    (esignKey p q k prevec).rawVerify v sig = some true := by
  have hu : sig ^ k % (p * p * q) = v + δ := by
    rw [hsig, emod_eq_of_lt (by omega) (by omega)]
  have hwindow := mul_lt_window hpq
  rw [EsignPub.rawVerify, kpow_eq hp hq, map_some, hu, if_neg (by omega)]
  apply congrArg some
  apply decide_eq_true
  change v + δ - 2 ^ ((2 * nbits (p * p * q) + 2) / 3) ≤ v
  omega

/-- Both ways to sign put the same number of multiples of `pq` on the random number. -/
theorem rawSign_eq (hp : 0 < p) (hq : 0 < q) {v x w : ℤ} (prevec : List Precomp)
    (hw : (esignKey p q k []).distance v (x ^ k % (p * p * q)) = some w) (y : ℤ) :
    (esignKey p q k []).rawSign v x = some
        ((x + invert (x ^ k % (p * p * q) * k) p * x * w % p * (p * q)) % (p * p * q),
          esignKey p q k []) ∧
      ∃ prc, (esignKey p q k []).precomp x = some prc ∧
        (esignKey p q k (prc :: prevec)).rawSign v y = some
          ((x + invert (x ^ k % (p * p * q) * k) p * x * w % p * (p * q)) % (p * p * q),
            esignKey p q k prevec) := by
  set xk := x ^ k % (p * p * q) with hxk
  refine ⟨?_, ⟨x, xk, invert (xk * k) p * x⟩, ?_, ?_⟩
  · have hsign : (esignKey p q k []).rawSign v x =
        ((esignKey p q k []).kpow x).bind fun xk => ((esignKey p q k []).distance v xk).map fun w =>
          ((x + invert (xk * k) p * x * w % p * (p * q)) % (p * p * q), esignKey p q k []) := rfl
    rw [hsign, kpow_eq hp hq, bind_some, hw, map_some]
  · rw [EsignPriv.precomp, kpow_eq hp hq]
    rfl
  · have hsign : ∀ prc, (esignKey p q k (prc :: prevec)).rawSign v y =
        ((esignKey p q k []).distance v prc.xk).map fun w =>
          ((w * prc.xOverKxk % p * (p * q) + prc.x) % (p * p * q), esignKey p q k prevec) :=
      fun _ => rfl
    rw [hsign, hw, map_some, mul_comm w, add_comm _ x]

/-- Every signature is verified, and it is the same with an entry that was computed ahead. -/
theorem esign_verifies (hp : p.Prime) (hq : q.Prime) {key : EsignPriv}
    (hkey : EsignPriv.new p q k = some key) (hk : k.Coprime p) {v x : ℤ} (hv0 : 0 ≤ v)
    (hv : v < key.n - key.pq) (hx : IsCoprime x (p : ℤ)) (hne : x ^ k % key.n ≠ v) :
    ∃ sig, key.rawSign v x = some (sig, key) ∧ key.rawVerify v sig = some true ∧
      ∃ prc, key.precomp x = some prc ∧ ∀ prevec y,
        { key with prevec := prc :: prevec }.rawSign v y =
          some (sig, { key with prevec := prevec }) := by
  obtain ⟨rfl, hk4, hpq⟩ := EsignPriv.new_spec hkey
  have hn : (0 : ℤ) < p * p * q := by
    have := hp.pos
    have := hq.pos
    positivity
  obtain ⟨w, δ, hw, hδ0, hδ, hmod⟩ :=
    distance_spec k [] hp.pos hq.pos hv0 (emod_lt_of_pos _ hn) hne
  set xk := x ^ k % (p * p * q)
  have hinv : x ^ k * k * invert (xk * k) p ≡ 1 [ZMOD p] := by
    have hxk : xk ≡ x ^ k [ZMOD p] := (mod_modEq _ _).of_dvd ⟨p * q, by ring⟩
    have hcop : Int.gcd (xk * k) p = 1 := by
      rw [← gcd_emod, hxk.mul_right k, gcd_emod, ← isCoprime_iff_gcd_eq_one]
      exact hx.pow_left.mul_left (Nat.isCoprime_iff_coprime.mpr hk)
    calc x ^ k * k * invert (xk * k) p ≡ xk * k * invert (xk * k) p [ZMOD p] :=
          (hxk.symm.mul_right _).mul_right _
      _ ≡ 1 [ZMOD p] := mul_invert_modEq hcop
  have hsig := pow_signature (q := q) (w := w) (by omega) hinv
  obtain ⟨hsign, -⟩ := rawSign_eq hp.pos hq.pos [] hw 0
  refine ⟨_, hsign, ?_, ?_⟩
  · apply rawVerify_of_modEq hp.pos hpq hq.pos hv0 hv hδ0 hδ
    calc _ ≡ x ^ k + w * (p * q) [ZMOD p * p * q] := hsig
      _ ≡ xk + w * (p * q) [ZMOD p * p * q] := (mod_modEq _ _).symm.add_right _
      _ ≡ v + δ [ZMOD p * p * q] := hmod
  · obtain ⟨-, prc, hprc, -⟩ := rawSign_eq hp.pos hq.pos [] hw 0
    refine ⟨prc, hprc, ?_⟩
    intro prevec y
    obtain ⟨-, prc', hprc', hagain⟩ := rawSign_eq hp.pos hq.pos prevec hw y
    obtain rfl : prc = prc' := some.inj (hprc.symm.trans hprc')
    exact hagain

/-- A signature of zero with the primes five and three and the random number two. -/
theorem esign_verifies_five_three :
    ∃ key, EsignPriv.new 5 3 8 = some key ∧ ∃ sig, key.rawSign 0 2 = some (sig, key) ∧
      key.rawVerify 0 sig = some true ∧ ∃ prc, key.precomp 2 = some prc ∧ ∀ prevec y,
        { key with prevec := prc :: prevec }.rawSign 0 y =
          some (sig, { key with prevec := prevec }) := by
  have hkey : EsignPriv.new 5 (3 : ℕ) 8 = some (esignKey 5 3 8 []) :=
    EsignPriv.new_eq_esignKey (by decide) (by decide)
  exact ⟨_, hkey, esign_verifies Nat.prime_five Nat.prime_three hkey (by decide) le_rfl
    (by decide) (by norm_num) (by decide)⟩

end Signing

end SelfCertifyingFS.Crypt
