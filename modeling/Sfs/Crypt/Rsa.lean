import Sfs.Crypt.Schnorr

/-!
# RSA

Keys, encryption and decryption of `crypt/rsa.h` on numbers. The public exponent
is three. A private key is made from two primes, and decrypts modulo each of them.
-/

namespace SelfCertifyingFS.Crypt

open Foundations Rpc Int Option

/-- `rsa_pub`. -/
structure RsaPub where
  n : ℤ
  e : ℤ
  nbits : ℕ
  deriving DecidableEq, Repr

namespace RsaPub

def new (nn : ℤ) : RsaPub := ⟨nn, 3, Rpc.nbits nn - 1⟩

/-- `encrypt`; zero if the number is too large. -/
def encrypt (key : RsaPub) (m : ℤ) : Option ℤ :=
  if m = 0 ∨ Rpc.nbits m > key.nbits then some 0 else powm m key.e key.n

end RsaPub

/-- `rsa_priv`. -/
structure RsaPriv extends RsaPub where
  p : ℤ
  q : ℤ
  phin : ℤ
  d : ℤ
  dp : ℤ
  dq : ℤ
  pinvq : ℤ
  deriving DecidableEq, Repr

namespace RsaPriv

/-- The constructor and `init`, which asserts the order of the factors. -/
def new (n1 n2 : ℤ) : Option RsaPriv :=
  let pub := RsaPub.new (n1 * n2)
  let p1 := n1 - 1
  let q1 := n2 - 1
  let phin := p1 * q1
  if p1 = 0 ∨ q1 = 0 ∨ n2 = 0 then none
  else
    let d := invert pub.e phin % phin
    if n1 < n2 then
      some {
        toRsaPub := pub
        p := n1
        q := n2
        phin := phin
        d := d
        dp := d % p1
        dq := d % q1
        pinvq := invert n1 n2 % n2 }
    else none

/-- `make`, with an exact test for primes. -/
def make (n1 n2 : ℤ) : Option RsaPriv :=
  if n1 = n2 ∨ n1 ≤ 1 ∨ n2 ≤ 1 ∨ ¬ n1.toNat.Prime ∨ ¬ n2.toNat.Prime then none
  else if n1 < n2 then new n1 n2
  else new n2 n1

/-- `decrypt`, modulo either prime and then together. -/
def decrypt (key : RsaPriv) (c : ℤ) : Option ℤ :=
  (powm c key.dp key.p).bind fun mp =>
    (powm c key.dq key.q).bind fun mq =>
      let v := (mq - mp) * key.pinvq % key.q
      some (mp + key.p * v)

end RsaPriv

section Keys

variable (p q : ℕ)

/-- The decryption exponent of a pair of primes. -/
def rsaExp : ℤ := invert 3 (((p : ℤ) - 1) * (q - 1)) % (((p : ℤ) - 1) * (q - 1))

def rsaKey : RsaPriv where
  toRsaPub := .new (p * q)
  p := p
  q := q
  phin := ((p : ℤ) - 1) * (q - 1)
  d := rsaExp p q
  dp := rsaExp p q % (p - 1)
  dq := rsaExp p q % (q - 1)
  pinvq := invert p q % q

variable {p q}

theorem RsaPriv.new_eq_rsaKey (hp : p.Prime) (hpq : p < q) :
    RsaPriv.new p q = some (rsaKey p q) := by
  have hp1 : 1 < p := by exact_mod_cast hp.one_lt
  have hlt : (p : ℤ) < q := by exact_mod_cast hpq
  rw [RsaPriv.new, if_neg (by omega), if_pos hlt]
  rfl

theorem RsaPriv.make_of_prime (hp : p.Prime) (hq : q.Prime) (hpq : p < q) :
    RsaPriv.make p q = some (rsaKey p q) := by
  have hp1 : 1 < p := by exact_mod_cast hp.one_lt
  have hlt : (p : ℤ) < q := by exact_mod_cast hpq
  rw [RsaPriv.make, if_neg, if_pos hlt, RsaPriv.new_eq_rsaKey hp hpq]
  rintro (h | h | h | h | h)
  · omega
  · omega
  · omega
  · exact h hp
  · exact h hq

/-- A key that `make` returns is that of two primes, the smaller one first. -/
theorem RsaPriv.make_spec {n1 n2 : ℤ} {key : RsaPriv} (h : RsaPriv.make n1 n2 = some key) :
    ∃ p q : ℕ, p.Prime ∧ q.Prime ∧ p < q ∧ key = rsaKey p q ∧
      (n1 = p ∧ n2 = q ∨ n1 = q ∧ n2 = p) := by
  unfold RsaPriv.make at h
  split_ifs at h with hbad hlt
  · push Not at hbad
    obtain ⟨-, h1, h2, hp, hq⟩ := hbad
    have e1 : (n1.toNat : ℤ) = n1 := toNat_of_nonneg (by omega)
    have e2 : (n2.toNat : ℤ) = n2 := toNat_of_nonneg (by omega)
    have hpq : n1.toNat < n2.toNat := by omega
    rw [← e1, ← e2, RsaPriv.new_eq_rsaKey hp hpq] at h
    exact ⟨_, _, hp, hq, hpq, (some.inj h).symm, .inl ⟨e1.symm, e2.symm⟩⟩
  · push Not at hbad
    obtain ⟨hne, h1, h2, hp, hq⟩ := hbad
    have e1 : (n1.toNat : ℤ) = n1 := toNat_of_nonneg (by omega)
    have e2 : (n2.toNat : ℤ) = n2 := toNat_of_nonneg (by omega)
    have hqp : n2.toNat < n1.toNat := by omega
    rw [← e1, ← e2, RsaPriv.new_eq_rsaKey hq hqp] at h
    exact ⟨_, _, hq, hp, hqp, (some.inj h).symm, .inr ⟨e1.symm, e2.symm⟩⟩

end Keys

section Decryption

variable {p q : ℕ}

/-- Decryption finds the number with the right residues below the product of the primes. -/
theorem RsaPriv.decrypt_spec (hp : p.Prime) (hq : q.Prime) (hpq : p < q) (c : ℤ) :
    ∃ m, (rsaKey p q).decrypt c = some m ∧ 0 ≤ m ∧ m < p * q ∧
      m ≡ c ^ (rsaExp p q % (p - 1)).toNat [ZMOD p] ∧
      m ≡ c ^ (rsaExp p q % (q - 1)).toNat [ZMOD q] := by
  have hp1 : 1 < p := by exact_mod_cast hp.one_lt
  have hcop : Int.gcd p q = 1 := (Nat.coprime_primes hp hq).mpr hpq.ne
  set mp := c ^ (rsaExp p q % (p - 1)).toNat % p with hmp
  set mq := c ^ (rsaExp p q % (q - 1)).toNat % q with hmq
  set v := (mq - mp) * (invert p q % q) % q with hv
  have hmp0 : 0 ≤ mp := emod_nonneg _ (by omega)
  have hmpp : mp < p := emod_lt_of_pos _ (by omega)
  have hv0 : 0 ≤ v := emod_nonneg _ (by omega)
  have hvq : v < q := emod_lt_of_pos _ (by omega)
  refine ⟨mp + p * v, ?_, by nlinarith, by nlinarith, ?_, ?_⟩
  · have hdp : powm c (rsaKey p q).dp (rsaKey p q).p = some mp :=
      powm_of_pos (by omega : (0 : ℤ) < p) (emod_nonneg _ (by omega))
    have hdq : powm c (rsaKey p q).dq (rsaKey p q).q = some mq :=
      powm_of_pos (by omega : (0 : ℤ) < q) (emod_nonneg _ (by omega))
    rw [RsaPriv.decrypt, hdp, hdq]
    rfl
  · calc mp + p * v ≡ mp [ZMOD p] := modEq_add_fac_self
      _ ≡ c ^ (rsaExp p q % (p - 1)).toNat [ZMOD p] := mod_modEq _ _
  · have hinv : p * (invert p q % q) ≡ 1 [ZMOD q] :=
      ((mod_modEq _ _).mul_left _).trans (mul_invert_modEq hcop)
    calc mp + p * v ≡ mp + p * ((mq - mp) * (invert p q % q)) [ZMOD q] :=
          Int.ModEq.rfl.add ((mod_modEq _ _).mul_left _)
      _ = mp + p * (invert p q % q) * (mq - mp) := by ring
      _ ≡ mp + 1 * (mq - mp) [ZMOD q] := Int.ModEq.rfl.add (hinv.mul_right _)
      _ = mq := by ring
      _ ≡ c ^ (rsaExp p q % (q - 1)).toNat [ZMOD q] := mod_modEq _ _

theorem gcd_three_phin (hp : p.Prime) (hq : q.Prime) :
    Int.gcd 3 (((p : ℤ) - 1) * (q - 1)) = 1 ↔ p % 3 ≠ 1 ∧ q % 3 ≠ 1 := by
  have hthree : ∀ {r : ℕ}, r.Prime → (3 ∣ (r : ℤ) - 1 ↔ r % 3 = 1) := by
    intro r hr
    omega
  have hprime : Prime (3 : ℤ) := prime_three
  rw [← isCoprime_iff_gcd_eq_one, hprime.irreducible.coprime_iff_not_dvd, hprime.dvd_mul,
    hthree hp, hthree hq, not_or]

/-- The private exponent undoes the public one modulo `r - 1`. -/
theorem pow_rsaExp (hinv : Int.gcd 3 (((p : ℤ) - 1) * (q - 1)) = 1) {r : ℕ} (hr : r.Prime)
    (hr2 : r ≠ 2) (hdvd : (r : ℤ) - 1 ∣ ((p : ℤ) - 1) * (q - 1)) (m : ℤ) :
    (m ^ 3) ^ (rsaExp p q % (r - 1)).toNat ≡ m [ZMOD r] := by
  have hr3 : 3 ≤ r := lt_of_le_of_ne hr.two_le (hr2.symm)
  have hd0 : 0 ≤ rsaExp p q % (r - 1) := emod_nonneg _ (by omega)
  have hexp : 3 * (rsaExp p q % (r - 1)) ≡ 1 [ZMOD r - 1] := by
    calc 3 * (rsaExp p q % (r - 1)) ≡ 3 * rsaExp p q [ZMOD r - 1] := (mod_modEq _ _).mul_left _
      _ ≡ 3 * invert 3 ((p - 1) * (q - 1)) [ZMOD r - 1] := ((mod_modEq _ _).mul_left _).of_dvd hdvd
      _ ≡ 1 [ZMOD r - 1] := (mul_invert_modEq hinv).of_dvd hdvd
  obtain ⟨d, hd⟩ := eq_ofNat_of_zero_le hd0
  rw [hd] at hexp ⊢
  have hcast : ((r - 1 : ℕ) : ℤ) = r - 1 := by push_cast [hr.one_le]; ring
  rw [← pow_mul]
  have hmod : 3 * d ≡ 1 [MOD r - 1] := by
    rw [← natCast_modEq_iff, hcast]
    exact_mod_cast hexp
  apply pow_modEq_self hr m _ hmod
  -- one is not a multiple of a number above one
  rcases Nat.eq_zero_or_pos d with rfl | hpos
  · have h1 : r - 1 ∣ 1 := (Nat.modEq_zero_iff_dvd).mp hmod.symm
    have := Nat.le_of_dvd Nat.one_pos h1
    omega
  · omega

/-- Without an inverse of the public exponent, or with the prime two, every number is raised
to the power zero modulo the smaller prime. -/
theorem rsaExp_emod_eq_zero (hp : p.Prime) (hq : q.Prime)
    (h : p = 2 ∨ ¬(p % 3 ≠ 1 ∧ q % 3 ≠ 1)) : rsaExp p q % ((p : ℤ) - 1) = 0 := by
  rcases h with rfl | h
  · exact emod_one _
  · rw [← gcd_three_phin hp hq] at h
    rw [rsaExp, invert, if_pos h]
    simp

end Decryption

section RoundTrip

variable {p q : ℕ}

theorem two_lt_two_pow_nbits (hp : p.Prime) (hpq : p < q) : (2 : ℤ) < 2 ^ (rsaKey p q).nbits := by
  have hfour : 4 ≤ p * q := by
    have := hp.two_le
    nlinarith
  have hlt := natAbs_lt_two_pow_nbits (p * q)
  rw [← Nat.cast_mul] at hlt
  have h3 : 2 < Rpc.nbits ((p * q : ℕ) : ℤ) := by
    by_contra hle
    have : 2 ^ Rpc.nbits ((p * q : ℕ) : ℤ) ≤ 2 ^ 2 := Nat.pow_le_pow_right (by decide) (by omega)
    omega
  calc (2 : ℤ) < 2 ^ 2 := by norm_num
    _ ≤ 2 ^ (Rpc.nbits ((p * q : ℕ) : ℤ) - 1) := pow_le_pow_right₀ (by norm_num) (by omega)

theorem RsaPub.encrypt_of_lt (hp : p.Prime) (hq : q.Prime) {m : ℤ} (h0 : 0 < m)
    (hm : m < 2 ^ (rsaKey p q).nbits) :
    (rsaKey p q).encrypt m = some (m ^ 3 % (p * q)) ∧ m < p * q := by
  have hpos : (0 : ℤ) < p * q := by
    have hp0 : (0 : ℤ) < p := by exact_mod_cast hp.pos
    have hq0 : (0 : ℤ) < q := by exact_mod_cast hq.pos
    exact mul_pos hp0 hq0
  obtain ⟨m, rfl⟩ := eq_ofNat_of_zero_le h0.le
  have hlt : m < 2 ^ (rsaKey p q).nbits := by exact_mod_cast hm
  have hbits : Rpc.nbits m ≤ (rsaKey p q).nbits := nbits_le (by simpa using hlt)
  refine ⟨?_, ?_⟩
  · have hpowm : powm m (rsaKey p q).e (rsaKey p q).n = some ((m : ℤ) ^ 3 % (p * q)) :=
      powm_of_pos hpos (by decide : (0 : ℤ) ≤ 3)
    rw [RsaPub.encrypt, if_neg (by omega), hpowm]
  · -- the number of bits of the modulus is one more
    have hn : (rsaKey p q).nbits = Rpc.nbits (p * q) - 1 := rfl
    have hlog : Rpc.nbits (p * q) - 1 = (p * q).log2 := by
      rw [Rpc.nbits, if_neg hpos.ne', Nat.add_sub_cancel, ← Nat.cast_mul, natAbs_natCast]
    have hne : p * q ≠ 0 := by exact_mod_cast hpos.ne'
    have hself : 2 ^ (p * q).log2 ≤ p * q := Nat.log2_self_le hne
    rw [hn, hlog] at hlt
    exact_mod_cast hlt.trans_le hself

theorem RsaPriv.decrypt_encrypt (hp : p.Prime) (hq : q.Prime) (hpq : p < q) (hp2 : p ≠ 2)
    (hp3 : p % 3 ≠ 1) (hq3 : q % 3 ≠ 1) {m : ℤ} (h0 : 0 < m) (hm : m < p * q) :
    (rsaKey p q).decrypt (m ^ 3 % (p * q)) = some m := by
  have hinv := (gcd_three_phin hp hq).mpr ⟨hp3, hq3⟩
  have hq2 : q ≠ 2 := by
    have := hp.two_le
    omega
  obtain ⟨m', hdec, h0', hlt', hmodp, hmodq⟩ := RsaPriv.decrypt_spec hp hq hpq (m ^ 3 % (p * q))
  have hcube : ∀ {r : ℤ}, r ∣ p * q → m ^ 3 % (p * q) ≡ m ^ 3 [ZMOD r] :=
    fun hr => (mod_modEq _ _).of_dvd hr
  have hp' : m' ≡ m [ZMOD p] := by
    calc m' ≡ (m ^ 3 % (p * q)) ^ (rsaExp p q % (p - 1)).toNat [ZMOD p] := hmodp
      _ ≡ (m ^ 3) ^ (rsaExp p q % (p - 1)).toNat [ZMOD p] := (hcube (Dvd.intro _ rfl)).pow _
      _ ≡ m [ZMOD p] := pow_rsaExp hinv hp hp2 (Dvd.intro _ rfl) m
  have hq' : m' ≡ m [ZMOD q] := by
    calc m' ≡ (m ^ 3 % (p * q)) ^ (rsaExp p q % (q - 1)).toNat [ZMOD q] := hmodq
      _ ≡ (m ^ 3) ^ (rsaExp p q % (q - 1)).toNat [ZMOD q] := (hcube (Dvd.intro_left _ rfl)).pow _
      _ ≡ m [ZMOD q] := pow_rsaExp hinv hq hq2 (Dvd.intro_left _ rfl) m
  have hcop : (p : ℤ).natAbs.Coprime (q : ℤ).natAbs := (Nat.coprime_primes hp hq).mpr hpq.ne
  have hboth : m' ≡ m [ZMOD p * q] := (modEq_and_modEq_iff_modEq_mul hcop).mp ⟨hp', hq'⟩
  rw [hdec, ← emod_eq_of_lt h0' hlt', hboth, emod_eq_of_lt h0.le hm]

/-- Decryption inverts encryption for exactly the pairs of primes that have no prime two and
none that is one more than a multiple of the public exponent. -/
theorem rsa_decrypt_encrypt {n1 n2 : ℤ} {key : RsaPriv} (h : RsaPriv.make n1 n2 = some key) :
    (∀ m, 0 < m → m < 2 ^ key.nbits → (key.encrypt m).bind key.decrypt = some m) ↔
      (n1 ≠ 2 ∧ n2 ≠ 2) ∧ n1 % 3 ≠ 1 ∧ n2 % 3 ≠ 1 := by
  obtain ⟨p, q, hp, hq, hpq, rfl, hn⟩ := RsaPriv.make_spec h
  have hcond : ((n1 ≠ 2 ∧ n2 ≠ 2) ∧ n1 % 3 ≠ 1 ∧ n2 % 3 ≠ 1) ↔
      p ≠ 2 ∧ p % 3 ≠ 1 ∧ q % 3 ≠ 1 := by
    have := hp.two_le
    omega
  rw [hcond]
  constructor
  · -- two is not decrypted to itself: its residue modulo the smaller prime would be one
    intro hall
    by_contra hbad
    have hzero : rsaExp p q % (p - 1) = 0 := by
      apply rsaExp_emod_eq_zero hp hq
      tauto
    have htwo := two_lt_two_pow_nbits hp hpq
    obtain ⟨henc, -⟩ := RsaPub.encrypt_of_lt hp hq (by norm_num : (0 : ℤ) < 2) htwo
    obtain ⟨m, hdec, -, -, hmod, -⟩ := RsaPriv.decrypt_spec hp hq hpq (2 ^ 3 % (p * q))
    have h2 := hall 2 (by norm_num) htwo
    rw [henc, bind_some, hdec] at h2
    rw [some.inj h2, hzero] at hmod
    have hone : (p : ℤ) ∣ 1 := by simpa using hmod.symm.dvd
    exact hp.one_lt.ne' (Nat.dvd_one.mp (by exact_mod_cast hone))
  · rintro ⟨hp2, hp3, hq3⟩ m h0 hm
    obtain ⟨henc, hlt⟩ := RsaPub.encrypt_of_lt hp hq h0 hm
    rw [henc]
    exact RsaPriv.decrypt_encrypt hp hq hpq hp2 hp3 hq3 h0 hlt

/-- The primes five and eleven. -/
theorem rsa_decrypt_encrypt_five_eleven :
    ∃ key, RsaPriv.make 5 11 = some key ∧
      ((∀ m, 0 < m → m < 2 ^ key.nbits → (key.encrypt m).bind key.decrypt = some m) ↔
        ((5 : ℤ) ≠ 2 ∧ (11 : ℤ) ≠ 2) ∧ (5 : ℤ) % 3 ≠ 1 ∧ (11 : ℤ) % 3 ≠ 1) := by
  have hmake : RsaPriv.make 5 11 = some (rsaKey 5 11) :=
    RsaPriv.make_of_prime (by norm_num) (by norm_num) (by norm_num)
  exact ⟨_, hmake, rsa_decrypt_encrypt hmake⟩

/-- A key from the primes seven and eleven decrypts every number to one. -/
theorem rsa_decrypts_wrongly :
    ¬ ∀ n1 n2 key, RsaPriv.make n1 n2 = some key →
      ∀ m, 0 < m → m < 2 ^ key.nbits → (key.encrypt m).bind key.decrypt = some m := by
  intro hall
  have hmake : RsaPriv.make 7 11 = some (rsaKey 7 11) :=
    RsaPriv.make_of_prime (by norm_num) (by norm_num) (by norm_num)
  have htwo := hall 7 11 _ hmake 2 (by decide) (by decide +kernel)
  have hone : ((rsaKey 7 11).encrypt 2).bind (rsaKey 7 11).decrypt = some 1 := by
    decide +kernel
  rw [hone] at htwo
  exact absurd htwo (by decide)

end RoundTrip

end SelfCertifyingFS.Crypt
