import Sfs.Crypt.Schnorr

/-!
# Paillier encryption

`paillier_pub` and `paillier_priv` of `crypt/paillier.C` on numbers, with the
precomputed values for decryption modulo either prime. A fast key has a basis of
small order; a slow one has the basis two. Products of ciphertexts encrypt sums of
plaintexts, and powers encrypt multiples.
-/

namespace SelfCertifyingFS.Crypt

open Foundations Rpc Int

/-- `paillier_pub`. -/
structure PaillierPub where
  n : ℤ
  g : ℤ
  fast : Bool
  nsq : ℤ
  gn : ℤ
  deriving DecidableEq, Repr

namespace PaillierPub

/-- Both constructors and `init`. A key is fast if a basis is given. -/
def new (nn : ℤ) (gg : Option ℤ) : Option PaillierPub :=
  if nbits nn = 0 then none
  else
    match gg with
    | none => some ⟨nn, 2, false, nn * nn, 0⟩
    | some g => (powm g nn (nn * nn)).map fun gn => ⟨nn, g, true, nn * nn, gn⟩

variable (key : PaillierPub)

/-- `encrypt`, for the first random number `r` that is not zero. Nothing is encrypted if the
message is too large. -/
def encrypt (msg r : ℤ) : Option (Option ℤ) :=
  if msg ≥ key.n then some none
  else
    (if key.fast then powm key.gn r key.nsq else powm r key.n key.nsq).bind fun m =>
      (powm key.g msg key.nsq).map fun gm => some ((m * gm).tmod key.nsq)

def add (msg1 msg2 : ℤ) : ℤ := (msg1 * msg2).tmod key.nsq

def mult (msg cons : ℤ) : Option ℤ := powm msg cons key.nsq

end PaillierPub

/-- `paillier_priv`. -/
structure PaillierPriv extends PaillierPub where
  p : ℤ
  q : ℤ
  a : ℤ
  p1 : ℤ
  q1 : ℤ
  psq : ℤ
  qsq : ℤ
  rp : ℤ
  rq : ℤ
  twoP : ℤ
  twoQ : ℤ
  lp : ℤ
  lq : ℤ
  hp : ℤ
  hq : ℤ
  deriving DecidableEq, Repr

/-- One less, divided by a prime: a multiplication by the inverse of the prime modulo a power
of two. -/
def paillierL (l two x : ℤ) : ℤ := ((x - 1) * l).tmod two

namespace PaillierPriv

def init (pub : PaillierPub) (p q a : ℤ) : Option PaillierPriv :=
  if p < q then
    let twoP := 2 ^ nbits p
    let twoQ := 2 ^ nbits q
    let lp := invert p twoP
    let lq := invert q twoQ
    (powm pub.g (if pub.fast then a else p - 1) (p * p)).bind fun hp =>
      (powm pub.g (if pub.fast then a else q - 1) (q * q)).map fun hq =>
        { toPaillierPub := pub
          p := p
          q := q
          a := a
          p1 := p - 1
          q1 := q - 1
          psq := p * p
          qsq := q * q
          rp := invert q p
          rq := invert p q
          twoP := twoP
          twoQ := twoQ
          lp := lp
          lq := lq
          hp := invert (paillierL lp twoP hp) p
          hq := invert (paillierL lq twoQ hq) q }
  else none

def newFast (pp qq aa gg : ℤ) (nn : Option ℤ) : Option PaillierPriv :=
  (PaillierPub.new (nn.getD (pp * qq)) (some gg)).bind fun pub => init pub pp qq aa

def newSlow (pp qq : ℤ) (nn : Option ℤ) : Option PaillierPriv :=
  (PaillierPub.new (nn.getD (pp * qq)) none).bind fun pub => init pub pp qq 0

def crt (key : PaillierPriv) (mp mq : ℤ) : ℤ :=
  let mp := (mp * key.rp * key.q).tmod key.n
  let mq := (mq * key.rq * key.p).tmod key.n
  let mp := mp + mq
  if mp ≥ key.n then mp - key.n else mp

/-- `D`. What the result held before is reduced as well, and then overwritten. -/
def D (key : PaillierPriv) (msg : ℤ) : Option ℤ :=
  (powm msg (if key.fast then key.a else key.q1) key.qsq).bind fun mq =>
    let mq := paillierL key.lq key.twoQ mq
    let mq := (mq * key.hq).tmod key.q
    (powm msg (if key.fast then key.a else key.p1) key.psq).map fun m =>
      let m := paillierL key.lp key.twoP m
      let m := m.tmod key.p
      let m := (m * key.hp).tmod key.p
      key.crt m mq

end PaillierPriv

/-- `paillier_gen`: the basis of a fast key. It stops the program if the order `a` does not
divide that of the group. -/
def paillierGen (p q n a : ℤ) : Option ℤ :=
  let p1 := p - 1
  let q1 := q - 1
  let k := (p1 * q1).tdiv (Int.gcd p1 q1)
  if ¬ p.toNat.Prime ∨ ¬ q.toNat.Prime ∨ ¬ a.toNat.Prime then none
  else if k.tmod a ≠ 0 then none
  else powm 2 (k.tdiv a) n

namespace PaillierPriv

/-- `make` for a slow key, with an exact test for primes. -/
def makeSlow (p q : ℤ) : Option PaillierPriv :=
  if p = q ∨ p ≤ 1 ∨ q ≤ 1 ∨ ¬ p.toNat.Prime ∨ ¬ q.toNat.Prime then none
  else if p < q then newSlow p q none else newSlow q p none

/-- `make` for a fast key. -/
def makeFast (p q a : ℤ) : Option PaillierPriv :=
  if p = q ∨ p ≤ 1 ∨ q ≤ 1 ∨ ¬ p.toNat.Prime ∨ ¬ q.toNat.Prime ∨ ¬ a.toNat.Prime then none
  else
    (paillierGen p q (p * q) a).bind fun g =>
      if p < q then newFast p q a g (some (p * q)) else newFast q p a g (some (p * q))

end PaillierPriv

/-- What can be computed from messages with the public key alone. -/
inductive Homomorphic
  | encrypt (msg r : ℤ)
  | add (x y : Homomorphic)
  | mult (x : Homomorphic) (cons : ℤ)

namespace Homomorphic

def ciphertext (key : PaillierPub) : Homomorphic → Option ℤ
  | encrypt msg r => (key.encrypt msg r).bind id
  | add x y => (ciphertext key x).bind fun c => (ciphertext key y).map fun d => key.add c d
  | mult x cons => (ciphertext key x).bind fun c => key.mult c cons

def plaintext (n : ℤ) : Homomorphic → ℤ
  | encrypt msg _ => msg
  | add x y => (plaintext n x + plaintext n y) % n
  | mult x cons => cons * plaintext n x % n

/-- Messages are in range, and random numbers are coprime to the modulus. -/
def Proper (n : ℤ) : Homomorphic → Prop
  | encrypt msg r => (0 ≤ msg ∧ msg < n) ∧ (0 < r ∧ r < n) ∧ IsCoprime r n
  | add x y => Proper n x ∧ Proper n y
  | mult x _ => Proper n x

end Homomorphic

section Halves

variable {l : ℕ} {e : ℕ} {g c m : ℤ}

/-- The value that `init` inverts for the prime `l`. -/
def basisLog (l : ℕ) (e : ℕ) (g : ℤ) : ℤ :=
  paillierL (invert l (2 ^ nbits l)) (2 ^ nbits l) (g ^ e % (l * l))

theorem lt_two_pow_nbits (l : ℕ) : (l : ℤ) < 2 ^ nbits (l : ℤ) := by
  have h := natAbs_lt_two_pow_nbits l
  exact_mod_cast h

/-- The quotient is exact for an odd prime and numbers that are one modulo it. -/
theorem paillierL_spec (hl : l.Prime) (hl2 : l ≠ 2) {x : ℤ} (hx : x ≡ 1 [ZMOD l]) (hx0 : 0 ≤ x)
    (hxl : x < l * l) :
    0 ≤ paillierL (invert l (2 ^ nbits l)) (2 ^ nbits l) x ∧
      x = 1 + l * paillierL (invert l (2 ^ nbits l)) (2 ^ nbits l) x := by
  have hlpos : 1 < l := by exact_mod_cast hl.one_lt
  obtain ⟨y, hy⟩ := hx.symm.dvd
  have hy0 : 0 ≤ y := by
    nlinarith
  have hyl : y < l := by
    nlinarith
  have hcop : Int.gcd l (2 ^ nbits l) = 1 := by
    rw [← isCoprime_iff_gcd_eq_one]
    apply IsCoprime.pow_right
    exact_mod_cast Nat.isCoprime_iff_coprime.mpr ((Nat.coprime_primes hl Nat.prime_two).mpr hl2)
  have hquot : paillierL (invert l (2 ^ nbits l)) (2 ^ nbits l) x = y := by
    have htwo : (0 : ℤ) < 2 ^ nbits l := by positivity
    have hinv0 := invert_nonneg l htwo
    rw [paillierL, hy, tmod_eq_emod_of_nonneg (by positivity)]
    exact mul_inverse_emod (mul_invert_modEq hcop) hy0 (hyl.trans (lt_two_pow_nbits l))
  rw [hquot]
  exact ⟨hy0, by linarith⟩

/-- No power of a basis has a quotient that can be inverted modulo two. -/
theorem ne_two_of_gcd_basisLog (h : Int.gcd (basisLog l e g) l = 1) : l ≠ 2 := by
  rintro rfl
  have hinv : invert (2 : ℕ) (2 ^ nbits (2 : ℕ)) = 0 := by decide
  rw [basisLog, hinv, paillierL, mul_zero] at h
  exact absurd h (by decide)

/-- The power `e` of `c`, reduced modulo the square and divided by `l`, is the multiple of the
logarithm. -/
theorem paillierL_of_hasLog (hl : l.Prime) (hl2 : l ≠ 2) {t : ℤ} (hc : HasLog l e t c m) :
    0 ≤ paillierL (invert l (2 ^ nbits l)) (2 ^ nbits l) (c ^ e % (l * l)) ∧
      paillierL (invert l (2 ^ nbits l)) (2 ^ nbits l) (c ^ e % (l * l)) ≡ m * t [ZMOD l] := by
  have hlpos : (0 : ℤ) < l := by exact_mod_cast hl.pos
  have hsq : (0 : ℤ) < l * l := mul_pos hlpos hlpos
  have hone : c ^ e % (l * l) ≡ 1 [ZMOD l] := by
    calc c ^ e % (l * l) ≡ c ^ e [ZMOD l] := (mod_modEq _ _).of_dvd (Dvd.intro _ rfl)
      _ ≡ 1 + l * (m * t) [ZMOD l] := Int.ModEq.of_dvd (Dvd.intro _ rfl) hc
      _ ≡ 1 [ZMOD l] := modEq_add_fac_self
  obtain ⟨h0, heq⟩ := paillierL_spec hl hl2 hone (emod_nonneg _ hsq.ne') (emod_lt_of_pos _ hsq)
  refine ⟨h0, ?_⟩
  set y := paillierL (invert l (2 ^ nbits l)) (2 ^ nbits l) (c ^ e % (l * l))
  have hmul : l * y ≡ l * (m * t) [ZMOD l * l] := by
    have hsum : 1 + l * y ≡ 1 + l * (m * t) [ZMOD l * l] := by
      rw [← heq]
      exact (mod_modEq _ _).trans hc
    exact Int.ModEq.add_left_cancel' 1 hsum
  exact Int.ModEq.mul_left_cancel' hlpos.ne' hmul

theorem hasLog_basis (hl : l.Prime) (hl2 : l ≠ 2) (hg : g ^ e ≡ 1 [ZMOD l]) :
    HasLog l e (basisLog l e g) g 1 := by
  have hsq : (0 : ℤ) < l * l := by
    have : (0 : ℤ) < l := by exact_mod_cast hl.pos
    exact mul_pos this this
  have hone : g ^ e % (l * l) ≡ 1 [ZMOD l] := ((mod_modEq _ _).of_dvd (Dvd.intro _ rfl)).trans hg
  obtain ⟨-, heq⟩ := paillierL_spec hl hl2 hone (emod_nonneg _ hsq.ne') (emod_lt_of_pos _ hsq)
  have hmod : g ^ e ≡ g ^ e % (l * l) [ZMOD l * l] := (mod_modEq _ _).symm
  rw [HasLog, one_mul]
  rw [heq] at hmod
  exact hmod

theorem half_spec (hl : l.Prime) (hinv : Int.gcd (basisLog l e g) l = 1)
    (hc : HasLog l e (basisLog l e g) c m) :
    let y := paillierL (invert l (2 ^ nbits l)) (2 ^ nbits l) (c ^ e % (l * l))
    (0 ≤ y ∧ 0 ≤ invert (basisLog l e g) l) ∧ y * invert (basisLog l e g) l ≡ m [ZMOD l] := by
  intro y
  have hlpos : (0 : ℤ) < l := by exact_mod_cast hl.pos
  obtain ⟨hy0, hy⟩ := paillierL_of_hasLog hl (ne_two_of_gcd_basisLog hinv) hc
  refine ⟨⟨hy0, invert_nonneg _ hlpos⟩, ?_⟩
  calc y * invert (basisLog l e g) l ≡ m * basisLog l e g * invert (basisLog l e g) l [ZMOD l] :=
        hy.mul_right _
    _ = basisLog l e g * invert (basisLog l e g) l * m := by ring
    _ ≡ 1 * m [ZMOD l] := (mul_invert_modEq hinv).mul_right m
    _ = m := one_mul m

/-- A number that is coprime to the prime loses its logarithm with the power `n`. -/
theorem hasLog_pow_modulus (hl : l.Prime) {t r : ℤ} (hr : IsCoprime r l) {n : ℕ} (hn : l ∣ n) :
    HasLog l (l - 1) t (r ^ n) 0 := by
  have hfermat : r ^ (l - 1) ≡ 1 [ZMOD l] := Int.ModEq.pow_card_sub_one_eq_one hl hr
  have hone : (r ^ (l - 1)) ^ n ≡ 1 [ZMOD l * l] :=
    pow_modEq_one_of_modEq_one hfermat (by exact_mod_cast hn)
  rw [HasLog, zero_mul, pow_right_comm]
  exact hone

end Halves

end SelfCertifyingFS.Crypt
