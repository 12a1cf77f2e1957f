import Sfs.Crypt.SrpBase
import Sfs.Foundations.Residues
import Sfs.Foundations.Runs

/-!
# Two-party Schnorr signatures

The private key of `crypt/schnorr.C` is shared between a client and a server. The client sends
the public half of an ephemeral key; the server endorses the message with its share and an
ephemeral key pair of its own, and the client completes the endorsement. Anyone verifies the
outcome with the public key. Between signatures the two sides may move a number from one share
to the other.
-/

namespace SelfCertifyingFS.Crypt

section

open Foundations Rpc Int

/-- `schnorr_srv_priv`: the group, the public key and the server's share. -/
structure SchnorrSrvPriv where
  p : ℤ
  q : ℤ
  g : ℤ
  y : ℤ
  xSrv : ℤ
  deriving DecidableEq, Repr

def getraw (z : ℤ) : Bytes := twosBytes (rawsize z) z

/-- `bind_r_to_m`: the hash of a message and a group element, as a number with its low byte
first. -/
def bindRToM (sha1 : Bytes → FixedBytes 20) (m : Bytes) (r : ℤ) : ℤ :=
  beNat (sha1 (m ++ getraw r)).1.reverse

/-- `invert`; zero if there is no inverse. -/
def invert (a mod : ℤ) : ℤ :=
  if Int.gcd a mod ≠ 1 then 0
  else if Int.gcdA a mod < 0 then Int.gcdA a mod + mod
  else Int.gcdA a mod

/-- `endorse_signature`, for the random logarithm of the ephemeral key pair. It refuses what
is not in the group; a division by zero ends the program. -/
def SchnorrSrvPriv.endorseSignature (key : SchnorrSrvPriv) (sha1 : Bytes → FixedBytes 20)
    (kSrv : ℤ) (msg : Bytes) (rClnt : ℤ) : Option (Option (ℤ × ℤ)) :=
  (powm rClnt key.q key.p).bind fun one =>
    if one ≠ 1 then some none
    else
      (powm key.g kSrv key.p).bind fun rSrv =>
        if key.q = 0 then none
        else
          let r := (rClnt * rSrv).tmod key.p
          let e := bindRToM sha1 msg r
          let sSrv := (invert e key.q * kSrv).tmod key.q
          let sSrv := (sSrv + key.xSrv).tmod key.q
          some (some (rSrv, (sSrv * e).tmod key.q))

theorem tmod_modEq (a n : ℤ) : a.tmod n ≡ a [ZMOD n] := by
  rw [modEq_iff_dvd]
  exact ⟨a.tdiv n, by linarith [mul_tdiv_add_tmod a n]⟩

theorem mul_invert_modEq {a mod : ℤ} (h : Int.gcd a mod = 1) : a * invert a mod ≡ 1 [ZMOD mod] := by
  have hgcdA : a * Int.gcdA a mod ≡ 1 [ZMOD mod] := by
    have hbezout := gcd_eq_gcd_ab a mod
    rw [modEq_iff_dvd]
    exact ⟨Int.gcdB a mod, by linarith⟩
  unfold invert
  rw [if_neg (not_not.mpr h)]
  split_ifs
  · calc a * (Int.gcdA a mod + mod) = a * Int.gcdA a mod + mod * a := by ring
      _ ≡ a * Int.gcdA a mod [ZMOD mod] := modEq_add_fac_self
      _ ≡ 1 [ZMOD mod] := hgcdA
  · exact hgcdA

theorem invert_nonneg (a : ℤ) {mod : ℤ} (hmod : 0 < mod) : 0 ≤ invert a mod := by
  have hle := neg_le_of_abs_le (abs_intGcdA_le a hmod)
  unfold invert
  split_ifs
  · exact le_rfl
  · omega
  · omega

section Shares

variable {e q k x : ℤ}

/-- What either side adds to a signature: its ephemeral exponent and its share of the key. The
remainders are those of C. -/
def signatureShare (e q k x : ℤ) : ℤ := (((invert e q * k).tmod q + x).tmod q * e).tmod q

theorem signatureShare_modEq (h : Int.gcd e q = 1) :
    signatureShare e q k x ≡ k + x * e [ZMOD q] := by
  calc (((invert e q * k).tmod q + x).tmod q * e).tmod q
      ≡ ((invert e q * k).tmod q + x).tmod q * e [ZMOD q] := tmod_modEq _ _
    _ ≡ ((invert e q * k).tmod q + x) * e [ZMOD q] := (tmod_modEq _ _).mul_right e
    _ ≡ (invert e q * k + x) * e [ZMOD q] := ((tmod_modEq _ _).add_right _).mul_right e
    _ = e * invert e q * k + x * e := by ring
    _ ≡ 1 * k + x * e [ZMOD q] := ((mul_invert_modEq h).mul_right k).add_right _
    _ = k + x * e := by ring

theorem signatureShare_nonneg (hq : 0 < q) (he : 0 ≤ e) (hk : 0 ≤ k) (hx : 0 ≤ x) :
    0 ≤ signatureShare e q k x := by
  have hfirst : 0 ≤ (invert e q * k).tmod q := tmod_nonneg _ (mul_nonneg (invert_nonneg e hq) hk)
  exact tmod_nonneg _ (mul_nonneg (tmod_nonneg _ (by omega)) he)

end Shares

end

open Foundations Rpc Option Int

/-- `schnorr_pub`. -/
structure SchnorrPub where
  p : ℤ
  q : ℤ
  g : ℤ
  y : ℤ
  deriving DecidableEq, Repr

namespace SchnorrPub

variable (key : SchnorrPub)

def isGroupElem (elem : ℤ) : Option Bool :=
  (powm elem key.q key.p).map fun one => one = 1

def checkSignature (r s e yV : ℤ) : Option Bool :=
  (powm key.g s key.p).bind fun gs =>
    (powm yV e key.p).map fun ye => gs = (r * ye).tmod key.p

def verify (sha1 : Bytes → FixedBytes 20) (msg : Bytes) (r s : ℤ) :
    Option Bool :=
  (key.isGroupElem r).bind fun member =>
    if member ∧ s > 0 ∧ s < key.q then key.checkSignature r s (bindRToM sha1 msg r) key.y
    else some false

end SchnorrPub

/-- `schnorr_clnt_priv`. -/
structure SchnorrClntPriv extends SchnorrPub where
  xClnt : ℤ
  deriving DecidableEq, Repr

namespace SchnorrClntPriv

variable (key : SchnorrClntPriv)

/-- `complete_signature`: the signature and whether it is right, or nothing if the server sent
what is not in the group. -/
def completeSignature (sha1 : Bytes → FixedBytes 20) (msg : Bytes)
    (rClnt kClnt rSrv sSrv : ℤ) : Option (Option (ℤ × ℤ × Bool)) :=
  (key.isGroupElem rSrv).bind fun member =>
    if member then
      if key.q = 0 then none
      else
        let r := (rClnt * rSrv).tmod key.p
        let e := bindRToM sha1 msg r
        let sClnt := (invert e key.q * kClnt).tmod key.q
        let sClnt := (sClnt + key.xClnt).tmod key.q
        let sClnt := (sClnt * e).tmod key.q
        let s := (sClnt + sSrv).tmod key.q
        (key.checkSignature r s e key.y).map fun ok => some (r, s, ok)
    else some none

/-- `update`: the key with the new share, and the number that the share was changed by. It is
drawn at random (`rnd`) unless a positive one is given. -/
def update (deltap : Option ℤ) (rnd : ℕ) : Option (SchnorrClntPriv × ℤ) :=
  let delta :=
    match deltap with
    | some delta => if delta > 0 then some delta else randomZn key.q rnd
    | none => randomZn key.q rnd
  delta.bind fun delta =>
    if key.q = 0 then none
    else some ({ key with xClnt := (key.xClnt + key.q - delta).tmod key.q }, delta)

end SchnorrClntPriv

def SchnorrSrvPriv.update (key : SchnorrSrvPriv) (dlt : ℤ) : Option SchnorrSrvPriv :=
  if key.q = 0 then none else some { key with xSrv := (key.xSrv + dlt).tmod key.q }

/-- The two sides of a key. -/
structure SchnorrPair where
  clnt : SchnorrClntPriv
  srv : SchnorrSrvPriv
  deriving DecidableEq, Repr

namespace SchnorrPair

/-- A signature made by both sides with their ephemeral exponents. -/
def signature (pair : SchnorrPair) (sha1 : Bytes → FixedBytes 20) (msg : Bytes) (kClnt kSrv : ℤ) :
    Option (Option (ℤ × ℤ × Bool)) :=
  (powm pair.clnt.g kClnt pair.clnt.p).bind fun rClnt =>
    (pair.srv.endorseSignature sha1 kSrv msg rClnt).bind fun
      | none => some none
      | some (rSrv, sSrv) => pair.clnt.completeSignature sha1 msg rClnt kClnt rSrv sSrv

/-- Both sides change their shares by the same number. -/
def update (pair : SchnorrPair) (delta : ℤ) (rnd : ℕ) : Option SchnorrPair :=
  (pair.clnt.update (some delta) rnd).bind fun (clnt, delta) =>
    (pair.srv.update delta).map fun srv => ⟨clnt, srv⟩

/-- One update of a run; nothing follows on a division by zero. -/
def step (pair : Option SchnorrPair) (delta : ℤ) : Option SchnorrPair × Unit :=
  (pair.bind fun pair => pair.update delta 0, ())

end SchnorrPair

/-- A group in which the generator has the order `q`. -/
structure SchnorrGroup (p q g : ℤ) : Prop where
  modulus : 1 < p
  prime : q.toNat.Prime
  order : g ^ q.toNat ≡ 1 [ZMOD p]

/-- Both sides have the same public key, and their shares add up to its logarithm. -/
structure SchnorrPair.SharesKey (pair : SchnorrPair) : Prop where
  params : pair.srv.p = pair.clnt.p ∧ pair.srv.q = pair.clnt.q ∧ pair.srv.g = pair.clnt.g
  key : pair.clnt.y ≡
    pair.clnt.g ^ ((pair.clnt.xClnt + pair.srv.xSrv) % pair.clnt.q).toNat [ZMOD pair.clnt.p]

def SchnorrPair.NonnegShares (pair : SchnorrPair) : Prop :=
  0 ≤ pair.clnt.xClnt ∧ 0 ≤ pair.srv.xSrv

namespace SchnorrGroup

variable {p q g : ℤ}

theorem pos (h : SchnorrGroup p q g) : 0 < q := by
  have := h.prime.pos
  omega

/-- The generator has the same powers for exponents that are the same modulo the order. -/
theorem pow_congr (h : SchnorrGroup p q g) {a b : ℕ} (hab : (a : ℤ) ≡ b [ZMOD q]) :
    g ^ a ≡ g ^ b [ZMOD p] := by
  have hred : ∀ c, g ^ c ≡ g ^ (c % q.toNat) [ZMOD p] := by
    intro c
    calc g ^ c = (g ^ q.toNat) ^ (c / q.toNat) * g ^ (c % q.toNat) := by
          rw [← pow_mul, ← pow_add, Nat.div_add_mod]
      _ ≡ 1 ^ (c / q.toNat) * g ^ (c % q.toNat) [ZMOD p] := (h.order.pow _).mul_right _
      _ = g ^ (c % q.toNat) := by rw [one_pow, one_mul]
  have hq : q.toNat = q := toNat_of_nonneg h.pos.le
  have hmod : a % q.toNat = b % q.toNat := by
    rw [← hq] at hab
    exact (natCast_modEq_iff).mp hab
  exact (hred a).trans (hmod ▸ (hred b).symm)

theorem powm_order (h : SchnorrGroup p q g) {r : ℤ} {k : ℕ} (hr : r ≡ g ^ k [ZMOD p]) :
    powm r q p = some 1 := by
  have hp := h.modulus
  have hone : r ^ q.toNat ≡ 1 [ZMOD p] := by
    calc r ^ q.toNat ≡ (g ^ k) ^ q.toNat [ZMOD p] := hr.pow _
      _ = (g ^ q.toNat) ^ k := by rw [← pow_mul, ← pow_mul, mul_comm]
      _ ≡ 1 ^ k [ZMOD p] := h.order.pow k
      _ = 1 := one_pow k
  rw [powm_of_pos (by omega) h.pos.le, hone, emod_eq_of_lt (by norm_num) hp]

end SchnorrGroup

namespace SchnorrPair

variable {pair pair' : SchnorrPair}

/-- The sum of the shares does not change, and neither gets negative if not more is moved than
the share of the client and the order. -/
theorem update_spec (hq : 0 < pair.clnt.q) (hshares : pair.SharesKey) {delta : ℤ}
    (hdelta : 0 < delta) (rnd : ℕ) :
    ∃ pair', pair.update delta rnd = some pair' ∧ pair'.SharesKey ∧
      pair'.clnt.toSchnorrPub = pair.clnt.toSchnorrPub ∧
      (pair.NonnegShares → delta ≤ pair.clnt.xClnt + pair.clnt.q → pair'.NonnegShares) := by
  obtain ⟨⟨⟨_, _, _, y⟩, xClnt⟩, ⟨p, q, g, ySrv, xSrv⟩⟩ := pair
  obtain ⟨hparams, hkey⟩ := hshares
  dsimp only at hq hparams hkey ⊢
  obtain ⟨rfl, rfl, rfl⟩ := hparams
  refine ⟨⟨⟨⟨p, q, g, y⟩, (xClnt + q - delta).tmod q⟩, ⟨p, q, g, ySrv, (xSrv + delta).tmod q⟩⟩,
    ?_, ⟨⟨rfl, rfl, rfl⟩, ?_⟩, rfl, ?_⟩
  · rw [update, SchnorrClntPriv.update]
    dsimp only
    rw [if_pos hdelta, bind_some, if_neg hq.ne', bind_some, SchnorrSrvPriv.update, if_neg hq.ne']
    rfl
  · have hsum : (xClnt + q - delta).tmod q + (xSrv + delta).tmod q ≡ xClnt + xSrv [ZMOD q] := by
      calc (xClnt + q - delta).tmod q + (xSrv + delta).tmod q
          ≡ (xClnt + q - delta) + (xSrv + delta) [ZMOD q] := (tmod_modEq _ _).add (tmod_modEq _ _)
        _ = xClnt + xSrv + q * 1 := by ring
        _ ≡ xClnt + xSrv [ZMOD q] := modEq_add_fac_self
    rw [hsum]
    exact hkey
  · rintro ⟨hc, hs⟩ hle
    dsimp only at hc hs
    exact ⟨tmod_nonneg _ (by omega), tmod_nonneg _ (by omega)⟩

end SchnorrPair

section Signatures

theorem SchnorrPub.checkSignature_of_modEq {key : SchnorrPub}
    (hgroup : SchnorrGroup key.p key.q key.g) {r s e : ℤ} {k x : ℕ} (hr0 : 0 ≤ r)
    (hr : r ≡ key.g ^ k [ZMOD key.p]) (hy : key.y ≡ key.g ^ x [ZMOD key.p]) (hs0 : 0 ≤ s)
    (he0 : 0 ≤ e) (hs : s ≡ k + x * e [ZMOD key.q]) :
    key.checkSignature r s e key.y = some true := by
  have hp : 0 < key.p := by
    have := hgroup.modulus
    omega
  obtain ⟨s, rfl⟩ := eq_ofNat_of_zero_le hs0
  obtain ⟨e, rfl⟩ := eq_ofNat_of_zero_le he0
  have hgs : key.g ^ s ≡ r * (key.y ^ e % key.p) [ZMOD key.p] := by
    calc key.g ^ s ≡ key.g ^ (k + x * e) [ZMOD key.p] := hgroup.pow_congr (by exact hs)
      _ = key.g ^ k * (key.g ^ x) ^ e := by rw [pow_add, pow_mul]
      _ ≡ r * key.y ^ e [ZMOD key.p] := (hr.mul (hy.pow e)).symm
      _ ≡ r * (key.y ^ e % key.p) [ZMOD key.p] := (mod_modEq _ _).symm.mul_left r
  have hye0 : 0 ≤ key.y ^ e % key.p := emod_nonneg _ hp.ne'
  rw [SchnorrPub.checkSignature, powm_of_pos hp hs0, bind_some, powm_of_pos hp he0,
    map_some, toNat_natCast, toNat_natCast,
    tmod_eq_emod_of_nonneg (mul_nonneg hr0 hye0), ← hgs, decide_eq_true rfl]

theorem SchnorrPub.exists_checkSignature (key : SchnorrPub) (hp : 0 < key.p) (r : ℤ) {s e : ℤ}
    (hs0 : 0 ≤ s) (he0 : 0 ≤ e) : ∃ ok, key.checkSignature r s e key.y = some ok := by
  rw [SchnorrPub.checkSignature, powm_of_pos hp hs0, powm_of_pos hp he0]
  exact ⟨_, rfl⟩

variable {pair : SchnorrPair}

/-- With shares that are not negative both sides make a signature, and it is accepted unless
the hash or the signature is zero. -/
theorem SchnorrPair.signature_spec
    (hgroup : SchnorrGroup pair.clnt.p pair.clnt.q pair.clnt.g) (hshares : pair.SharesKey)
    (hnonneg : pair.NonnegShares) (sha1 : Bytes → FixedBytes 20) (msg : Bytes) (kClnt kSrv : ℕ) :
    ∃ r s ok, pair.signature sha1 msg kClnt kSrv = some (some (r, s, ok)) ∧
      (bindRToM sha1 msg r % pair.clnt.q ≠ 0 → s ≠ 0 →
        pair.clnt.verify sha1 msg r s = some true) := by
  obtain ⟨⟨⟨_, _, _, y⟩, xClnt⟩, ⟨p, q, g, ySrv, xSrv⟩⟩ := pair
  obtain ⟨hparams, hkey⟩ := hshares
  obtain ⟨hc0, hs0⟩ := hnonneg
  dsimp only at hgroup hparams hkey hc0 hs0 ⊢
  obtain ⟨rfl, rfl, rfl⟩ := hparams
  have hp : 0 < p := by
    have := hgroup.modulus
    omega
  have hq := hgroup.pos
  -- the ephemeral keys and what they are combined to
  set rClnt := g ^ kClnt % p with hrClnt
  set rSrv := g ^ kSrv % p with hrSrv
  set r := (rClnt * rSrv).tmod p with hr
  set e := bindRToM sha1 msg r with he
  have he0 : 0 ≤ e := natCast_nonneg _
  have hc : rClnt ≡ g ^ kClnt [ZMOD p] := mod_modEq _ _
  have hs : rSrv ≡ g ^ kSrv [ZMOD p] := mod_modEq _ _
  have hrpow : r ≡ g ^ (kClnt + kSrv) [ZMOD p] := by
    calc r ≡ rClnt * rSrv [ZMOD p] := tmod_modEq _ _
      _ ≡ g ^ kClnt * g ^ kSrv [ZMOD p] := hc.mul hs
      _ = g ^ (kClnt + kSrv) := (pow_add _ _ _).symm
  have hr0 : 0 ≤ r := by
    apply tmod_nonneg
    exact mul_nonneg (emod_nonneg _ hp.ne') (emod_nonneg _ hp.ne')
  -- the two shares of the signature
  set sSrv := signatureShare e q kSrv xSrv with hsSrv
  set sClnt := signatureShare e q kClnt xClnt with hsClnt
  have hsSrv0 : 0 ≤ sSrv := signatureShare_nonneg hq he0 (natCast_nonneg _) hs0
  have hsClnt0 : 0 ≤ sClnt := signatureShare_nonneg hq he0 (natCast_nonneg _) hc0
  set s := (sClnt + sSrv).tmod q with hsdef
  have hsum0 : 0 ≤ s := tmod_nonneg _ (by omega)
  have hlt : s < q := tmod_lt_of_pos _ hq
  have hclient : powm g kClnt p = some rClnt := powm_of_pos hp (natCast_nonneg _)
  have hserver : powm g kSrv p = some rSrv := powm_of_pos hp (natCast_nonneg _)
  have hendorse : SchnorrSrvPriv.endorseSignature ⟨p, q, g, ySrv, xSrv⟩ sha1 kSrv msg rClnt =
      some (some (rSrv, sSrv)) := by
    rw [SchnorrSrvPriv.endorseSignature, hgroup.powm_order hc, bind_some, hserver, bind_some,
      if_neg hq.ne']
    rfl
  obtain ⟨ok, hok⟩ := SchnorrPub.exists_checkSignature ⟨p, q, g, y⟩ hp r hsum0 he0
  refine ⟨r, s, ok, ?_, ?_⟩
  · rw [SchnorrPair.signature, hclient, bind_some, hendorse, bind_some]
    dsimp only
    rw [SchnorrClntPriv.completeSignature, SchnorrPub.isGroupElem, hgroup.powm_order hs,
      if_neg hq.ne']
    exact congrArg (Option.map fun ok => some (r, s, ok)) hok
  · intro hene hsne
    have hgcd : Int.gcd e q = 1 := by
      rw [Int.gcd_comm, ← isCoprime_iff_gcd_eq_one]
      have hprime : Prime q := by
        rw [← toNat_of_nonneg hq.le]
        exact Nat.prime_iff_prime_int.mp hgroup.prime
      rw [hprime.irreducible.coprime_iff_not_dvd]
      exact fun hdvd => hene (emod_eq_zero_of_dvd hdvd)
    set x := ((xClnt + xSrv) % q).toNat with hx
    have hxmod : x ≡ xClnt + xSrv [ZMOD q] := by
      rw [toNat_of_nonneg (emod_nonneg _ hq.ne')]
      exact mod_modEq _ _
    have hsmod : s ≡ (kClnt + kSrv) + x * e [ZMOD q] := by
      calc s ≡ sClnt + sSrv [ZMOD q] := tmod_modEq _ _
        _ ≡ (kClnt + xClnt * e) + (kSrv + xSrv * e) [ZMOD q] :=
            (signatureShare_modEq hgcd).add (signatureShare_modEq hgcd)
        _ = (kClnt + kSrv) + (xClnt + xSrv) * e := by ring
        _ ≡ (kClnt + kSrv) + x * e [ZMOD q] := Int.ModEq.rfl.add (hxmod.symm.mul_right e)
    rw [SchnorrPub.verify, SchnorrPub.isGroupElem, hgroup.powm_order hrpow, map_some,
      bind_some, if_pos ⟨by simp, by omega, hlt⟩]
    exact SchnorrPub.checkSignature_of_modEq hgroup hr0 hrpow hkey hsum0 he0 hsmod

/-- The client's share and the order bound the number that is moved. -/
def SchnorrPair.Moderate (r : Run (Option SchnorrPair) ℤ Unit) (delta : ℤ) : Prop :=
  0 < delta ∧ ∀ pair, r.state = some pair → delta ≤ pair.clnt.xClnt + pair.clnt.q

/-- What updates leave as it is: there are two keys, for the same public key, with shares of
its logarithm that are not negative. -/
def SchnorrPair.Kept (pub : SchnorrPub) (r : Run (Option SchnorrPair) ℤ Unit) : Prop :=
  ∃ pair, r.state = some pair ∧ pair.clnt.toSchnorrPub = pub ∧ pair.SharesKey ∧ pair.NonnegShares

theorem SchnorrPair.kept_next {pub : SchnorrPub} {r : Run (Option SchnorrPair) ℤ Unit} {delta : ℤ}
    (hq : 0 < pub.q) (h : Kept pub r) (hmoderate : Moderate r delta) :
    Kept pub (r.next step delta) := by
  obtain ⟨pair, hstate, rfl, hshares, hnonneg⟩ := h
  obtain ⟨hpos, hle⟩ := hmoderate
  obtain ⟨pair', hupdate, hshares', hpub, hnonneg'⟩ := update_spec hq hshares hpos 0
  refine ⟨pair', ?_, hpub, hshares', hnonneg' hnonneg (hle pair hstate)⟩
  rw [Run.next, hstate]
  exact hupdate

/-- However often the two sides update their shares, the signatures that they make together
are accepted, if no update moves more than the share of the client and the order. -/
theorem schnorr_signatures_verify
    (hgroup : SchnorrGroup pair.clnt.p pair.clnt.q pair.clnt.g) (hshares : pair.SharesKey)
    (hnonneg : pair.NonnegShares) {deltas : List ℤ}
    (hmoderate : Run.Guarded SchnorrPair.step SchnorrPair.Moderate (.start (some pair)) deltas) :
    ∃ pair', ((Run.start (some pair)).take SchnorrPair.step deltas).state = some pair' ∧
      pair'.clnt.toSchnorrPub = pair.clnt.toSchnorrPub ∧
      ∀ (sha1 : Bytes → FixedBytes 20) (msg : Bytes) (kClnt kSrv : ℕ),
        ∃ r s ok, pair'.signature sha1 msg kClnt kSrv = some (some (r, s, ok)) ∧
          (bindRToM sha1 msg r % pair.clnt.q ≠ 0 → s ≠ 0 →
            pair.clnt.verify sha1 msg r s = some true) := by
  have hstart : SchnorrPair.Kept pair.clnt.toSchnorrPub (.start (some pair)) :=
    ⟨pair, rfl, rfl, hshares, hnonneg⟩
  obtain ⟨pair', hstate, hpub, hshares', hnonneg'⟩ :=
    Run.invariant_take hstart (fun _ _ => SchnorrPair.kept_next hgroup.pos) hmoderate
  refine ⟨pair', hstate, hpub, ?_⟩
  have hgroup' : SchnorrGroup pair'.clnt.p pair'.clnt.q pair'.clnt.g := by
    rw [hpub]
    exact hgroup
  have hsign := SchnorrPair.signature_spec hgroup' hshares' hnonneg'
  rw [hpub] at hsign
  exact hsign

end Signatures

/-- A small group, with the key `2 ^ 7`. -/
def smallPair : SchnorrPair where
  clnt := { p := 23, q := 11, g := 2, y := 13, xClnt := 3 }
  srv := { p := 23, q := 11, g := 2, y := 13, xSrv := 4 }

theorem smallPair_group : SchnorrGroup 23 11 2 := ⟨by decide, Nat.prime_eleven, by decide⟩

theorem smallPair_sharesKey : smallPair.SharesKey := ⟨by decide, by decide⟩

theorem schnorr_signatures_verify_small :
    ∃ pair', ((Run.start (some smallPair)).take SchnorrPair.step [5, 14]).state = some pair' ∧
      pair'.clnt.toSchnorrPub = smallPair.clnt.toSchnorrPub ∧
      ∀ (sha1 : Bytes → FixedBytes 20) (msg : Bytes) (kClnt kSrv : ℕ),
        ∃ r s ok, pair'.signature sha1 msg kClnt kSrv = some (some (r, s, ok)) ∧
          (bindRToM sha1 msg r % 11 ≠ 0 → s ≠ 0 →
            smallPair.clnt.verify sha1 msg r s = some true) := by
  have hmoderate : Run.Guarded SchnorrPair.step SchnorrPair.Moderate (.start (some smallPair))
      [5, 14] := by
    refine ⟨⟨by decide, ?_⟩, ⟨by decide, ?_⟩, trivial⟩
    · rintro pair hpair
      obtain rfl : smallPair = pair := some.inj hpair
      decide
    · rintro pair hpair
      have hstep : SchnorrPair.step (some smallPair) 5 =
          (some ⟨{ smallPair.clnt with xClnt := 9 }, { smallPair.srv with xSrv := 9 }⟩, ()) := by
        decide
      obtain rfl := some.inj ((congrArg Prod.fst hstep).symm.trans hpair)
      decide
  exact schnorr_signatures_verify smallPair_group smallPair_sharesKey ⟨by decide, by decide⟩
    hmoderate

def hashOne : Bytes → FixedBytes 20 := fun _ => ⟨1 :: List.replicate 19 0, rfl⟩

/-- After an update by more than the client's share and the order, the client completes a
signature with a negative number, which is rejected. -/
theorem schnorr_signature_rejected :
    ¬ ∀ (pair : SchnorrPair), SchnorrGroup pair.clnt.p pair.clnt.q pair.clnt.g →
      pair.SharesKey → pair.NonnegShares → ∀ deltas : List ℤ, (∀ delta ∈ deltas, 0 < delta) →
      ∀ pair', ((Run.start (some pair)).take SchnorrPair.step deltas).state = some pair' →
      ∀ (sha1 : Bytes → FixedBytes 20) (msg : Bytes) (kClnt kSrv : ℕ) (r s : ℤ) (ok : Bool),
        pair'.signature sha1 msg kClnt kSrv = some (some (r, s, ok)) →
        bindRToM sha1 msg r % pair.clnt.q ≠ 0 → s ≠ 0 →
          pair.clnt.verify sha1 msg r s = some true := by
  intro hall
  have hverify := hall smallPair smallPair_group smallPair_sharesKey ⟨by decide, by decide⟩ [100]
    (by decide) ⟨{ smallPair.clnt with xClnt := -9 }, { smallPair.srv with xSrv := 5 }⟩
    (by decide) hashOne [] 1 1 4 (-2) true (by decide +kernel) (by decide +kernel) (by decide)
  exact absurd hverify (by decide +kernel)

end SelfCertifyingFS.Crypt
