import Sfs.Crypt.Rabin
import Sfs.Rpc.SfsAuthProt

/-!
# Key objects

`sfscrypt` of `sfsmisc/sfscrypt.C` turns the encoded public key of a peer into an object
with methods, through one allocator for each key type. An allocator may return no object,
and an object may refuse a use by an assertion. The oracles and random bits of the
padding in `crypt/pad.C` are parameters.
-/

namespace SelfCertifyingFS.Crypt

open Foundations Rpc

/-- How the program can end. -/
inductive Crash
  | nullPointer
  | assertion
  | freedMemory
  | division
  deriving DecidableEq, Repr

/-- `SFS_ENCRYPT`, `SFS_VERIFY`, `SFS_DECRYPT` and `SFS_SIGN`. -/
structure KeyOpts where
  encrypt : Bool
  verify : Bool
  decrypt : Bool
  sign : Bool
  deriving DecidableEq, Repr

def KeyOpts.encryptOnly : KeyOpts := ⟨true, false, false, false⟩

section Padding

/-- What `pre_encrypt` and `post_decrypt` compute with the oracles and the bits drawn. -/
structure Padding where
  oaep : Bytes → ℕ → ℕ
  unpad : ℤ → ℕ → ℕ → Option Bytes

variable (pad : Padding)

def encZbytes : ℕ := 16

def encMinpad : ℕ := 16

def preEncrypt (msg : Bytes) (nbits : ℕ) : ℤ :=
  if msg.length + encZbytes + encMinpad > nbits / 8 then 0 else pad.oaep msg nbits

def postDecrypt (m : ℤ) (msglen nbits : ℕ) : Option Bytes :=
  if msglen + encZbytes + encMinpad > nbits / 8 then none else pad.unpad m msglen nbits

/-- `rabin_pub::encrypt`; zero if it fails. -/
def rabinEncrypt (n : ℤ) (msg : Bytes) : ℤ :=
  let m := preEncrypt pad msg (nbits n - 5)
  if m = 0 then 0
  else
    match rabinE1 n m with
    | none => 0
    | some m => rabinE2 n m

/-- `rabin_priv::decrypt`, for the random number of `D2`. -/
def rabinDecrypt (key : RabinPriv) (rnd ct : ℤ) (msglen : ℕ) : Except Crash (Option Bytes) :=
  match key.decrypts rnd ct with
  | none => .error .division
  | some m => .ok (postDecrypt pad m msglen (nbits key.n - 5))

end Padding

/-- The field `type`. -/
def keytypeOf : SfsPubkey2 → SfsKeytype
  | .rabin _ => .rabin
  | .schnorr .. => .schnorr
  | .esign .. => .esign
  | .bare type _ => type

/-- The key systems behind an `sfspub`. -/
inductive PubBody
  | rabin (n : ℤ)
  | schnorr (p q g y : ℤ)
  | esign (n : ℤ) (k : UInt32)
  deriving DecidableEq, Repr

/-- `sfspub`. -/
structure SfsPub where
  body : PubBody
  opts : KeyOpts
  deriving DecidableEq, Repr

variable (k : SfsPubkey2) (o : KeyOpts)

/-- `sfs_rabin_alloc::alloc`; it asserts the key type. -/
def rabinAlloc : Except Crash (Option SfsPub) :=
  match k with
  | .rabin n => .ok (some ⟨.rabin n, o⟩)
  | _ => .error .assertion

/-- `sfs_schnorr_alloc::alloc`, also for the two private key types. The constructor of
`sfs_schnorr_pub` asserts that the key is not used to encrypt or decrypt. -/
def schnorrAlloc : Except Crash (Option SfsPub) :=
  match k with
  | .schnorr p q g y =>
    if o.encrypt || o.decrypt then .error .assertion else .ok (some ⟨.schnorr p q g y, o⟩)
  | _ => .ok none

/-- `sfs_esign_alloc::alloc`; it asserts the key type. -/
def esignAlloc : Except Crash (Option SfsPub) :=
  match k with
  | .esign n kk => if kk ≤ 4 then .ok none else .ok (some ⟨.esign n kk, o⟩)
  | _ => .error .assertion

/-- `xttab`, as the constructor of `sfscrypt_t` fills it. -/
def xttab : SfsKeytype → Option (SfsPubkey2 → KeyOpts → Except Crash (Option SfsPub))
  | .rabin => some rabinAlloc
  | .schnorr | .schnorr1 | .schnorr2 => some schnorrAlloc
  | .esign => some esignAlloc
  | .nokey | .unlisted _ _ => none

/-- `sfscrypt_t::alloc` of an `sfs_pubkey2`. -/
def sfscryptAlloc (k : SfsPubkey2) (o : KeyOpts) : Except Crash (Option SfsPub) :=
  match xttab (keytypeOf k) with
  | none => .ok none
  | some alloc => alloc k o

/-- `sfscrypt_t::alloc` of an `sfs_pubkey`. -/
def sfscryptAllocRabin (n : ℤ) (o : KeyOpts) : Option SfsPub := some ⟨.rabin n, o⟩

/-- Keys without a body, and Esign keys with a small exponent, have no object. -/
theorem sfscryptAlloc_bare {type : SfsKeytype} (void : type ∉ [.rabin, .schnorr, .esign])
    (o : KeyOpts) : sfscryptAlloc (.bare type void) o = .ok none := by
  cases type with
  | rabin | schnorr | esign => simp at void
  | nokey | schnorr1 | schnorr2 | unlisted => rfl

def sfsMinrsasize : ℕ := 768

def sfsMaxrsasize : ℕ := 24576

def sfsMindlogsize : ℕ := 768

def sfsMaxdlogsize : ℕ := 24576

def esignScale (x : ℕ) : ℕ := 3 * x / 2

/-- `sfspub::check_keysize`: what is wrong with the size. -/
def checkKeysize (nbits ll ul : ℕ) (l : String) : Option String :=
  if nbits > ul then
    some (l ++ " key is " ++ toString nbits ++ " bits but maximum allowed size is " ++
      toString ul ++ " bits")
  else if nbits < ll then
    some (l ++ " key is " ++ toString nbits ++ " bits but minimum allowed size is " ++
      toString ll ++ " bits")
  else none

/-- `sfs_schnorr_pub::check_keysize`. -/
def schnorrCheckKeysize (pbits qbits : ℕ) : Option String :=
  let qminsize := 100
  let qmaxsize := 300
  if qbits ≠ 0 ∧ qbits > qmaxsize then
    some ("2Schnorr q value is " ++ toString qbits ++ " bits but maximum allowed size is " ++
      toString qmaxsize ++ " bits")
  else if qbits ≠ 0 ∧ qbits < qminsize then
    some ("2Schnorr q value is " ++ toString qbits ++ " bits but minimum allowed size is " ++
      toString qminsize ++ " bits")
  else if pbits > sfsMaxdlogsize then
    some ("2Schnorr p value is " ++ toString pbits ++ " bits but maxiumum allowed size is " ++
      toString sfsMaxdlogsize ++ " bits")
  else if pbits < sfsMindlogsize then
    some ("2Schnorr p value is " ++ toString pbits ++ " bits but minimum allowed size is " ++
      toString sfsMindlogsize ++ " bits")
  else none

namespace SfsPub

/-- The method `check_keysize`. -/
def checkKeysize (pub : SfsPub) : Option String :=
  match pub.body with
  | .rabin n => Crypt.checkKeysize (nbits n) sfsMinrsasize sfsMaxrsasize "Rabin"
  | .schnorr p q _ _ => schnorrCheckKeysize (nbits p) (nbits q)
  | .esign n _ =>
    Crypt.checkKeysize (nbits n) (esignScale sfsMinrsasize) (esignScale sfsMaxrsasize) "Esign"

/-- Both methods `encrypt`: only Rabin keys can. -/
def encrypt (pad : Padding) (pub : SfsPub) (msg : Bytes) : Except Crash (Option ℤ) :=
  match pub.body with
  | .rabin n =>
    if !pub.opts.encrypt then .error .assertion
    else if rabinEncrypt pad n msg = 0 then .ok none
    else .ok (some (rabinEncrypt pad n msg))
  | .schnorr .. | .esign .. => .ok none

/-- An object that was made to encrypt never fails an assertion. -/
theorem encrypt_ok (pad : Padding) {pub : SfsPub} (h : pub.opts.encrypt = true) (msg : Bytes) :
    ∃ c, pub.encrypt pad msg = .ok c := by
  unfold encrypt
  cases pub.body with
  | rabin n =>
    simp only [h, Bool.not_true, Bool.false_eq_true, if_false]
    split_ifs
    · exact ⟨_, rfl⟩
    · exact ⟨_, rfl⟩
  | schnorr p q g y | esign n k => exact ⟨none, rfl⟩

end SfsPub

section PrivateKeys

/-- `sfspriv` of a server: a Rabin key, or one that only signs. -/
inductive SfsPriv
  | rabin (key : RabinPriv) (opts : KeyOpts)
  | esign
  deriving DecidableEq, Repr

namespace SfsPriv

variable (pad : Padding) (sk : SfsPriv) (rnd ct : ℤ) (sz : ℕ)

/-- `decrypt` of an `sfs_ctext`. -/
def decryptV1 : Except Crash (Option Bytes) :=
  match sk with
  | .rabin key opts =>
    if !opts.decrypt then .error .assertion
    else if ct = 0 then .ok none
    else rabinDecrypt pad key rnd ct sz
  | .esign => .ok none

/-- `decrypt` of an `sfs_ctext2`, which can only be of a Rabin key. -/
def decrypt : Except Crash (Option Bytes) :=
  match sk with
  | .rabin key _ => rabinDecrypt pad key rnd ct sz
  | .esign => .ok none

/-- What `alloc_priv` with `SFS_DECRYPT` makes. -/
def Loaded : SfsPriv → Prop
  | .rabin key opts => opts.decrypt = true ∧ ∃ p q, 1 < p ∧ RabinPriv.new p q = some key
  | .esign => True

end SfsPriv

abbrev ServerKey := {sk : SfsPriv // sk.Loaded}

theorem RabinPriv.decrypts_total {p q : ℤ} {key : RabinPriv} (hp : 1 < p)
    (hkey : RabinPriv.new p q = some key) (rnd ct : ℤ) : ∃ m, key.decrypts rnd ct = some m := by
  unfold RabinPriv.new at hkey
  split_ifs at hkey with hpq
  obtain rfl := Option.some.inj hkey
  have hk : 0 ≤ ((p - 1) * (q - 1) + 4).tdiv 8 := by
    apply Int.tdiv_nonneg
    · have := mul_nonneg (by omega : 0 ≤ p - 1) (by omega : 0 ≤ q - 1)
      omega
    · decide
  simp only [RabinPriv.decrypts, RabinPriv.D2]
  rw [powm_of_pos (by omega) (Int.tmod_nonneg _ hk), powm_of_pos (by omega) (Int.tmod_nonneg _ hk)]
  exact ⟨_, rfl⟩

variable (pad : Padding)

theorem SfsPriv.decryptV1_total {sk : SfsPriv} (h : sk.Loaded) (rnd ct : ℤ) (sz : ℕ) :
    ∃ r, sk.decryptV1 pad rnd ct sz = .ok r := by
  cases sk with
  | esign => exact ⟨none, rfl⟩
  | rabin key opts =>
    obtain ⟨hopt, p, q, hp, hkey⟩ := h
    obtain ⟨m, hm⟩ := RabinPriv.decrypts_total hp hkey rnd ct
    simp only [decryptV1, hopt, Bool.not_true, Bool.false_eq_true, if_false, rabinDecrypt, hm]
    split_ifs
    · exact ⟨none, rfl⟩
    · exact ⟨_, rfl⟩

theorem SfsPriv.decrypt_total {sk : SfsPriv} (h : sk.Loaded) (rnd ct : ℤ) (sz : ℕ) :
    ∃ r, sk.decrypt pad rnd ct sz = .ok r := by
  cases sk with
  | esign => exact ⟨none, rfl⟩
  | rabin key opts =>
    obtain ⟨-, p, q, hp, hkey⟩ := h
    obtain ⟨m, hm⟩ := RabinPriv.decrypts_total hp hkey rnd ct
    simp only [decrypt, rabinDecrypt, hm]
    exact ⟨_, rfl⟩

end PrivateKeys

end SelfCertifyingFS.Crypt
