import Mathlib.Data.List.GetD
import Sfs.Rpc.SfsAuthProt

/-!
# Keys and user databases

Public keys are objects whose methods verify signatures (`sfspub` of `sfsmisc/sfscrypt.h`);
`sprivk_tab` counts the logins that hold the server's half of a two-party key. The databases
of `sfsauthd` (`dbfile` of `sfsauthd/sfsauthd.h`) may put a name in front of their users, map
their numbers, and stand for the password file of the host. Cursors (`sfsauthd/authdb.C`)
search them.
-/

namespace SelfCertifyingFS.Authd

section

open Foundations Rpc Function

/-- `sfspub`. A failed verification may come without a message. -/
structure Sfspub where
  verify : SfsSig2 → Bytes → Except (Option Bytes) Unit
  verifyR : ℤ → ℕ → Option Bytes
  exportPubkey : Option SfsPubkey2
  getPubkeyHash : Option SfsHash
  eqPubkey : SfsPubkey2 → Bool
  eqKeyhalf : SfsauthKeyhalf → Bool

/-- `sfscrypt`, which makes keys out of their encodings, and the hash function. -/
structure Sfscrypt where
  alloc : SfsPubkey2 → Option Sfspub
  allocRabin : ℤ → Option Sfspub
  sha1 : Bytes → SfsHash

namespace Sfscrypt

variable (c : Sfscrypt) (pk : SfsPubkey2) (sig : SfsSig2) (msg : Bytes)

def verify :
    Except (Option Bytes) Unit :=
  match c.alloc pk with
  | none => .error (some (ascii "Could not use public key to verify"))
  | some p => p.verify sig msg

def Accepts : Prop :=
  c.verify pk sig msg = .ok ()

def hashSprivk (k : Sfs2SchnorrPriv) : SfsHash := c.sha1 k.xdr

/-- `sfs_schnorr_pub::find`: the first key half whose public key has the hash. -/
def find (keys : List Sfs2SchnorrPriv) (h : SfsHash) : Option Sfs2SchnorrPriv :=
  keys.find? fun k => c.sha1 k.xdrPubkey = h

end Sfscrypt

def b2a32 (v : UInt8) : UInt8 := (ascii "abcdefghijkmnpqrstuvwxyz23456789").getD v.toNat 0

/-- `armor32`: five bits a character. -/
def armor32 : Bytes → Bytes
  | p0 :: p1 :: p2 :: p3 :: p4 :: rest =>
      [b2a32 (p0 >>> 3), b2a32 ((p0 &&& 0x7) <<< 2 ||| p1 >>> 6), b2a32 (p1 >>> 1 &&& 0x1f),
        b2a32 ((p1 &&& 0x1) <<< 4 ||| p2 >>> 4), b2a32 ((p2 &&& 0xf) <<< 1 ||| p3 >>> 7),
        b2a32 (p3 >>> 2 &&& 0x1f), b2a32 ((p3 &&& 0x3) <<< 3 ||| p4 >>> 5),
        b2a32 (p4 &&& 0x1f)] ++ armor32 rest
  | [p0, p1, p2, p3] =>
      [b2a32 (p0 >>> 3), b2a32 ((p0 &&& 0x7) <<< 2 ||| p1 >>> 6), b2a32 (p1 >>> 1 &&& 0x1f),
        b2a32 ((p1 &&& 0x1) <<< 4 ||| p2 >>> 4), b2a32 ((p2 &&& 0xf) <<< 1 ||| p3 >>> 7),
        b2a32 (p3 >>> 2 &&& 0x1f), b2a32 ((p3 &&& 0x3) <<< 3)]
  | [p0, p1, p2] =>
      [b2a32 (p0 >>> 3), b2a32 ((p0 &&& 0x7) <<< 2 ||| p1 >>> 6), b2a32 (p1 >>> 1 &&& 0x1f),
        b2a32 ((p1 &&& 0x1) <<< 4 ||| p2 >>> 4), b2a32 ((p2 &&& 0xf) <<< 1)]
  | [p0, p1] =>
      [b2a32 (p0 >>> 3), b2a32 ((p0 &&& 0x7) <<< 2 ||| p1 >>> 6), b2a32 (p1 >>> 1 &&& 0x1f),
        b2a32 ((p1 &&& 0x1) <<< 4)]
  | [p0] => [b2a32 (p0 >>> 3), b2a32 ((p0 &&& 0x7) <<< 2)]
  | [] => []

/-- `sprivk_t`. -/
structure Sprivk where
  refs : ℤ
  valid : Bool
  deriving DecidableEq, Repr

/-- `sprivk_tab_t`, from hashes of key halves to their entries. -/
abbrev SprivkTab := SfsHash → Option Sprivk

namespace SprivkTab

variable (t : SprivkTab)

def isValid (hv : SfsHash) : Bool :=
  match t hv with
  | none => false
  | some s => s.valid

def release (hv : SfsHash) : SprivkTab :=
  match t hv with
  | none => t
  | some s =>
      if s.refs - 1 = 0 then Function.update t hv none
      else Function.update t hv (some { s with refs := s.refs - 1 })

def invalidate (hv : SfsHash) : SprivkTab :=
  match t hv with
  | none => t
  | some s => release (Function.update t hv (some { s with valid := false })) hv

/-- `bind`; a key half that is entered again keeps its mark. -/
def bind (hv : SfsHash) : SprivkTab :=
  match t hv with
  | some s => Function.update t hv (some { s with refs := s.refs + 1 })
  | none => Function.update t hv (some ⟨1, true⟩)

end SprivkTab

end

open Foundations Rpc

def badid : UInt32 := 0xffffffff

/-- `idmap_range`, with what its constructor asserts. -/
structure IdmapRange where
  idMin : UInt32
  idMax : UInt32
  idOffset : UInt32
  ordered : idMin ≤ idMax
  noWrap : idMax = 0 ∨ idOffset = 0 ∨ idMax < idMax - 1 + idOffset

/-- The classes derived from `idmap`. -/
inductive Idmap
  | id
  | const (i : UInt32)
  | range (r : IdmapRange)

def Idmap.map : Idmap → UInt32 → UInt32
  | .id, i => i
  | .const c, _ => c
  | .range r, i => if i < r.idMin ∨ r.idMax ≤ i then badid else i + r.idOffset

def Idmap.unmap : Idmap → UInt32 → UInt32
  | .id, i => i
  | .const _, _ => badid
  | .range r, m => if m < r.idOffset ∨ r.idOffset + r.idMax ≤ m then badid else m - r.idOffset

/-- `dbfile`. The contents stand beside the answers of `open`, which may fail, and
of `update`, which may refuse a record. -/
structure Dbfile where
  records : List SfsauthDbrec
  readable : Bool
  lockable : Bool
  accepts : SfsauthDbrec → Bool
  namePrefix : Option Bytes
  uidmap : Idmap
  gidmap : Idmap
  grprange : Option IdmapRange
  defaultRefresh : ℕ
  defaultTimeout : ℕ
  defaultGroupquota : ℤ
  allowUpdate : Bool
  allowUnixPwd : Bool
  allowAdmin : Bool

/-- A text is put together from a beginning, the byte behind it, and the rest. -/
theorem append_cons_drop {p s : Bytes} {b : UInt8} (hlen : p.length < s.length)
    (hb : s.getD p.length 0 = b) (htake : s.take p.length = p) :
    p ++ b :: s.drop (p.length + 1) = s := by
  rw [List.getD_eq_getElem _ _ hlen] at hb
  calc p ++ b :: s.drop (p.length + 1) = s.take p.length ++ s.drop p.length := by
        rw [List.drop_eq_getElem_cons hlen, hb, htake]
    _ = s := List.take_append_drop _ _

namespace Dbfile

/-- `db->open`, for reading or with `AUDB_WRITE`. -/
def openDb (dbp : Dbfile) (writable : Bool) : Option (List SfsauthDbrec) :=
  if (if writable then dbp.lockable else dbp.readable) then some dbp.records else none

def slash : UInt8 := 0x2f

variable (dbp : Dbfile) (name : Bytes)

def stripPrefix : Option Bytes :=
  match dbp.namePrefix with
  | none => some name
  | some p =>
      if name.length ≤ p.length ∨ name.getD p.length 0 ≠ slash ∨ name.take p.length ≠ p then none
      else some (name.drop (p.length + 1))

/-- The name under which the users of a database are known outside it. -/
def qualify : Bytes :=
  match dbp.namePrefix with
  | none => name
  | some p => p ++ slash :: name

theorem qualify_of_stripPrefix {dbp : Dbfile} {name rest : Bytes}
    (h : dbp.stripPrefix name = some rest) : dbp.qualify rest = name := by
  unfold stripPrefix at h
  unfold qualify
  cases hp : dbp.namePrefix with
  | none =>
    rw [hp] at h
    exact (Option.some.inj h).symm
  | some p =>
    rw [hp] at h
    simp only [ite_eq_iff, reduceCtorEq, and_false, false_or, not_or, not_le, not_not,
      Option.some.injEq] at h
    obtain ⟨⟨hlen, hslash, htake⟩, rfl⟩ := h
    exact append_cons_drop hlen hslash htake

end Dbfile

/-- An entry of the password file. -/
structure Passwd where
  pwName : Bytes
  pwDir : Bytes
  pwShell : Bytes
  pwUid : UInt32
  pwGid : UInt32
  deriving DecidableEq, Repr

/-- What the host and the libraries provide: keys, the password file, which of its
accounts have expired, and the groups that the cache of symbolic groups finds for a list
of members, if the cache is in use. -/
structure Host extends Sfscrypt where
  getpwnam : Bytes → Option Passwd
  getpwuid : UInt32 → Option Passwd
  expired : Bytes → Bool
  findGroups : Option (List Bytes → List Bytes)

def comma : UInt8 := 0x2c

/-- `strstr`: the rest of the text from the first place where the pattern stands. -/
def strstr (pat : Bytes) : Bytes → Option Bytes
  | [] => if pat = [] then some [] else none
  | b :: s => if pat.isPrefixOf (b :: s) then some (b :: s) else strstr pat s

def toLower (b : UInt8) : UInt8 := if isUpper b then b + 0x20 else b

/-- Where the value of the `unix=` privilege starts. -/
def unixValue (p : Bytes) : Option Bytes :=
  if (p.take 5).map toLower = ascii "unix=" then some (p.drop 5)
  else (strstr (ascii ",unix=") p).map (·.drop 6)

/-- `unixpriv`: the account that a list of privileges names. -/
def unixpriv (p : Bytes) : Option Bytes :=
  (unixValue p).bind fun rest =>
    let val := rest.takeWhile (· ≠ comma)
    if val.length = 0 ∨ 31 < val.length then none
    else if val.all fun b => isDigit b || isLower b || isUpper b || b = 0x5f || b = 0x2e || b = 0x2d
    then some val
    else none

/-- What follows a privilege: the end of the text, or a comma. -/
def atPrivEnd (s : Bytes) : Bool := s = [] || s = [0x0a] || s.head? = some comma

/-- Try a pattern at the start of the text and after each comma. -/
def searchPriv {α : Type} (at? : Bytes → Option α) (privs : Bytes) : Option α :=
  (at? privs).or (privs.tails.findSome? fun
    | b :: s => if b = comma then at? s else none
    | [] => none)

/-- The pattern `(\A|,)admin(\Z|,)`. -/
def adminrx (privs : Bytes) : Bool :=
  (searchPriv (fun s => (lit (ascii "admin") s).bind fun r => if atPrivEnd r then some r else none)
    privs).isSome

/-- The digits of the pattern `(\A|,)groupquota=([0-9]+)(\Z|,)`. -/
def groupquotarx (privs : Bytes) : Option Bytes :=
  searchPriv (fun s => (lit (ascii "groupquota=") s).bind fun r =>
    (run1 isDigit r).bind fun (ds, e) => if atPrivEnd e then some ds else none) privs

/-- `convertint` on a string of digits: octal behind a zero, and at most the largest
64-bit integer, of which the low word is kept. -/
def convertint (ds : Bytes) : Option UInt32 :=
  let base : ℕ := if ds.head? = some 0x30 then 8 else 10
  if ds.all fun d => d.toNat - 0x30 < base then
    some (.ofNat (min (2 ^ 63 - 1) (ds.foldl (fun n d => base * n + (d.toNat - 0x30)) 0)))
  else none

end SelfCertifyingFS.Authd
