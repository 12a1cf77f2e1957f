import Sfs.Async.Convertint
import Sfs.Async.TextFields
import Sfs.Rpc.SfsAuthProt

/-!
# Records as text

The lines of the database files, as `sfsauthd/dbrec2str.C` writes and reads them. How a user
is written depends on the key types of the host and is a parameter.
-/

namespace SelfCertifyingFS.Authd

open Foundations Rpc Async

/-- `sfsauth_cacheentry` with all its fields. -/
@[ext] structure Cacheentry where
  key : Bytes
  values : List Bytes
  vers : UInt32
  refresh : UInt64
  timeout : UInt64
  lastUpdate : UInt64
  deriving DecidableEq

/-- `sfsauth_logentry` with all its fields. -/
@[ext] structure Logentry where
  vers : UInt32
  members : List Bytes
  more : Bool
  refresh : UInt64
  timeout : UInt64
  audit : Bytes
  deriving DecidableEq

@[ext] structure Revinfo where
  dbrev : UInt64
  dbid : FixedBytes 16
  deriving DecidableEq

/-- The arms of `sfsauth_dbrec` that have a text; the others carry nothing here. -/
inductive Dbrec
  | user (userinfo : SfsauthUserinfo)
  | group (groupinfo : SfsauthGroupinfo)
  | cacheentry (cacheentry : Cacheentry)
  | logentry (logentry : Logentry)
  | revinfo (revinfo : Revinfo)
  | other
  deriving DecidableEq

/-- `userinfo2str` and `str2userinfo`. -/
structure UserText where
  userinfo2str : SfsauthUserinfo → Option Bytes
  str2userinfo : Bytes → Option SfsauthUserinfo

def newline : UInt8 := 0x0a

def colon : UInt8 := 0x3a

def dollar : UInt8 := 0x24

def commaChar : UInt8 := 0x2c

def period : UInt8 := 0x2e

/-- The class `\w`. -/
def isWord (b : UInt8) : Bool := isDigit b || isLower b || isUpper b || b = 0x5f

/-- `[A-Za-z][\-\w\./]{0,31}`. -/
def namerx : Bytes → Bool
  | [] => false
  | c :: s => (isLower c || isUpper c) && s.length ≤ 31 &&
      s.all fun b => isWord b || b = 0x2d || b = 0x2e || b = 0x2f

def memberChar (b : UInt8) : Bool :=
  isWord b || b = commaChar || b = dollar || b = 0x40 || b = 0x2e || b = 0x2d

/-- `[ugp]=[\w,\$@\.\-]{0,255}`. -/
def memberbody : Bytes → Bool
  | c :: e :: s => (c = 0x75 || c = 0x67 || c = 0x70) && e = 0x3d && s.length ≤ 255 &&
      s.all memberChar
  | _ => false

/-- `[\-\+]?[ugp]=[\w,\$@\.\-]{0,255}`. -/
def memberrx : Bytes → Bool
  | 0x2d :: s | 0x2b :: s | s => memberbody s

def badChar (b : UInt8) : Bool := b < 0x20 || 0x7f ≤ b || b = colon

variable (s : Bytes)

def badcharrx : Bool := s.any badChar

def nobadrx : Bool := s.all fun b => !badChar b

/-- `single_char_sub` with a replacement of one character. -/
def singleCharSub (find repl : UInt8) : Bytes :=
  s.map fun b => if b = find then repl else b

def printmember (name : Bytes) : Option Bytes :=
  if memberrx name then some (singleCharSub name commaChar dollar) else none

def printlist (v : List Bytes) : Option Bytes := (v.mapM printmember).map (joinSep commaChar)

def groupinfo2str (gi : SfsauthGroupinfo) : Option Bytes :=
  let audit := singleCharSub gi.audit colon period
  if !namerx gi.name || badcharrx audit || !nobadrx gi.properties then none
  else do
    let owners ← printlist gi.owners
    let members ← printlist gi.members
    return gi.name ++ colon :: (decimal gi.id.toNat ++ colon :: (decimal gi.vers.toNat ++
      colon :: (owners ++ colon :: (members ++ colon :: (gi.properties ++ colon :: audit)))))

def cacheentry2str (ci : Cacheentry) : Option Bytes := do
  let values ← printlist ci.values
  return singleCharSub ci.key commaChar dollar ++ colon :: (values ++
    colon :: (decimal ci.vers.toNat ++ colon :: (decimal ci.refresh.toNat ++
      colon :: (decimal ci.timeout.toNat ++ colon :: decimal ci.lastUpdate.toNat))))

def logentry2str (li : Logentry) : Option Bytes := do
  let members ← printlist li.members
  return decimal li.vers.toNat ++ colon :: (members ++ colon :: singleCharSub li.audit colon period)

def authdbrec2str (U : UserText) : Dbrec → Option Bytes
  | .revinfo ri =>
    some (ascii "REVINFO:" ++ (hexdump ri.dbid.1 ++ colon :: decimal ri.dbrev.toNat))
  | .user ui => (U.userinfo2str ui).map (ascii "USER:" ++ ·)
  | .group gi => (groupinfo2str gi).map (ascii "GROUP:" ++ ·)
  | .cacheentry ci => (cacheentry2str ci).map (ascii "CACHE:" ++ ·)
  | .logentry li => (logentry2str li).map (ascii "LOG:" ++ ·)
  | .other => none

variable (s : Bytes)

def parsemember : Option Bytes :=
  if memberrx s then some (singleCharSub s dollar commaChar) else none

/-- `parselist`: an empty first and last field are dropped. -/
def parselist : Option (List Bytes) :=
  let sv := splitAll (pluscharrx commaChar) s
  let sv := if sv.head? = some [] then sv.tail else sv
  let sv := if sv.getLast? = some [] then sv.dropLast else sv
  sv.mapM parsemember

def str2groupinfo : Option SfsauthGroupinfo :=
  match split (charrx colon) true 8 s with
  | [name, id, vers, owners, members, properties, audit] =>
    if !namerx name || badcharrx properties then none
    else do
      let id ← convertint 32 id
      let vers ← convertint 32 vers
      let owners ← parselist owners
      let members ← parselist members
      return ⟨name, .ofNat id, .ofNat vers, owners, members, properties, audit⟩
  | _ => none

def str2cacheentry : Option Cacheentry :=
  match split (charrx colon) true 7 s with
  | [key, values, vers, refresh, timeout, lastUpdate] => do
    let values ← parselist values
    let vers ← convertint 32 vers
    let refresh ← convertint 64 refresh
    let timeout ← convertint 64 timeout
    let lastUpdate ← convertint 64 lastUpdate
    return ⟨singleCharSub key dollar commaChar, values, .ofNat vers, .ofNat refresh,
      .ofNat timeout, .ofNat lastUpdate⟩
  | _ => none

/-- The fields that a line does not hold keep the values of a new record. -/
def str2logentry : Option Logentry :=
  match split (charrx colon) true 4 s with
  | [vers, members, audit] => do
    let vers ← convertint 32 vers
    let members ← parselist members
    return ⟨.ofNat vers, members, false, 0, 0, audit⟩
  | _ => none

/-- The patterns `^TYPE:(.*)$`: the dot matches no newline, and the match must reach the end. -/
def typerx (type s : Bytes) : Option Bytes :=
  (lit type s).bind fun r => if newline ∈ r then none else some r

def isHex (b : UInt8) : Bool := (hexconv b).isSome

/-- `^REVINFO:([0-9a-fA-F]+):(\d+)$`. -/
def revinforx (s : Bytes) : Option (Bytes × Bytes) := do
  let r ← lit (ascii "REVINFO:") s
  let (id, r) ← run1 isHex r
  let r ← lit [colon] r
  let (rev, r) ← run1 isDigit r
  if r = [] then some (id, rev) else none

def str2revinfo (id rev : Bytes) : Option Revinfo := do
  let id ← hex2bytes id
  let rev ← convertint 64 rev
  if h : id.length = 16 then some ⟨.ofNat rev, id, h⟩ else none

def str2authdbrec (U : UserText) (s : Bytes) : Option Dbrec :=
  match revinforx s with
  | some (id, rev) => (str2revinfo id rev).map .revinfo
  | none =>
    match typerx (ascii "USER:") s with
    | some r => (U.str2userinfo r).map .user
    | none =>
      match typerx (ascii "GROUP:") s with
      | some r => (str2groupinfo r).map .group
      | none =>
        match typerx (ascii "CACHE:") s with
        | some r => (str2cacheentry r).map .cacheentry
        | none =>
          match typerx (ascii "LOG:") s with
          | some r => (str2logentry r).map .logentry
          | none => none

end SelfCertifyingFS.Authd
