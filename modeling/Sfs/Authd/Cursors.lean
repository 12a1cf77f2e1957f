import Sfs.Authd.UserDatabases

/-!
# Cursors

Searching the user databases for a record: `find_user_name` and its relatives
look at one database, `get_user_cursor` and `get_group_cursor` of
`sfsauthd/authclnt.C` go through all of them. They leave the cursor on the record
as it is stored, and report it as the outside sees it.
-/

namespace SelfCertifyingFS.Authd

open Foundations Rpc

/-- `SEARCH` for a user record. -/
def searchUser (p : SfsauthUserinfo → Bool) (recs : List SfsauthDbrec) : Option SfsauthUserinfo :=
  recs.findSome? fun
    | .user u => if p u then some u else none
    | _ => none

/-- `SEARCH` for a group record. -/
def searchGroup (p : SfsauthGroupinfo → Bool) (recs : List SfsauthDbrec) :
    Option SfsauthGroupinfo :=
  recs.findSome? fun
    | .group g => if p g then some g else none
    | _ => none

variable (recs : List SfsauthDbrec)

def findUserName (name : Bytes) : Option SfsauthUserinfo :=
  searchUser (fun u => u.name = name) recs

def findUserPubkey (pk : Sfspub) : Option SfsauthUserinfo :=
  searchUser (fun u => pk.eqPubkey u.pubkey || pk.eqKeyhalf u.srvprivkey) recs

def findUserUid (id : UInt32) : Option SfsauthUserinfo :=
  searchUser (fun u => u.id = id) recs

def findGroupName (name : Bytes) : Option SfsauthGroupinfo :=
  searchGroup (fun g => g.name = name) recs

def findGroupGid (id : UInt32) : Option SfsauthGroupinfo :=
  searchGroup (fun g => g.id = id) recs

def addMemberType (s t : Bytes) : Bytes := t ++ ascii "=" ++ s

def findGidsUser (recs : List SfsauthDbrec) (user : Bytes) : List UInt32 :=
  recs.filterMap fun
    | .group g => if addMemberType user (ascii "u") ∈ g.members then some g.id else none
    | _ => none

def countGroupPrefix (recs : List SfsauthDbrec) (pref : Bytes) : ℕ :=
  recs.countP fun
    | .group g => pref.isPrefixOf g.name
    | _ => false

/-- The loop of `alloc_gid`. The numbers it tries are distinct, so it makes at most one
turn more than there are groups. -/
def allocGidFrom (recs : List SfsauthDbrec) (max : UInt32) : ℕ → UInt32 → UInt32
  | 0, gid => gid
  | fuel + 1, gid =>
      if (findGroupGid recs gid).isNone then gid
      else if max < gid + 1 then badid
      else allocGidFrom recs max fuel (gid + 1)

def allocGid (recs : List SfsauthDbrec) (min max : UInt32) : UInt32 :=
  allocGidFrom recs max recs.length min

theorem mem_of_searchUser {p : SfsauthUserinfo → Bool} {recs : List SfsauthDbrec}
    {u : SfsauthUserinfo} (h : searchUser p recs = some u) : .user u ∈ recs ∧ p u = true := by
  obtain ⟨r, hr, hu⟩ := List.exists_of_findSome?_eq_some h
  cases r with
  | user v =>
    simp only [Option.ite_none_right_eq_some, Option.some.injEq] at hu
    obtain ⟨hp, rfl⟩ := hu
    exact ⟨hr, hp⟩
  | _ => exact nomatch hu

/-- The levels of `aesanitize`. -/
inductive AeLevel
  | query
  | pubfile
  | user
  deriving DecidableEq, Repr

/-- `aesanitize` on a user record. -/
def aesanitize (u : SfsauthUserinfo) (level : AeLevel) : SfsauthUserinfo :=
  { u with
    pwauth := []
    srvprivkey := if u.srvprivkey = .none then .none else .flag
    privkey := if level = .user then u.privkey else [] }

/-- A record for an account of the password file that the database does not hold. -/
def unixRecord (dbp : Dbfile) (name : Bytes) (pw : Passwd) : SfsauthUserinfo :=
  { SfsauthUserinfo.empty with
    name := name
    id := pw.pwUid
    gid := pw.pwGid
    privs := ascii "unix=" ++ pw.pwName ++ ascii ",refresh=" ++ ascii (toString dbp.defaultRefresh)
      ++ ascii ",timeout=" ++ ascii (toString dbp.defaultTimeout) }

/-- A record with a `unix=` privilege has the numbers of that account. -/
def overrideIds (host : Host) (dbp : Dbfile) (u : SfsauthUserinfo) : SfsauthUserinfo :=
  if dbp.allowUnixPwd then
    match (unixpriv u.privs).bind host.getpwnam with
    | some pw => { u with id := pw.pwUid, gid := pw.pwGid }
    | none => u
  else u

/-- What is reported of the record under the cursor; nothing if its number has no image. -/
def reportUser (dbp : Dbfile) (ae : SfsauthUserinfo) : Option SfsauthUserinfo :=
  let u := aesanitize ae .query
  let id := dbp.uidmap.map u.id
  if id = badid then none
  else some { u with name := dbp.qualify u.name, id := id, gid := dbp.gidmap.map u.gid }

/-- What one database answers to a key. -/
inductive Lookup (α : Type)
  | skip
  | abort (errmsg : Bytes)
  | found (a : α)

/-- A database and its position, the record under the cursor, and the record as it is
reported. -/
structure Cursor (α : Type) where
  index : ℕ
  dbp : Dbfile
  ae : α
  dbr : α

variable {α : Type}

/-- The loop over the databases, which stops at the first that does not pass the key on. -/
def scan (ask : Dbfile → Lookup (α × α)) (missing : Bytes) :
    ℕ → List Dbfile → Except Bytes (Cursor α)
  | _, [] => .error missing
  | i, dbp :: rest =>
      match ask dbp with
      | .skip => scan ask missing (i + 1) rest
      | .abort errmsg => .error errmsg
      | .found (ae, dbr) => .ok ⟨i, dbp, ae, dbr⟩

variable {ask : Dbfile → Lookup (α × α)} {missing : Bytes}

theorem scan_ok {i : ℕ}
    {dbfiles : List Dbfile} {c : Cursor α} (h : scan ask missing i dbfiles = .ok c) :
    ∃ k, c.index = i + k ∧ dbfiles[k]? = some c.dbp ∧ ask c.dbp = .found (c.ae, c.dbr) := by
  induction dbfiles generalizing i with
  | nil => exact nomatch h
  | cons dbp rest ih =>
    rw [scan] at h
    cases hask : ask dbp with
    | skip =>
      rw [hask] at h
      obtain ⟨k, hk, hmem, ha⟩ := ih h
      exact ⟨k + 1, by omega, by simpa using hmem, ha⟩
    | abort errmsg =>
      rw [hask] at h
      exact nomatch h
    | found r =>
      rw [hask] at h
      obtain rfl := Except.ok.inj h
      exact ⟨0, rfl, rfl, hask⟩

/-- From the first database on, the position is the one in the list. -/
theorem scan_zero_ok
    {dbfiles : List Dbfile} {c : Cursor α} (h : scan ask missing 0 dbfiles = .ok c) :
    dbfiles[c.index]? = some c.dbp ∧ ask c.dbp = .found (c.ae, c.dbr) := by
  obtain ⟨k, hk, hmem, ha⟩ := scan_ok h
  exact ⟨by rw [hk, Nat.zero_add, hmem], ha⟩

variable {writable : Bool} {dbfiles : List Dbfile} {key : SfsauthDbkey} {dbp : Dbfile}
  {recs : List SfsauthDbrec}

theorem openDb_eq_some (h : dbp.openDb writable = some recs) : recs = dbp.records := by
  unfold Dbfile.openDb at h
  split_ifs at h
  all_goals exact (Option.some.inj h).symm

/-- The `switch` of `get_user_cursor`. -/
def lookupUser (host : Host) (dbp : Dbfile) (recs : List SfsauthDbrec) :
    SfsauthDbkey → Lookup SfsauthUserinfo
  | .name n =>
      match dbp.stripPrefix n with
      | none => .skip
      | some name =>
          match findUserName recs name with
          | some u => .found u
          | none =>
              match (if dbp.allowUnixPwd then host.getpwnam name else none) with
              | some pw => .found (unixRecord dbp n pw)
              | none => .skip
  | .id i =>
      let id := dbp.uidmap.unmap i
      match (if id = badid then none else findUserUid recs id) with
      | some u => .found u
      | none =>
          match (if dbp.allowUnixPwd then host.getpwuid i else none) with
          | some pw => .found (unixRecord dbp pw.pwName pw)
          | none => .skip
  | .pubkey k =>
      match host.alloc k with
      | none => .abort (ascii "cannot import user public key")
      | some pk =>
          match findUserPubkey recs pk with
          | some u => if pk.eqPubkey u.pubkey then .found u else .skip
          | none => .skip
  | _ => .skip

/-- The body of the loop of `get_user_cursor`: the record under the cursor, and the record
as it is reported. -/
def askUser (host : Host) (key : SfsauthDbkey) (writable : Bool) (dbp : Dbfile) :
    Lookup (SfsauthUserinfo × SfsauthUserinfo) :=
  if writable && !dbp.allowUpdate then .skip
  else
    match dbp.openDb writable with
    | none => .skip
    | some recs =>
        match lookupUser host dbp recs key with
        | .skip => .skip
        | .abort errmsg => .abort errmsg
        | .found u =>
            let ae := overrideIds host dbp u
            match reportUser dbp ae with
            | none => .skip
            | some dbr => .found (ae, dbr)

def getUserCursor (host : Host) (dbfiles : List Dbfile) (key : SfsauthDbkey) (writable : Bool) :
    Except Bytes (Cursor SfsauthUserinfo) :=
  match key with
  | .name _ | .id _ | .pubkey _ =>
      scan (askUser host key writable) (ascii "user not found") 0 dbfiles
  | _ => .error (ascii "unsupported key type " ++ ascii (toString key.type))

/-- Where the record under a cursor comes from. -/
structure UserFound (host : Host) (dbfiles : List Dbfile) (key : SfsauthDbkey) (writable : Bool)
    (c : Cursor SfsauthUserinfo) : Prop where
  mem : dbfiles[c.index]? = some c.dbp
  update : writable = true → c.dbp.allowUpdate = true
  source : ∃ u, c.dbp.openDb writable = some c.dbp.records ∧
    lookupUser host c.dbp c.dbp.records key = .found u ∧ c.ae = overrideIds host c.dbp u
  report : reportUser c.dbp c.ae = some c.dbr

theorem askUser_found {host : Host} {ae dbr : SfsauthUserinfo}
    (h : askUser host key writable dbp = .found (ae, dbr)) :
    (writable = true → dbp.allowUpdate = true) ∧
      (∃ u, dbp.openDb writable = some dbp.records ∧
        lookupUser host dbp dbp.records key = .found u ∧ ae = overrideIds host dbp u) ∧
      reportUser dbp ae = some dbr := by
  unfold askUser at h
  split_ifs at h with hw
  have hupd : writable = true → dbp.allowUpdate = true := by
    rintro rfl
    simpa using hw
  cases hopen : dbp.openDb writable with
  | none => simp [hopen] at h
  | some recs =>
    obtain rfl := openDb_eq_some hopen
    cases hlook : lookupUser host dbp dbp.records key with
    | skip | abort errmsg => simp [hopen, hlook] at h
    | found u =>
      cases hrep : reportUser dbp (overrideIds host dbp u) with
      | none => simp [hopen, hlook, hrep] at h
      | some dbr' =>
        obtain ⟨rfl, rfl⟩ : overrideIds host dbp u = ae ∧ dbr' = dbr := by
          simpa [hopen, hlook, hrep] using h
        exact ⟨hupd, ⟨u, rfl, rfl, rfl⟩, hrep⟩

theorem userFound_of_getUserCursor {host : Host} {c : Cursor SfsauthUserinfo}
    (h : getUserCursor host dbfiles key writable = .ok c) :
    UserFound host dbfiles key writable c := by
  have hscan : scan (askUser host key writable) (ascii "user not found") 0 dbfiles = .ok c := by
    cases key <;> first | exact h | exact nomatch h
  obtain ⟨hmem, hask⟩ := scan_zero_ok hscan
  obtain ⟨hupd, hsrc, hrep⟩ := askUser_found hask
  exact ⟨hmem, hupd, hsrc, hrep⟩

/-- A record for a group that is about to be created. -/
def newGroup (recs : List SfsauthDbrec) (r : IdmapRange) (name : Bytes) :
    SfsauthGroupinfo where
  name := name
  id := allocGid recs r.idMin r.idMax
  vers := 0
  owners := []
  members := []
  properties := []
  audit := []

/-- The `switch` of `get_group_cursor`. Groups are created only where `grprange` is set. -/
def lookupGroup (create : Bool) (dbp : Dbfile) (recs : List SfsauthDbrec) :
    SfsauthDbkey → Lookup SfsauthGroupinfo
  | .name n =>
      match dbp.stripPrefix n with
      | none => .skip
      | some name =>
          match findGroupName recs name with
          | some g => .found g
          | none =>
              match (if create then dbp.grprange else none) with
              | some r => .found (newGroup recs r n)
              | none => .skip
  | .id i =>
      let id := dbp.gidmap.unmap i
      match (if id = badid then none else findGroupGid recs id) with
      | some g => .found g
      | none => .skip
  | _ => .skip

/-- What is reported of a group; nothing if its number has no image. -/
def reportGroup (dbp : Dbfile) (ae : SfsauthGroupinfo) : Option SfsauthGroupinfo :=
  let id := dbp.gidmap.map ae.id
  if id = badid then none else some { ae with name := dbp.qualify ae.name, id := id }

/-- The body of the loop of `get_group_cursor`. -/
def askGroup (key : SfsauthDbkey) (writable create : Bool) (dbp : Dbfile) :
    Lookup (SfsauthGroupinfo × SfsauthGroupinfo) :=
  if writable && (!dbp.allowUpdate || dbp.grprange.isNone) then .skip
  else
    match dbp.openDb writable with
    | none => .skip
    | some recs =>
        match lookupGroup create dbp recs key with
        | .skip => .skip
        | .abort errmsg => .abort errmsg
        | .found g =>
            match reportGroup dbp g with
            | none => .skip
            | some dbr => .found (g, dbr)

def getGroupCursor (dbfiles : List Dbfile) (key : SfsauthDbkey) (writable create : Bool) :
    Except Bytes (Cursor SfsauthGroupinfo) :=
  match key with
  | .name _ | .id _ => scan (askGroup key writable create) (ascii "group not found") 0 dbfiles
  | _ => .error (ascii "unsupported key type " ++ ascii (toString key.type))

/-- Where a group under a cursor comes from. -/
structure GroupFound (dbfiles : List Dbfile) (key : SfsauthDbkey) (writable create : Bool)
    (c : Cursor SfsauthGroupinfo) : Prop where
  mem : dbfiles[c.index]? = some c.dbp
  update : writable = true → c.dbp.allowUpdate = true
  source : c.dbp.openDb writable = some c.dbp.records ∧
    lookupGroup create c.dbp c.dbp.records key = .found c.ae
  report : reportGroup c.dbp c.ae = some c.dbr

theorem askGroup_found {create : Bool} {ae dbr : SfsauthGroupinfo}
    (h : askGroup key writable create dbp = .found (ae, dbr)) :
    (writable = true → dbp.allowUpdate = true) ∧
      (dbp.openDb writable = some dbp.records ∧
        lookupGroup create dbp dbp.records key = .found ae) ∧
      reportGroup dbp ae = some dbr := by
  unfold askGroup at h
  split_ifs at h with hw
  have hupd : writable = true → dbp.allowUpdate = true := by
    rintro rfl
    have hdb : dbp.allowUpdate = true ∧ ¬dbp.grprange = none := by simpa using hw
    exact hdb.1
  cases hopen : dbp.openDb writable with
  | none => simp [hopen] at h
  | some recs =>
    obtain rfl := openDb_eq_some hopen
    cases hlook : lookupGroup create dbp dbp.records key with
    | skip | abort errmsg => simp [hopen, hlook] at h
    | found g =>
      cases hrep : reportGroup dbp g with
      | none => simp [hopen, hlook, hrep] at h
      | some dbr' =>
        obtain ⟨rfl, rfl⟩ : g = ae ∧ dbr' = dbr := by simpa [hopen, hlook, hrep] using h
        exact ⟨hupd, ⟨rfl, rfl⟩, hrep⟩

theorem groupFound_of_getGroupCursor {create : Bool} {c : Cursor SfsauthGroupinfo}
    (h : getGroupCursor dbfiles key writable create = .ok c) :
    GroupFound dbfiles key writable create c := by
  have hscan : scan (askGroup key writable create) (ascii "group not found") 0 dbfiles = .ok c := by
    cases key <;> first | exact h | exact nomatch h
  obtain ⟨hmem, hask⟩ := scan_zero_ok hscan
  obtain ⟨hupd, hsrc, hrep⟩ := askGroup_found hask
  exact ⟨hmem, hupd, hsrc, hrep⟩

end SelfCertifyingFS.Authd
