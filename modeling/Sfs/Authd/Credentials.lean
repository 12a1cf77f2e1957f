import Sfs.Authd.Cursors

/-!
# Credentials of a user record

`setuser`, `setuser_pkhash` and `setuser_groups` of `sfsauthd/authclnt_login.C`
turn the record of a user into credentials. Users of a database with a prefix
are known by the prefix, a slash and their name, so that they cannot be taken
for users of another database.
-/

namespace SelfCertifyingFS.Authd

open Foundations Rpc

/-- `mkname`, which computes the name with the prefix and returns the other one. -/
def mkname (dbp : Dbfile) (name : Bytes) : Bytes :=
  let _r := match dbp.namePrefix with
    | some p => p ++ Dbfile.slash :: name
    | none => name
  name

/-- `unix_user` without a password. -/
def unixUser (host : Host) (user : Bytes) : Except Bytes Passwd :=
  match host.getpwnam user with
  | none => .error (ascii "Invalid login")
  | some pw => if host.expired user then .error (ascii "Login expired") else .ok pw

/-- The loop of `findgroups_unix`; a group is pushed once. -/
def pushGroups (gidmap : Idmap) (groups gids : List UInt32) : List UInt32 :=
  gids.foldl (fun groups i =>
    let gid := gidmap.map i
    if gid ≠ badid ∧ gid ∉ groups then groups ++ [gid] else groups) groups

def findgroupsUnix (dbfiles : List Dbfile) (name : Bytes) : List UInt32 :=
  dbfiles.foldl (fun groups dbp =>
    match dbp.stripPrefix name, dbp.openDb false with
    | some suffix, some recs => pushGroups dbp.gidmap groups (findGidsUser recs suffix)
    | _, _ => groups) []

def findgroupsSymbolic (host : Host) (name pkhash : Option Bytes) : List Bytes :=
  match host.findGroups with
  | none => []
  | some find =>
      find ((name.map (addMemberType · (ascii "u"))).toList ++
        (pkhash.map (addMemberType · (ascii "p"))).toList)

/-- The account of the host that a record stands for. The account named by a privilege must
exist; the name of the record is only tried. -/
def unixAccount (host : Host) (dbp : Dbfile) (ae : SfsauthUserinfo) :
    Except Bytes (Option (Bytes × Passwd)) :=
  if dbp.allowUnixPwd then
    match unixpriv ae.privs with
    | some unixname => (unixUser host unixname).map fun pw => some (unixname, pw)
    | none =>
        match unixUser host ae.name with
        | .ok pw => .ok (some (ae.name, pw))
        | .error _ => .ok none
  else .ok none

/-- The credential of an account, or of a record without one, before its groups. -/
def unixcred (dbp : Dbfile) (ae : SfsauthUserinfo) : Option (Bytes × Passwd) → SfsUnixcred
  | some (unixname, pw) =>
      { username := unixname, homedir := pw.pwDir, shell := pw.pwShell
        uid := pw.pwUid, gid := pw.pwGid, groups := [] }
  | none =>
      { username := mkname dbp ae.name, homedir := ascii "/dev/null", shell := ascii "/dev/null"
        uid := dbp.uidmap.map ae.id, gid := dbp.gidmap.map ae.gid, groups := [] }

def setuser (host : Host) (dbfiles : List Dbfile) (ae : SfsauthUserinfo) (dbp : Dbfile) :
    Except Bytes SfsUnixcred :=
  match unixAccount host dbp ae with
  | .error err => .error err
  | .ok account =>
      let cred := unixcred dbp ae account
      if cred.uid = badid then .error (ascii "uid out of range")
      else .ok { cred with groups := findgroupsUnix dbfiles cred.username }

def setuserPkhash (vrfy : Sfspub) (creds : List SfsauthCred) : List SfsauthCred :=
  match vrfy.getPubkeyHash with
  | none => creds
  | some h => creds ++ [.pkcred (armor32 h.1)]

def setuserGroups (host : Host) (who : Option (SfsauthUserinfo × Dbfile)) (vrfy : Sfspub)
    (creds : List SfsauthCred) : List SfsauthCred :=
  let groups := findgroupsSymbolic host (who.map fun (ae, dbp) => mkname dbp ae.name)
    (vrfy.getPubkeyHash.map fun h => armor32 h.1)
  if groups = [] then creds else creds ++ [.groupscred groups]

section Prefixes

/-- What the prefixes of databases are for. -/
structure PrefixesSeparate (host : Host) (dbfiles : List Dbfile) : Prop where
  /-- The symbolic name of a record is the prefix of its database, a slash, and its name. -/
  symbolic : ∀ dbp ∈ dbfiles, ∀ name, mkname dbp name = dbp.qualify name
  /-- A user of a database with a prefix gets neither the bare user name nor the groups that
  are found under it. -/
  apart : ∀ dbp ∈ dbfiles, dbp.namePrefix ≠ none →
    ∀ ae cred, setuser host dbfiles ae dbp = .ok cred →
      cred.username ≠ ae.name ∧ cred.groups = findgroupsUnix dbfiles (dbp.qualify ae.name)
  /-- A record looked up under a name is reported under that name. -/
  reported : ∀ name writable c, getUserCursor host dbfiles (.name name) writable = .ok c →
    c.dbr.name = name

variable {dbp : Dbfile}

theorem qualify_of_none (h : dbp.namePrefix = none) (name : Bytes) : dbp.qualify name = name := by
  rw [Dbfile.qualify, h]

theorem qualify_ne (h : dbp.namePrefix ≠ none) (name : Bytes) : dbp.qualify name ≠ name := by
  obtain ⟨p, hp⟩ := Option.ne_none_iff_exists'.mp h
  intro heq
  rw [Dbfile.qualify, hp] at heq
  have hlen := congrArg List.length heq
  simp only [List.length_append, List.length_cons] at hlen
  omega

theorem overrideIds_name (host : Host) (dbp : Dbfile) (u : SfsauthUserinfo) :
    (overrideIds host dbp u).name = u.name := by
  unfold overrideIds
  split_ifs
  · split <;> rfl
  · rfl

theorem reportUser_spec {ae dbr : SfsauthUserinfo} (h : reportUser dbp ae = some dbr) :
    dbr.name = dbp.qualify ae.name ∧ dbr.vers = ae.vers := by
  simp only [reportUser, Option.ite_none_left_eq_some, Option.some.injEq] at h
  rw [← h.2]
  exact ⟨rfl, rfl⟩

/-- A record that is stored is reported under the name it was looked up with; a record made
up from the password file has the prefix put in front of that name once more. -/
theorem getUserCursor_name {host : Host} {dbfiles : List Dbfile} {name : Bytes} {writable : Bool}
    {c : Cursor SfsauthUserinfo} (h : getUserCursor host dbfiles (.name name) writable = .ok c) :
    c.dbp ∈ dbfiles ∧ (c.dbr.name = name ∨ c.dbr.name = c.dbp.qualify name) := by
  obtain ⟨hmem, -, ⟨u, -, hlook, hae⟩, hrep⟩ := userFound_of_getUserCursor h
  refine ⟨List.mem_of_getElem? hmem, ?_⟩
  rw [(reportUser_spec hrep).1, hae, overrideIds_name]
  cases hstrip : c.dbp.stripPrefix name with
  | none => simp [lookupUser, hstrip] at hlook
  | some rest =>
    cases hfind : findUserName c.dbp.records rest with
    | some v =>
      obtain rfl : v = u := by simpa [lookupUser, hstrip, hfind] using hlook
      have hname : v.name = rest := of_decide_eq_true (mem_of_searchUser hfind).2
      exact .inl (by rw [hname, Dbfile.qualify_of_stripPrefix hstrip])
    | none =>
      cases hpw : (if c.dbp.allowUnixPwd then host.getpwnam rest else none) with
      | none => simp [lookupUser, hstrip, hfind, hpw] at hlook
      | some pw =>
        obtain rfl : unixRecord c.dbp name pw = u := by
          simpa [lookupUser, hstrip, hfind, hpw] using hlook
        exact .inr rfl

/-- Prefixes keep their users apart exactly where there are none. -/
theorem prefixesSeparate_iff (host : Host) (dbfiles : List Dbfile) :
    PrefixesSeparate host dbfiles ↔ ∀ dbp ∈ dbfiles, dbp.namePrefix = none := by
  constructor
  · intro h dbp hdbp
    by_contra hne
    exact qualify_ne hne [] (h.symbolic dbp hdbp []).symm
  · intro h
    refine ⟨?_, ?_, ?_⟩
    · intro dbp hdbp name
      rw [qualify_of_none (h dbp hdbp)]
      rfl
    · intro dbp hdbp hne
      exact absurd (h dbp hdbp) hne
    · intro name writable c hc
      obtain ⟨hdbp, hname⟩ := getUserCursor_name hc
      rwa [qualify_of_none (h c.dbp hdbp), or_self] at hname

def smallHost : Host where
  alloc _ := none
  allocRabin _ := none
  sha1 _ := zeroHash
  getpwnam n := if n = ascii "bob" then some ⟨ascii "bob", [], [], 5, 5⟩ else none
  getpwuid _ := none
  expired _ := false
  findGroups := none

/-- A database of the given records that is only read. -/
def smallDb (namePrefix : Option Bytes) (records : List SfsauthDbrec) : Dbfile where
  records := records
  readable := true
  lockable := false
  accepts _ := false
  namePrefix := namePrefix
  uidmap := .id
  gidmap := .id
  grprange := none
  defaultRefresh := 3600
  defaultTimeout := 604800
  defaultGroupquota := -1
  allowUpdate := false
  allowUnixPwd := true
  allowAdmin := false

def alice : SfsauthUserinfo :=
  { SfsauthUserinfo.empty with name := ascii "alice", id := 7, gid := 7, vers := 1 }

/-- A database with the prefix `eng`, and one without in which a group has the member `alice`. -/
def prefixedSetup : List Dbfile :=
  [smallDb (some (ascii "eng")) [.user alice],
    smallDb none [.group ⟨ascii "staff", 100, 1, [], [ascii "u=alice"], [], []⟩]]

/-- The user `eng/alice` becomes `alice` and joins the group of `alice`; the account that the
password file knows as `bob` is looked up as `eng/bob` and reported as `eng/eng/bob`. -/
theorem prefixed_user_takes_bare_name :
    setuser smallHost prefixedSetup alice (smallDb (some (ascii "eng")) [.user alice]) =
        .ok ⟨ascii "alice", ascii "/dev/null", ascii "/dev/null", 7, 7, [100]⟩ ∧
      (getUserCursor smallHost prefixedSetup (.name (ascii "eng/bob")) false).map (·.dbr.name) =
        .ok (ascii "eng/eng/bob") ∧
      ¬ PrefixesSeparate smallHost prefixedSetup := by
  refine ⟨by decide, by decide, ?_⟩
  intro h
  have hname := h.symbolic (smallDb (some (ascii "eng")) [.user alice]) (by simp [prefixedSetup]) []
  exact absurd hname (by decide)

end Prefixes

end SelfCertifyingFS.Authd
