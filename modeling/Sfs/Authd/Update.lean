import Sfs.Authd.Session

/-!
# Updates of user and group records

`sfsauth_update` of `sfsauthd/authclnt_update.C`: a logged-in user replaces a user
record or a group record. The request is signed with the user's registered key,
or was made after a password login, and a new public key must have signed it too.
Unless it counts as the act of an administrator it changes the user's own record or a
group of the user's.
-/

namespace SelfCertifyingFS.Authd

section

open Foundations Rpc

/-- How a call ends: refused credentials, an answer and a new state, or undefined behaviour. -/
inductive Outcome
  | reject
  | reply (res : Except Bytes Unit) (st : AuthdState)
  | fault (f : Fault)

def Outcome.refuse (st : AuthdState) (errmsg : String) : Outcome :=
  .reply (.error (ascii errmsg)) st

/-- Two records that stand under one key of the database file. -/
def sameKey : SfsauthDbrec → SfsauthDbrec → Bool
  | .user u, .user v => u.name = v.name
  | .group g, .group h => g.name = h.name
  | _, _ => false

/-- `authcursor_file::update`: the record takes the place of the one with its key, or is
added at the end. -/
def putRecord (recs : List SfsauthDbrec) (r : SfsauthDbrec) : List SfsauthDbrec :=
  if recs.any (sameKey r) then recs.map fun r' => if sameKey r r' then r else r'
  else recs ++ [r]

/-- `uac->update ()` on the database at a position. -/
def AuthdState.write (st : AuthdState) (index : ℕ) (dbp : Dbfile) (r : SfsauthDbrec) :
    Option AuthdState :=
  if dbp.accepts r then
    some { st with
      dbfiles := st.dbfiles.set index { dbp with records := putRecord dbp.records r } }
  else none

def supKpsrp : UInt64 := 0x1

def supKpesk : UInt64 := 0x2

def supKppk : UInt64 := 0x4

def hasOpt (opts bit : UInt64) : Bool := opts &&& bit ≠ 0

/-- `update_info`, with the position of the login and the database of the caller. -/
structure UpdateInfo where
  aui : ℕ
  arg : SfsauthUpdateArg
  cred : SfsUnixcred
  ur : Urec
  cdbp : Dbfile
  cdbr : SfsauthUserinfo
  admin : Bool

variable (site : Site) (st : AuthdState)

/-- The checks of `sfsauth_update` before the signatures. -/
def updateInfo (aui : ℕ) (arg : SfsauthUpdateArg) :
    Except Outcome UpdateInfo :=
  match st.clnt.serv.credtab[aui]?, st.clnt.utab aui with
  | some (.unixcred cred), some ur =>
      if ur.authtype = .noauth then .error .reject
      else
        match getUserCursor site.toHost st.dbfiles (.name cred.username) false with
        | .error _ => .error (.refuse st "could not load credential db record")
        | .ok c =>
            if cred.username ≠ c.dbr.name then
              .error (.refuse st "could not load credential db record")
            else if cred.uid ≠ c.dbr.id then .error (.refuse st "invalid uid")
            else if arg.req.type ≠ .updatereq then .error (.refuse st "invalid request")
            else
              match arg.req.dbrec with
              | .user _ | .group _ =>
                  if arg.req.authid ≠ st.clnt.serv.authid then
                    .error (.refuse st "invalid authid")
                  else
                    .ok ⟨aui, arg, cred, ur, c.dbp, c.dbr, c.dbp.allowAdmin && adminrx c.dbr.privs⟩
              | _ => .error (.refuse st "invalid request")
  | _, _ => .error .reject

variable (i : UpdateInfo)

/-- The test of the new key's signature in `update_checksig`. It reads the public key of a
user record whatever the type of the record is. -/
def checkNewsig : Except Outcome Unit :=
  match i.arg.newsig with
  | some sig =>
      match i.arg.req.dbrec with
      | .user u =>
          match site.verify u.pubkey sig (site.xdrUpdatereq i.arg.req) with
          | .error e => .error (.reply (.error (ascii "new signature: " ++ e.getD [])) st)
          | .ok () => .ok ()
      | _ => .error (.fault .misread)
  | none =>
      if hasOpt i.arg.req.opts supKppk = false ∧ i.admin = false then
        .error (.refuse st "Missing signature with new public key.")
      else .ok ()

/-- The test of the caller's signature in `update_checksig`, with what is left of the
privilege of an administrator. -/
def checkAuthsig : Except Outcome Bool :=
  match i.arg.authsig with
  | some sig =>
      match site.verify i.cdbr.pubkey sig (site.xdrUpdatereq i.arg.req) with
      | .error e => .error (.reply (.error (ascii "old signature: " ++ e.getD [])) st)
      | .ok () => .ok i.admin
  | none =>
      if i.cdbp.allowUnixPwd = false ∨ i.ur.authtype ≠ .unixpwauth then
        .error (.refuse st "digital signature required")
      else .ok false

def updateChecksig : Except Outcome Bool :=
  match checkNewsig site st i with
  | .error o => .error o
  | .ok () => checkAuthsig site st i

def auditLine : Bytes :=
  ascii "Last modified " ++ site.timestr ++ ascii " by " ++
    (if st.clnt.uid = some 0 then ascii "*superuser*" else i.cred.username) ++
    ascii "@" ++ st.clnt.clientName

/-- The state with new key halves for the login. -/
def AuthdState.withKeyhalf (st : AuthdState) (aui : ℕ) (ur : Urec)
    (keys : List Sfs2SchnorrPriv) (tab : SprivkTab) : AuthdState :=
  { st with
    clnt := { st.clnt with
      utab := Function.update st.clnt.utab aui (some { ur with kh := .priv keys }) }
    sprivkTab := tab }

/-- The record with what any user may change of it. -/
def revisedUser (site : Site) (st : AuthdState) (i : UpdateInfo) (u ae : SfsauthUserinfo) :
    SfsauthUserinfo :=
  { ae with
    vers := u.vers
    pubkey := if hasOpt i.arg.req.opts supKppk then ae.pubkey else u.pubkey
    pwauth := if hasOpt i.arg.req.opts supKpsrp then ae.pwauth else u.pwauth
    privkey := if hasOpt i.arg.req.opts supKpesk then ae.privkey else u.privkey
    audit := auditLine site st i }

/-- The group number that an administrator asks for, as the database counts. -/
def adminGid (dbp : Dbfile) (gid old : UInt32) : Option UInt32 :=
  if gid ≠ dbp.gidmap.map old then
    let g := dbp.gidmap.unmap gid
    if g = badid ∨ dbp.gidmap.map g ≠ gid then none else some g
  else some gid

def adminUser (admin : Bool) (dbp : Dbfile) (u ae : SfsauthUserinfo) : Option SfsauthUserinfo :=
  if admin then (adminGid dbp u.gid ae.gid).map fun gid => { ae with gid := gid, privs := u.privs }
  else some ae

/-- The part of `update_user` between the checks of the version and those of an administrator.
The old key halves are those of the record as it is reported. -/
def reviseUser (site : Site) (st : AuthdState) (i : UpdateInfo) (c : Cursor SfsauthUserinfo)
    (u : SfsauthUserinfo) : Except Outcome (AuthdState × SfsauthUserinfo) :=
  let ae := revisedUser site st i u c.ae
  match updateSrvKeyhalf site.toSfscrypt st.sprivkTab u.srvprivkey c.ae.srvprivkey
      c.dbr.srvprivkey true with
  | .fault f => .error (.fault f)
  | .refuse errmsg => .error (.reply (.error errmsg) st)
  | .keep => .ok (st, ae)
  | .set keys tab =>
      .ok (st.withKeyhalf i.aui i.ur keys tab, { ae with srvprivkey := .priv keys })

/-- The end of `update_user`. -/
def commitUser (st : AuthdState) (admin : Bool) (c : Cursor SfsauthUserinfo)
    (u ae : SfsauthUserinfo) : Outcome :=
  match adminUser admin c.dbp u ae with
  | none => .refuse st "bad gid"
  | some ae =>
      match st.write c.index c.dbp (.user ae) with
      | none => .refuse st "database refused update"
      | some st => .reply (.ok ()) st

def updateUser (site : Site) (st : AuthdState) (i : UpdateInfo) (admin : Bool)
    (u : SfsauthUserinfo) : Outcome :=
  match getUserCursor site.toHost st.dbfiles (.name u.name) true with
  | .error _ => .refuse st "could not find or update user's record"
  | .ok c =>
      if admin = false ∧ (c.dbr.name ≠ i.cdbr.name ∨ c.dbr.id ≠ i.cdbr.id) then
        .refuse st "access denied"
      else if u.vers < 1 then .refuse st "version number of record must be greater than 0"
      else if u.vers ≠ c.dbr.vers + 1 then .refuse st "version mismatch"
      else
        match reviseUser site st i c u with
        | .error o => o
        | .ok (st, ae) => commitUser st admin c u ae

def dot : UInt8 := 0x2e

/-- `group_prefix`: the rest of a name that starts with another one and a dot. -/
def groupPrefix (s p : Bytes) : Option Bytes :=
  if s.length ≤ p.length ∨ s.getD p.length 0 ≠ dot ∨ s.take p.length ≠ p then none
  else some (s.drop (p.length + 1))

/-- The quota for new groups, from the caller's privileges or of the database. -/
def maxGroups (cdbr : SfsauthUserinfo) (dbp : Dbfile) : Except Fault (Option ℕ) :=
  match groupquotarx cdbr.privs with
  | some digits =>
      match convertint digits with
      | some n => .ok (some n.toNat)
      | none => .error .uninitialized
  | none => .ok (if 0 ≤ dbp.defaultGroupquota then some dbp.defaultGroupquota.toNat else none)

def mayCreateGroup (st : AuthdState) (i : UpdateInfo) (c : Cursor SfsauthGroupinfo) :
    Except Outcome Unit :=
  match groupPrefix c.dbr.name i.cdbr.name with
  | none | some [] =>
      .error (.reply (.error (ascii "group name must be of the form `" ++ i.cdbr.name ++
        ascii ".groupname'")) st)
  | some _ =>
      match maxGroups i.cdbr c.dbp with
      | .error f => .error (.fault f)
      | .ok none => .ok ()
      | .ok (some max) =>
          match c.dbp.openDb false with
          | none => .error (.fault .nullPointer)
          | some recs =>
              let cur := countGroupPrefix recs (i.cdbr.name ++ [dot])
              if cur + 1 > max then
                .error (.reply (.error (ascii "group quota exceeded (current=" ++
                  ascii (toString cur) ++ ascii "/quota=" ++ ascii (toString max) ++
                  ascii ")")) st)
              else .ok ()

variable (site : Site) (st : AuthdState) (i : UpdateInfo)

/-- Whether the caller may change a group that exists. -/
def mayChangeGroup (c : Cursor SfsauthGroupinfo) : Except Outcome Unit :=
  match (site.alloc i.cdbr.pubkey).bind Sfspub.getPubkeyHash with
  | none => .error (.fault .nullPointer)
  | some h =>
      if (groupPrefix c.dbr.name i.cdbr.name).isNone ∧
          isAMember site.dbcache i.cdbr.name (armor32 h.1) c.dbr.owners = false then
        .error (.refuse st "access denied")
      else .ok ()

/-- The checks of a caller who is not an administrator. -/
def mayUpdateGroup (admin create : Bool)
    (c : Cursor SfsauthGroupinfo) : Except Outcome Unit :=
  if admin then .ok ()
  else if create then mayCreateGroup st i c
  else mayChangeGroup site st i c

/-- The end of `update_group`. -/
def commitGroup (c : Cursor SfsauthGroupinfo)
    (g : SfsauthGroupinfo) : Outcome :=
  if g.vers < 1 then .refuse st "version number of record must be greater than 0"
  else if g.vers ≠ c.dbr.vers + 1 then .refuse st "version mismatch"
  else
    let audit := auditLine site st i
    let owners := processGroupUpdates c.dbr.owners g.owners
    let members := processGroupUpdates c.dbr.members g.members
    if site.writeGroupChangelog g.name g.vers members.2 audit = false then
      .refuse st "could not write changelog; database unmodified"
    else
      match st.write c.index c.dbp (.group { c.ae with
          vers := g.vers, audit := audit, owners := owners.1, members := members.1 }) with
      | none =>
          .refuse st "database refused update; see SFS documentation for correct syntax"
      | some st => .reply (.ok ()) st

def updateGroup (admin : Bool)
    (g : SfsauthGroupinfo) : Outcome :=
  let create := g.id = 0 ∧ g.vers = 1
  match getGroupCursor st.dbfiles (.name g.name) true create with
  | .error _ =>
      if create then .refuse st "no writable databases that accept group updates"
      else .refuse st "perhaps record is read-only or database doesn't accept group updates"
  | .ok c =>
      match c.dbp.grprange with
      | none => .fault .nullPointer
      | some r =>
          if create ∧ r.idMax < c.dbr.id then
            .reply (.error (ascii "all group IDs in the allowed range (" ++
              ascii (toString r.idMin) ++ ascii "-" ++ ascii (toString r.idMax) ++
              ascii ") are in use")) st
          else if create ∧ c.dbr.vers ≠ 0 then
            .reply (.error (ascii "group `" ++ c.dbr.name ++ ascii "'already exists")) st
          else
            match mayUpdateGroup site st i admin create c with
            | .error o => o
            | .ok () => commitGroup site st i c g

def sfsauthUpdate (site : Site) (st : AuthdState) (aui : ℕ) (arg : SfsauthUpdateArg) : Outcome :=
  match updateInfo site st aui arg with
  | .error o => o
  | .ok i =>
      match updateChecksig site st i with
      | .error o => o
      | .ok admin =>
          match arg.req.dbrec with
          | .user u => updateUser site st i admin u
          | .group g => updateGroup site st i admin g
          | _ => .refuse st "invalid request"

end

open Foundations Rpc List Option

/-- No record is changed but the one under one key of one database, which is then the only
one under its key. -/
structure TouchesOnly (st st' : AuthdState) (index : ℕ) (r : SfsauthDbrec) : Prop where
  others : ∀ j ≠ index, st'.dbfiles[j]? = st.dbfiles[j]?
  here : ∃ dbp recs, st.dbfiles[index]? = some dbp ∧
    st'.dbfiles[index]? = some { dbp with records := recs } ∧ r ∈ recs ∧
    (∀ r' ∈ recs, sameKey r r' = true → r' = r) ∧
    ∀ r', sameKey r r' = false → (r' ∈ recs ↔ r' ∈ dbp.records)

/-- The login under a number, and the record of its user. -/
structure IsCaller (site : Site) (st : AuthdState) (aui : ℕ) (cred : SfsUnixcred) (ur : Urec)
    (c : Cursor SfsauthUserinfo) : Prop where
  entered : st.clnt.serv.credtab[aui]? = some (.unixcred cred)
  login : st.clnt.utab aui = some ur
  record : getUserCursor site.toHost st.dbfiles (.name cred.username) false = .ok c
  name : c.dbr.name = cred.username
  uid : c.dbr.id = cred.uid

/-- The request is signed with the caller's registered key, or was made in a password login
to a database that allows it. -/
def Vouched (site : Site) (arg : SfsauthUpdateArg) (ur : Urec) (c : Cursor SfsauthUserinfo) :
    Prop :=
  (∃ sig, arg.authsig = some sig ∧ site.Accepts c.dbr.pubkey sig (site.xdrUpdatereq arg.req)) ∨
  (c.dbp.allowUnixPwd = true ∧ ur.authtype = .unixpwauth)

/-- The caller acts as an administrator, which takes a signature. -/
def AsAdmin (arg : SfsauthUpdateArg) (c : Cursor SfsauthUserinfo) : Prop :=
  c.dbp.allowAdmin = true ∧ adminrx c.dbr.privs = true ∧ arg.authsig ≠ none

variable (site : Site)

/-- A change of the caller's own record to its next version, in which a new public key has
signed the request. -/
def OwnRecord (st st' : AuthdState) (arg : SfsauthUpdateArg)
    (c : Cursor SfsauthUserinfo) : Prop :=
  ∃ u t ae, arg.req.dbrec = .user u ∧
    getUserCursor site.toHost st.dbfiles (.name u.name) true = .ok t ∧
    t.dbr.name = c.dbr.name ∧ t.dbr.id = c.dbr.id ∧
    TouchesOnly st st' t.index (.user ae) ∧
    ae.name = t.ae.name ∧ ae.vers.toNat = t.ae.vers.toNat + 1 ∧
    ae.privs = t.ae.privs ∧ ae.owner = t.ae.owner ∧
    (ae.pubkey = t.ae.pubkey ∨
      ∃ sig, arg.newsig = some sig ∧ site.Accepts ae.pubkey sig (site.xdrUpdatereq arg.req))

/-- The group is named after the caller, or the caller is among its owners. -/
def GroupOf (caller : SfsauthUserinfo) (g : SfsauthGroupinfo) : Prop :=
  (∃ rest, g.name = caller.name ++ dot :: rest) ∨
    InClosure site.dbcache g.owners (addMemberType caller.name (ascii "u")) ∨
    ∃ pk h, site.alloc caller.pubkey = some pk ∧ pk.getPubkeyHash = some h ∧
      InClosure site.dbcache g.owners (addMemberType (armor32 h.1) (ascii "p"))

def OwnGroup (st st' : AuthdState) (arg : SfsauthUpdateArg)
    (c : Cursor SfsauthUserinfo) : Prop :=
  ∃ g t gi, arg.req.dbrec = .group g ∧
    getGroupCursor st.dbfiles (.name g.name) true (g.id = 0 ∧ g.vers = 1) = .ok t ∧
    TouchesOnly st st' t.index (.group gi) ∧ gi.name = t.ae.name ∧ GroupOf site c.dbr t.dbr

/-- A committed change was made for this session by a caller who may make it. -/
def Authorized (st st' : AuthdState) (aui : ℕ) (arg : SfsauthUpdateArg) : Prop :=
  ∃ cred ur c, IsCaller site st aui cred ur c ∧ arg.req.authid = st.clnt.serv.authid ∧
    Vouched site arg ur c ∧
    (AsAdmin arg c ∨ OwnRecord site st st' arg c ∨ OwnGroup site st st' arg c)

/-- What is expected of an update call. -/
structure UpdateSound (site : Site) (st : AuthdState) (aui : ℕ) (arg : SfsauthUpdateArg) :
    Prop where
  noMisread : sfsauthUpdate site st aui arg ≠ .fault .misread
  refused : ∀ errmsg st', sfsauthUpdate site st aui arg = .reply (.error errmsg) st' →
    st'.dbfiles = st.dbfiles
  authorized : ∀ st', sfsauthUpdate site st aui arg = .reply (.ok ()) st' →
    Authorized site st st' aui arg

section Records

variable {r r' : SfsauthDbrec} {st st' : AuthdState} {index : ℕ}

/-- What `putRecord` leaves in the database. -/
theorem mem_putRecord {recs : List SfsauthDbrec} (h : r' ∈ putRecord recs r) :
    r' = r ∨ (sameKey r r' = false ∧ r' ∈ recs) := by
  unfold putRecord at h
  split_ifs at h with hany
  · obtain ⟨s, hs, rfl⟩ := List.mem_map.mp h
    by_cases hk : sameKey r s = true
    · rw [if_pos hk]
      exact .inl rfl
    · rw [if_neg hk]
      exact .inr ⟨Bool.eq_false_iff.mpr hk, hs⟩
  · rcases mem_append.mp h with h | h
    · have hk : ∀ s ∈ recs, ¬ sameKey r s = true := by simpa using hany
      exact .inr ⟨Bool.eq_false_iff.mpr (hk r' h), h⟩
    · exact .inl (mem_singleton.mp h)

theorem mem_putRecord_self (recs : List SfsauthDbrec) (r : SfsauthDbrec) :
    r ∈ putRecord recs r := by
  unfold putRecord
  split_ifs with hany
  · obtain ⟨s, hs, hk⟩ := List.any_eq_true.mp hany
    exact List.mem_map.mpr ⟨s, hs, if_pos hk⟩
  · exact mem_append_right _ (mem_singleton.mpr rfl)

theorem mem_putRecord_of_ne {recs : List SfsauthDbrec} (hk : sameKey r r' = false) (h : r' ∈ recs) :
    r' ∈ putRecord recs r := by
  unfold putRecord
  split_ifs
  · exact List.mem_map.mpr ⟨r', h, by simp [hk]⟩
  · exact mem_append_left _ h

section Search

variable {β : Type} {f : SfsauthDbrec → Option β} {recs : List SfsauthDbrec} {r : SfsauthDbrec}

theorem findSome?_putRecord_self {b : β} (hr : f r = some b)
    (hf : ∀ r', sameKey r r' = false → f r' = none) : (putRecord recs r).findSome? f = some b := by
  obtain ⟨b', hb'⟩ := isSome_iff_exists.mp
    (List.findSome?_isSome_iff.mpr ⟨r, mem_putRecord_self recs r, isSome_of_mem hr⟩)
  obtain ⟨s, hs, hsome⟩ := List.exists_of_findSome?_eq_some hb'
  rcases mem_putRecord hs with rfl | ⟨hne, -⟩
  · rw [hb', ← hsome, hr]
  · rw [hf s hne] at hsome
    exact nomatch hsome

end Search

theorem dbfiles_of_write {dbp : Dbfile} (h : st.write index dbp r = some st') :
    st'.dbfiles = st.dbfiles.set index { dbp with records := putRecord dbp.records r } := by
  unfold AuthdState.write at h
  split_ifs at h
  obtain rfl := some.inj h
  rfl

theorem touchesOnly_of_write {st1 : AuthdState} {dbp : Dbfile} (hself : sameKey r r = true)
    (hmem : st.dbfiles[index]? = some dbp) (hst : st1.dbfiles = st.dbfiles)
    (h : st1.write index dbp r = some st') : TouchesOnly st st' index r := by
  have hfiles := dbfiles_of_write h
  rw [hst] at hfiles
  obtain ⟨hlt, -⟩ := List.getElem?_eq_some_iff.mp hmem
  constructor
  · intro j hj
    rw [hfiles, List.getElem?_set_ne hj.symm]
  · refine ⟨dbp, putRecord dbp.records r, hmem, ?_, mem_putRecord_self _ r, ?_, ?_⟩
    · rw [hfiles, List.getElem?_set_self hlt]
    · intro r' hr' hk
      rcases mem_putRecord hr' with heq | ⟨hne, -⟩
      · exact heq
      · rw [hk] at hne
        exact nomatch hne
    · intro r' hk
      constructor
      · intro hr'
        rcases mem_putRecord hr' with rfl | ⟨-, hin⟩
        · rw [hself] at hk
          exact nomatch hk
        · exact hin
      · exact mem_putRecord_of_ne hk

theorem TouchesOnly.unique (h : TouchesOnly st st' index r) (h' : TouchesOnly st st' index r')
    (hk : sameKey r r' = true) : r' = r := by
  obtain ⟨dbp, recs, -, hrecs, -, honly, -⟩ := h.here
  obtain ⟨dbp', recs', -, hrecs', hmem, -, -⟩ := h'.here
  rw [hrecs] at hrecs'
  obtain ⟨-, rfl⟩ : dbp = dbp ∧ recs = recs' := by
    have hfiles := some.inj hrecs'
    exact ⟨rfl, congrArg Dbfile.records hfiles⟩
  exact honly r' hmem hk

end Records

section Checks

/-- The outcome reads no record as one of another type, a refusal leaves the databases as
they were, and what is committed has a property. -/
structure Outcome.CommitsOnly (st : AuthdState) (P : AuthdState → Prop) (o : Outcome) : Prop where
  noMisread : o ≠ .fault .misread
  refused : ∀ errmsg st', o = .reply (.error errmsg) st' → st'.dbfiles = st.dbfiles
  committed : ∀ st', o = .reply (.ok ()) st' → P st'

/-- The outcome commits nothing. -/
def Outcome.Harmless (st : AuthdState) (o : Outcome) : Prop := o.CommitsOnly st fun _ => False

theorem Outcome.CommitsOnly.imp {st : AuthdState} {P Q : AuthdState → Prop} {o : Outcome}
    (hPQ : ∀ st', P st' → Q st') (h : o.CommitsOnly st P) : o.CommitsOnly st Q :=
  ⟨h.noMisread, h.refused, fun st' hst => hPQ st' (h.committed st' hst)⟩

theorem Outcome.Harmless.commitsOnly {st : AuthdState} {o : Outcome} (h : o.Harmless st)
    (P : AuthdState → Prop) : o.CommitsOnly st P :=
  Outcome.CommitsOnly.imp (fun _ hfalse => hfalse.elim) h

theorem harmless_reject (st : AuthdState) : Outcome.Harmless st .reject := ⟨nofun, nofun, nofun⟩

theorem harmless_error {st st1 : AuthdState} (h : st1.dbfiles = st.dbfiles) (errmsg : Bytes) :
    Outcome.Harmless st (.reply (.error errmsg) st1) := by
  refine ⟨nofun, ?_, nofun⟩
  rintro _ _ ⟨⟩
  exact h

theorem harmless_refuse (st : AuthdState) (errmsg : String) :
    (Outcome.refuse st errmsg).Harmless st :=
  harmless_error rfl _

theorem harmless_fault (st : AuthdState) {f : Fault} (h : f ≠ .misread) :
    Outcome.Harmless st (.fault f) :=
  ⟨fun heq => h (Outcome.fault.inj heq), nofun, nofun⟩

theorem commitsOnly_ok {st st1 : AuthdState} {P : AuthdState → Prop} (h : P st1) :
    Outcome.CommitsOnly st P (.reply (.ok ()) st1) := by
  refine ⟨nofun, nofun, ?_⟩
  rintro _ ⟨⟩
  exact h

variable {site : Site} {st : AuthdState} {aui : ℕ} {arg : SfsauthUpdateArg} {i : UpdateInfo}

/-- An update request of a caller, for this session, with a record of a user or a group. -/
structure InfoOk (site : Site) (st : AuthdState) (aui : ℕ) (arg : SfsauthUpdateArg)
    (i : UpdateInfo) (c : Cursor SfsauthUserinfo) : Prop where
  caller : IsCaller site st aui i.cred i.ur c
  authtype : i.ur.authtype ≠ .noauth
  request : arg.req.type = .updatereq
  authid : arg.req.authid = st.clnt.serv.authid
  type : (∃ u, arg.req.dbrec = .user u) ∨ ∃ g, arg.req.dbrec = .group g
  info : i.arg = arg ∧ i.cdbp = c.dbp ∧ i.cdbr = c.dbr
  number : i.aui = aui
  admin : i.admin = (c.dbp.allowAdmin && adminrx c.dbr.privs)

/-- A check either fails harmlessly or establishes something. -/
def Checks {α : Type} (st : AuthdState) (P : α → Prop) : Except Outcome α → Prop
  | .error o => o.Harmless st
  | .ok a => P a

theorem Checks.imp {α : Type} {P Q : α → Prop} {r : Except Outcome α} (hPQ : ∀ a, P a → Q a)
    (h : Checks st P r) : Checks st Q r := by
  cases r with
  | error o => exact h
  | ok a => exact hPQ a h

theorem updateInfo_checks (site : Site) (st : AuthdState) (aui : ℕ) (arg : SfsauthUpdateArg) :
    Checks st (fun i => ∃ c, InfoOk site st aui arg i c) (updateInfo site st aui arg) := by
  unfold updateInfo
  split
  · rename_i cred ur hcred hur
    split
    · exact harmless_reject _
    rename_i hauth
    split
    · exact harmless_refuse _ _
    rename_i c hc
    split
    · exact harmless_refuse _ _
    rename_i hname
    split
    · exact harmless_refuse _ _
    rename_i huid
    split
    · exact harmless_refuse _ _
    rename_i hreq
    have hcaller : IsCaller site st aui cred ur c :=
      ⟨hcred, hur, hc, (not_not.mp hname).symm, (not_not.mp huid).symm⟩
    split
    · rename_i u hrec
      split
      · exact harmless_refuse _ _
      · rename_i hid
        exact ⟨c, hcaller, hauth, not_not.mp hreq, not_not.mp hid, .inl ⟨u, hrec⟩,
          ⟨rfl, rfl, rfl⟩, rfl, rfl⟩
    · rename_i g hrec
      split
      · exact harmless_refuse _ _
      · rename_i hid
        exact ⟨c, hcaller, hauth, not_not.mp hreq, not_not.mp hid, .inr ⟨g, hrec⟩,
          ⟨rfl, rfl, rfl⟩, rfl, rfl⟩
    · exact harmless_refuse _ _
  · exact harmless_reject _

variable {c : Cursor SfsauthUserinfo}

theorem InfoOk.updateInfo_eq (h : InfoOk site st aui arg i c) :
    updateInfo site st aui arg = .ok i := by
  obtain ⟨⟨hentered, hlogin, hrecord, hname, huid⟩, hauth, hreq, hauthid, htype,
    ⟨harg, hcdbp, hcdbr⟩, hnumber, hadmin⟩ := h
  have hi : i =
      ⟨aui, arg, i.cred, i.ur, c.dbp, c.dbr, c.dbp.allowAdmin && adminrx c.dbr.privs⟩ := by
    rw [← hadmin, ← harg, ← hcdbp, ← hcdbr, ← hnumber]
  rcases htype with ⟨u, hrec⟩ | ⟨g, hrec⟩ <;> rw [hi] <;>
    simp [updateInfo, hentered, hlogin, hauth, hrecord, hname, huid, hreq, hrec, hauthid]

/-- The new key has signed the request, or none is needed. -/
def NewsigOk (site : Site) (i : UpdateInfo) : Prop :=
  (∃ sig u, i.arg.newsig = some sig ∧ i.arg.req.dbrec = .user u ∧
    site.Accepts u.pubkey sig (site.xdrUpdatereq i.arg.req)) ∨
  (i.arg.newsig = none ∧ (hasOpt i.arg.req.opts supKppk = true ∨ i.admin = true))

theorem checkNewsig_checks (hrec : ∀ g, i.arg.req.dbrec = .group g → i.arg.newsig = none)
    (htype : (∃ u, i.arg.req.dbrec = .user u) ∨ ∃ g, i.arg.req.dbrec = .group g) :
    Checks st (fun _ => NewsigOk site i) (checkNewsig site st i) := by
  unfold checkNewsig
  split
  · rename_i sig hsig
    rcases htype with ⟨u, hu⟩ | ⟨g, hg⟩
    · rw [hu]
      dsimp only
      split
      · exact harmless_error rfl _
      · rename_i hacc
        exact .inl ⟨sig, u, hsig, hu, hacc⟩
    · rw [hrec g hg] at hsig
      exact nomatch hsig
  · rename_i hsig
    split
    · exact harmless_refuse _ _
    · rename_i hopt
      refine .inr ⟨hsig, ?_⟩
      rw [not_and_or, Bool.not_eq_false, Bool.not_eq_false] at hopt
      exact hopt

theorem checkNewsig_misread {g : SfsauthGroupinfo} (hrec : i.arg.req.dbrec = .group g)
    (hsig : i.arg.newsig ≠ none) : checkNewsig site st i = .error (.fault .misread) := by
  obtain ⟨sig, hsome⟩ := Option.ne_none_iff_exists'.mp hsig
  simp only [checkNewsig, hsome, hrec]

/-- What a valid signature of the caller, or a password login, leaves of the privilege. -/
def AuthsigOk (site : Site) (i : UpdateInfo) (admin : Bool) : Prop :=
  (∃ sig, i.arg.authsig = some sig ∧
    site.Accepts i.cdbr.pubkey sig (site.xdrUpdatereq i.arg.req) ∧ admin = i.admin) ∨
  (i.arg.authsig = none ∧ i.cdbp.allowUnixPwd = true ∧ i.ur.authtype = .unixpwauth ∧ admin = false)

theorem checkAuthsig_checks : Checks st (AuthsigOk site i) (checkAuthsig site st i) := by
  unfold checkAuthsig
  split
  · rename_i sig hsig
    split
    · exact harmless_error rfl _
    · rename_i hacc
      exact .inl ⟨sig, hsig, hacc, rfl⟩
  · rename_i hsig
    split
    · exact harmless_refuse _ _
    · rename_i hpw
      rw [not_or, Bool.not_eq_false, not_not] at hpw
      exact .inr ⟨hsig, hpw.1, hpw.2, rfl⟩

theorem updateChecksig_checks (hrec : ∀ g, i.arg.req.dbrec = .group g → i.arg.newsig = none)
    (htype : (∃ u, i.arg.req.dbrec = .user u) ∨ ∃ g, i.arg.req.dbrec = .group g) :
    Checks st (fun admin => NewsigOk site i ∧ AuthsigOk site i admin)
      (updateChecksig site st i) := by
  have hnew : Checks st (fun _ => NewsigOk site i) (checkNewsig site st i) :=
    checkNewsig_checks hrec htype
  unfold updateChecksig
  split
  · rename_i o ho
    rw [ho] at hnew
    exact hnew
  · rename_i hok
    rw [hok] at hnew
    exact checkAuthsig_checks.imp fun admin hauth => ⟨hnew, hauth⟩

theorem AuthsigOk.vouched {admin : Bool} (h : AuthsigOk site i admin)
    (hinfo : InfoOk site st aui arg i c) : Vouched site arg i.ur c := by
  obtain ⟨harg, hcdbp, hcdbr⟩ := hinfo.info
  rw [AuthsigOk, harg, hcdbp, hcdbr] at h
  rcases h with ⟨sig, hsig, hacc, -⟩ | ⟨-, hpwd, hlogin, -⟩
  · exact .inl ⟨sig, hsig, hacc⟩
  · exact .inr ⟨hpwd, hlogin⟩

theorem AuthsigOk.asAdmin (h : AuthsigOk site i true) (hinfo : InfoOk site st aui arg i c) :
    AsAdmin arg c := by
  rcases h with ⟨sig, hsig, -, hadmin⟩ | ⟨-, -, -, hadmin⟩
  · rw [hinfo.admin, eq_comm, Bool.and_eq_true] at hadmin
    rw [hinfo.info.1] at hsig
    exact ⟨hadmin.1, hadmin.2, by simp [hsig]⟩
  · exact nomatch hadmin

end Checks

end SelfCertifyingFS.Authd
