import Sfs.Authd.Credentials

/-!
# Public-key login

`login_sigauth` of `sfsauthd/authclnt_login.C`: a certificate holds a signed
request, in the format of version 1, where the message is recovered from the
signature, or of version 2, where it stands beside it. The key of a certificate
is searched in the user databases. An ordinary request is answered with
credentials, an `SFS_SIGNED_AUTHREQ_NOCRED` with none.
-/

namespace SelfCertifyingFS.Authd

open Foundations Rpc Option

/-- What a login handler passes to its callback. -/
structure LoginReply where
  res : SfsauthLoginres
  atype : SfsAuthtype
  dbr : Option SfsauthDbrec
  deriving DecidableEq

def badauth (atype : SfsAuthtype) (msg : Option Bytes) (dbr : Option SfsauthDbrec) : LoginReply :=
  ⟨.bad (msg.getD (ascii "bad login")), atype, dbr⟩

/-- The record with which `badauth` reports a key. -/
def badKey (pub : Sfspub) : Option SfsauthDbrec :=
  pub.exportPubkey.map fun k =>
    .user { SfsauthUserinfo.empty with id := badid, gid := badid, pubkey := k }

def authreqValidate (lap : SfsauthLoginarg) (areq : SfsAuthreq2) (nocred : Bool) :
    Except Bytes Unit :=
  if areq.type ≠ .signedAuthreq ∧ (nocred = false ∨ areq.type = .signedAuthreqNocred) then
    .error (ascii "malformed authentication request (bad type)")
  else if areq.authid ≠ lap.authid then .error (ascii "bad authid in authentication request")
  else if areq.seqno ≠ lap.seqno then
    .error (ascii "sequence number mismatch in authentication request")
  else .ok ()

/-- The variables that both formats leave for the search of the databases. -/
structure SigLogin where
  vrfy : Sfspub
  mtype : SfsMsgtype
  logname : Option Bytes

/-- The login name in a version 1 request, which ends at the first zero byte. -/
def usrinfoName (usrinfo : Bytes) : Option Bytes :=
  if usrinfo.head? = some 0 then none else some (usrinfo.takeWhile (· ≠ 0))

/-- `sizeof (sfs_signed_authreq)`. -/
def sizeofSignedAuthreq : ℕ := 48

/-- The first half of `login_sigauth`, for version 1. -/
def checkAuthreq (host : Host) (lap : SfsauthLoginarg) (a : SfsAuthreq) :
    Except LoginReply SigLogin :=
  match host.allocRabin a.usrkey with
  | none => .error (badauth .authreq (some (ascii "cannot load public Rabin key")) none)
  | some vrfy =>
      match (vrfy.verifyR a.signedReq sizeofSignedAuthreq).bind (bytes2xdr xdrSignedAuthreq) with
      | none => .error (badauth .authreq (some (ascii "bad signature")) (badKey vrfy))
      | some req =>
          if (req.type ≠ .signedAuthreq ∧ req.type ≠ .signedAuthreqNocred) ∨
              req.seqno ≠ lap.seqno ∨ req.authid ≠ lap.authid then
            .error (badauth .authreq (some (ascii "bad signature")) (badKey vrfy))
          else .ok ⟨vrfy, req.type, usrinfoName req.usrinfo.1⟩

def nonempty (s : Bytes) : Option Bytes := if s = [] then none else some s

/-- The first half of `login_sigauth`, for version 2. -/
def checkSigauth (host : Host) (lap : SfsauthLoginarg) (a : SfsSigauth) :
    Except LoginReply SigLogin :=
  match host.alloc a.key with
  | none => .error (badauth .authreq2 (some (ascii "cannot load public key")) none)
  | some vrfy =>
      match vrfy.verify a.sig (xdrAuthreq2.put a.req) with
      | .error e => .error (badauth .authreq2 e (badKey vrfy))
      | .ok () =>
          match authreqValidate lap a.req true with
          | .error errmsg => .error ⟨.bad errmsg, .authreq2, none⟩
          | .ok () => .ok ⟨vrfy, a.req.type, nonempty a.req.user⟩

def checkCertificate (host : Host) (lap : SfsauthLoginarg) : SigAutharg →
    Except LoginReply SigLogin
  | .authreq a => checkAuthreq host lap a
  | .authreq2 a => checkSigauth host lap a

/-- The record of a key in a database, if the login name fits. The search also stops at a
record whose server key half belongs to the key. -/
def keyRecord (vrfy : Sfspub) (logname : Option Bytes) (dbp : Dbfile) : Option SfsauthUserinfo :=
  ((dbp.openDb false).bind (findUserPubkey · vrfy)).bind fun ae =>
    if logname.any (· ≠ dbp.qualify ae.name) then none
    else if vrfy.eqPubkey ae.pubkey then some ae
    else none

/-- The body of the loop of `login_sigauth`. -/
def tryDatabase (host : Host) (dbfiles : List Dbfile) (m : SigLogin) (dbp : Dbfile) :
    Option (List SfsauthCred × SfsauthUserinfo) :=
  (keyRecord m.vrfy m.logname dbp).bind fun ae =>
    if m.mtype = .signedAuthreqNocred then some ([.nocred], ae)
    else
      match setuser host dbfiles ae dbp with
      | .error _ => none
      | .ok cred =>
          some (setuserGroups host (some (ae, dbp)) m.vrfy
            (setuserPkhash m.vrfy [.unixcred cred]), ae)

/-- The second half of `login_sigauth`. -/
def searchDatabases (host : Host) (dbfiles : List Dbfile) (atype : SfsAuthtype) (m : SigLogin) :
    LoginReply :=
  match dbfiles.findSome? (tryDatabase host dbfiles m) with
  | some (creds, ae) => ⟨.ok creds [] [], atype, some (.user ae)⟩
  | none =>
      if m.mtype ≠ .signedAuthreqNocred then
        ⟨.ok (setuserGroups host none m.vrfy (setuserPkhash m.vrfy [])) [] [], atype, none⟩
      else
        badauth atype (some (ascii "signed login of type AUTHREQ_NOCRED")) (badKey m.vrfy)

def loginSigauth (host : Host) (dbfiles : List Dbfile) (lap : SfsauthLoginarg)
    (aap : SigAutharg) : LoginReply :=
  match checkCertificate host lap aap with
  | .error reply => reply
  | .ok m => searchDatabases host dbfiles aap.type m

section Soundness

/-- A signed request, with the key that accepts it. -/
structure SignedRequest where
  type : SfsMsgtype
  authid : SfsHash
  seqno : UInt64
  logname : Option Bytes
  key : Sfspub

/-- The request in a certificate whose signature the verifier accepts. -/
def acceptedRequest (host : Host) : SigAutharg → Option SignedRequest
  | .authreq a =>
      (host.allocRabin a.usrkey).bind fun vrfy =>
        ((vrfy.verifyR a.signedReq sizeofSignedAuthreq).bind (bytes2xdr xdrSignedAuthreq)).map
          fun req => ⟨req.type, req.authid, req.seqno, usrinfoName req.usrinfo.1, vrfy⟩
  | .authreq2 a =>
      (host.alloc a.key).bind fun vrfy =>
        match vrfy.verify a.sig (xdrAuthreq2.put a.req) with
        | .error _ => none
        | .ok () => some ⟨a.req.type, a.req.authid, a.req.seqno, nonempty a.req.user, vrfy⟩

namespace SignedRequest

variable (m : SignedRequest)

/-- The request was made for this session and this login. -/
def FitsLogin (lap : SfsauthLoginarg) : Prop :=
  m.authid = lap.authid ∧ m.seqno = lap.seqno

/-- Some database holds the key, under the login name if there is one. -/
def Registered (dbfiles : List Dbfile) : Prop :=
  ∃ dbp ∈ dbfiles, ∃ ae, keyRecord m.key m.logname dbp = some ae

/-- The requests that the first half of `login_sigauth` lets pass. -/
def Passes (lap : SfsauthLoginarg) (aap : SigAutharg) : Prop :=
  m.FitsLogin lap ∧
    match aap with
    | .authreq _ => m.type = .signedAuthreq ∨ m.type = .signedAuthreqNocred
    | .authreq2 _ => m.type ≠ .signedAuthreqNocred

end SignedRequest

/-- Credentials for a user, a group or a key were granted. -/
def Grants (res : SfsauthLoginres) : Prop :=
  ∃ creds resmore hello, res = .ok creds resmore hello ∧ ∃ c ∈ creds, c ≠ .nocred

/-- What a login with a valid signature may lead to. -/
structure LoginSound (host : Host) (dbfiles : List Dbfile) (lap : SfsauthLoginarg)
    (aap : SigAutharg) (m : SignedRequest) : Prop where
  granted : Grants (loginSigauth host dbfiles lap aap).res →
    m.type = .signedAuthreq ∧ m.FitsLogin lap
  nocred : m.type = .signedAuthreqNocred → m.FitsLogin lap → m.Registered dbfiles →
    (loginSigauth host dbfiles lap aap).res = .ok [.nocred] [] []
  other : m.type ≠ .signedAuthreq → m.type ≠ .signedAuthreqNocred →
    ∃ errmsg, (loginSigauth host dbfiles lap aap).res = .bad errmsg

variable {host : Host} {dbfiles : List Dbfile} {lap : SfsauthLoginarg} {aap : SigAutharg}
  {m : SignedRequest}

theorem authreqValidate_ok_iff {areq : SfsAuthreq2} :
    authreqValidate lap areq true = .ok () ↔
      areq.type ≠ .signedAuthreqNocred ∧ areq.authid = lap.authid ∧ areq.seqno = lap.seqno := by
  unfold authreqValidate
  by_cases htype : areq.type = .signedAuthreqNocred
  · simp [htype]
  · by_cases hid : areq.authid = lap.authid <;> by_cases hseq : areq.seqno = lap.seqno <;>
      simp [htype, hid]

/-- The first half of `login_sigauth` on a certificate with a valid signature. -/
theorem checkCertificate_of_accepted (lap : SfsauthLoginarg)
    (h : acceptedRequest host aap = some m) :
    (m.Passes lap aap ∧ checkCertificate host lap aap = .ok ⟨m.key, m.type, m.logname⟩) ∨
      (¬ m.Passes lap aap ∧
        ∃ reply errmsg, checkCertificate host lap aap = .error reply ∧
          reply.res = .bad errmsg) := by
  cases aap with
  | authreq a =>
    obtain ⟨vrfy, halloc, h⟩ := bind_eq_some_iff.mp h
    obtain ⟨req, hreq, rfl⟩ := map_eq_some_iff.mp h
    simp only [checkCertificate, checkAuthreq, halloc, hreq, SignedRequest.Passes,
      SignedRequest.FitsLogin]
    split_ifs with hbad
    · exact .inr ⟨by tauto, _, _, rfl, rfl⟩
    · exact .inl ⟨by tauto, rfl⟩
  | authreq2 a =>
    obtain ⟨vrfy, halloc, h⟩ := bind_eq_some_iff.mp h
    cases hsig : vrfy.verify a.sig (xdrAuthreq2.put a.req) with
    | error e => simp [hsig] at h
    | ok u =>
      obtain rfl : _ = m := by simpa [hsig] using h
      have hiff : authreqValidate lap a.req true = .ok () ↔ _ := authreqValidate_ok_iff
      cases hval : authreqValidate lap a.req true with
      | error errmsg =>
        refine .inr ⟨?_, ⟨.bad errmsg, .authreq2, none⟩, errmsg, ?_, rfl⟩
        · rintro ⟨⟨hid, hseq⟩, htype⟩
          exact nomatch hval.symm.trans (hiff.mpr ⟨htype, hid, hseq⟩)
        · simp [checkCertificate, checkSigauth, halloc, hsig, hval]
      | ok u =>
        obtain ⟨htype, hid, hseq⟩ := hiff.mp hval
        exact .inl ⟨⟨⟨hid, hseq⟩, htype⟩, by
          simp [checkCertificate, checkSigauth, halloc, hsig, hval]⟩

/-- A request of another type than `SFS_SIGNED_AUTHREQ_NOCRED` is never turned down. -/
theorem searchDatabases_of_creds {l : SigLogin} (h : l.mtype ≠ .signedAuthreqNocred)
    (atype : SfsAuthtype) :
    ∃ creds, (searchDatabases host dbfiles atype l).res = .ok creds [] [] := by
  unfold searchDatabases
  cases dbfiles.findSome? (tryDatabase host dbfiles l) with
  | some r => exact ⟨r.1, rfl⟩
  | none =>
    rw [if_pos h]
    exact ⟨_, rfl⟩

theorem tryDatabase_of_nocred {l : SigLogin} (h : l.mtype = .signedAuthreqNocred)
    (dbp : Dbfile) :
    tryDatabase host dbfiles l dbp =
      (keyRecord l.vrfy l.logname dbp).map fun ae => ([.nocred], ae) := by
  unfold tryDatabase
  cases keyRecord l.vrfy l.logname dbp with
  | none => rfl
  | some ae =>
    rw [bind_some, if_pos h]
    rfl

theorem searchDatabases_of_registered (hm : m.type = .signedAuthreqNocred)
    (hreg : m.Registered dbfiles) (atype : SfsAuthtype) :
    (searchDatabases host dbfiles atype ⟨m.key, m.type, m.logname⟩).res = .ok [.nocred] [] [] := by
  unfold searchDatabases
  obtain ⟨dbp, hdbp, ae, hae⟩ := hreg
  cases hfind : dbfiles.findSome? (tryDatabase host dbfiles ⟨m.key, m.type, m.logname⟩) with
  | none =>
    have hnone := List.findSome?_eq_none_iff.mp hfind dbp hdbp
    rw [tryDatabase_of_nocred hm, hae] at hnone
    exact nomatch hnone
  | some r =>
    obtain ⟨dbp', -, hr⟩ := List.exists_of_findSome?_eq_some hfind
    rw [tryDatabase_of_nocred hm] at hr
    obtain ⟨ae', -, rfl⟩ := map_eq_some_iff.mp hr
    rfl

theorem searchDatabases_of_unregistered (hm : m.type = .signedAuthreqNocred)
    (hreg : ¬ m.Registered dbfiles) (atype : SfsAuthtype) :
    ∃ errmsg,
      (searchDatabases host dbfiles atype ⟨m.key, m.type, m.logname⟩).res = .bad errmsg := by
  have hfind : dbfiles.findSome? (tryDatabase host dbfiles ⟨m.key, m.type, m.logname⟩) = none := by
    apply List.findSome?_eq_none_iff.mpr
    intro dbp hdbp
    rw [tryDatabase_of_nocred hm, map_eq_none_iff, eq_none_iff_forall_not_mem]
    intro ae hae
    exact hreg ⟨dbp, hdbp, ae, hae⟩
  unfold searchDatabases
  rw [hfind, hm]
  exact ⟨_, rfl⟩

variable {res : SfsauthLoginres}

theorem not_grants_of_nocred (h : res = .ok [.nocred] [] []) : ¬ Grants res := by
  rintro ⟨creds, resmore, hello, hres, c, hc, hne⟩
  obtain ⟨rfl, -, -⟩ := SfsauthLoginres.ok.inj (h.symm.trans hres)
  exact hne (List.mem_singleton.mp hc)

theorem not_grants_of_bad {errmsg : Bytes} (h : res = .bad errmsg) : ¬ Grants res := by
  rintro ⟨creds, resmore, hello, hres, -⟩
  exact nomatch h.symm.trans hres

section

variable (h : acceptedRequest host aap = some m)

include h

theorem loginSigauth_of_not_passes (dbfiles : List Dbfile) (hp : ¬ m.Passes lap aap) :
    ∃ errmsg, (loginSigauth host dbfiles lap aap).res = .bad errmsg := by
  rcases checkCertificate_of_accepted lap h with ⟨hpass, -⟩ | ⟨-, reply, errmsg, hc, hres⟩
  · exact absurd hpass hp
  · refine ⟨errmsg, ?_⟩
    rw [loginSigauth, hc]
    exact hres

theorem loginSigauth_of_passes (hp : m.Passes lap aap) :
    loginSigauth host dbfiles lap aap =
      searchDatabases host dbfiles aap.type ⟨m.key, m.type, m.logname⟩ := by
  rcases checkCertificate_of_accepted lap h with ⟨-, hc⟩ | ⟨hnot, -⟩
  · rw [loginSigauth, hc]
  · exact absurd hp hnot

/-- A request that is let pass leads to what it should unless its type is neither of the two. -/
theorem loginSound_of_passes (hp : m.Passes lap aap) :
    LoginSound host dbfiles lap aap m ↔
      m.type = .signedAuthreq ∨ m.type = .signedAuthreqNocred := by
  have hres : (loginSigauth host dbfiles lap aap).res = _ :=
    congrArg LoginReply.res (loginSigauth_of_passes h hp)
  by_cases hno : m.type = .signedAuthreqNocred
  · refine iff_of_true ?_ (.inr hno)
    by_cases hreg : m.Registered dbfiles
    · rw [searchDatabases_of_registered hno hreg] at hres
      exact ⟨fun hg => absurd hg (not_grants_of_nocred hres), fun _ _ _ => hres,
        fun _ hne => absurd hno hne⟩
    · obtain ⟨errmsg, hbad⟩ := searchDatabases_of_unregistered hno hreg aap.type
      exact ⟨fun hg => absurd hg (not_grants_of_bad (hres.trans hbad)),
        fun _ _ hreg' => absurd hreg' hreg, fun _ hne => absurd hno hne⟩
  · obtain ⟨creds, hok⟩ := searchDatabases_of_creds (l := ⟨m.key, m.type, m.logname⟩) hno aap.type
    by_cases ha : m.type = .signedAuthreq
    · exact iff_of_true ⟨fun _ => ⟨ha, hp.1⟩, fun hn => absurd hn hno, fun hne => absurd ha hne⟩
        (.inl ha)
    · refine iff_of_false ?_ (not_or.mpr ⟨ha, hno⟩)
      intro hs
      obtain ⟨errmsg, hbad⟩ := hs.other ha hno
      exact nomatch (hres.trans hok).symm.trans hbad

/-- A request that is turned down should have been, unless it asks for no credentials with a
registered key. -/
theorem loginSound_of_not_passes (hp : ¬ m.Passes lap aap) :
    LoginSound host dbfiles lap aap m ↔
      ¬ (m.type = .signedAuthreqNocred ∧ m.FitsLogin lap ∧ m.Registered dbfiles) := by
  obtain ⟨errmsg, hbad⟩ := loginSigauth_of_not_passes h dbfiles hp
  constructor
  · rintro hs ⟨hno, hfits, hreg⟩
    exact nomatch hbad.symm.trans (hs.nocred hno hfits hreg)
  · intro hnot
    exact ⟨fun hg => absurd hg (not_grants_of_bad hbad),
      fun hno hfits hreg => absurd ⟨hno, hfits, hreg⟩ hnot, fun _ _ => ⟨errmsg, hbad⟩⟩

end

/-- Logins with a valid signature are sound except in version 2, where a request for this
login goes wrong if its type is neither of the two, or if it asks for no credentials with a
registered key. -/
theorem login_sound_iff (h : acceptedRequest host aap = some m) :
    LoginSound host dbfiles lap aap m ↔
      ¬ (aap.type = .authreq2 ∧ m.FitsLogin lap ∧ m.type ≠ .signedAuthreq ∧
        (m.type = .signedAuthreqNocred → m.Registered dbfiles)) := by
  by_cases hp : m.Passes lap aap
  · rw [loginSound_of_passes h hp]
    obtain ⟨hfits, hcase⟩ := hp
    cases aap with
    | authreq a => simp [SigAutharg.type, hcase]
    | authreq2 a =>
      have hno : m.type ≠ .signedAuthreqNocred := hcase
      simp [SigAutharg.type, hfits, hno]
  · rw [loginSound_of_not_passes h hp]
    cases aap with
    | authreq a =>
      have hnot : ¬ (m.FitsLogin lap ∧
          (m.type = .signedAuthreq ∨ m.type = .signedAuthreqNocred)) := hp
      tauto
    | authreq2 a =>
      have hne : m.type = .signedAuthreqNocred → m.type ≠ .signedAuthreq := by
        intro hno
        rw [hno]
        decide
      tauto

/-- A key that accepts every signature, and knows itself by one encoding. -/
def sampleKey : Sfspub where
  verify _ _ := .ok ()
  verifyR _ _ := none
  exportPubkey := some (.rabin 5)
  getPubkeyHash := some zeroHash
  eqPubkey k := k = .rabin 5
  eqKeyhalf _ := false

def keyHost : Host := { smallHost with alloc _ := some sampleKey }

/-- The database in which the key belongs to `alice`. -/
def keySetup : List Dbfile := [smallDb none [.user { alice with pubkey := .rabin 5 }]]

def sampleLogin : SfsauthLoginarg := ⟨1, zeroHash⟩

/-- A version 2 certificate for the login, of any type. -/
def sampleCertificate (type : SfsMsgtype) : SigAutharg :=
  .authreq2 ⟨⟨type, sampleLogin.authid, sampleLogin.seqno, []⟩, .rabin 5, .rabin 0⟩

def sampleRequest (type : SfsMsgtype) : SignedRequest :=
  ⟨type, sampleLogin.authid, sampleLogin.seqno, none, sampleKey⟩

theorem login_sound_authreq :
    acceptedRequest keyHost (sampleCertificate .signedAuthreq) =
        some (sampleRequest .signedAuthreq) ∧
      LoginSound keyHost keySetup sampleLogin (sampleCertificate .signedAuthreq)
        (sampleRequest .signedAuthreq) :=
  ⟨rfl, (login_sound_iff rfl).mpr fun h => h.2.2.1 rfl⟩

/-- A signed update request is taken for a login and answered with credentials, while a
request for none is turned down. -/
theorem update_request_logs_in :
    (acceptedRequest keyHost (sampleCertificate .updatereq) = some (sampleRequest .updatereq) ∧
      (loginSigauth keyHost keySetup sampleLogin (sampleCertificate .updatereq)).res =
        .ok [.unixcred ⟨ascii "alice", ascii "/dev/null", ascii "/dev/null", 7, 7, []⟩,
          .pkcred (armor32 (List.replicate 20 0))] [] [] ∧
      ¬ LoginSound keyHost keySetup sampleLogin (sampleCertificate .updatereq)
        (sampleRequest .updatereq)) ∧
    (acceptedRequest keyHost (sampleCertificate .signedAuthreqNocred) =
        some (sampleRequest .signedAuthreqNocred) ∧
      (sampleRequest .signedAuthreqNocred).Registered keySetup ∧
      (loginSigauth keyHost keySetup sampleLogin (sampleCertificate .signedAuthreqNocred)).res =
        .bad (ascii "malformed authentication request (bad type)")) := by
  have hres : (loginSigauth keyHost keySetup sampleLogin (sampleCertificate .updatereq)).res =
      .ok [.unixcred ⟨ascii "alice", ascii "/dev/null", ascii "/dev/null", 7, 7, []⟩,
        .pkcred (armor32 (List.replicate 20 0))] [] [] := by
    decide
  refine ⟨⟨rfl, hres, ?_⟩, rfl, ?_, by decide⟩
  · intro hs
    obtain ⟨errmsg, hbad⟩ := hs.other (by decide) (by decide)
    exact nomatch hres.symm.trans hbad
  · exact ⟨_, List.mem_singleton.mpr rfl, { alice with pubkey := .rabin 5 }, by decide⟩

end Soundness

end SelfCertifyingFS.Authd
