import Sfs.Authd.UpdateSound
import Sfs.Crypt.Schnorr

/-!
# The server's key halves

`sfsauth_sign` of `sfsauthd/authclnt.C`: the server endorses a message with its half of a
user's key. The user is the one who is logged in; without a login only requests to log in to
the authentication server itself are answered. An update replaces the newest half and keeps
the ones before it; `update_user` takes the old halves from the record that `get_user_cursor`
reports, where a flag already stands in their place.
-/

namespace SelfCertifyingFS.Authd

section

open Foundations Rpc Crypt

/-- `sigreq2str`; every arm of the union has an encoding. -/
def sigreq2str (site : Site) : SfsauthSigreq → Option Bytes
  | .signedAuthreq a => some (xdrAuthreq2.put a)
  | .updatereq r => some (site.xdrUpdatereq r)
  | .null rnd => some rnd.1

def sigreqAuthidCmp (req : SfsauthSigreq) (authid : SfsHash) : Bool :=
  match req with
  | .signedAuthreq a => authid = a.authid
  | .updatereq r => authid = r.authid
  | .null _ => false

/-- `arg->req.type == SFS_NULL`. -/
def isNullRequest : SfsauthSigreq → Bool
  | .null _ => true
  | _ => false

/-- The login under which a request is made; number 0 is for none. -/
def AuthdState.login (st : AuthdState) (authno : ℕ) : Option Urec :=
  if authno = 0 then none else st.clnt.utab authno

/-- The requests that are answered without a login. -/
def restrictedSign (st : AuthdState) (arg : SfsauthSignArg) : Bool :=
  match arg.req with
  | .signedAuthreq a =>
      a.type = .signedAuthreqNocred ∧ arg.authinfo.service = .authserv ∧
        st.clnt.serv.authid = a.authid
  | _ => false

variable (site : Site) (st : AuthdState) (authno : ℕ) (arg : SfsauthSignArg)

/-- The key halves to choose from, and the user they belong to. Without a login they are read
from the record that a query reports. -/
def signKeyhalf :
    Option (SfsauthKeyhalf × Bytes) :=
  match st.login authno with
  | some ur => some (ur.kh, ur.uname)
  | none =>
      if restrictedSign st arg then
        match getUserCursor site.toHost st.dbfiles (.name arg.user) false with
        | .ok c => some (c.dbr.srvprivkey, c.dbr.name)
        | .error _ => none
      else none

/-- The checks of `sfsauth_sign`, with the key half, the message and the client's ephemeral
key that pass them. -/
def signChecks :
    Except String (Sfs2SchnorrPriv × Bytes × ℤ) :=
  match signKeyhalf site st authno arg with
  | some (.priv keys, uname) =>
      match arg.presig with
      | .bare _ => .error "Can only answer 2-Schnorr requests"
      | .schnorr2 r =>
          match site.find keys arg.pubkeyhash with
          | none => .error "No matching keyhalf found on server."
          | some spriv =>
              if (st.login authno).isSome ∧
                  st.sprivkTab.isValid (site.hashSprivk spriv) = false then
                .error "Server keyhalf is no longer valid."
              else
                match sigreq2str site arg.req with
                | none => .error "Cannot marshal signature request"
                | some msg =>
                    if isNullRequest arg.req = false ∧
                        sigreqAuthidCmp arg.req (site.sha1 arg.authinfo.xdr) = false then
                      .error "Incorrect authid in request"
                    else if site.siglog arg uname = false then
                      .error "Refusing to sign: could not log signature"
                    else .ok (spriv, msg, r)
  | _ => .error "No valid server private keyhalf for user"

/-- `sfsauth2_sign_res`, or undefined behaviour. -/
inductive SignRes
  | bad (errmsg : Bytes)
  | ok (sig : SfsSig2)
  | fault (f : Fault)
  deriving DecidableEq, Repr

/-- The answer with a key half, for the logarithm of the server's ephemeral key. What
`endorse_signature` refuses is answered with the numbers of an empty signature. -/
def endorsement (spriv : Sfs2SchnorrPriv) (kSrv : ℤ) (msg : Bytes) (r : ℤ) :
    SignRes :=
  match (SchnorrSrvPriv.mk spriv.p spriv.q spriv.g spriv.y spriv.x).endorseSignature site.sha1 kSrv
      msg r with
  | none => .fault .divideByZero
  | some none => .ok (.schnorr 0 0)
  | some (some (rSrv, sSrv)) => .ok (.schnorr rSrv sSrv)

def sfsauthSign (st : AuthdState) (authno : ℕ) (arg : SfsauthSignArg) (kSrv : ℤ) :
    SignRes :=
  match signChecks site st authno arg with
  | .error errmsg => .bad (ascii errmsg)
  | .ok (spriv, msg, r) => endorsement site spriv kSrv msg r

/-- A request to log in to the authentication server without credentials, for this session. -/
def IsNocredRequest (st : AuthdState) (arg : SfsauthSignArg) : Prop :=
  ∃ a, arg.req = .signedAuthreq a ∧ a.type = .signedAuthreqNocred ∧
    arg.authinfo.service = .authserv ∧ st.clnt.serv.authid = a.authid

/-- The key half belongs to the user who is logged in and is still valid, or there is no
login and the request needs none. -/
def MayEndorse (site : Site) (st : AuthdState) (authno : ℕ) (arg : SfsauthSignArg)
    (spriv : Sfs2SchnorrPriv) : Prop :=
  (∃ ur keys, st.login authno = some ur ∧ ur.kh = .priv keys ∧ spriv ∈ keys ∧
    st.sprivkTab.isValid (site.hashSprivk spriv) = true) ∨
  (st.login authno = none ∧ IsNocredRequest st arg)

/-- Without a login, a request that needs none names a user whose record holds a key half for
the public key; the session is the one that is asked for, and the request can be logged. -/
structure Answerable (site : Site) (st : AuthdState) (authno : ℕ) (arg : SfsauthSignArg)
    (c : Cursor SfsauthUserinfo) (spriv : Sfs2SchnorrPriv) (r : ℤ) : Prop where
  noLogin : st.login authno = none
  request : IsNocredRequest st arg
  user : getUserCursor site.toHost st.dbfiles (.name arg.user) false = .ok c
  holds : ∃ keys, c.ae.srvprivkey = .priv keys ∧ site.find keys arg.pubkeyhash = some spriv
  presig : arg.presig = .schnorr2 r
  authid : site.sha1 arg.authinfo.xdr = st.clnt.serv.authid
  logged : site.siglog arg c.dbr.name = true

/-- What is expected of a call of the signing service. -/
structure SignSound (site : Site) (st : AuthdState) (authno : ℕ) (arg : SfsauthSignArg) :
    Prop where
  endorsed : ∀ kSrv sig, sfsauthSign site st authno arg kSrv = .ok sig →
    ∃ spriv msg r, sigreq2str site arg.req = some msg ∧ arg.presig = .schnorr2 r ∧
      endorsement site spriv kSrv msg r = .ok sig ∧ MayEndorse site st authno arg spriv
  answered : ∀ c spriv r, Answerable site st authno arg c spriv r →
    ∀ kSrv, ∃ msg, sigreq2str site arg.req = some msg ∧
      sfsauthSign site st authno arg kSrv = endorsement site spriv kSrv msg r

section Checks

variable {site : Site} {st : AuthdState} {authno : ℕ} {arg : SfsauthSignArg}

/-- What a request has passed before it is endorsed. -/
structure SignOk (site : Site) (st : AuthdState) (authno : ℕ) (arg : SfsauthSignArg)
    (keys : List Sfs2SchnorrPriv) (spriv : Sfs2SchnorrPriv) (msg : Bytes) (r : ℤ) : Prop where
  keyhalf : ∃ uname, signKeyhalf site st authno arg = some (.priv keys, uname) ∧
    site.siglog arg uname = true
  presig : arg.presig = .schnorr2 r
  found : site.find keys arg.pubkeyhash = some spriv
  valid : (st.login authno).isSome = true → st.sprivkTab.isValid (site.hashSprivk spriv) = true
  message : sigreq2str site arg.req = some msg
  authid : isNullRequest arg.req = false →
    sigreqAuthidCmp arg.req (site.sha1 arg.authinfo.xdr) = true

theorem signOk_of_signChecks {spriv : Sfs2SchnorrPriv} {msg : Bytes} {r : ℤ}
    (h : signChecks site st authno arg = .ok (spriv, msg, r)) :
    ∃ keys, SignOk site st authno arg keys spriv msg r := by
  unfold signChecks at h
  split at h
  · rename_i keys uname hkeys
    split at h
    · exact nomatch h
    rename_i r' hpresig
    split at h
    · exact nomatch h
    rename_i spriv' hfound
    split at h
    · exact nomatch h
    rename_i hvalid
    split at h
    · exact nomatch h
    rename_i msg' hmsg
    split at h
    · exact nomatch h
    rename_i hauthid
    split at h
    · exact nomatch h
    rename_i hlog
    cases h
    refine ⟨keys, ⟨uname, hkeys, Bool.not_eq_false _ ▸ hlog⟩, hpresig, hfound, ?_, hmsg, ?_⟩
    · intro hlogin
      simpa [hlogin] using hvalid
    · intro hnull
      simpa [hnull] using hauthid
  · exact nomatch h

theorem isNocredRequest_of_restrictedSign (h : restrictedSign st arg = true) :
    IsNocredRequest st arg := by
  unfold restrictedSign at h
  split at h
  · rename_i a hreq
    exact ⟨a, hreq, of_decide_eq_true h⟩
  · exact nomatch h

theorem SignOk.mayEndorse {keys : List Sfs2SchnorrPriv} {spriv : Sfs2SchnorrPriv} {msg : Bytes}
    {r : ℤ} (h : SignOk site st authno arg keys spriv msg r) :
    MayEndorse site st authno arg spriv := by
  obtain ⟨uname, hkeys, -⟩ := h.keyhalf
  unfold signKeyhalf at hkeys
  cases hlogin : st.login authno with
  | some ur =>
    rw [hlogin] at hkeys
    have hkh : ur.kh = .priv keys := congrArg Prod.fst (Option.some.inj hkeys)
    exact .inl ⟨ur, keys, hlogin, hkh, List.mem_of_find?_eq_some h.found,
      h.valid (by rw [hlogin]; rfl)⟩
  | none =>
    rw [hlogin] at hkeys
    dsimp only at hkeys
    split at hkeys
    · rename_i hrestricted
      exact .inr ⟨hlogin, isNocredRequest_of_restrictedSign hrestricted⟩
    · exact nomatch hkeys

theorem reportUser_srvprivkey {dbp : Dbfile} {ae dbr : SfsauthUserinfo}
    (h : reportUser dbp ae = some dbr) (keys : List Sfs2SchnorrPriv) :
    dbr.srvprivkey ≠ .priv keys := by
  simp only [reportUser, Option.ite_none_left_eq_some, Option.some.injEq] at h
  rw [← h.2]
  dsimp only [aesanitize]
  split
  · rintro ⟨⟩
  · rintro ⟨⟩

/-- Without a login there is never a private key half to sign with: the record that is
reported only says whether there is one. -/
theorem signKeyhalf_of_noLogin (hlogin : st.login authno = none) {keys : List Sfs2SchnorrPriv}
    {uname : Bytes} : signKeyhalf site st authno arg ≠ some (.priv keys, uname) := by
  intro h
  unfold signKeyhalf at h
  rw [hlogin] at h
  dsimp only at h
  split at h
  · split at h
    · rename_i c hc
      have hreport := (userFound_of_getUserCursor hc).report
      exact reportUser_srvprivkey hreport keys (congrArg Prod.fst (Option.some.inj h))
    · exact nomatch h
  · exact nomatch h

theorem sfsauthSign_of_noLogin (hlogin : st.login authno = none) (kSrv : ℤ) :
    sfsauthSign site st authno arg kSrv =
      .bad (ascii "No valid server private keyhalf for user") := by
  have hchecks : signChecks site st authno arg =
      .error "No valid server private keyhalf for user" := by
    unfold signChecks
    split
    · rename_i keys uname hkeys
      exact absurd hkeys (signKeyhalf_of_noLogin hlogin)
    · rfl
  simp only [sfsauthSign, hchecks]

theorem endorsement_ne_bad (site : Site) (spriv : Sfs2SchnorrPriv) (kSrv : ℤ) (msg : Bytes) (r : ℤ)
    (errmsg : Bytes) : endorsement site spriv kSrv msg r ≠ .bad errmsg := by
  unfold endorsement
  split <;> exact nofun

end Checks

/-- The signing service keeps to its rules, and answers what it should, except that it never
answers a request without a login. -/
theorem sign_sound_iff (site : Site) (st : AuthdState) (authno : ℕ) (arg : SfsauthSignArg) :
    SignSound site st authno arg ↔ ¬ ∃ c spriv r, Answerable site st authno arg c spriv r := by
  constructor
  · rintro h ⟨c, spriv, r, hans⟩
    obtain ⟨msg, -, hanswer⟩ := h.answered c spriv r hans 0
    rw [sfsauthSign_of_noLogin hans.noLogin] at hanswer
    exact endorsement_ne_bad site spriv 0 msg r _ hanswer.symm
  · intro hno
    refine ⟨?_, fun c spriv r hans => absurd ⟨c, spriv, r, hans⟩ hno⟩
    intro kSrv sig hsig
    unfold sfsauthSign at hsig
    split at hsig
    · exact nomatch hsig
    · rename_i spriv msg r hchecks
      obtain ⟨keys, hok⟩ := signOk_of_signChecks hchecks
      exact ⟨spriv, msg, r, hok.message, hok.presig, hsig, hok.mayEndorse⟩

/-- The user's key half: the subgroup of order 3 of the integers modulo 7. -/
def sampleHalf : Sfs2SchnorrPriv := ⟨7, 3, 2, 1, 1, [], ascii "alice", []⟩

/-- A session without a login, and a database that holds the key half of a user. -/
def signSession : AuthdState where
  clnt := ⟨Server.SfsServ.new zeroHash, none, fun _ => none, []⟩
  dbfiles := [smallDb none [.user { alice with srvprivkey := .priv [sampleHalf] }]]
  sprivkTab _ := none

/-- A request to log in to the authentication server without credentials. -/
def nocredRequest : SfsauthSignArg where
  req := .signedAuthreq ⟨.signedAuthreqNocred, zeroHash, 0, ascii "alice"⟩
  authinfo := ⟨.authinfo, .authserv, [], zeroHash, zeroHash⟩
  presig := .schnorr2 2
  user := ascii "alice"
  pubkeyhash := zeroHash

/-- The request of a user whose record holds the key half is refused for want of one. -/
theorem nocred_request_refused :
    sfsauthSign sampleSite signSession 0 nocredRequest 1 =
        .bad (ascii "No valid server private keyhalf for user") ∧
      ¬ SignSound sampleSite signSession 0 nocredRequest := by
  have hrefused : sfsauthSign sampleSite signSession 0 nocredRequest 1 = _ :=
    sfsauthSign_of_noLogin rfl 1
  refine ⟨hrefused, fun h => ?_⟩
  have hans : Answerable sampleSite signSession 0 nocredRequest
      ⟨0, smallDb none [.user { alice with srvprivkey := .priv [sampleHalf] }],
        { alice with srvprivkey := .priv [sampleHalf] }, { alice with srvprivkey := .flag }⟩
      sampleHalf 2 :=
    { noLogin := rfl
      request := ⟨_, rfl, rfl, rfl, rfl⟩
      user := rfl
      holds := ⟨[sampleHalf], rfl, rfl⟩
      presig := rfl
      authid := rfl
      logged := rfl }
  obtain ⟨msg, -, hanswer⟩ := h.answered _ _ _ hans 1
  exact endorsement_ne_bad sampleSite sampleHalf 1 msg 2 _ hanswer.symm

end

open Foundations Rpc Server List Option

variable (old : List Sfs2SchnorrPriv)

/-- The halves that a request is to leave, nothing if it is to be refused. -/
def expectedHalves : SfsauthKeyhalf → Option (List Sfs2SchnorrPriv)
  | .none => some old
  | .delta d => old.head?.map fun o => { o with x := (o.x + d).tmod o.q } :: old.tail
  | .priv upd => upd.head?.map fun k => (k :: old).take sprivkHistoryLen
  | .flag => some old

/-- The stored halves are such that a request does what it should to them. -/
def HistoryKept : SfsauthKeyhalf → Prop
  | .none => True
  | .delta _ | .priv _ => old = []
  | .flag => old.length = 1

theorem setsize_one_eq_iff {keys : List Sfs2SchnorrPriv} :
    setsize keys 1 = keys ↔ keys.length = 1 := by
  constructor
  · intro h
    rw [← h, setsize, length_append, length_take, length_replicate]
    omega
  · intro h
    rw [setsize, h, take_of_length_le h.le, replicate_zero, append_nil]

theorem take_history_eq_iff {k : Sfs2SchnorrPriv} {old : List Sfs2SchnorrPriv} :
    (k :: old).take sprivkHistoryLen = [k] ↔ old = [] := by
  cases old with
  | nil | cons o os => simp [sprivkHistoryLen]

section Update

variable {site : Site} {st st' : AuthdState} {i : UpdateInfo} {admin : Bool}
  {u : SfsauthUserinfo} {c : Cursor SfsauthUserinfo}

/-- The request comes as far as the update of the key halves. -/
structure ReachesHalves (site : Site) (st : AuthdState) (i : UpdateInfo) (admin : Bool)
    (u : SfsauthUserinfo) (c : Cursor SfsauthUserinfo) : Prop where
  found : getUserCursor site.toHost st.dbfiles (.name u.name) true = .ok c
  own : admin = false → c.dbr.name = i.cdbr.name ∧ c.dbr.id = i.cdbr.id
  pos : 1 ≤ u.vers
  next : u.vers = c.dbr.vers + 1

def keyDeltaErr : Bytes := ascii "Cannot apply key delta: no key currently exists!"

/-- The halves that the database has for the user under a cursor. -/
def storedHalves (st : AuthdState) (c : Cursor SfsauthUserinfo) : Option (List Sfs2SchnorrPriv) :=
  st.dbfiles[c.index]?.bind fun dbp =>
    (findUserName dbp.records c.ae.name).map fun u => privOf u.srvprivkey

/-- What a session may do to the table of valid halves. -/
def SprivkStep (tab tab' : SprivkTab) : Prop :=
  ∃ h, tab' = tab.bind h ∨ tab' = tab.release h ∨ tab' = tab.invalidate h

/-- An accepted request leaves the halves that it should; a difference is refused only if there
is no half, and the half that it replaces is never valid again. -/
structure KeyhalvesRight (site : Site) (st : AuthdState) (i : UpdateInfo) (admin : Bool)
    (u : SfsauthUserinfo) (c : Cursor SfsauthUserinfo) : Prop where
  stored : ∀ st', updateUser site st i admin u = .reply (.ok ()) st' →
    storedHalves st' c = expectedHalves (privOf c.ae.srvprivkey) u.srvprivkey
  refused : ∀ d, u.srvprivkey = .delta d →
    updateUser site st i admin u = .reply (.error keyDeltaErr) st → privOf c.ae.srvprivkey = []
  replaced : ∀ d st', u.srvprivkey = .delta d →
    updateUser site st i admin u = .reply (.ok ()) st' →
      ∀ o ∈ (privOf c.ae.srvprivkey).head?, ∀ tab,
        Relation.ReflTransGen SprivkStep st'.sprivkTab tab → tab.isValid (site.hashSprivk o) = false

theorem privOf_reported (hc : getUserCursor site.toHost st.dbfiles (.name u.name) true = .ok c) :
    privOf c.dbr.srvprivkey = [] := by
  have hreport := reportUser_srvprivkey (userFound_of_getUserCursor hc).report
  cases hkh : c.dbr.srvprivkey with
  | priv keys => exact absurd hkh (hreport keys)
  | none | delta d | flag => rfl

theorem newKeyhalf_iff (hold : privOf c.dbr.srvprivkey = []) {kh : SfsauthKeyhalf} :
    NewKeyhalf site st c u kh ↔
      (u.srvprivkey = .none ∧ kh = c.ae.srvprivkey) ∨
        (∃ k ks, u.srvprivkey = .priv (k :: ks) ∧ kh = .priv [k]) ∨
          (u.srvprivkey = .flag ∧ kh = .priv (setsize (privOf c.ae.srvprivkey) 1)) := by
  unfold NewKeyhalf updateSrvKeyhalf
  rw [hold]
  rcases u.srvprivkey with _ | (_ | ⟨k, ks⟩) | d | _
  · simp
  · simp
  · simp
  · simp
  · simp

theorem exists_storedHalves (hc : getUserCursor site.toHost st.dbfiles (.name u.name) true = .ok c)
    (h : updateUser site st i admin u = .reply (.ok ()) st') :
    ∃ kh, storedHalves st' c = some (privOf kh) ∧ NewKeyhalf site st c u kh := by
  obtain ⟨c', st1, ae, ae', hcommit⟩ := updateUser_commitsOnly.committed st' h
  obtain rfl : c = c' := Except.ok.inj (hc.symm.trans hcommit.found)
  obtain ⟨kh, hkh, rfl⟩ := reviseUser_ok_iff.mp ⟨st1, hcommit.revise⟩
  have hkept : ae'.name = c.ae.name ∧ ae'.srvprivkey = kh := by
    have hfinal := hcommit.final
    unfold adminUser at hfinal
    split_ifs at hfinal
    · obtain ⟨gid, -, rfl⟩ := map_eq_some_iff.mp hfinal
      exact ⟨rfl, rfl⟩
    · obtain rfl := some.inj hfinal
      exact ⟨rfl, rfl⟩
  have hfind : findUserName (putRecord c.dbp.records (.user ae')) c.ae.name = some ae' := by
    apply findSome?_putRecord_self
    · exact if_pos (decide_eq_true hkept.1)
    · intro r hr
      cases r with
      | user v => exact if_neg (by simpa [sameKey, hkept.1, eq_comm] using hr)
      | _ => rfl
  obtain ⟨hlt, -⟩ := List.getElem?_eq_some_iff.mp (userFound_of_getUserCursor hc).mem
  refine ⟨kh, ?_, hkh⟩
  rw [storedHalves, dbfiles_of_write hcommit.write, hcommit.revised.dbfiles,
    List.getElem?_set_self hlt, bind_some, hfind, map_some, hkept.2]

/-- A difference is refused whatever is stored. -/
theorem updateUser_delta (h : ReachesHalves site st i admin u c) {d : ℤ}
    (hd : u.srvprivkey = .delta d) :
    updateUser site st i admin u = .reply (.error keyDeltaErr) st := by
  have hrev : reviseUser site st i c u = .error (.reply (.error keyDeltaErr) st) := by
    unfold reviseUser updateSrvKeyhalf
    rw [hd, privOf_reported h.found]
    rfl
  have hown : ¬ (admin = false ∧ (c.dbr.name ≠ i.cdbr.name ∨ c.dbr.id ≠ i.cdbr.id)) := by
    rintro ⟨hadmin, hne⟩
    obtain ⟨hname, hid⟩ := h.own hadmin
    exact hne.elim (absurd hname) (absurd hid)
  unfold updateUser
  rw [h.found]
  dsimp only
  rw [if_neg hown, if_neg (UInt32.not_lt.mpr h.pos), if_neg (not_not.mpr h.next), hrev]

/-- What an accepted request has done is right exactly if the history did not matter to it. -/
theorem expectedHalves_iff (hold : privOf c.dbr.srvprivkey = []) {kh : SfsauthKeyhalf}
    (h : NewKeyhalf site st c u kh) :
    expectedHalves (privOf c.ae.srvprivkey) u.srvprivkey = some (privOf kh) ↔
      HistoryKept (privOf c.ae.srvprivkey) u.srvprivkey := by
  rcases (newKeyhalf_iff hold).mp h with ⟨hu, rfl⟩ | ⟨k, ks, hu, rfl⟩ | ⟨hu, rfl⟩
  · rw [hu]
    exact iff_of_true rfl trivial
  · rw [hu]
    exact some_inj.trans take_history_eq_iff
  · rw [hu]
    exact some_inj.trans (eq_comm.trans setsize_one_eq_iff)

/-- The request is one that `update_srv_keyhalf` decides about: it is accepted, or it is a
difference. -/
def HalvesDecided (site : Site) (st : AuthdState) (i : UpdateInfo) (admin : Bool)
    (u : SfsauthUserinfo) : Prop :=
  (∃ st', updateUser site st i admin u = .reply (.ok ()) st') ∨ ∃ d, u.srvprivkey = .delta d

/-- For every request that comes as far as the halves: these are updated as they should be
exactly if the request does not depend on the ones that are stored. -/
theorem keyhalves_right_iff (site : Site) (st : AuthdState) (i : UpdateInfo) (admin : Bool)
    (u : SfsauthUserinfo) (c : Cursor SfsauthUserinfo) (hc : ReachesHalves site st i admin u c) :
    KeyhalvesRight site st i admin u c ↔
      (HalvesDecided site st i admin u → HistoryKept (privOf c.ae.srvprivkey) u.srvprivkey) := by
  have hold := privOf_reported hc.found
  constructor
  · rintro hright (⟨st', hok⟩ | ⟨d, hd⟩)
    · obtain ⟨kh, hkh, hnew⟩ := exists_storedHalves hc.found hok
      exact (expectedHalves_iff hold hnew).mp ((hright.stored st' hok).symm.trans hkh)
    · rw [hd]
      exact hright.refused d hd (updateUser_delta hc hd)
  · intro hkept
    constructor
    · intro st' hok
      obtain ⟨kh, hkh, hnew⟩ := exists_storedHalves hc.found hok
      exact hkh.trans ((expectedHalves_iff hold hnew).mpr (hkept (.inl ⟨st', hok⟩))).symm
    · intro d hd _
      have hempty := hkept (.inr ⟨d, hd⟩)
      rwa [hd] at hempty
    · intro d st' hd hok
      rw [updateUser_delta hc hd] at hok
      exact nomatch hok

end Update

/-- The session of an administrator who has the given halves at the server. -/
def halvesSession (halves : SfsauthKeyhalf) : AuthdState :=
  { adminSession with
    dbfiles := [{ adminDb with records := [.user { adminAlice with srvprivkey := halves }] }] }

/-- An update of the record to its second version. -/
def halfUpdate (half : SfsauthKeyhalf) : SfsauthUserinfo :=
  { adminAlice with vers := 2, srvprivkey := half }

def halfInfo (half : SfsauthKeyhalf) : UpdateInfo :=
  ⟨1, sampleUpdate (.user (halfUpdate half)) none, adminCred,
    ⟨.unixpwauth, .none, ascii "alice"⟩, adminDb, adminAlice, true⟩

/-- The cursor on the record; a half in it is reported as a flag. -/
def halvesCursor (halves : SfsauthKeyhalf) : Cursor SfsauthUserinfo :=
  let ae := { adminAlice with srvprivkey := halves }
  ⟨0, { adminDb with records := [.user ae] }, ae, aesanitize ae .user⟩

def halfOf (x : ℤ) : Sfs2SchnorrPriv := { emptyKeyhalf with q := 11, x := x }

theorem reachesHalves_sample (halves half : SfsauthKeyhalf) :
    ReachesHalves sampleSite (halvesSession halves) (halfInfo half) true (halfUpdate half)
      (halvesCursor halves) where
  found := rfl
  own := nofun
  pos := (by decide : (1 : UInt32) ≤ 2)
  next := rfl

/-- A first half is stored as it should be. -/
theorem keyhalves_right_first_half :
    ReachesHalves sampleSite (halvesSession .none) (halfInfo (.priv [halfOf 3])) true
        (halfUpdate (.priv [halfOf 3])) (halvesCursor .none) ∧
      KeyhalvesRight sampleSite (halvesSession .none) (halfInfo (.priv [halfOf 3])) true
        (halfUpdate (.priv [halfOf 3])) (halvesCursor .none) :=
  ⟨reachesHalves_sample _ _,
    (keyhalves_right_iff _ _ _ _ _ _ (reachesHalves_sample _ _)).mpr fun _ => rfl⟩

/-- With a half in the record, a difference is refused and a new half takes the place of the
history. -/
theorem stored_half_not_seen :
    updateUser sampleSite (halvesSession (.priv [halfOf 3])) (halfInfo (.delta 5)) true
        (halfUpdate (.delta 5)) =
        .reply (.error keyDeltaErr) (halvesSession (.priv [halfOf 3])) ∧
      expectedHalves [halfOf 3] (.delta 5) = some [halfOf 8] ∧
      (∃ st', updateUser sampleSite (halvesSession (.priv [halfOf 3]))
          (halfInfo (.priv [halfOf 4])) true (halfUpdate (.priv [halfOf 4])) =
          .reply (.ok ()) st' ∧
        storedHalves st' (halvesCursor (.priv [halfOf 3])) = some [halfOf 4]) ∧
      expectedHalves [halfOf 3] (.priv [halfOf 4]) = some [halfOf 4, halfOf 3] :=
  ⟨rfl, rfl, ⟨_, rfl, rfl⟩, rfl⟩

end SelfCertifyingFS.Authd
