import Sfs.Authd.Login
import Sfs.Authd.Update

/-!
# Updates change what they may change

The inversion of `update_user` and `update_group`, and the two kinds of update
requests that break the rules.
-/

namespace SelfCertifyingFS.Authd

open Foundations Rpc
open SfsauthDbrec (user)

variable {site : Site} {st : AuthdState} {i : UpdateInfo} {admin : Bool}

section UserUpdate

theorem updateSrvKeyhalf_fault {c : Sfscrypt} {tab : SprivkTab} {updkh newkh oldkh : SfsauthKeyhalf}
    {canclear : Bool} {f : Fault}
    (h : updateSrvKeyhalf c tab updkh newkh oldkh canclear = .fault f) : f ≠ .misread := by
  rintro rfl
  cases updkh with
  | none => exact nomatch h
  | delta d | priv upd =>
    dsimp only [updateSrvKeyhalf] at h
    repeat' split at h
    all_goals exact nomatch h
  | flag =>
    dsimp only [updateSrvKeyhalf] at h
    split at h
    all_goals exact nomatch h

/-- What `update_user` has made of a record before it looks at administrators. -/
structure Revised (st : AuthdState) (i : UpdateInfo) (c : Cursor SfsauthUserinfo)
    (u : SfsauthUserinfo) (st1 : AuthdState) (ae : SfsauthUserinfo) : Prop where
  dbfiles : st1.dbfiles = st.dbfiles
  name : ae.name = c.ae.name
  vers : ae.vers = u.vers
  privs : ae.privs = c.ae.privs
  owner : ae.owner = c.ae.owner
  pubkey : ae.pubkey = if hasOpt i.arg.req.opts supKppk then c.ae.pubkey else u.pubkey

variable {c : Cursor SfsauthUserinfo} {u ae ae' : SfsauthUserinfo} {st' st1 : AuthdState}

theorem reviseUser_checks :
    Checks st (fun r => Revised st i c u r.1 r.2) (reviseUser site st i c u) := by
  unfold reviseUser
  split
  · rename_i f hf
    exact harmless_fault _ (updateSrvKeyhalf_fault hf)
  · exact harmless_error rfl _
  · exact ⟨rfl, rfl, rfl, rfl, rfl, rfl⟩
  · exact ⟨rfl, rfl, rfl, rfl, rfl, rfl⟩

/-- The key half that a request leaves in a record. -/
def NewKeyhalf (site : Site) (st : AuthdState) (c : Cursor SfsauthUserinfo) (u : SfsauthUserinfo)
    (kh : SfsauthKeyhalf) : Prop :=
  match updateSrvKeyhalf site.toSfscrypt st.sprivkTab u.srvprivkey c.ae.srvprivkey
      c.dbr.srvprivkey true with
  | .keep => kh = c.ae.srvprivkey
  | .set keys _ => kh = .priv keys
  | _ => False

theorem reviseUser_ok_iff :
    (∃ st1, reviseUser site st i c u = .ok (st1, ae)) ↔
      ∃ kh, NewKeyhalf site st c u kh ∧
        ae = { revisedUser site st i u c.ae with srvprivkey := kh } := by
  unfold reviseUser NewKeyhalf
  cases updateSrvKeyhalf site.toSfscrypt st.sprivkTab u.srvprivkey c.ae.srvprivkey
    c.dbr.srvprivkey true with
  | fault f | refuse errmsg => simp
  | keep =>
    constructor
    · rintro ⟨st1, h⟩
      obtain ⟨-, rfl⟩ := Prod.mk.inj (Except.ok.inj h)
      exact ⟨c.ae.srvprivkey, rfl, rfl⟩
    · rintro ⟨kh, rfl, rfl⟩
      exact ⟨st, rfl⟩
  | set keys tab =>
    constructor
    · rintro ⟨st1, h⟩
      obtain ⟨-, rfl⟩ := Prod.mk.inj (Except.ok.inj h)
      exact ⟨.priv keys, rfl, rfl⟩
    · rintro ⟨kh, rfl, rfl⟩
      exact ⟨st.withKeyhalf i.aui i.ur keys tab, rfl⟩

/-- What a committed update of a user record has passed. -/
structure UserCommit (site : Site) (st : AuthdState) (i : UpdateInfo) (admin : Bool)
    (u : SfsauthUserinfo) (st' : AuthdState) (c : Cursor SfsauthUserinfo) (st1 : AuthdState)
    (ae ae' : SfsauthUserinfo) : Prop where
  found : getUserCursor site.toHost st.dbfiles (.name u.name) true = .ok c
  own : admin = false → c.dbr.name = i.cdbr.name ∧ c.dbr.id = i.cdbr.id
  pos : 1 ≤ u.vers
  next : u.vers = c.dbr.vers + 1
  revise : reviseUser site st i c u = .ok (st1, ae)
  final : adminUser admin c.dbp u ae = some ae'
  write : st1.write c.index c.dbp (.user ae') = some st'

theorem updateUser_commitsOnly :
    (updateUser site st i admin u).CommitsOnly st fun st' =>
      ∃ c st1 ae ae', UserCommit site st i admin u st' c st1 ae ae' := by
  unfold updateUser
  split
  · exact (harmless_refuse _ _).commitsOnly _
  rename_i c hc
  split
  · exact (harmless_refuse _ _).commitsOnly _
  rename_i hown
  split
  · exact (harmless_refuse _ _).commitsOnly _
  rename_i hpos
  split
  · exact (harmless_refuse _ _).commitsOnly _
  rename_i hnext
  have hchecks : Checks st _ (reviseUser site st i c u) := reviseUser_checks
  split
  · rename_i o ho
    rw [ho] at hchecks
    exact Outcome.Harmless.commitsOnly hchecks _
  rename_i st1 ae hrev
  have hfiles : st1.dbfiles = st.dbfiles := by
    rw [hrev] at hchecks
    exact hchecks.dbfiles
  unfold commitUser
  split
  · exact (harmless_error hfiles _).commitsOnly _
  rename_i ae' hfinal
  split
  · exact (harmless_error hfiles _).commitsOnly _
  rename_i st' hwrite
  refine commitsOnly_ok ⟨c, st1, ae, ae', hc, ?_, UInt32.not_lt.mp hpos, not_not.mp hnext, hrev,
    hfinal, hwrite⟩
  intro hadmin
  simpa [hadmin] using hown

theorem toNat_of_next {v w : UInt32} (h : v = w + 1) (hpos : 1 ≤ v) : v.toNat = w.toNat + 1 := by
  have hw : w.toNat < 2 ^ 32 := w.toNat_lt
  have hv : v.toNat = (w.toNat + 1) % 2 ^ 32 := by rw [h]; rfl
  have hone : 1 ≤ v.toNat := UInt32.le_iff_toNat_le.mp hpos
  omega

theorem UserCommit.revised (h : UserCommit site st i admin u st' c st1 ae ae') :
    Revised st i c u st1 ae := by
  have hchecks : Checks st _ (reviseUser site st i c u) := reviseUser_checks
  rw [h.revise] at hchecks
  exact hchecks

theorem UserCommit.touches (h : UserCommit site st i admin u st' c st1 ae ae') :
    TouchesOnly st st' c.index (.user ae') :=
  touchesOnly_of_write (by simp [sameKey]) (userFound_of_getUserCursor h.found).mem
    h.revised.dbfiles h.write

/-- A committed update without the privilege of an administrator changes the caller's own
record, if the public key has not been replaced without a signature. -/
theorem UserCommit.ownRecord {k : Cursor SfsauthUserinfo}
    (h : UserCommit site st i false u st' c st1 ae ae') (hcdbr : i.cdbr = k.dbr)
    (hrec : i.arg.req.dbrec = .user u)
    (hkey : ae.pubkey = c.ae.pubkey ∨ ∃ sig, i.arg.newsig = some sig ∧
      site.Accepts ae.pubkey sig (site.xdrUpdatereq i.arg.req)) :
    OwnRecord site st st' i.arg k := by
  obtain rfl : ae = ae' := by simpa [adminUser] using h.final
  obtain ⟨hname, hid⟩ := h.own rfl
  have hrev := h.revised
  have hvers : ae.vers.toNat = c.ae.vers.toNat + 1 := by
    have hreport := (reportUser_spec (userFound_of_getUserCursor h.found).report).2
    rw [hrev.vers]
    exact toNat_of_next (hreport ▸ h.next) h.pos
  exact ⟨u, c, ae, hrec, h.found, hname.trans (congrArg _ hcdbr), hid.trans (congrArg _ hcdbr),
    h.touches, hrev.name, hvers, hrev.privs, hrev.owner, hkey⟩

end UserUpdate

section GroupUpdate

theorem eq_append_of_groupPrefix {s p rest : Bytes} (h : groupPrefix s p = some rest) :
    s = p ++ dot :: rest := by
  unfold groupPrefix at h
  simp only [ite_eq_iff, reduceCtorEq, and_false, false_or, not_or, not_le, not_not,
    Option.some.injEq] at h
  obtain ⟨⟨hlen, hdot, htake⟩, rfl⟩ := h
  exact (append_cons_drop hlen hdot htake).symm

variable {c : Cursor SfsauthGroupinfo}

theorem mayCreateGroup_checks :
    Checks st (fun _ => GroupOf site i.cdbr c.dbr) (mayCreateGroup st i c) := by
  unfold mayCreateGroup
  split
  · exact harmless_error rfl _
  · exact harmless_error rfl _
  rename_i rest _ hrest
  have hof : GroupOf site i.cdbr c.dbr := .inl ⟨rest, eq_append_of_groupPrefix hrest⟩
  split
  · rename_i f hf
    refine harmless_fault _ ?_
    rintro rfl
    unfold maxGroups at hf
    repeat' split at hf
    all_goals exact nomatch hf
  · exact hof
  split
  · exact harmless_fault _ (by decide)
  dsimp only
  split
  · exact harmless_error rfl _
  · exact hof

theorem mayChangeGroup_checks :
    Checks st (fun _ => GroupOf site i.cdbr c.dbr) (mayChangeGroup site st i c) := by
  unfold mayChangeGroup
  split
  · exact harmless_fault _ (by decide)
  rename_i h hh
  split
  · exact harmless_refuse _ _
  rename_i hmay
  obtain ⟨pk, halloc, hhash⟩ := Option.bind_eq_some_iff.mp hh
  cases hp : groupPrefix c.dbr.name i.cdbr.name with
  | some rest => exact .inl ⟨rest, eq_append_of_groupPrefix hp⟩
  | none =>
    have hmember : isAMember site.dbcache i.cdbr.name (armor32 h.1) c.dbr.owners = true := by
      simpa [hp] using hmay
    rcases isAMember_iff.mp hmember with hu | hk
    · exact .inr (.inl hu)
    · exact .inr (.inr ⟨pk, h, halloc, hhash, hk⟩)

theorem mayUpdateGroup_checks {create : Bool} :
    Checks st (fun _ => admin = false → GroupOf site i.cdbr c.dbr)
      (mayUpdateGroup site st i admin create c) := by
  unfold mayUpdateGroup
  split
  · rename_i hadmin
    intro hfalse
    rw [hadmin] at hfalse
    exact nomatch hfalse
  split
  · exact mayCreateGroup_checks.imp fun _ h _ => h
  · exact mayChangeGroup_checks.imp fun _ h _ => h

/-- What a committed update of a group record has passed. -/
structure GroupCommit (site : Site) (st : AuthdState) (i : UpdateInfo) (admin : Bool)
    (g : SfsauthGroupinfo) (st' : AuthdState) (c : Cursor SfsauthGroupinfo)
    (gi : SfsauthGroupinfo) : Prop where
  found : getGroupCursor st.dbfiles (.name g.name) true (g.id = 0 ∧ g.vers = 1) = .ok c
  own : admin = false → GroupOf site i.cdbr c.dbr
  name : gi.name = c.ae.name
  write : st.write c.index c.dbp (.group gi) = some st'

theorem updateGroup_commitsOnly {g : SfsauthGroupinfo} :
    (updateGroup site st i admin g).CommitsOnly st fun st' =>
      ∃ c gi, GroupCommit site st i admin g st' c gi := by
  unfold updateGroup
  dsimp only
  split
  · split <;> exact (harmless_refuse _ _).commitsOnly _
  rename_i c hc
  split
  · exact (harmless_fault _ (by decide)).commitsOnly _
  split
  · exact (harmless_error rfl _).commitsOnly _
  split
  · exact (harmless_error rfl _).commitsOnly _
  have hchecks : Checks st _ (mayUpdateGroup site st i admin (g.id = 0 ∧ g.vers = 1) c) :=
    mayUpdateGroup_checks
  split
  · rename_i o ho
    rw [ho] at hchecks
    exact Outcome.Harmless.commitsOnly hchecks _
  rename_i hmay
  rw [hmay] at hchecks
  unfold commitGroup
  split
  · exact (harmless_refuse _ _).commitsOnly _
  split
  · exact (harmless_refuse _ _).commitsOnly _
  dsimp only
  split
  · exact (harmless_refuse _ _).commitsOnly _
  split
  · exact (harmless_refuse _ _).commitsOnly _
  rename_i st' hwrite
  refine commitsOnly_ok ⟨c, _, hc, hchecks, ?_, hwrite⟩
  rfl

theorem GroupCommit.ownGroup {g : SfsauthGroupinfo} {st' : AuthdState} {k : Cursor SfsauthUserinfo}
    {gi : SfsauthGroupinfo} (h : GroupCommit site st i false g st' c gi) (hcdbr : i.cdbr = k.dbr)
    (hrec : i.arg.req.dbrec = .group g) : OwnGroup site st st' i.arg k :=
  ⟨g, c, gi, hrec, h.found,
    touchesOnly_of_write (by simp [sameKey]) (groupFound_of_getGroupCursor h.found).mem rfl h.write,
    h.name, hcdbr ▸ h.own rfl⟩

end GroupUpdate

section Soundness

variable {aui : ℕ} {arg : SfsauthUpdateArg}

/-- A signature with the new key comes with a group record. -/
def MisreadsGroup (site : Site) (st : AuthdState) (aui : ℕ) (arg : SfsauthUpdateArg) : Prop :=
  (∃ i c, InfoOk site st aui arg i c) ∧ (∃ g, arg.req.dbrec = .group g) ∧ arg.newsig ≠ none

/-- A user with the privilege of an administrator, logged in with a password, replaces the
public key of the own record and signs with neither key. -/
structure ReplacesKeyUnsigned (site : Site) (st : AuthdState) (arg : SfsauthUpdateArg)
    (i : UpdateInfo) (u : SfsauthUserinfo) (c : Cursor SfsauthUserinfo) : Prop where
  record : arg.req.dbrec = .user u
  unsigned : arg.newsig = none ∧ arg.authsig = none
  replaces : hasOpt arg.req.opts supKppk = false ∧ u.pubkey ≠ c.ae.pubkey
  admin : i.admin = true
  password : i.cdbp.allowUnixPwd = true ∧ i.ur.authtype = .unixpwauth
  found : getUserCursor site.toHost st.dbfiles (.name u.name) true = .ok c
  own : c.dbr.name = i.cdbr.name ∧ c.dbr.id = i.cdbr.id
  next : 1 ≤ u.vers ∧ u.vers = c.dbr.vers + 1
  accepted : ∃ kh, NewKeyhalf site st c u kh ∧
    c.dbp.accepts (.user { revisedUser site st i u c.ae with srvprivkey := kh }) = true

/-- Some caller replaces the own key unsigned. -/
def KeyUnsigned (site : Site) (st : AuthdState) (aui : ℕ) (arg : SfsauthUpdateArg) : Prop :=
  ∃ i k u c, InfoOk site st aui arg i k ∧ ReplacesKeyUnsigned site st arg i u c

/-- Short of a key replaced unsigned, a new public key in the record has signed. -/
theorem UserCommit.pubkey_signed {i : UpdateInfo} {u ae ae' : SfsauthUserinfo}
    {st' st1 : AuthdState} {c : Cursor SfsauthUserinfo}
    (h : UserCommit site st i false u st' c st1 ae ae') (hrec : i.arg.req.dbrec = .user u)
    (hnew : NewsigOk site i) (hauth : AuthsigOk site i false)
    (hno : ¬ ReplacesKeyUnsigned site st i.arg i u c) :
    ae.pubkey = c.ae.pubkey ∨ ∃ sig, i.arg.newsig = some sig ∧
      site.Accepts ae.pubkey sig (site.xdrUpdatereq i.arg.req) := by
  have hpub := h.revised.pubkey
  cases hopt : hasOpt i.arg.req.opts supKppk with
  | true => exact .inl (hpub.trans (if_pos hopt))
  | false =>
    have hu : ae.pubkey = u.pubkey := hpub.trans (if_neg (by simp [hopt]))
    rcases hnew with ⟨sig, u', hsig, hu', hacc⟩ | ⟨hnone, hexcuse⟩
    · obtain rfl : u = u' := user.inj (hrec.symm.trans hu')
      exact .inr ⟨sig, hsig, hu ▸ hacc⟩
    · -- only the privilege excuses the signature, and only a password login has taken it away
      have hadmin : i.admin = true := by simpa [hopt] using hexcuse
      rcases hauth with ⟨sig, -, -, hsame⟩ | ⟨hauthsig, hpwd, hlogin, -⟩
      · rw [hadmin] at hsame
        exact nomatch hsame
      · refine .inl (by_contra fun hkey => hno ?_)
        obtain rfl : ae = ae' := by simpa [adminUser] using h.final
        have haccepts : c.dbp.accepts (.user ae) = true := by
          have hwrite := h.write
          unfold AuthdState.write at hwrite
          split_ifs at hwrite with hacc
          exact hacc
        obtain ⟨kh, hkh, hae⟩ := reviseUser_ok_iff.mp ⟨st1, h.revise⟩
        exact ⟨hrec, ⟨hnone, hauthsig⟩, ⟨hopt, hu ▸ hkey⟩, hadmin, ⟨hpwd, hlogin⟩, h.found,
          h.own rfl, ⟨h.pos, h.next⟩, ⟨kh, hkh, hae ▸ haccepts⟩⟩

theorem sfsauthUpdate_commitsOnly (hmis : ¬ MisreadsGroup site st aui arg)
    (hno : ¬ KeyUnsigned site st aui arg) :
    (sfsauthUpdate site st aui arg).CommitsOnly st fun st' => Authorized site st st' aui arg := by
  have hinfo := updateInfo_checks site st aui arg
  unfold sfsauthUpdate
  split
  · rename_i o ho
    rw [ho] at hinfo
    exact Outcome.Harmless.commitsOnly hinfo _
  rename_i i hi
  rw [hi] at hinfo
  obtain ⟨c, hok⟩ := hinfo
  obtain ⟨rfl, hcdbp, hcdbr⟩ := hok.info
  have hunsigned : ∀ g, i.arg.req.dbrec = .group g → i.arg.newsig = none := by
    intro g hg
    exact by_contra fun hsig => hmis ⟨⟨i, c, hok⟩, ⟨g, hg⟩, hsig⟩
  have hsigs : Checks st _ (updateChecksig site st i) := updateChecksig_checks hunsigned hok.type
  split
  · rename_i o ho
    rw [ho] at hsigs
    exact Outcome.Harmless.commitsOnly hsigs _
  rename_i admin hadmin
  rw [hadmin] at hsigs
  obtain ⟨hnew, hauth⟩ := hsigs
  have hvouched := hauth.vouched hok
  split
  · rename_i u hrec
    refine updateUser_commitsOnly.imp ?_
    rintro st' ⟨d, st1, ae, ae', hcommit⟩
    refine ⟨i.cred, i.ur, c, hok.caller, hok.authid, hvouched, ?_⟩
    cases admin with
    | true => exact .inl (hauth.asAdmin hok)
    | false =>
      have hkey := hcommit.pubkey_signed hrec hnew hauth fun h => hno ⟨i, c, u, d, hok, h⟩
      exact .inr (.inl (hcommit.ownRecord hcdbr hrec hkey))
  · rename_i g hrec
    refine updateGroup_commitsOnly.imp ?_
    rintro st' ⟨d, gi, hcommit⟩
    refine ⟨i.cred, i.ur, c, hok.caller, hok.authid, hvouched, ?_⟩
    cases admin with
    | true => exact .inl (hauth.asAdmin hok)
    | false => exact .inr (.inr (hcommit.ownGroup hcdbr hrec))
  · exact (harmless_refuse _ _).commitsOnly _

theorem sfsauthUpdate_misread (h : MisreadsGroup site st aui arg) :
    sfsauthUpdate site st aui arg = .fault .misread := by
  obtain ⟨⟨i, c, hok⟩, ⟨g, hg⟩, hsig⟩ := h
  have hi := hok.updateInfo_eq
  obtain ⟨rfl, -, -⟩ := hok.info
  simp only [sfsauthUpdate, hi, updateChecksig, checkNewsig_misread hg hsig]

theorem ReplacesKeyUnsigned.committed {i : UpdateInfo} {k c : Cursor SfsauthUserinfo}
    {u : SfsauthUserinfo} (h : ReplacesKeyUnsigned site st arg i u c)
    (hok : InfoOk site st aui arg i k) :
    ∃ st' st1 ae, sfsauthUpdate site st aui arg = .reply (.ok ()) st' ∧
      UserCommit site st i false u st' c st1 ae ae ∧ ae.pubkey = u.pubkey := by
  have hi := hok.updateInfo_eq
  obtain ⟨rfl, -, -⟩ := hok.info
  obtain ⟨hrec, ⟨hnew, hauth⟩, ⟨hopt, -⟩, hadmin, ⟨hpwd, hlogin⟩, hfound, ⟨hname, hid⟩,
    ⟨hpos, hnext⟩, ⟨kh, hkh, hacc⟩⟩ := h
  obtain ⟨st1, hrev⟩ := reviseUser_ok_iff.mpr ⟨kh, hkh, rfl⟩
  have hchecksig : updateChecksig site st i = .ok false := by
    simp [updateChecksig, checkNewsig, checkAuthsig, hnew, hauth, hadmin, hpwd, hlogin]
  generalize hae : { revisedUser site st i u c.ae with srvprivkey := kh } = ae at hrev hacc
  let st' : AuthdState := { st1 with
    dbfiles := st1.dbfiles.set c.index
      { c.dbp with records := putRecord c.dbp.records (.user ae) } }
  have hwrite : st1.write c.index c.dbp (.user ae) = some st' := if_pos hacc
  have hcommit : UserCommit site st i false u st' c st1 ae ae :=
    ⟨hfound, fun _ => ⟨hname, hid⟩, hpos, hnext, hrev, rfl, hwrite⟩
  refine ⟨st', st1, ae, ?_, hcommit, ?_⟩
  · simp [sfsauthUpdate, hi, hchecksig, hrec, updateUser, hfound, hname, hid,
      UInt32.not_lt.mpr hpos, ← hnext, hrev, commitUser, adminUser, hwrite]
  · rw [hcommit.revised.pubkey, if_neg (by simp [hopt])]

theorem not_authorized_of_keyUnsigned (h : KeyUnsigned site st aui arg) :
    ∃ st', sfsauthUpdate site st aui arg = .reply (.ok ()) st' ∧
      ¬ Authorized site st st' aui arg := by
  obtain ⟨i, k, u, c, hok, h⟩ := h
  obtain ⟨st', st1, ae, hrun, hcommit, hpubkey⟩ := h.committed hok
  refine ⟨st', hrun, ?_⟩
  rintro ⟨cred, ur, k', -, -, -, hadmin | hown | hgroup⟩
  · exact hadmin.2.2 h.unsigned.2
  · obtain ⟨u', t, ae', hrec', hfound, -, -, htouch, hname, -, -, -, hpub⟩ := hown
    obtain rfl : u = u' := user.inj (h.record.symm.trans hrec')
    obtain rfl : c = t := Except.ok.inj (hcommit.found.symm.trans hfound)
    have hsame : sameKey (.user ae) (.user ae') = true := by
      simp [sameKey, hname, hcommit.revised.name]
    obtain rfl : ae' = ae := user.inj (hcommit.touches.unique htouch hsame)
    rcases hpub with hpub | ⟨sig, hsig, -⟩
    · exact h.replaces.2 (hpubkey.symm.trans hpub)
    · rw [h.unsigned.1] at hsig
      exact nomatch hsig
  · obtain ⟨g, -, -, hrec', -⟩ := hgroup
    exact nomatch h.record.symm.trans hrec'

/-- Updates are authorized and read records as what they are, but for a new-key signature on a
group and for a public key that a user with the privilege of an administrator replaces
unsigned after a password login. -/
theorem update_sound_iff (site : Site) (st : AuthdState) (aui : ℕ) (arg : SfsauthUpdateArg) :
    UpdateSound site st aui arg ↔
      ¬ MisreadsGroup site st aui arg ∧ ¬ KeyUnsigned site st aui arg := by
  constructor
  · intro h
    constructor
    · exact fun hmis => h.noMisread (sfsauthUpdate_misread hmis)
    · intro hkey
      obtain ⟨st', hrun, hnot⟩ := not_authorized_of_keyUnsigned hkey
      exact hnot (h.authorized st' hrun)
  · rintro ⟨hmis, hkey⟩
    have h := sfsauthUpdate_commitsOnly hmis hkey
    exact ⟨h.noMisread, h.refused, h.committed⟩

/-- A user with the privilege of an administrator. -/
def adminAlice : SfsauthUserinfo := { alice with pubkey := .rabin 5, privs := ascii "admin" }

/-- A database that may be updated, and has administrators. -/
def adminDb : Dbfile :=
  { smallDb none [.user adminAlice] with
    lockable := true, accepts _ := true, allowUpdate := true, allowAdmin := true }

def adminCred : SfsUnixcred := ⟨ascii "alice", ascii "/dev/null", ascii "/dev/null", 7, 7, []⟩

/-- The user has logged in with a password, under number 1. -/
def adminSession : AuthdState where
  clnt :=
    { serv := { Server.SfsServ.new sampleLogin.authid with
        credtab := [.nocred, .unixcred adminCred] }
      uid := none
      utab aui := if aui = 1 then some ⟨.unixpwauth, .none, ascii "alice"⟩ else none
      clientName := [] }
  dbfiles := [adminDb]
  sprivkTab _ := none

/-- An update of the record to its second version, with another public key. -/
def otherKey : SfsauthUserinfo := { adminAlice with vers := 2, pubkey := .rabin 6 }

def sampleUpdate (r : SfsauthDbrec) (newsig : Option SfsSig2) : SfsauthUpdateArg :=
  ⟨⟨.updatereq, sampleLogin.authid, r, 0⟩, newsig, none⟩

def adminCursor : Cursor SfsauthUserinfo := ⟨0, adminDb, adminAlice, adminAlice⟩

theorem infoOk_sampleUpdate {r : SfsauthDbrec} (newsig : Option SfsSig2)
    (h : (∃ u, r = .user u) ∨ ∃ g, r = .group g) :
    InfoOk sampleSite adminSession 1 (sampleUpdate r newsig)
      ⟨1, sampleUpdate r newsig, adminCred, ⟨.unixpwauth, .none, ascii "alice"⟩, adminDb,
        adminAlice, true⟩ adminCursor where
  caller := ⟨rfl, rfl, rfl, rfl, rfl⟩
  authtype := nofun
  request := rfl
  authid := rfl
  type := h
  info := ⟨rfl, rfl, rfl⟩
  number := rfl
  admin := rfl

/-- A group record that comes with a signature of a new key is read as a user record; and the
administrator's password is enough to replace the key in the record. -/
theorem group_misread_and_password_replaces_key :
    ¬ UpdateSound sampleSite adminSession 1
        (sampleUpdate (.group ⟨ascii "alice.x", 0, 1, [], [], [], []⟩) (some (.rabin 0))) ∧
      ¬ UpdateSound sampleSite adminSession 1 (sampleUpdate (.user otherKey) none) := by
  constructor
  · intro h
    refine h.noMisread (sfsauthUpdate_misread ⟨⟨_, _, infoOk_sampleUpdate _ ?_⟩, ?_, nofun⟩)
    · exact .inr ⟨_, rfl⟩
    · exact ⟨_, rfl⟩
  · intro h
    have hkey : ReplacesKeyUnsigned sampleSite adminSession (sampleUpdate (.user otherKey) none)
        ⟨1, sampleUpdate (.user otherKey) none, adminCred, ⟨.unixpwauth, .none, ascii "alice"⟩,
          adminDb, adminAlice, true⟩ otherKey adminCursor :=
      { record := rfl
        unsigned := ⟨rfl, rfl⟩
        replaces := ⟨by decide, by decide⟩
        admin := rfl
        password := ⟨rfl, rfl⟩
        found := rfl
        own := ⟨rfl, rfl⟩
        next := ⟨by decide, by decide⟩
        accepted := ⟨.none, rfl, rfl⟩ }
    obtain ⟨st', hrun, hnot⟩ :=
      not_authorized_of_keyUnsigned ⟨_, _, _, _, infoOk_sampleUpdate none (.inl ⟨_, rfl⟩), hkey⟩
    exact hnot (h.authorized st' hrun)

end Soundness

end SelfCertifyingFS.Authd
