import Sfs.Foundations.Runs
import Sfs.Rpc.SfsAuthProt

/-!
# Local owners of remote files

The client asks the server for the credentials behind each login and keeps them
by authentication id, next to an index from remote user ids to local ones. The
index is read whenever the attributes of a file are mapped for a local user.
-/

namespace SelfCertifyingFS.Sfsmisc

open Foundations Rpc Function Option

/-- The tables of `sfsserver_credmap`. Only credentials of type `SFS_UNIXCRED` are entered. -/
structure SfsserverCredmap where
  credmap : UInt64 → Option SfsUnixcred
  uidmap : UInt32 → Option UInt32

/-- The parameters of a local call, with the id that `aup2aid` computes from them. -/
structure AuthunixParms where
  aid : UInt64
  aupUid : UInt32
  aupGid : UInt32

/-- The owner and the group of a file. -/
structure ExFattr3 where
  uid : UInt32
  gid : UInt32
  deriving DecidableEq

/-- The reply to `SFSPROC_GETCRED` after a login, missing when the call failed, and the two ways
to forget logins. -/
inductive CredmapOp
  | cresult (aid : UInt64) (cred : Option SfsauthCred)
  | authclear (aid : UInt64)
  | flushstate

/-- `aid & 0xffffffff`: the local user. -/
def localUid (aid : UInt64) : UInt32 := aid.toUInt32

namespace SfsserverCredmap

def new : SfsserverCredmap := ⟨fun _ => none, fun _ => none⟩

variable (s : SfsserverCredmap)

def cresult (aid : UInt64) : Option SfsauthCred → SfsserverCredmap
  | some (.unixcred cred) =>
      { credmap := update s.credmap aid (some cred)
        uidmap := update s.uidmap cred.uid (some (localUid aid)) }
  | _ => s

def authclear (aid : UInt64) : SfsserverCredmap where
  credmap := update s.credmap aid none
  uidmap :=
    -- the entry is looked up under the local id, not under that of the credentials
    if ∃ cred ∈ s.credmap aid, cred.uid = localUid aid then
      update s.uidmap (localUid aid) none
    else s.uidmap

def step : CredmapOp → SfsserverCredmap × Unit
  | .cresult aid cred => (s.cresult aid cred, ())
  | .authclear aid => (s.authclear aid, ())
  | .flushstate => (new, ())

def nomap : Option AuthunixParms → Bool
  | none => false
  | some aup =>
      match s.credmap aup.aid with
      | none => false
      | some cred =>
          if aup.aupUid = 0 then cred.uid = localUid aup.aid
          else cred.uid = aup.aupUid ∧ cred.gid = aup.aupGid

def mapcred (aup : Option AuthunixParms) (fp : ExFattr3)
    (unknownUid unknownGid : UInt32) : ExFattr3 :=
  if s.nomap aup then fp
  else
    { uid := (s.uidmap fp.uid).getD unknownUid
      gid := match aup with
        | none => unknownGid
        | some aup =>
            match s.credmap aup.aid with
            | none => unknownGid
            | some cred =>
                if fp.gid = cred.gid ∨ fp.gid ∈ cred.groups then aup.aupGid else unknownGid }

/-- Some login of the local user has given credentials of the remote one. -/
def Backs (aid : UInt64) (r l : UInt32) : Prop :=
  localUid aid = l ∧ ∃ cred ∈ s.credmap aid, cred.uid = r

/-- Every entry of the index stands for a login. -/
def Backed : Prop :=
  ∀ r l, s.uidmap r = some l → ∃ aid, s.Backs aid r l

/-- The entry that a login has made stands for another login as well. -/
def Covered (aid : UInt64) : Prop :=
  ∀ cred ∈ s.credmap aid, s.uidmap cred.uid = some (localUid aid) →
    ∃ aid' ≠ aid, s.Backs aid' cred.uid (localUid aid)

/-- A login that is cleared gave the user the same id on the server, one that is replaced gave
the same id as its successor; or the entry stands for another login as well. -/
def KeepsBacked : CredmapOp → Prop
  | .cresult aid (some (.unixcred new)) =>
      (∀ cred ∈ s.credmap aid, cred.uid = new.uid) ∨ s.Covered aid
  | .authclear aid => (∀ cred ∈ s.credmap aid, cred.uid = localUid aid) ∨ s.Covered aid
  | _ => True

section Update

variable {s : SfsserverCredmap} {aid : UInt64} {r l : UInt32} {new : Option SfsUnixcred}
  {uidmap : UInt32 → Option UInt32}

theorem exists_ne_of_update (hnew : ∀ cred ∈ new, cred.uid ≠ r)
    (h : ∃ aid', Backs ⟨update s.credmap aid new, uidmap⟩ aid' r l) :
    ∃ aid' ≠ aid, s.Backs aid' r l := by
  obtain ⟨aid', hlocal, cred, hcred, huid⟩ := h
  dsimp only at hcred
  by_cases haid : aid' = aid
  · subst haid
    rw [update_self] at hcred
    exact absurd huid (hnew cred hcred)
  · rw [update_of_ne haid] at hcred
    exact ⟨aid', haid, hlocal, cred, hcred, huid⟩

theorem backs_update (hbacked : s.Backed) (hentry : s.uidmap r = some l)
    (hold : (∀ cred ∈ s.credmap aid, cred.uid ≠ r) ∨ s.Covered aid) :
    ∃ aid', Backs ⟨update s.credmap aid new, uidmap⟩ aid' r l := by
  obtain ⟨aid', haid, hlocal, cred, hcred, huid⟩ : ∃ aid' ≠ aid, s.Backs aid' r l := by
    obtain ⟨aid', hlocal, cred, hcred, huid⟩ := hbacked r l hentry
    by_cases haid : aid' = aid
    · subst haid hlocal huid
      rcases hold with hold | hold
      · exact absurd rfl (hold cred hcred)
      · exact hold cred hcred hentry
    · exact ⟨aid', haid, hlocal, cred, hcred, huid⟩
  exact ⟨aid', hlocal, cred, (update_of_ne haid _ _).trans hcred, huid⟩

end Update

variable {s : SfsserverCredmap}

theorem backed_cresult_iff (h : s.Backed) (aid : UInt64) (new : SfsUnixcred) :
    (s.cresult aid (some (.unixcred new))).Backed ↔
      s.KeepsBacked (.cresult aid (some (.unixcred new))) := by
  constructor
  · intro hnext
    by_cases hsame : ∀ cred ∈ s.credmap aid, cred.uid = new.uid
    · exact .inl hsame
    refine .inr fun cred hcred hentry => ?_
    have hne : cred.uid ≠ new.uid := fun heq => hsame fun other hother =>
      mem_unique hcred hother ▸ heq
    refine exists_ne_of_update (by simpa using hne.symm) (hnext _ _ ?_)
    exact (update_of_ne hne _ _).trans hentry
  · intro hkeeps r l hentry
    by_cases hr : r = new.uid
    · subst hr
      have hself : (s.cresult aid (some (.unixcred new))).uidmap new.uid = some (localUid aid) :=
        update_self _ _ _
      obtain rfl := some.inj (hself.symm.trans hentry)
      exact ⟨aid, rfl, new, update_self _ _ _, rfl⟩
    · apply backs_update h ((update_of_ne hr _ _).symm.trans hentry)
      exact hkeeps.imp_left fun hsame cred hcred heq => hr (heq.symm.trans (hsame cred hcred))

theorem backed_authclear_iff (h : s.Backed) (aid : UInt64) :
    (s.authclear aid).Backed ↔ s.KeepsBacked (.authclear aid) := by
  constructor
  · intro hnext
    by_cases hsame : ∀ cred ∈ s.credmap aid, cred.uid = localUid aid
    · exact .inl hsame
    refine .inr fun cred hcred hentry => exists_ne_of_update (by simp) (hnext _ _ ?_)
    have hnone : ¬∃ cred ∈ s.credmap aid, cred.uid = localUid aid := by
      rintro ⟨other, hother, heq⟩
      exact hsame fun cred hcred => mem_unique hother hcred ▸ heq
    exact (congrFun (if_neg hnone) _).trans hentry
  · intro hkeeps r l hentry
    by_cases hown : ∃ cred ∈ s.credmap aid, cred.uid = localUid aid
    · have hentry := (congrFun (if_pos hown) r).symm.trans hentry
      have hr : r ≠ localUid aid := by
        rintro rfl
        rw [update_self] at hentry
        exact absurd hentry nofun
      rw [update_of_ne hr] at hentry
      obtain ⟨cred, hcred, huid⟩ := hown
      refine backs_update h hentry (.inl fun other hother heq => hr ?_)
      rw [← heq, ← huid, mem_unique hcred hother]
    · apply backs_update h ((congrFun (if_neg hown) r).symm.trans hentry)
      exact hkeeps.imp_left fun hsame cred hcred => absurd ⟨cred, hcred, hsame cred hcred⟩ hown

theorem backed_step_iff (h : s.Backed) (op : CredmapOp) :
    (s.step op).1.Backed ↔ s.KeepsBacked op := by
  rcases op with ⟨aid, _ | _ | cred | _ | _⟩ | aid | _
  case cresult.some.unixcred => exact backed_cresult_iff h aid cred
  case authclear => exact backed_authclear_iff h aid
  case flushstate => exact iff_of_true (fun r l hentry => absurd hentry nofun) trivial
  all_goals exact iff_of_true h trivial

/-- An owner that the mapping shows is a local user with credentials of the remote one. -/
def ShowsLogins (s : SfsserverCredmap) : Prop :=
  ∀ aup fp unknownUid unknownGid, s.nomap aup = false →
    (s.mapcred aup fp unknownUid unknownGid).uid = unknownUid ∨
      ∃ aid, s.Backs aid fp.uid (s.mapcred aup fp unknownUid unknownGid).uid

theorem Backed.showsLogins (h : s.Backed) : s.ShowsLogins := by
  intro aup fp unknownUid unknownGid hnomap
  unfold mapcred
  rw [hnomap]
  cases hentry : s.uidmap fp.uid with
  | none => exact .inl rfl
  | some l => exact .inr (h _ _ hentry)

/-- In a run the index stands for logins, and the owners shown are those that have logged in, in
every state reached, exactly when no step leaves an entry behind. -/
theorem uidmap_backed_iff (ops : List CredmapOp) :
    Run.Guarded step (fun r op => r.state.KeepsBacked op) (Run.start new) ops ↔
      ∀ n, ((Run.start new).take step (ops.take n)).state.Backed ∧
        ((Run.start new).take step (ops.take n)).state.ShowsLogins := by
  have hnew : new.Backed := fun r l hentry => absurd hentry nofun
  have hrun : Run.Guarded step (fun r op => r.state.KeepsBacked op) (Run.start new) ops ↔
      ∀ n, ((Run.start new).take step (ops.take n)).state.Backed :=
    @Run.guarded_iff _ _ _ step _ (fun r => r.state.Backed) _ _ hnew
      fun r op h => backed_step_iff h op
  rw [hrun]
  exact forall_congr' fun n => ⟨fun h => ⟨h, h.showsLogins⟩, And.left⟩

/-- User 1000 logs in as the remote user 5 and out again: files of 5 are still shown as files
of 1000. -/
theorem cleared_login_shown :
    let cred : SfsUnixcred := ⟨[], [], [], 5, 5, []⟩
    let s := ((Run.start new).take step
      [.cresult 1000 (some (.unixcred cred)), .authclear 1000]).state
    ¬s.Backed ∧ (∀ aid, s.credmap aid = none) ∧ s.mapcred none ⟨5, 5⟩ 99 99 = ⟨1000, 99⟩ := by
  intro cred s
  have hnone : ∀ aid, s.credmap aid = none := by
    intro aid
    have hcredmap : s.credmap = update (update (fun _ => none) 1000 (some cred)) 1000 none := rfl
    rw [hcredmap, update_idem]
    exact congrFun (update_eq_self 1000 _) aid
  have hentry : s.uidmap 5 = some 1000 := by decide
  refine ⟨fun h => ?_, hnone, by decide⟩
  obtain ⟨aid, -, cred, hcred, -⟩ := h 5 1000 hentry
  rw [hnone] at hcred
  exact absurd hcred nofun

end SfsserverCredmap

end SelfCertifyingFS.Sfsmisc
