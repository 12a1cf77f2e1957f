import Sfs.Server.AuthNumbers

/-!
# Logins along a run

The replies sent so far determine which numbers have been granted, to which
login, and not given back. The tables of the connection are compared with this
history along whole runs.
-/

namespace SelfCertifyingFS.Server

open Foundations Rpc Crypt SfsServ

abbrev ServEvent := ServOp × Option ServReply

abbrev ServRun := Run SfsServ ServOp (Option ServReply)

/-- A granted login: the sequence number under which it was accepted, which is
the one in the answer for version 1 and the one in the request for version 2, and
the credential that the number stands for. -/
structure Grant where
  seqno : ℕ
  cred : SfsauthCred
  deriving DecidableEq

def grantOf : ServEvent → Option (ℕ × Grant)
  | (.answer1 _ (some (.ok cred _ seqno)), some ⟨_, .ok n _ _⟩) => some (n, ⟨seqno, cred⟩)
  | (.answer2 _ (some (.ok creds _ _)), some ⟨req, .ok n _ _⟩) =>
      some (n, ⟨req.seqno, (creds.find? supported).getD .nocred⟩)
  | _ => none

theorem grantOf_none (op : ServOp) : grantOf (op, none) = none := by
  unfold grantOf
  split <;> simp_all

theorem grantOf_refused (op : ServOp) (req : LoginReq) (status : SfsLoginstat) :
    grantOf (op, some ⟨req, .other status⟩) = none := by
  unfold grantOf
  split <;> simp_all

/-- The last grant of a number, if it has not been logged out since. -/
def lastGrant (n : ℕ) : List ServEvent → Option Grant
  | [] => none
  | (.logout m, _) :: past => if m = n then none else lastGrant n past
  | e :: past =>
      match grantOf e with
      | some (m, g) => if m = n then some g else lastGrant n past
      | none => lastGrant n past

/-- The property of one event: what is live afterwards has been granted and not
logged out, under its credential; a sequence number has at most one live number;
a number is granted only while it is not live. -/
structure LoginsSound (r : ServRun) (op : ServOp) : Prop where
  live : ∀ n, ((r.next step op).state.getauth n).isSome → n ≠ 0 ∧
    ∃ g, lastGrant n (r.next step op).past = some g ∧ (r.next step op).state.credOf n = g.cred
  once : ∀ n m, ((r.next step op).state.getauth n).isSome →
    ((r.next step op).state.getauth m).isSome →
    ∀ g g', lastGrant n (r.next step op).past = some g →
      lastGrant m (r.next step op).past = some g' → g.seqno = g'.seqno → n = m
  fresh : ∀ n g, grantOf (op, (r.state.step op).2) = some (n, g) → r.state.getauth n = none

namespace SfsServ

def Exhausted (s : SfsServ) : Prop := s.authfreelist = [] ∧ 0x10000 ≤ s.authtab.length

theorem authalloc_of_unsupported {s : SfsServ} {creds : List SfsauthCred}
    (h : creds.find? supported = none ∨ s.Exhausted) : s.authalloc creds = (0, s) := by
  have hno : s.Exhausted → s.authnoalloc = (0, s) := by
    intro hex
    rw [authnoalloc, hex.1]
    exact if_pos hex.2
  induction creds with
  | nil => rfl
  | cons c cs ih =>
    cases c with
    | pkcred _ | groupscred _ => exact ih h
    | unixcred uc | nocred =>
      rcases h with h | h
      · cases h
      · simp [authalloc, hno h]

end SfsServ

/-- No version 2 answer grants a login whose sequence number is rejected, unless
it has no usable credential or there is no number left. -/
def NoReplayedGrant (r : ServRun) : ServOp → Prop
  | .answer2 xid (some (.ok creds _ _)) =>
      ∀ req rest, takeReq xid r.state.pending2 = some (req, rest) →
        r.state.destroyed = true ∨ (r.state.seqstate.check req.seqno).2 = true ∨
          creds.find? supported = none ∨ r.state.Exhausted
  | _ => True

/-- What an event does to the tables and to the history. -/
inductive ServMove (s : SfsServ) (e : ServEvent) (s' : SfsServ) : Prop
  | quiet (htable : s'.TableOk)
      (hkeep : ∀ m, (s'.getauth m).isSome → (s.getauth m).isSome ∧ s'.credOf m = s.credOf m)
      (hused : ∀ q, s.seqstate.Used q → s'.seqstate.Used q)
      (hbits : s'.seqstate.nbits = s.seqstate.nbits) (hgrant : grantOf e = none)
      (hop : ∀ n, e.1 ≠ .logout n)
  | granted (n : ℕ) (g : Grant) (hunused : s.getauth n = none) (h0 : n ≠ 0)
      (htable : s'.TableOk)
      (hkeep : ∀ m, m ≠ n → s'.getauth m = s.getauth m ∧ s'.credOf m = s.credOf m)
      (hcred : s'.credOf n = g.cred) (hused : ∀ q, s.seqstate.Used q → s'.seqstate.Used q)
      (hfresh : ¬s.seqstate.Used g.seqno ∧ s'.seqstate.Used g.seqno)
      (hbits : s'.seqstate.nbits = s.seqstate.nbits) (hgrant : grantOf e = some (n, g))
      (hop : ∀ n, e.1 ≠ .logout n)
  | freed (n : ℕ) (h : s.Freed n s') (hop : e.1 = .logout n)

variable {s s' : SfsServ} {e : ServEvent} {r : ServRun} {op : ServOp}

theorem ServMove.of_waiting {s1 : SfsServ} (h : ServMove s1 e s') (hauth : s1.authtab = s.authtab)
    (hcred : s1.credtab = s.credtab) (hseq : s1.seqstate = s.seqstate) : ServMove s e s' := by
  have hgetauth : ∀ m, s1.getauth m = s.getauth m := fun m => by
    rw [getauth, hauth, getauth]
  have hcredOf : ∀ m, s1.credOf m = s.credOf m := fun m => by
    rw [credOf, hcred, credOf]
  cases h with
  | quiet htable hkeep hused hbits hgrant hop =>
    simp only [hgetauth, hcredOf, hseq] at *
    exact .quiet htable hkeep hused hbits hgrant hop
  | granted n g hunused h0 htable hkeep hnew hused hfresh hbits hgrant hop =>
    simp only [hgetauth, hcredOf, hseq] at *
    exact .granted n g hunused h0 htable hkeep hnew hused hfresh hbits hgrant hop
  | freed n h hop =>
    obtain ⟨htable, hnone, hauth', hcred', hseq'⟩ := h
    simp only [hgetauth, hcredOf, hseq] at *
    exact .freed n ⟨htable, hnone, hauth', hcred', hseq'⟩ hop

theorem ServMove.of_same (hs : s.TableOk) (hauth : s'.authtab = s.authtab)
    (hcred : s'.credtab = s.credtab) (hfree : s'.authfreelist = s.authfreelist)
    (hused : ∀ q, s.seqstate.Used q → s'.seqstate.Used q)
    (hbits : s'.seqstate.nbits = s.seqstate.nbits) (hgrant : grantOf e = none)
    (hop : ∀ n, e.1 ≠ .logout n) : ServMove s e s' := by
  have hgetauth : ∀ m, s'.getauth m = s.getauth m := fun m => by
    rw [getauth, hauth, getauth]
  refine .quiet ⟨?_, ?_, ?_, ?_, ?_⟩ ?_ hused hbits hgrant hop
  · rw [hcred, hauth, hs.len]
  · rw [hauth]
    exact hs.pos
  · rw [hgetauth, hs.zero]
  · rw [hfree]
    exact hs.nodup
  · intro n hn
    rw [hfree] at hn
    rw [hauth, hgetauth]
    exact hs.free n hn
  · intro m hm
    rw [hgetauth] at hm
    exact ⟨hm, by rw [credOf, hcred, credOf]⟩

variable {creds : List SfsauthCred}

/-- An allocation together with an accepted sequence number is a grant. -/
theorem ServMove.of_entered {n q : ℕ} {g : Grant}
    (h : s.Entered creds n { s' with seqstate := s.seqstate }) (hn : 0 < s.seqstate.nbits)
    (hseq : s'.seqstate = (s.seqstate.check q).1) (hcheck : (s.seqstate.check q).2 = true)
    (hq : g.seqno = q) (hcred : creds.find? supported = some g.cred)
    (hgrant : grantOf e = some (n, g)) (hop : ∀ n, e.1 ≠ .logout n) : ServMove s e s' := by
  obtain ⟨hfresh, hused⟩ := SeqCheck.check_accepts hn hcheck
  have htable := h.table
  refine .granted n g h.unused h.ne_zero ⟨htable.len, htable.pos, htable.zero, htable.nodup,
    htable.free⟩ (fun m hm => ⟨h.auth_eq m hm, h.cred_eq m hm⟩) ?_ ?_ ?_ ?_ hgrant hop
  · have hnew := h.cred_new
    rw [hcred, Option.some.injEq] at hnew
    exact hnew.symm
  · rw [hseq]
    exact fun q' hq' => hq'.check q
  · rw [hseq, hq]
    exact ⟨hfresh, hused⟩
  · rw [hseq, SeqCheck.nbits_check]

theorem SfsServ.Entered.reseq {n : ℕ} {c : SeqCheck}
    (h : ({ s with seqstate := c } : SfsServ).Entered creds n s') :
    s.Entered creds n { s' with seqstate := s.seqstate } where
  ne_zero := h.ne_zero
  unused := h.unused
  table := ⟨h.table.len, h.table.pos, h.table.zero, h.table.nodup, h.table.free⟩
  auth_eq := h.auth_eq
  cred_eq := h.cred_eq
  cred_new := h.cred_new
  seq_eq := rfl

theorem loginCb_move (hs : s.TableOk) (hn : 0 < s.seqstate.nbits) (xid : ℕ) (req : LoginReq)
    (ans : LoginAns1) :
    ServMove s (.answer1 xid (some ans), some ⟨req, (s.loginCb ans).1⟩) (s.loginCb ans).2 := by
  cases ans with
  | more resmore | other status => exact .of_same hs rfl rfl rfl (fun _ h => h) rfl rfl nofun
  | ok cred authid seqno =>
    by_cases hid : authid ≠ s.authid
    · simp only [loginCb, if_pos hid]
      exact .of_same hs rfl rfl rfl (fun _ h => h) rfl rfl nofun
    have hused : ∀ q, s.seqstate.Used q → (s.seqstate.check seqno).1.Used q :=
      fun q hq => hq.check seqno
    have hbits := SeqCheck.nbits_check s.seqstate seqno
    by_cases hcheck : (s.seqstate.check seqno).2 = true
    · have hs1 : ({ s with seqstate := (s.seqstate.check seqno).1 } : SfsServ).TableOk :=
        ⟨hs.len, hs.pos, hs.zero, hs.nodup, hs.free⟩
      simp only [loginCb, if_neg hid, hcheck]
      rcases authalloc_spec hs1 [cred] with hno | hyes
      · rw [hno]
        exact .of_same hs rfl rfl rfl hused hbits rfl nofun
      · simp only [if_neg hyes.ne_zero]
        have hcred : [cred].find? supported = some cred := by
          have hnew := hyes.cred_new
          exact hnew.trans
            (congrArg some (List.mem_singleton.mp (List.mem_of_find?_eq_some hnew)))
        exact .of_entered hyes.reseq hn hyes.seq_eq hcheck rfl hcred rfl nofun
    · simp only [loginCb, if_neg hid, Bool.eq_false_of_not_eq_true hcheck]
      exact .of_same hs rfl rfl rfl hused hbits rfl nofun

theorem login2Cb_move (hs : s.TableOk) (hn : 0 < s.seqstate.nbits) (xid : ℕ) (req : LoginReq)
    (ans : LoginAns2) (hguard : ∀ creds resmore hello, ans = .ok creds resmore hello →
      (s.seqstate.check req.seqno).2 = true ∨ creds.find? supported = none ∨ s.Exhausted) :
    ServMove s (.answer2 xid (some ans), some ⟨req, (s.login2Cb req ans).1⟩)
      (s.login2Cb req ans).2 := by
  cases ans with
  | more resmore | other status => exact .of_same hs rfl rfl rfl (fun _ h => h) rfl rfl nofun
  | ok creds resmore hello =>
    by_cases hempty : creds.length < 1
    · simp only [login2Cb, if_pos hempty]
      exact .of_same hs rfl rfl rfl (fun _ h => h) rfl rfl nofun
    rcases authalloc_spec hs creds with hno | hyes
    · simp only [login2Cb, if_neg hempty, hno]
      exact .of_same hs rfl rfl rfl (fun _ h => h) rfl rfl nofun
    · have hcheck : (s.seqstate.check req.seqno).2 = true := by
        rcases hguard creds resmore hello rfl with hok | hnone
        · exact hok
        · exact absurd (congrArg Prod.fst (authalloc_of_unsupported hnone)) hyes.ne_zero
      simp only [login2Cb, if_neg hempty, if_neg hyes.ne_zero, hyes.seq_eq, hcheck]
      have hcred : creds.find? supported = some ((creds.find? supported).getD .nocred) := by
        rw [hyes.cred_new, Option.getD_some]
      exact .of_entered hyes.reseq hn rfl hcheck rfl hcred rfl nofun

theorem step_move (hs : r.state.TableOk) (hn : 0 < r.state.seqstate.nbits)
    (hguard : NoReplayedGrant r op) :
    ServMove r.state (op, (r.state.step op).2) (r.state.step op).1 := by
  have hsame : ∀ {s' : SfsServ} {out : Option ServReply}, s'.authtab = r.state.authtab →
      s'.credtab = r.state.credtab → s'.authfreelist = r.state.authfreelist →
      s'.seqstate = r.state.seqstate → grantOf (op, out) = none → (∀ n, op ≠ .logout n) →
      ServMove r.state (op, out) s' := by
    intro s' out hauth hcred hfree hseq hgrant hop
    refine .of_same hs hauth hcred hfree ?_ (by rw [hseq]) hgrant hop
    rw [hseq]
    exact fun _ h => h
  cases op with
  | encrypt => exact hsame rfl rfl rfl rfl rfl nofun
  | login req authc =>
    simp only [step]
    split_ifs
    all_goals try split
    all_goals exact hsame rfl rfl rfl rfl rfl nofun
  | answer1 xid ans =>
    simp only [step]
    cases htake : takeReq xid r.state.pending1 with
    | none => exact hsame rfl rfl rfl rfl (grantOf_none _) nofun
    | some p =>
      obtain ⟨req, rest⟩ := p
      cases ans with
      | none => exact hsame rfl rfl rfl rfl rfl nofun
      | some ans =>
        split_ifs with hdead
        · exact hsame rfl rfl rfl rfl (grantOf_refused _ _ _) nofun
        · exact (loginCb_move (s := { r.state with pending1 := rest }) { hs with } hn xid req
            ans).of_waiting rfl rfl rfl
  | answer2 xid ans =>
    simp only [step]
    cases htake : takeReq xid r.state.pending2 with
    | none => exact hsame rfl rfl rfl rfl (grantOf_none _) nofun
    | some p =>
      obtain ⟨req, rest⟩ := p
      cases ans with
      | none => exact hsame rfl rfl rfl rfl rfl nofun
      | some ans =>
        split_ifs with hdead
        · exact hsame rfl rfl rfl rfl (grantOf_refused _ _ _) nofun
        · refine (login2Cb_move (s := { r.state with pending2 := rest }) { hs with } hn xid req
            ans ?_).of_waiting rfl rfl rfl
          rintro creds resmore hello rfl
          exact (hguard req rest htake).resolve_left hdead
  | logout n => exact .freed n (authfree_spec hs n) rfl
  | destroy =>
    refine .quiet
      ⟨rfl, Nat.one_pos, rfl, List.nodup_nil, nofun⟩ ?_ (fun _ h => h) rfl rfl nofun
    intro m hm
    have hlt := lt_of_getauth hm
    obtain rfl : m = 0 := Nat.lt_one_iff.mp hlt
    cases hm

/-! ## The invariant -/

structure ServOk (r : ServRun) : Prop where
  table : r.state.TableOk
  bits : 0 < r.state.seqstate.nbits
  live : ∀ n, (r.state.getauth n).isSome →
    ∃ g, lastGrant n r.past = some g ∧ r.state.credOf n = g.cred
  used : ∀ n g, lastGrant n r.past = some g → r.state.seqstate.Used g.seqno
  once : ∀ n m g g', lastGrant n r.past = some g → lastGrant m r.past = some g' →
    g.seqno = g'.seqno → n = m

theorem ServOk.start (authid : SfsHash) : ServOk (Run.start (new authid)) where
  table := tableOk_new authid
  bits := (by decide : 0 < 128)
  live := by
    intro n hn
    have hlt := lt_of_getauth hn
    obtain rfl : n = 0 := Nat.lt_one_iff.mp hlt
    cases hn
  used := by
    intro n g hg
    cases hg
  once := by
    intro n m g g' hg
    cases hg

theorem lastGrant_cons {g : Option (ℕ × Grant)} (hgrant : grantOf e = g)
    (hop : ∀ n, e.1 ≠ .logout n) (n : ℕ) (past : List ServEvent) :
    lastGrant n (e :: past) =
      g.elim (lastGrant n past) fun p => if p.1 = n then some p.2 else lastGrant n past := by
  obtain ⟨op, out⟩ := e
  cases op with
  | logout m => exact absurd rfl (hop m)
  | _ => cases g <;> simp only [lastGrant, hgrant, Option.elim]

theorem ServOk.next (hr : ServOk r) (hguard : NoReplayedGrant r op) : ServOk (r.next step op) := by
  have hmove := step_move hr.table hr.bits hguard
  cases hmove with
  | quiet htable hkeep hused hbits hgrant hop =>
    have hlast : ∀ n, lastGrant n (r.next step op).past = lastGrant n r.past :=
      fun n => lastGrant_cons hgrant hop n r.past
    refine ⟨htable, hbits ▸ hr.bits, ?_, ?_, ?_⟩
    · intro n hn
      obtain ⟨hold, hcred⟩ := hkeep n hn
      obtain ⟨g, hg, hgc⟩ := hr.live n hold
      exact ⟨g, (hlast n).trans hg, hcred.trans hgc⟩
    · intro n g hg
      exact hused _ (hr.used n g ((hlast n).symm.trans hg))
    · intro n m g g' hg hg'
      exact hr.once n m g g' ((hlast n).symm.trans hg) ((hlast m).symm.trans hg')
  | granted k gr hunused h0 htable hkeep hnew hused hfresh hbits hgrant hop =>
    have hlast : ∀ n, lastGrant n (r.next step op).past =
        if k = n then some gr else lastGrant n r.past :=
      fun n => lastGrant_cons hgrant hop n r.past
    refine ⟨htable, hbits ▸ hr.bits, ?_, ?_, ?_⟩
    · intro n hn
      by_cases hk : n = k
      · subst hk
        exact ⟨gr, (hlast n).trans (if_pos rfl), hnew⟩
      · obtain ⟨hauth, hcred⟩ := hkeep n hk
        have hold : (r.state.getauth n).isSome := hauth ▸ hn
        obtain ⟨g, hg, hgc⟩ := hr.live n hold
        exact ⟨g, (hlast n).trans ((if_neg (Ne.symm hk)).trans hg), hcred.trans hgc⟩
    · intro n g hg
      rw [hlast] at hg
      split_ifs at hg with hk
      · cases hg
        exact hfresh.2
      · exact hused _ (hr.used n g hg)
    · -- a new grant has a sequence number that no older one has used
      intro n m g g' hg hg' heq
      rw [hlast] at hg hg'
      split_ifs at hg hg' with hn hm hm
      · rw [← hn, hm]
      · cases hg
        exact absurd (heq ▸ hr.used m g' hg') hfresh.1
      · cases hg'
        exact absurd (heq ▸ hr.used n g hg) hfresh.1
      · exact hr.once n m g g' hg hg' heq
  | freed k hfreed hop =>
    obtain rfl : op = .logout k := hop
    have hlast : ∀ n, lastGrant n (r.next step (.logout k)).past =
        if k = n then none else lastGrant n r.past := fun n => rfl
    have hsome : ∀ n g, lastGrant n (r.next step (.logout k)).past = some g →
        lastGrant n r.past = some g := by
      intro n g hg
      rw [hlast] at hg
      split_ifs at hg
      exact hg
    have hseq := hfreed.seq_eq
    refine ⟨hfreed.table, ?_, ?_, ?_, ?_⟩
    · exact hseq.symm ▸ hr.bits
    · intro n hn
      have hne : n ≠ k := by
        rintro rfl
        have hnone : ((r.next step (.logout n)).state.getauth n) = none := hfreed.auth_none
        rw [hnone] at hn
        cases hn
      have hold : (r.state.getauth n).isSome := hfreed.auth_eq n hne ▸ hn
      obtain ⟨g, hg, hgc⟩ := hr.live n hold
      exact ⟨g, (hlast n).trans ((if_neg (hne.symm)).trans hg), (hfreed.cred_eq n hne).trans hgc⟩
    · intro n g hg
      exact hseq.symm ▸ hr.used n g (hsome n g hg)
    · intro n m g g' hg hg'
      exact hr.once n m g g' (hsome n g hg) (hsome m g' hg')

theorem ServOk.loginsSound (hr : ServOk r) (hguard : NoReplayedGrant r op) : LoginsSound r op := by
  have hnext := hr.next hguard
  refine ⟨?_, ?_, ?_⟩
  · intro n hn
    refine ⟨?_, hnext.live n hn⟩
    rintro rfl
    rw [hnext.table.zero] at hn
    cases hn
  · intro n m _ _ g g' hg hg'
    exact hnext.once n m g g' hg hg'
  · intro n g hg
    have hmove := step_move hr.table hr.bits hguard
    cases hmove with
    | quiet htable hkeep hused hbits hgrant hop =>
      rw [hgrant] at hg
      cases hg
    | granted k gr hunused h0 htable hkeep hnew hused hfresh hbits hgrant hop =>
      rw [hgrant] at hg
      cases hg
      exact hunused
    | freed k hfreed hop =>
      obtain rfl : op = .logout k := hop
      cases hg

/-- In every run of a connection in which no version 2 answer grants a login with
a rejected sequence number, the tables hold exactly what has been granted. -/
theorem logins_sound_of_noReplayedGrant (authid : SfsHash) (before : List ServOp) (op : ServOp)
    (after : List ServOp)
    (hguard : Run.Guarded step NoReplayedGrant (Run.start (new authid))
      (before ++ op :: after)) :
    LoginsSound ((Run.start (new authid)).take step before) op := by
  obtain ⟨hok, hop⟩ :=
    Run.invariant_of_guarded (ServOk.start authid) (fun _ _ hr hg => hr.next hg) hguard
  exact hok.loginsSound hop

theorem logins_sound_first_login :
    LoginsSound ((Run.start (new zeroHash)).take step
      [.encrypt, .login ⟨0, 1⟩ (some .v2)])
      (.answer2 0 (some (.ok [.nocred] [] []))) := by
  refine logins_sound_of_noReplayedGrant zeroHash _ _ [] ⟨trivial, trivial, ?_, trivial⟩
  intro req rest htake
  cases htake
  exact .inr (.inl (by decide))

/-- A repeated sequence number is answered with an error, but its number stays in
the table. -/
theorem replayed_login_leaves_number :
    ¬LoginsSound ((Run.start (new zeroHash)).take step
      [.encrypt, .login ⟨0, 1⟩ (some .v2), .answer2 0 (some (.ok [.nocred] [] [])),
        .login ⟨1, 1⟩ (some .v2)])
      (.answer2 1 (some (.ok [.nocred] [] []))) := by
  intro h
  obtain ⟨-, g, hg, -⟩ := h.live 2 (by decide)
  cases hg

end SelfCertifyingFS.Server
