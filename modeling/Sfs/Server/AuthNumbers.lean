import Mathlib.Data.List.GetD
import Sfs.Crypt.SeqCheck
import Sfs.Rpc.SfsAuthProt

/-!
# Authentication numbers of a connection

`sfsserv` of `sfsmisc/sfsserv.C` passes the login requests of a client on to the
authentication server. When the answer arrives it allocates an authentication
number, under which the client then makes its calls, and keeps the credential of
the login in a table.
-/

namespace SelfCertifyingFS.Server

open Foundations Rpc Crypt List

/-- An entry of `authtab`: Unix credentials, or the number itself. -/
inductive Auth
  | unixint (uid gid : UInt32) (groups : List UInt32)
  | uint (authno : ℕ)
  deriving DecidableEq, Repr

/-- A login request that waits for the authentication server: the number of the
call, and the sequence number in its argument. -/
structure LoginReq where
  xid : ℕ
  seqno : ℕ
  deriving DecidableEq, Repr

/-- The answer of version 1 of the authentication server. -/
inductive LoginAns1
  | ok (cred : SfsauthCred) (authid : SfsHash) (seqno : ℕ)
  | more (resmore : Bytes)
  | other (status : SfsLoginstat)

/-- The answer of version 2. -/
inductive LoginAns2
  | ok (creds : List SfsauthCred) (resmore hello : Bytes)
  | more (resmore : Bytes)
  | other (status : SfsLoginstat)

/-- `sfs_loginres`. -/
inductive LoginRes
  | ok (authno : ℕ) (resmore hello : Bytes)
  | more (resmore : Bytes)
  | other (status : SfsLoginstat)
  deriving DecidableEq

/-- The free list is kept with its back first. -/
structure SfsServ where
  authtab : List (Option Auth)
  credtab : List SfsauthCred
  authfreelist : List ℕ
  seqstate : SeqCheck
  authidValid : Bool
  authid : SfsHash
  destroyed : Bool
  pending1 : List LoginReq
  pending2 : List LoginReq

namespace SfsServ

/-- The constructor. Number 0 is reserved for calls without a login. -/
def new (authid : SfsHash) : SfsServ where
  authtab := [none]
  credtab := [.nocred]
  authfreelist := []
  seqstate := .new 128
  authidValid := false
  authid := authid
  destroyed := false
  pending1 := []
  pending2 := []

/-- `authnoalloc`; zero if there is no number left. -/
def authnoalloc (s : SfsServ) : ℕ × SfsServ :=
  match s.authfreelist with
  | n :: rest => (n, { s with authfreelist := rest })
  | [] =>
      if s.authtab.length ≥ 0x10000 then (0, s)
      else (s.authtab.length,
        { s with authtab := s.authtab ++ [none], credtab := s.credtab ++ [.nocred] })

/-- Enter an authenticator and a credential under a number. -/
def enter (s : SfsServ) (n : ℕ) (a : Auth) (c : SfsauthCred) : SfsServ :=
  { s with authtab := s.authtab.set n (some a), credtab := s.credtab.set n c }

/-- `authalloc`: the first credential of a type that has an authenticator. -/
def authalloc (s : SfsServ) : List SfsauthCred → ℕ × SfsServ
  | [] => (0, s)
  | .unixcred uc :: _ =>
      let (n, s) := s.authnoalloc
      if n = 0 then (0, s)
      else (n, s.enter n (.unixint uc.uid uc.gid uc.groups) (.unixcred uc))
  | .nocred :: _ =>
      let (n, s) := s.authnoalloc
      if n = 0 then (0, s) else (n, s.enter n (.uint n) .nocred)
  | .pkcred _ :: cs | .groupscred _ :: cs => s.authalloc cs

def getauth (s : SfsServ) (n : ℕ) : Option Auth := s.authtab.getD n none

def authfree (s : SfsServ) (n : ℕ) : SfsServ :=
  if n ≠ 0 ∧ (s.getauth n).isSome then
    { s with
      authtab := s.authtab.set n none
      credtab := s.credtab.set n .nocred
      authfreelist := n :: s.authfreelist }
  else s

/-- `sfs_login_cb`, for an answer that has arrived. -/
def loginCb (s : SfsServ) : LoginAns1 → LoginRes × SfsServ
  | .ok cred authid seqno =>
      if authid ≠ s.authid then (.other .bad, s)
      else
        let (seqstate, fresh) := s.seqstate.check seqno
        let s := { s with seqstate := seqstate }
        if !fresh then (.other .bad, s)
        else
          let (n, s) := s.authalloc [cred]
          if n = 0 then (.other .bad, s) else (.ok n [] [], s)
  | .more resmore => (.more resmore, s)
  | .other status => (.other status, s)

/-- `sfs_login2_cb`, for an answer that has arrived. The number is allocated
before the sequence number is checked. -/
def login2Cb (s : SfsServ) (argp : LoginReq) : LoginAns2 → LoginRes × SfsServ
  | .ok creds resmore hello =>
      if creds.length < 1 then (.other .bad, s)
      else
        let (n, s) := s.authalloc creds
        if n = 0 then (.other .bad, s)
        else
          let (seqstate, fresh) := s.seqstate.check argp.seqno
          let s := { s with seqstate := seqstate }
          if !fresh then (.other .bad, s) else (.ok n resmore hello, s)
  | .more resmore => (.more resmore, s)
  | .other status => (.other status, s)

end SfsServ

/-- The version of the authentication server that a request reaches, if any. -/
inductive AuthVers
  | v1
  | v2
  deriving DecidableEq

/-- What happens to a connection. An answer is missing if the call has failed. -/
inductive ServOp
  | encrypt
  | login (req : LoginReq) (authc : Option AuthVers)
  | answer1 (xid : ℕ) (ans : Option LoginAns1)
  | answer2 (xid : ℕ) (ans : Option LoginAns2)
  | logout (authno : ℕ)
  | destroy

/-- The reply to a login request. -/
structure ServReply where
  req : LoginReq
  res : LoginRes
  deriving DecidableEq

namespace SfsServ

/-- Take the request of an answer from those that wait. -/
def takeReq (xid : ℕ) (reqs : List LoginReq) : Option (LoginReq × List LoginReq) :=
  (reqs.find? fun r => r.xid = xid).map fun r => (r, reqs.erase r)

/-- One event. The tables go when the connection is destroyed; answers that arrive
later find only the flag. -/
def step (s : SfsServ) : ServOp → SfsServ × Option ServReply
  | .encrypt => ({ s with authidValid := true }, none)
  | .login req authc =>
      if s.destroyed then (s, none)
      else if !s.authidValid then (s, some ⟨req, .other .allbad⟩)
      else match authc with
        | none => (s, some ⟨req, .other .allbad⟩)
        | some .v1 => ({ s with pending1 := s.pending1 ++ [req] }, none)
        | some .v2 => ({ s with pending2 := s.pending2 ++ [req] }, none)
  | .answer1 xid ans =>
      match takeReq xid s.pending1 with
      | none => (s, none)
      | some (req, rest) =>
          let s := { s with pending1 := rest }
          match ans with
          | none => (s, some ⟨req, .other .allbad⟩)
          | some ans =>
              if s.destroyed then (s, some ⟨req, .other .allbad⟩)
              else
                let (res, s) := s.loginCb ans
                (s, some ⟨req, res⟩)
  | .answer2 xid ans =>
      match takeReq xid s.pending2 with
      | none => (s, none)
      | some (req, rest) =>
          let s := { s with pending2 := rest }
          match ans with
          | none => (s, some ⟨req, .other .allbad⟩)
          | some ans =>
              if s.destroyed then (s, some ⟨req, .other .allbad⟩)
              else
                let (res, s) := s.login2Cb req ans
                (s, some ⟨req, res⟩)
  | .logout n => (s.authfree n, none)
  | .destroy =>
      ({ s with destroyed := true, authtab := [none], credtab := [.nocred], authfreelist := [] },
        none)

/-! ## The tables -/

def credOf (s : SfsServ) (n : ℕ) : SfsauthCred := s.credtab.getD n .nocred

/-- The tables have the same length, number 0 is never in use, and the free list
holds unused numbers once each. -/
structure TableOk (s : SfsServ) : Prop where
  len : s.credtab.length = s.authtab.length
  pos : 0 < s.authtab.length
  zero : s.getauth 0 = none
  nodup : s.authfreelist.Nodup
  free : ∀ n ∈ s.authfreelist, n ≠ 0 ∧ n < s.authtab.length ∧ s.getauth n = none

theorem tableOk_new (authid : SfsHash) : (new authid).TableOk where
  len := rfl
  pos := Nat.one_pos
  zero := rfl
  nodup := nodup_nil
  free := by
    intro n hn
    cases hn

variable {s : SfsServ} {n : ℕ}

theorem getauth_enter (hn : n < s.authtab.length) (a : Auth) (c : SfsauthCred) (m : ℕ) :
    (s.enter n a c).getauth m = if m = n then some a else s.getauth m := by
  by_cases h : m = n
  · subst h
    simp [getauth, enter, hn]
  · simp [getauth, enter, h, List.getElem?_set_ne (Ne.symm h)]

theorem credOf_enter (hn : n < s.credtab.length) (a : Auth) (c : SfsauthCred) (m : ℕ) :
    (s.enter n a c).credOf m = if m = n then c else s.credOf m := by
  by_cases h : m = n
  · subst h
    simp [credOf, enter, hn]
  · simp [credOf, enter, h, List.getElem?_set_ne (Ne.symm h)]

/-- What an allocated number is, and what its allocation leaves alone. -/
structure Allocated (s : SfsServ) (n : ℕ) (s' : SfsServ) : Prop where
  ne_zero : n ≠ 0
  unused : s.getauth n = none
  lt : n < s'.authtab.length
  taken : n ∉ s'.authfreelist
  table : s'.TableOk
  auth_eq : ∀ m, s'.getauth m = s.getauth m
  cred_eq : ∀ m, s'.credOf m = s.credOf m
  seq_eq : s'.seqstate = s.seqstate

theorem getD_concat_default {α : Type*} (l : List α) (d : α) (m : ℕ) :
    (l ++ [d]).getD m d = l.getD m d := by
  rcases lt_trichotomy m l.length with hlt | heq | hgt
  · exact getD_append l [d] d m hlt
  · subst heq
    simp
  · rw [getD_eq_default _ _ (by simpa using hgt), getD_eq_default _ _ hgt.le]

theorem authnoalloc_spec (hs : s.TableOk) :
    s.authnoalloc = (0, s) ∨ s.Allocated s.authnoalloc.1 s.authnoalloc.2 := by
  unfold authnoalloc
  cases hfree : s.authfreelist with
  | cons n rest =>
    right
    have hn := hs.free n (by rw [hfree]; exact mem_cons_self)
    have hnodup := hs.nodup
    rw [hfree, nodup_cons] at hnodup
    refine ⟨hn.1, hn.2.2, hn.2.1, hnodup.1, ⟨hs.len, hs.pos, hs.zero, hnodup.2, ?_⟩,
      fun _ => rfl, fun _ => rfl, rfl⟩
    intro m hm
    exact hs.free m (by rw [hfree]; exact mem_cons_of_mem n hm)
  | nil =>
    split_ifs with hfull
    · exact .inl rfl
    · right
      have hpos := hs.pos
      have hauth := getD_concat_default s.authtab none
      refine ⟨hpos.ne', getD_eq_default _ _ le_rfl, ?_, ?_, ⟨?_, ?_, ?_, ?_, ?_⟩, hauth,
        getD_concat_default s.credtab .nocred, rfl⟩
      · simp
      · exact not_mem_nil
      · simp [hs.len]
      · simp
      · exact (hauth 0).trans hs.zero
      · exact nodup_nil
      · exact fun m hm => absurd hm not_mem_nil

/-- The types of credentials that have an authenticator. -/
def supported : SfsauthCred → Bool
  | .unixcred _ | .nocred => true
  | _ => false

/-- What `authalloc` achieves when it returns a number. -/
structure Entered (s : SfsServ) (creds : List SfsauthCred) (n : ℕ) (s' : SfsServ) : Prop where
  ne_zero : n ≠ 0
  unused : s.getauth n = none
  table : s'.TableOk
  auth_eq : ∀ m, m ≠ n → s'.getauth m = s.getauth m
  cred_eq : ∀ m, m ≠ n → s'.credOf m = s.credOf m
  cred_new : creds.find? supported = some (s'.credOf n)
  seq_eq : s'.seqstate = s.seqstate

theorem TableOk.enter (hs : s.TableOk) (h0 : n ≠ 0) (hlt : n < s.authtab.length)
    (hfree : n ∉ s.authfreelist) (a : Auth) (c : SfsauthCred) :
    (s.enter n a c).TableOk where
  len := by simp [SfsServ.enter, hs.len]
  pos := by simpa [SfsServ.enter] using hs.pos
  zero := by rw [getauth_enter hlt, if_neg h0.symm, hs.zero]
  nodup := hs.nodup
  free := by
    intro m hm
    obtain ⟨hm0, hmlt, hmauth⟩ := hs.free m hm
    have hne : m ≠ n := fun h => hfree (h ▸ hm)
    exact ⟨hm0, by simpa [SfsServ.enter] using hmlt, by rw [getauth_enter hlt, if_neg hne, hmauth]⟩

theorem Allocated.enter {s1 : SfsServ} (h : s.Allocated n s1) (a : Auth) {c : SfsauthCred}
    {creds : List SfsauthCred} (hc : creds.find? supported = some c) :
    s.Entered creds n (s1.enter n a c) where
  ne_zero := h.ne_zero
  unused := h.unused
  table := h.table.enter h.ne_zero h.lt h.taken a c
  auth_eq := by
    intro m hm
    rw [getauth_enter h.lt, if_neg hm, h.auth_eq]
  cred_eq := by
    intro m hm
    rw [credOf_enter (h.table.len ▸ h.lt), if_neg hm, h.cred_eq]
  cred_new := by
    rw [credOf_enter (h.table.len ▸ h.lt), if_pos rfl, hc]
  seq_eq := h.seq_eq

theorem authalloc_spec (hs : s.TableOk) (creds : List SfsauthCred) :
    s.authalloc creds = (0, s) ∨ s.Entered creds (s.authalloc creds).1 (s.authalloc creds).2 := by
  induction creds with
  | nil => exact .inl rfl
  | cons c cs ih =>
    cases c with
    | pkcred h | groupscred gs => exact ih.imp_right fun h => { h with }
    | unixcred uc | nocred =>
      rcases authnoalloc_spec hs with hno | hyes
      · simp [authalloc, hno]
      · simp only [authalloc, if_neg hyes.ne_zero]
        exact .inr (hyes.enter _ rfl)

/-- What `authfree` does to the number and leaves of the others. -/
structure Freed (s : SfsServ) (n : ℕ) (s' : SfsServ) : Prop where
  table : s'.TableOk
  auth_none : s'.getauth n = none
  auth_eq : ∀ m, m ≠ n → s'.getauth m = s.getauth m
  cred_eq : ∀ m, m ≠ n → s'.credOf m = s.credOf m
  seq_eq : s'.seqstate = s.seqstate

theorem lt_of_getauth (h : (s.getauth n).isSome) : n < s.authtab.length := by
  by_contra hge
  rw [getauth, getD_eq_default _ _ (not_lt.mp hge)] at h
  cases h

theorem authfree_spec (hs : s.TableOk) (n : ℕ) : s.Freed n (s.authfree n) := by
  unfold authfree
  split_ifs with h
  · have hlt := lt_of_getauth h.2
    have hauth : ∀ m, (s.authtab.set n none).getD m none = if m = n then none else s.getauth m := by
      intro m
      by_cases hm : m = n
      · subst hm
        simp [hlt]
      · simp [getauth, hm, List.getElem?_set_ne (Ne.symm hm)]
    have hcred : ∀ m, m ≠ n → (s.credtab.set n .nocred).getD m .nocred = s.credOf m := by
      intro m hm
      simp [credOf, List.getElem?_set_ne (hm.symm)]
    refine ⟨⟨?_, ?_, ?_, ?_, ?_⟩, ?_, ?_, hcred, rfl⟩
    · simp [hs.len]
    · simpa using hs.pos
    · exact (hauth 0).trans (by rw [if_neg h.1.symm, hs.zero])
    · refine nodup_cons.mpr ⟨fun hmem => ?_, hs.nodup⟩
      -- a number in the free list has no authenticator
      rw [(hs.free n hmem).2.2] at h
      cases h.2
    · intro m hm
      rcases mem_cons.mp hm with rfl | hold
      · exact ⟨h.1, by simpa using hlt, (hauth m).trans (if_pos rfl)⟩
      · obtain ⟨hm0, hmlt, hmauth⟩ := hs.free m hold
        refine ⟨hm0, by simpa using hmlt, (hauth m).trans ?_⟩
        rw [hmauth, ite_self]
    · exact (hauth n).trans (if_pos rfl)
    · exact fun m hm => (hauth m).trans (if_neg hm)
  · refine ⟨hs, ?_, fun _ _ => rfl, fun _ _ => rfl, rfl⟩
    by_cases h0 : n = 0
    · rw [h0, hs.zero]
    · by_contra hsome
      exact h ⟨h0, Option.isSome_iff_ne_none.mpr hsome⟩

end SfsServ

end SelfCertifyingFS.Server
