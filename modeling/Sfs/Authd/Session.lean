import Sfs.Authd.Credentials
import Sfs.Authd.Groups
import Sfs.Server.AuthNumbers

/-!
# Sessions with the authentication server

`authclnt` of `sfsauthd/sfsauthd.h` is a file server connection whose logins are
also entered in `utab`, with the server's half of the user's signing key. The
state of the daemon is such a session together with the databases and the table
of key halves in use.
-/

namespace SelfCertifyingFS.Authd

open Foundations Rpc

/-- `urec_t`. -/
structure Urec where
  authtype : SfsAuthtype
  kh : SfsauthKeyhalf
  uname : Bytes
  deriving DecidableEq, Repr

/-- `authclnt`. -/
structure Authclnt where
  serv : Server.SfsServ
  uid : Option UInt32
  utab : ℕ → Option Urec
  clientName : Bytes

structure AuthdState where
  clnt : Authclnt
  dbfiles : List Dbfile
  sprivkTab : SprivkTab

/-- What the update and signing calls take from outside besides the host: the bytes of an
update request, the time of day, the cache of groups, and the answers of the change log and
the signature log. -/
structure Site extends Host where
  xdrUpdatereq : SfsUpdatereq → Bytes
  timestr : Bytes
  dbcache : Dbcache
  writeGroupChangelog : Bytes → UInt32 → List Bytes → Bytes → Bool
  siglog : SfsauthSignArg → Bytes → Bool

/-- A site whose logs never fail. -/
def sampleSite : Site :=
  { smallHost with
    xdrUpdatereq _ := []
    timestr := []
    dbcache := none
    writeGroupChangelog _ _ _ _ := true
    siglog _ _ := true }

/-- Places where the behaviour of the program is undefined. -/
inductive Fault
  /-- An arm of a union is read that is not the selected one. -/
  | misread
  /-- An element behind the end of a vector is read. -/
  | outOfRange
  /-- A null pointer is followed. -/
  | nullPointer
  /-- A variable is read that was not set. -/
  | uninitialized
  | divideByZero
  deriving DecidableEq, Repr

/-- A key half as its constructor leaves it. -/
def emptyKeyhalf : Sfs2SchnorrPriv := ⟨0, 0, 0, 0, 0, [], [], []⟩

def setsize (keys : List Sfs2SchnorrPriv) (n : ℕ) : List Sfs2SchnorrPriv :=
  keys.take n ++ List.replicate (n - keys.length) emptyKeyhalf

/-- `kh.priv`, once the arm has been selected. -/
def privOf : SfsauthKeyhalf → List Sfs2SchnorrPriv
  | .priv keys => keys
  | _ => []

/-- How `update_srv_keyhalf` ends. -/
inductive KeyhalfUpdate
  | keep
  | refuse (errmsg : Bytes)
  | fault (f : Fault)
  | set (keys : List Sfs2SchnorrPriv) (tab : SprivkTab)

/-- `update_srv_keyhalf`. The updated record still has its old halves in `newkh`. -/
def updateSrvKeyhalf (c : Sfscrypt) (tab : SprivkTab) (updkh newkh oldkh : SfsauthKeyhalf)
    (canclear : Bool) : KeyhalfUpdate :=
  let old := privOf oldkh
  match updkh with
  | .none => .keep
  | .delta d =>
      match old with
      | [] => .refuse (ascii "Cannot apply key delta: no key currently exists!")
      | o :: os =>
          if (privOf newkh).length < old.length then .fault .outOfRange
          else if o.q = 0 then .fault .divideByZero
          else
            let k := { o with x := (o.x + d).tmod o.q }
            .set (k :: os ++ (privOf newkh).drop old.length)
              ((tab.invalidate (c.hashSprivk o)).bind (c.hashSprivk k))
  | .priv upd =>
      if canclear = false then
        .refuse (ascii "Can only explicitly set server keyhalf on register or signed update.")
      else
        match upd with
        | [] => .fault .outOfRange
        | k :: _ =>
            -- a full history loses its oldest half
            match (if old.length = sprivkHistoryLen then old.getLast? else none) with
            | some o =>
                .set (k :: old.dropLast) ((tab.invalidate (c.hashSprivk o)).bind (c.hashSprivk k))
            | none => .set (k :: old) (tab.bind (c.hashSprivk k))
  | .flag =>
      if old = [] then .set (setsize (privOf newkh) 1) tab
      else
        .set ((setsize (privOf newkh) (min (old.length + 1) sprivkHistoryLen)).take 1 ++
          old.take (min (old.length + 1) sprivkHistoryLen - 1)) tab

/-- A record with its session and number. -/
abbrev UrecAt := (ℕ × ℕ) × Urec

/-- The records of all sessions, and the table that they share. -/
structure Urecs where
  tab : SprivkTab
  ulist : List UrecAt

inductive UrecOp
  | utabInsert (k : ℕ × ℕ) (u : Urec)
  | logout (k : ℕ × ℕ)
  | destroy (client : ℕ)

namespace Urecs

open List

variable (c : Sfscrypt) (s : Urecs)

def hashes (u : Urec) : List SfsHash := (privOf u.kh).map c.hashSprivk

/-- `urecfree`, with `~urec_t`. -/
def urecfree (r : UrecAt) : Urecs := ⟨(hashes c r.2).foldl .release s.tab, s.ulist.erase r⟩

/-- `sfs_logout`, for the record. -/
def logout (k : ℕ × ℕ) : Urecs := (s.ulist.find? (·.1 = k)).elim s (s.urecfree c)

def step : UrecOp → Urecs
  | .utabInsert k u =>
      let s := s.logout c k
      ⟨(hashes c u).foldl .bind s.tab, (k, u) :: s.ulist⟩
  | .logout k => s.logout c k
  | .destroy client => (s.ulist.filter (·.1.1 = client)).foldl (urecfree c) s

def counts (hs : Multiset SfsHash) : SprivkTab := fun hv =>
  if hv ∈ hs then some ⟨hs.count hv, true⟩ else none

def held : Multiset SfsHash := ↑(s.ulist.flatMap fun r => hashes c r.2)

/-- The table has the halves of the records, as often as they have them, and all valid. -/
def Counted : Prop := s.tab = counts (s.held c)

variable {c s} {hs : Multiset SfsHash}

theorem bind_counts (hv : SfsHash) : (counts hs).bind hv = counts (hv ::ₘ hs) := by
  funext h
  unfold SprivkTab.bind counts
  by_cases hmem : hv ∈ hs <;> by_cases heq : h = hv <;> simp [hmem, heq]

theorem release_counts (hv : SfsHash) : (counts hs).release hv = counts (hs.erase hv) := by
  funext h
  unfold SprivkTab.release counts
  by_cases hmem : hv ∈ hs
  · have hpos := Multiset.count_pos.mpr hmem
    by_cases heq : h = hv
    · subst heq
      simp only [hmem, if_true, ← Multiset.count_pos, Multiset.count_erase_self]
      split_ifs <;> simp <;> omega
    · simp only [hmem, if_true, Multiset.mem_erase_of_ne heq, Multiset.count_erase_of_ne heq]
      split_ifs <;> simp [*]
  · simp [hmem, Multiset.erase_of_notMem]

theorem foldl_bind (l : List SfsHash) : l.foldl .bind (counts hs) = counts (l + hs) := by
  induction l generalizing hs with
  | nil => simp
  | cons hv l ih =>
    rw [foldl_cons, bind_counts, ih, ← Multiset.cons_coe, Multiset.add_cons, Multiset.cons_add]

theorem foldl_release (l : List SfsHash) : l.foldl .release (counts hs) = counts (hs - l) := by
  induction l generalizing hs with
  | nil => simp
  | cons hv l ih => rw [foldl_cons, release_counts, ih, ← Multiset.cons_coe, Multiset.sub_cons]

section

variable (h : s.Counted c)
include h

theorem Counted.urecfree {r : UrecAt} (hr : r ∈ s.ulist) : (s.urecfree c r).Counted c := by
  have hheld : s.held c = hashes c r.2 + (s.urecfree c r).held c :=
    Multiset.coe_eq_coe.mpr ((perm_cons_erase hr).flatMap_right _)
  have htab : (s.urecfree c r).tab = counts (s.held c - hashes c r.2) := by
    rw [Urecs.urecfree, h, foldl_release]
  rw [Counted, htab, hheld, add_tsub_cancel_left]

theorem Counted.logout (k : ℕ × ℕ) : (s.logout c k).Counted c := by
  unfold Urecs.logout
  cases hfind : s.ulist.find? (·.1 = k) with
  | none => exact h
  | some r => exact h.urecfree (mem_of_find?_eq_some hfind)

theorem Counted.free {rs : List UrecAt} (hrs : rs.Subperm s.ulist) :
    (rs.foldl (Urecs.urecfree c) s).Counted c := by
  induction rs generalizing s with
  | nil => exact h
  | cons r rs ih =>
    have hrest := hrs.erase r
    rw [erase_cons_head] at hrest
    exact ih (h.urecfree (hrs.subset mem_cons_self)) hrest

theorem Counted.step (op : UrecOp) : (s.step c op).Counted c := by
  cases op with
  | utabInsert k u =>
    have htab := @foldl_bind ((s.logout c k).held c) (hashes c u)
    rwa [← h.logout k] at htab
  | logout k => exact h.logout k
  | destroy client => exact h.free filter_sublist.subperm

end

/-- After any logins, logouts and ends of sessions, in any order, the table counts the records
that hold each key half. -/
theorem keyhalves_counted (ops : List UrecOp) :
    (ops.foldl (step c) ⟨fun _ => none, []⟩).Counted c :=
  foldlRecOn ops (step c) rfl fun _ h op _ => h.step op

end Urecs

end SelfCertifyingFS.Authd
