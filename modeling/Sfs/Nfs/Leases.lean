import Sfs.Nfs.AttrCache
import Sfs.Nfs.HandleSealing

/-!
# Leases on attributes

`sfsrwsd/lease.C`. A client that is told the attributes of a file gets a lease on them: until
it runs out the client is called back when the file changes. A lease is in the table of its
file and in a tree ordered by time, and the file is in a table of files while it has a lease;
each step keeps them together.

The objects are at addresses that are not used again once an object is freed. A step that
reads a freed object, or calls through a null pointer, has no result.
-/

namespace SelfCertifyingFS.Nfs

section

open Foundations Crypt Function

/-- `lease`; `fhs` is the address of its file. -/
structure Lease where
  cgen : UInt64
  fsno : UInt32
  expire : UInt32
  fhs : ℕ
  deriving DecidableEq

/-- `fhsync`: a file, and the addresses of the leases in its table. -/
structure Fhsync where
  fh : NfsFh3
  mtime : NfsTime3
  ctime : NfsTime3
  leases : List ℕ
  deriving DecidableEq

def Fattr3exp.setExpire (a : Fattr3exp) (expire : UInt32) : Fattr3exp := { a with expire := expire }

/-- What `lease.C` reads of the `filesrv`, and what sealing a handle depends on. -/
structure Filesrv where
  order : ByteOrder
  junk : ℕ → UInt8
  fhkey : Block64Cipher
  leasetime : UInt32

/-- `clienttab`: the clients that exist, and whether `fail` has not yet cleared their `nfscbc`. -/
abbrev Clienttab := UInt64 → Option Bool

/-- A call of `ex_NFSCBPROC3_INVALIDATE`, and the client it is made to. -/
structure Invalidate where
  client : UInt64
  handle : NfsFh3
  attributes : Option Fattr3exp
  deriving DecidableEq

/-- The objects, and the static variables of `lease.C` with the table of the `synctab`. The
tree is the list of its elements in order. -/
structure LeaseState where
  lease : ℕ → Option Lease
  fhsync : ℕ → Option Fhsync
  brk : ℕ
  leasetree : List ℕ
  fhtab : List ℕ
  numLeases : UInt32
  tmocb : Option UInt32

namespace LeaseState

def initial : LeaseState := ⟨fun _ => none, fun _ => none, 0, [], [], 0, none⟩

variable (s : LeaseState) (l : ℕ)

def expireAt : UInt32 := (s.lease l).elim 0 (·.expire)

/-- `leasetree.insert`: behind the leases that do not expire later. -/
def treeInsert : List ℕ :=
  s.leasetree.takeWhile (fun x => s.expireAt x ≤ s.expireAt l) ++
    l :: s.leasetree.dropWhile (fun x => s.expireAt x ≤ s.expireAt l)

/-- `lease::~lease`. The last lease of a file takes the file along. -/
def deleteLease : Option LeaseState :=
  (s.lease l).bind fun le =>
    (s.fhsync le.fhs).map fun fs =>
      let leases := fs.leases.erase l
      { s with
        numLeases := s.numLeases - 1
        leasetree := s.leasetree.erase l
        lease := update s.lease l none
        fhtab := if leases = [] then s.fhtab.erase le.fhs else s.fhtab
        fhsync := update s.fhsync le.fhs
          (if leases = [] then none else some { fs with leases := leases }) }

def renew (s : LeaseState) (now : ℕ) (l : ℕ) (duration : UInt32) : Option LeaseState :=
  (s.lease l).map fun le =>
    let s := { s with
      leasetree := s.leasetree.erase l
      lease := update s.lease l
        (some { le with expire := UInt32.ofNat (now + duration.toNat) }) }
    { s with leasetree := s.treeInsert l }

/-- The loop of `sched` from an element of the tree on: the first lease that has not expired. -/
def expireLoop (now : ℕ) : List ℕ → LeaseState → Option (LeaseState × Option ℕ)
  | [], s => some (s, none)
  | l :: ls, s =>
    (s.lease l).bind fun le =>
      if le.expire.toNat < now then (s.deleteLease l).bind (expireLoop now ls) else some (s, some l)

variable (s : LeaseState)

def sched (now : ℕ) (timedout : Bool) : Option LeaseState :=
  let s := if timedout then { s with tmocb := none } else s
  if s.tmocb ≠ none then some s
  else
    (expireLoop now s.leasetree s).map fun (s, l) =>
      match l with
      | none => s
      | some l => if s.tmocb = none then { s with tmocb := some (s.expireAt l + 1) } else s

/-- `lease::lease`. -/
def newLease (now : ℕ) (fhs : ℕ) (cgen : UInt64) (fsno ex : UInt32) :
    Option LeaseState :=
  (s.fhsync fhs).bind fun fs =>
    let l := s.brk
    let s := { s with
      lease := update s.lease l
        (some ⟨cgen, fsno, UInt32.ofNat (now + ex.toNat), fhs⟩)
      brk := s.brk + 1
      numLeases := s.numLeases + 1
      fhsync := update s.fhsync fhs (some { fs with leases := l :: fs.leases }) }
    { s with leasetree := s.treeInsert l }.sched now false

/-- `leases (cgen, fsno)`. -/
def findLease (leases : List ℕ) (cgen : UInt64) (fsno : UInt32) : Option ℕ :=
  leases.find? fun l => (s.lease l).any fun le => le.cgen = cgen ∧ le.fsno = fsno

/-- The call to the holder of a lease, unless the handle cannot be sealed. -/
def callClient (env : Filesrv) (fht : Fh3trans) (fh : NfsFh3) (le : Lease) (nfscbc : Bool)
    (attributes : Option Fattr3exp) : Option (Fh3trans × List Invalidate) :=
  let (ok, fht, handle) := { fht with srvno := le.fsno }.traverse env.order env.junk fh
  if ¬ok then some (fht, [])
  else if ¬nfscbc then none
  else some (fht, [⟨le.cgen, handle, attributes⟩])

/-- The call to the holder of a lease, if it is still in the table of clients. -/
def callHolder (env : Filesrv) (clienttab : Clienttab) (s : LeaseState) (fhs : ℕ)
    (fht : Fh3trans) (le : Lease) (a : Option Fattr3exp) : Option (Fh3trans × List Invalidate) :=
  match clienttab le.cgen with
  | none => some (fht, [])
  | some nfscbc =>
    (s.fhsync fhs).bind fun fs =>
      callClient env fht fs.fh le nfscbc (a.map (·.setExpire 0))

/-- The loop of `update` over the leases of the file at an address. -/
def invalidateLoop (env : Filesrv) (clienttab : Clienttab) (fhs : ℕ) (cgen : UInt64)
    (fsno : UInt32) (a : Option Fattr3exp) :
    List ℕ → Fh3trans → LeaseState → Option (LeaseState × List Invalidate)
  | [], _, s => some (s, [])
  | l :: ls, fht, s =>
    (s.lease l).bind fun le =>
      if le.cgen ≠ cgen ∨ le.fsno ≠ fsno ∨ a = none then
        (callHolder env clienttab s fhs fht le a).bind fun (fht, calls) =>
          (s.deleteLease l).bind fun s =>
            (invalidateLoop env clienttab fhs cgen fsno a ls fht s).map fun (s, more) =>
              (s, calls ++ more)
      else invalidateLoop env clienttab fhs cgen fsno a ls fht s

/-- The lease that the caller gets by a call that reports attributes. -/
def grant (s : LeaseState) (now fhs : ℕ) (leases : List ℕ) (cgen : UInt64) (fsno : UInt32)
    (a : Fattr3exp) : Option LeaseState :=
  match s.findLease leases cgen fsno with
  | some l => s.renew now l a.expire
  | none => if a.expire ≠ 0 then s.newLease now fhs cgen fsno a.expire else some s

variable (env : Filesrv) (clienttab : Clienttab) (s : LeaseState)

/-- New times in a file, and the calls to the holders of leases on it. -/
def change (fhs : ℕ) (fs : Fhsync)
    (cgen : UInt64) (fsno : UInt32) (a : Option Fattr3exp) :
    Option (LeaseState × List Invalidate) :=
  let fs := { fs with
    mtime := (a.map (·.mtime)).getD ⟨0, 0⟩
    ctime := (a.map (·.ctime)).getD ⟨0, 0⟩ }
  invalidateLoop env clienttab fhs cgen fsno a fs.leases (Fh3trans.sealer env.fhkey 0)
    { s with fhsync := update s.fhsync fhs (some fs) }

def fhsyncUpdate (now fhs : ℕ)
    (cgen : UInt64) (fsno : UInt32) (a : Option Fattr3exp) :
    Option (LeaseState × List Invalidate) :=
  (s.fhsync fhs).bind fun fs =>
    match a with
    | none => change env clienttab s fhs fs cgen fsno none
    | some a =>
      (s.grant now fhs fs.leases cgen fsno a).bind fun s =>
        (s.fhsync fhs).bind fun fs =>
          if a.mtime = fs.mtime ∧ a.ctime = fs.ctime then some (s, [])
          else change env clienttab s fhs fs cgen fsno (some a)

variable (s : LeaseState) (fh : NfsFh3)

/-- `fhtab[fh]`. -/
def findFhsync : Option ℕ :=
  s.fhtab.find? fun p => (s.fhsync p).any (·.fh = fh)

/-- `fhsync::fhsync`. -/
def newFhsync (a : Fattr3exp) : LeaseState :=
  { s with
    fhsync := update s.fhsync s.brk (some ⟨fh, a.mtime, a.ctime, []⟩)
    brk := s.brk + 1
    fhtab := s.brk :: s.fhtab }

def dolease (env : Filesrv) (clienttab : Clienttab) (s : LeaseState) (now : ℕ) (cgen : UInt64)
    (fsno : UInt32) (fh : NfsFh3) (fattr : Option Fattr3exp) :
    Option (LeaseState × List Invalidate) :=
  let fattr := fattr.map (·.setExpire env.leasetime)
  match s.findFhsync fh with
  | some fsy => fhsyncUpdate env clienttab s now fsy cgen fsno fattr
  | none =>
    match fattr with
    | none => some (s, [])
    | some a => fhsyncUpdate env clienttab (s.newFhsync fh a) now s.brk cgen fsno (some a)

end LeaseState

end

open Foundations Crypt List Option Function

/-- Two versions of one file, with perhaps different leases. -/
def Fhsync.SameFile (fs fs' : Fhsync) : Prop :=
  fs'.fh = fs.fh ∧ fs'.mtime = fs.mtime ∧ fs'.ctime = fs.ctime

namespace LeaseState

variable {s : LeaseState} {l p : ℕ} {le : Lease} {fs : Fhsync}

/-- The objects and the structures that lead to them. -/
structure Linked (s : LeaseState) : Prop where
  tree_nodup : s.leasetree.Nodup
  tab_nodup : s.fhtab.Nodup
  mem_tree : ∀ l, l ∈ s.leasetree ↔ ∃ le, s.lease l = some le
  mem_tab : ∀ p, p ∈ s.fhtab ↔ ∃ fs, s.fhsync p = some fs
  leases_nodup : ∀ {p fs}, s.fhsync p = some fs → fs.leases.Nodup
  mem_leases : ∀ {p fs}, s.fhsync p = some fs →
    ∀ l, l ∈ fs.leases ↔ ∃ le, s.lease l = some le ∧ le.fhs = p
  fhs_live : ∀ {l le}, s.lease l = some le → ∃ fs, s.fhsync le.fhs = some fs
  key_inj : ∀ {l le l' le'}, s.lease l = some le → s.lease l' = some le' → le.fhs = le'.fhs →
    le.cgen = le'.cgen → le.fsno = le'.fsno → l = l'
  fh_inj : ∀ {p fs p' fs'}, s.fhsync p = some fs → s.fhsync p' = some fs' → fs.fh = fs'.fh → p = p'
  count : s.numLeases = UInt32.ofNat s.leasetree.length
  lease_lt : ∀ {l le}, s.lease l = some le → l < s.brk
  fhsync_lt : ∀ {p fs}, s.fhsync p = some fs → p < s.brk

/-- Every file but those excepted has a lease. -/
def HeldBut (s : LeaseState) (except : ℕ → Prop) : Prop :=
  ∀ {p fs}, s.fhsync p = some fs → ¬except p → fs.leases ≠ []

theorem linked_initial : initial.Linked where
  tree_nodup := nodup_nil
  tab_nodup := nodup_nil
  mem_tree := by simp [initial]
  mem_tab := by simp [initial]
  leases_nodup := by simp [initial]
  mem_leases := by simp [initial]
  fhs_live := by simp [initial]
  key_inj := by simp [initial]
  fh_inj := by simp [initial]
  count := rfl
  lease_lt := by simp [initial]
  fhsync_lt := by simp [initial]

def without (s : LeaseState) (l : ℕ) (le : Lease) (fs : Fhsync) : LeaseState :=
  { s with
    numLeases := s.numLeases - 1
    leasetree := s.leasetree.erase l
    lease := update s.lease l none
    fhtab := if fs.leases.erase l = [] then s.fhtab.erase le.fhs else s.fhtab
    fhsync := update s.fhsync le.fhs
      (if fs.leases.erase l = [] then none else some { fs with leases := fs.leases.erase l }) }

theorem fhsync_without_iff {q : ℕ} {fs' : Fhsync} :
    (s.without l le fs).fhsync q = some fs' ↔
      q = le.fhs ∧ fs.leases.erase l ≠ [] ∧ fs' = { fs with leases := fs.leases.erase l } ∨
        q ≠ le.fhs ∧ s.fhsync q = some fs' := by
  simp only [without]
  by_cases hq : q = le.fhs
  · simp [hq, eq_comm]
  · simp [hq]

theorem lease_without_iff {x : ℕ} {le' : Lease} :
    (s.without l le fs).lease x = some le' ↔ x ≠ l ∧ s.lease x = some le' := by
  simp only [without]
  by_cases hx : x = l
  · simp [hx]
  · simp [hx]

theorem numLeases_without (h : s.Linked) (hl : s.lease l = some le) :
    s.numLeases - 1 = UInt32.ofNat (s.leasetree.erase l).length := by
  have htree : l ∈ s.leasetree := (h.mem_tree l).mpr ⟨le, hl⟩
  have hpos := length_pos_of_mem htree
  rw [h.count, length_erase_of_mem htree, UInt32.ofNat_sub hpos]
  rfl

theorem Linked.without (h : s.Linked) (hl : s.lease l = some le) (hp : s.fhsync le.fhs = some fs) :
    (s.without l le fs).Linked where
  tree_nodup := h.tree_nodup.erase l
  tab_nodup := by
    simp only [LeaseState.without]
    split_ifs
    · exact h.tab_nodup.erase le.fhs
    · exact h.tab_nodup
  mem_tree x := by
    simp only [lease_without_iff, exists_and_left, ← h.mem_tree]
    exact h.tree_nodup.mem_erase_iff
  mem_tab q := by
    have hmem : le.fhs ∈ s.fhtab := (h.mem_tab le.fhs).mpr ⟨fs, hp⟩
    simp only [fhsync_without_iff]
    by_cases hq : q = le.fhs
    · simp only [LeaseState.without, hq]
      split_ifs with hnil
      · simp [hnil, h.tab_nodup.mem_erase_iff]
      · simp [hnil, hmem]
    · simp only [LeaseState.without, hq, false_and, false_or, ne_eq, not_false_eq_true, true_and,
        ← h.mem_tab]
      split_ifs
      · exact mem_erase_of_ne hq
      · rfl
  leases_nodup hfs := by
    rcases fhsync_without_iff.mp hfs with ⟨-, -, rfl⟩ | ⟨-, hfs⟩
    · exact (h.leases_nodup hp).erase l
    · exact h.leases_nodup hfs
  mem_leases hfs x := by
    simp only [lease_without_iff, and_assoc, exists_and_left]
    rcases fhsync_without_iff.mp hfs with ⟨rfl, -, rfl⟩ | ⟨hq, hfs⟩
    · rw [(h.leases_nodup hp).mem_erase_iff, h.mem_leases hp]
    · rw [h.mem_leases hfs]
      constructor
      · rintro ⟨le', hle', hfhs⟩
        refine ⟨?_, le', hle', hfhs⟩
        rintro rfl
        rw [hl, Option.some.injEq] at hle'
        exact hq (by rw [hle', hfhs])
      · exact fun hx => hx.2
  fhs_live := by
    intro x le' hle'
    obtain ⟨hx, hle'⟩ := lease_without_iff.mp hle'
    by_cases hfhs : le'.fhs = le.fhs
    · have hmem : x ∈ fs.leases.erase l := by
        rw [(h.leases_nodup hp).mem_erase_iff, h.mem_leases hp]
        exact ⟨hx, le', hle', hfhs⟩
      exact ⟨_, fhsync_without_iff.mpr (.inl ⟨hfhs, ne_nil_of_mem hmem, rfl⟩)⟩
    · obtain ⟨fs', hfs'⟩ := h.fhs_live hle'
      exact ⟨fs', fhsync_without_iff.mpr (.inr ⟨hfhs, hfs'⟩)⟩
  key_inj h1 h2 := h.key_inj (lease_without_iff.mp h1).2 (lease_without_iff.mp h2).2
  fh_inj h1 h2 hfh := by
    rcases fhsync_without_iff.mp h1 with ⟨rfl, -, rfl⟩ | ⟨-, h1⟩ <;>
      rcases fhsync_without_iff.mp h2 with ⟨rfl, -, rfl⟩ | ⟨-, h2⟩
    · rfl
    · exact h.fh_inj hp h2 hfh
    · exact h.fh_inj h1 hp hfh
    · exact h.fh_inj h1 h2 hfh
  count := numLeases_without h hl
  lease_lt hle' := h.lease_lt (lease_without_iff.mp hle').2
  fhsync_lt hfs := by
    rcases fhsync_without_iff.mp hfs with ⟨rfl, -, -⟩ | ⟨-, hfs⟩
    · exact h.fhsync_lt hp
    · exact h.fhsync_lt hfs

theorem HeldBut.without {except : ℕ → Prop} (h : s.HeldBut except) :
    (s.without l le fs).HeldBut except := by
  intro q fs' hfs' hq
  rcases fhsync_without_iff.mp hfs' with ⟨-, hne, rfl⟩ | ⟨-, hfs'⟩
  · exact hne
  · exact h hfs' hq

/-- Some leases are taken away, and the files that have none left. -/
structure Trimmed (s s' : LeaseState) (gone : ℕ → Prop) : Prop where
  linked : s'.Linked
  lease_iff : ∀ {x le}, s'.lease x = some le ↔ s.lease x = some le ∧ ¬gone x
  file : ∀ {q fs'}, s'.fhsync q = some fs' → ∃ fs, s.fhsync q = some fs ∧ fs.SameFile fs'
  held : ∀ {except}, s.HeldBut except → s'.HeldBut except
  tmocb : s'.tmocb = s.tmocb

theorem Trimmed.refl (h : s.Linked) : s.Trimmed s fun _ => False where
  linked := h
  lease_iff := by simp
  file hfs := ⟨_, hfs, rfl, rfl, rfl⟩
  held h := h
  tmocb := rfl

theorem Trimmed.trans {s1 s2 : LeaseState} {gone gone' : ℕ → Prop} (h : s.Trimmed s1 gone)
    (h' : s1.Trimmed s2 gone') : s.Trimmed s2 fun x => gone x ∨ gone' x where
  linked := h'.linked
  lease_iff := by
    intro x le
    rw [h'.lease_iff, h.lease_iff, and_assoc, not_or]
  file hfs := by
    obtain ⟨fs1, hfs1, hsame1⟩ := h'.file hfs
    obtain ⟨fs, hfs, hsame⟩ := h.file hfs1
    exact ⟨fs, hfs, hsame1.1.trans hsame.1, hsame1.2.1.trans hsame.2.1, hsame1.2.2.trans hsame.2.2⟩
  held hheld := h'.held (h.held hheld)
  tmocb := h'.tmocb.trans h.tmocb

theorem Trimmed.congr {s' : LeaseState} {gone gone' : ℕ → Prop} (h : s.Trimmed s' gone)
    (hgone : ∀ x, gone x ↔ gone' x) : s.Trimmed s' gone' := by
  obtain rfl : gone = gone' := funext fun x => propext (hgone x)
  exact h

theorem deleteLease_spec (h : s.Linked) (hl : s.lease l = some le) :
    ∃ s', s.deleteLease l = some s' ∧ s.Trimmed s' (· = l) := by
  obtain ⟨fs, hp⟩ := h.fhs_live hl
  refine ⟨s.without l le fs, ?_, h.without hl hp, ?_, ?_, ?_, rfl⟩
  · rw [deleteLease, hl, bind_some, hp]
    rfl
  · intro x le'
    rw [lease_without_iff, and_comm]
  · intro q fs' hfs'
    rcases fhsync_without_iff.mp hfs' with ⟨rfl, -, rfl⟩ | ⟨-, hfs'⟩
    · exact ⟨fs, hp, rfl, rfl, rfl⟩
    · exact ⟨fs', hfs', rfl, rfl, rfl⟩
  · exact fun hheld => hheld.without

/-- The loop of `sched` takes away leases that have expired, up to one that has not. -/
theorem expireLoop_spec (now : ℕ) {ls : List ℕ} (h : s.Linked) (hnodup : ls.Nodup)
    (hlive : ∀ x ∈ ls, ∃ le, s.lease x = some le) :
    ∃ s' r gone, expireLoop now ls s = some (s', r) ∧ s.Trimmed s' gone ∧
      (∀ x le, gone x → s.lease x = some le → le.expire.toNat < now) ∧
      match r with
      | none => ∀ x, gone x ↔ x ∈ ls
      | some l => l ∈ ls ∧ ∃ le, s'.lease l = some le := by
  induction ls generalizing s with
  | nil => exact ⟨s, none, fun _ => False, rfl, .refl h, fun _ _ hx => hx.elim, by simp⟩
  | cons l ls ih =>
    obtain ⟨le, hle⟩ := hlive l mem_cons_self
    obtain ⟨hnotMem, hnodup'⟩ := nodup_cons.mp hnodup
    rw [expireLoop, hle, bind_some]
    by_cases hexp : le.expire.toNat < now
    · obtain ⟨s1, hdel, htrim⟩ := deleteLease_spec h hle
      have hlive1 : ∀ x ∈ ls, ∃ le, s1.lease x = some le := by
        intro x hx
        obtain ⟨le', hle'⟩ := hlive x (mem_cons_of_mem l hx)
        refine ⟨le', htrim.lease_iff.mpr ⟨hle', ?_⟩⟩
        rintro rfl
        exact hnotMem hx
      obtain ⟨s', r, gone, hloop, htrim', hexpired, hr⟩ := ih htrim.linked hnodup' hlive1
      refine ⟨s', r, fun x => x = l ∨ gone x, ?_, htrim.trans htrim', ?_, ?_⟩
      · rw [if_pos hexp, hdel, bind_some, hloop]
      · rintro x le' (rfl | hx) hle'
        · rw [hle, Option.some.injEq] at hle'
          rwa [← hle']
        · by_cases hxl : x = l
          · subst hxl
            rw [hle, Option.some.injEq] at hle'
            rwa [← hle']
          · exact hexpired x le' hx (htrim.lease_iff.mpr ⟨hle', hxl⟩)
      · cases r with
        | none =>
          intro x
          rw [mem_cons, ← hr x]
        | some l' => exact ⟨mem_cons_of_mem l hr.1, hr.2⟩
    · rw [if_neg hexp]
      exact ⟨s, some l, fun _ => False, rfl, .refl h, fun _ _ hx => hx.elim, mem_cons_self, le, hle⟩

def TimerSet (s : LeaseState) : Prop := s.tmocb = none → s.leasetree = []

theorem Linked.setTmocb (h : s.Linked) (t : Option UInt32) : { s with tmocb := t }.Linked :=
  ⟨h.tree_nodup, h.tab_nodup, h.mem_tree, h.mem_tab, h.leases_nodup, h.mem_leases, h.fhs_live,
    h.key_inj, h.fh_inj, h.count, h.lease_lt, h.fhsync_lt⟩

/-- The timer takes away leases that have expired, and is set again. -/
theorem sched_spec (now : ℕ) (h : s.Linked) (hheld : s.HeldBut fun _ => False) :
    ∃ (s' : LeaseState) (gone : ℕ → Prop), s.sched now true = some s' ∧ s'.Linked ∧
      s'.HeldBut (fun _ => False) ∧
      s'.TimerSet ∧ (∀ {x le}, s'.lease x = some le ↔ s.lease x = some le ∧ ¬gone x) ∧
      (∀ x le, gone x → s.lease x = some le → le.expire.toNat < now) ∧
      ∀ {q fs'}, s'.fhsync q = some fs' → ∃ fs, s.fhsync q = some fs ∧ fs.SameFile fs' := by
  obtain ⟨s', r, gone, hloop, htrim, hexpired, hr⟩ := expireLoop_spec now
    (h.setTmocb none) h.tree_nodup fun x hx => (h.mem_tree x).mp hx
  have hheld' : s'.HeldBut fun _ => False := htrim.held hheld
  cases r with
  | none =>
    refine ⟨s', gone, ?_, htrim.linked, hheld', ?_, htrim.lease_iff, hexpired, htrim.file⟩
    · simp only [sched, if_true, ne_eq, not_true_eq_false, if_false, hloop, map_some]
    · intro _
      rw [eq_nil_iff_forall_not_mem]
      intro x hx
      obtain ⟨le, hle⟩ := (htrim.linked.mem_tree x).mp hx
      obtain ⟨hle, hgone⟩ := htrim.lease_iff.mp hle
      exact hgone ((hr x).mpr ((h.mem_tree x).mpr ⟨le, hle⟩))
  | some l =>
    refine ⟨{ s' with tmocb := some (s'.expireAt l + 1) }, gone, ?_, htrim.linked.setTmocb _,
      hheld', fun hnone => absurd hnone (by simp), htrim.lease_iff, hexpired, htrim.file⟩
    have htmocb : s'.tmocb = none := htrim.tmocb
    simp only [sched, if_true, ne_eq, not_true_eq_false, if_false, hloop, map_some, htmocb]

section Grant

/-- A client and file system with a lease on the file at an address. -/
def Key (s : LeaseState) (q : ℕ) (k : UInt64 × UInt32) : Prop :=
  ∃ l le, s.lease l = some le ∧ le.fhs = q ∧ (le.cgen, le.fsno) = k

theorem treeInsert_perm (s : LeaseState) (l : ℕ) : (s.treeInsert l).Perm (l :: s.leasetree) := by
  refine perm_middle.trans ?_
  rw [takeWhile_append_dropWhile]

/-- All of a lease but its time. -/
def label (le : Lease) : ℕ × UInt64 × UInt32 := (le.fhs, le.cgen, le.fsno)

variable {s' : LeaseState}

theorem exists_of_label {x : ℕ} {le' : Lease}
    (hlabel : (s'.lease x).map label = (s.lease x).map label) (hx : s'.lease x = some le') :
    ∃ le, s.lease x = some le ∧ le.fhs = le'.fhs ∧ le.cgen = le'.cgen ∧ le.fsno = le'.fsno := by
  rw [hx, map_some, eq_comm, map_eq_some_iff] at hlabel
  obtain ⟨le, hle, heq⟩ := hlabel
  simp only [label, Prod.mk.injEq] at heq
  exact ⟨le, hle, heq⟩

/-- The times of the leases, and their order in the tree, do not matter for the links. -/
theorem Linked.of_label (h : s.Linked) (hfhsync : s'.fhsync = s.fhsync)
    (hfhtab : s'.fhtab = s.fhtab) (hbrk : s'.brk = s.brk) (hnum : s'.numLeases = s.numLeases)
    (htree : s'.leasetree.Perm s.leasetree)
    (hlabel : ∀ x, (s'.lease x).map label = (s.lease x).map label) : s'.Linked where
  tree_nodup := htree.nodup_iff.mpr h.tree_nodup
  tab_nodup := hfhtab ▸ h.tab_nodup
  mem_tree x := by
    rw [htree.mem_iff, h.mem_tree]
    constructor
    · rintro ⟨le, hle⟩
      obtain ⟨le', hle', -⟩ := exists_of_label (hlabel x).symm hle
      exact ⟨le', hle'⟩
    · rintro ⟨le, hle⟩
      obtain ⟨le', hle', -⟩ := exists_of_label (hlabel x) hle
      exact ⟨le', hle'⟩
  mem_tab q := by rw [hfhtab, hfhsync, h.mem_tab]
  leases_nodup hfs := h.leases_nodup (hfhsync ▸ hfs)
  mem_leases hfs x := by
    rw [h.mem_leases (hfhsync ▸ hfs)]
    constructor
    · rintro ⟨le, hle, hfhs⟩
      obtain ⟨le', hle', hfhs', -⟩ := exists_of_label (hlabel x).symm hle
      exact ⟨le', hle', hfhs'.trans hfhs⟩
    · rintro ⟨le, hle, hfhs⟩
      obtain ⟨le', hle', hfhs', -⟩ := exists_of_label (hlabel x) hle
      exact ⟨le', hle', hfhs'.trans hfhs⟩
  fhs_live hle := by
    obtain ⟨le', hle', hfhs, -⟩ := exists_of_label (hlabel _) hle
    rw [hfhsync, ← hfhs]
    exact h.fhs_live hle'
  key_inj h1 h2 hfhs hcgen hfsno := by
    obtain ⟨le1, hle1, hf1, hc1, hn1⟩ := exists_of_label (hlabel _) h1
    obtain ⟨le2, hle2, hf2, hc2, hn2⟩ := exists_of_label (hlabel _) h2
    apply h.key_inj hle1 hle2
    · rw [hf1, hf2, hfhs]
    · rw [hc1, hc2, hcgen]
    · rw [hn1, hn2, hfsno]
  fh_inj h1 h2 := h.fh_inj (hfhsync ▸ h1) (hfhsync ▸ h2)
  count := by rw [hnum, h.count, htree.length_eq]
  lease_lt hle := by
    obtain ⟨le', hle', -⟩ := exists_of_label (hlabel _) hle
    rw [hbrk]
    exact h.lease_lt hle'
  fhsync_lt hfs := by
    rw [hbrk]
    exact h.fhsync_lt (hfhsync ▸ hfs)

theorem key_of_label (hlabel : ∀ x, (s'.lease x).map label = (s.lease x).map label) {q : ℕ}
    {k : UInt64 × UInt32} (h : s'.Key q k) : s.Key q k := by
  obtain ⟨x, le', hle', rfl, rfl⟩ := h
  obtain ⟨le, hle, hfhs, hcgen, hfsno⟩ := exists_of_label (hlabel x) hle'
  exact ⟨x, le, hle, hfhs, by rw [hcgen, hfsno]⟩

theorem renew_spec (now : ℕ) (d : UInt32) (h : s.Linked) (hl : s.lease l = some le) :
    ∃ s', s.renew now l d = some s' ∧ s'.Linked ∧ s'.fhsync = s.fhsync ∧ s'.tmocb = s.tmocb ∧
      s'.leasetree.Perm s.leasetree ∧ ∀ q k, s'.Key q k ↔ s.Key q k := by
  obtain ⟨s', hs'⟩ : ∃ s', s.renew now l d = some s' := by
    rw [renew, hl]
    exact ⟨_, rfl⟩
  have heq := hs'
  rw [renew, hl, map_some, Option.some.injEq] at heq
  have hlabel : ∀ x, (s'.lease x).map label = (s.lease x).map label := by
    intro x
    subst heq
    simp only [update_apply]
    split_ifs with hx
    · rw [hx, hl]
      rfl
    · rfl
  have htree : s'.leasetree.Perm s.leasetree := by
    subst heq
    refine (treeInsert_perm _ l).trans ?_
    exact (perm_cons_erase ((h.mem_tree l).mpr ⟨le, hl⟩)).symm
  refine ⟨s', hs', ?_, ?_, ?_, htree, fun q k => ?_⟩
  · apply h.of_label (by subst heq; rfl) (by subst heq; rfl) (by subst heq; rfl)
      (by subst heq; rfl) htree hlabel
  · subst heq
    rfl
  · subst heq
    rfl
  · exact ⟨key_of_label hlabel, key_of_label fun x => (hlabel x).symm⟩

/-- The state with a new lease, before the timer is looked at. -/
def withLease (s : LeaseState) (fs : Fhsync) (le : Lease) : LeaseState :=
  let s := { s with
    lease := update s.lease s.brk (some le)
    brk := s.brk + 1
    numLeases := s.numLeases + 1
    fhsync := update s.fhsync le.fhs (some { fs with leases := s.brk :: fs.leases }) }
  { s with leasetree := s.treeInsert (s.brk - 1) }

theorem lease_withLease_iff {x : ℕ} {le' : Lease} :
    (s.withLease fs le).lease x = some le' ↔
      x = s.brk ∧ le' = le ∨ x ≠ s.brk ∧ s.lease x = some le' := by
  simp only [withLease]
  by_cases hx : x = s.brk
  · simp [hx, eq_comm]
  · simp [hx]

theorem fhsync_withLease_iff {q : ℕ} {fs' : Fhsync} :
    (s.withLease fs le).fhsync q = some fs' ↔
      q = le.fhs ∧ fs' = { fs with leases := s.brk :: fs.leases } ∨
        q ≠ le.fhs ∧ s.fhsync q = some fs' := by
  simp only [withLease]
  by_cases hq : q = le.fhs
  · simp [hq, eq_comm]
  · simp [hq]

theorem leasetree_withLease_perm : (s.withLease fs le).leasetree.Perm (s.brk :: s.leasetree) :=
  treeInsert_perm _ _

theorem Linked.lease_brk (h : s.Linked) : s.lease s.brk = none := by
  cases hle : s.lease s.brk with
  | none => rfl
  | some le => exact absurd (h.lease_lt hle) (lt_irrefl _)

theorem Linked.withLease (h : s.Linked) (hp : s.fhsync le.fhs = some fs)
    (hnew : ¬s.Key le.fhs (le.cgen, le.fsno)) : (s.withLease fs le).Linked where
  tree_nodup := by
    rw [leasetree_withLease_perm.nodup_iff, nodup_cons]
    refine ⟨fun hmem => ?_, h.tree_nodup⟩
    obtain ⟨le', hle'⟩ := (h.mem_tree _).mp hmem
    exact lt_irrefl _ (h.lease_lt hle')
  tab_nodup := h.tab_nodup
  mem_tree x := by
    rw [leasetree_withLease_perm.mem_iff, mem_cons, h.mem_tree]
    simp only [lease_withLease_iff]
    by_cases hx : x = s.brk
    · simp [hx]
    · simp [hx]
  mem_tab q := by
    refine (h.mem_tab q).trans ?_
    simp only [fhsync_withLease_iff]
    by_cases hq : q = le.fhs
    · subst hq
      simp [hp]
    · simp [hq]
  leases_nodup hfs := by
    rcases fhsync_withLease_iff.mp hfs with ⟨rfl, rfl⟩ | ⟨-, hfs⟩
    · refine nodup_cons.mpr ⟨fun hmem => ?_, h.leases_nodup hp⟩
      obtain ⟨le', hle', -⟩ := (h.mem_leases hp _).mp hmem
      exact lt_irrefl _ (h.lease_lt hle')
    · exact h.leases_nodup hfs
  mem_leases hfs x := by
    simp only [lease_withLease_iff]
    rcases fhsync_withLease_iff.mp hfs with ⟨rfl, rfl⟩ | ⟨hq, hfs⟩
    · rw [mem_cons, h.mem_leases hp]
      by_cases hx : x = s.brk
      · simp [hx]
      · simp [hx]
    · rw [h.mem_leases hfs]
      by_cases hx : x = s.brk
      · simp [hx, h.lease_brk, hq.symm]
      · simp [hx]
  fhs_live hle := by
    rcases lease_withLease_iff.mp hle with ⟨-, rfl⟩ | ⟨-, hle⟩
    · exact ⟨_, fhsync_withLease_iff.mpr (.inl ⟨rfl, rfl⟩)⟩
    · obtain ⟨fs', hfs'⟩ := h.fhs_live hle
      rename_i le' _
      by_cases hq : le'.fhs = le.fhs
      · exact ⟨_, fhsync_withLease_iff.mpr (.inl ⟨hq, rfl⟩)⟩
      · exact ⟨fs', fhsync_withLease_iff.mpr (.inr ⟨hq, hfs'⟩)⟩
  key_inj h1 h2 hfhs hcgen hfsno := by
    rcases lease_withLease_iff.mp h1 with ⟨rfl, rfl⟩ | ⟨-, h1'⟩ <;>
      rcases lease_withLease_iff.mp h2 with ⟨rfl, rfl⟩ | ⟨-, h2'⟩
    · rfl
    · exact absurd ⟨_, _, h2', hfhs.symm, by rw [hcgen, hfsno]⟩ hnew
    · exact absurd ⟨_, _, h1', hfhs, by rw [hcgen, hfsno]⟩ hnew
    · exact h.key_inj h1' h2' hfhs hcgen hfsno
  fh_inj h1 h2 hfh := by
    rcases fhsync_withLease_iff.mp h1 with ⟨rfl, rfl⟩ | ⟨-, h1⟩ <;>
      rcases fhsync_withLease_iff.mp h2 with ⟨rfl, rfl⟩ | ⟨-, h2⟩
    · rfl
    · exact h.fh_inj hp h2 hfh
    · exact h.fh_inj h1 hp hfh
    · exact h.fh_inj h1 h2 hfh
  count := by
    rw [leasetree_withLease_perm.length_eq, length_cons, UInt32.ofNat_add, ← h.count]
    rfl
  lease_lt hle := by
    rcases lease_withLease_iff.mp hle with ⟨rfl, -⟩ | ⟨-, hle⟩
    · exact Nat.lt_succ_self _
    · exact (h.lease_lt hle).trans (Nat.lt_succ_self _)
  fhsync_lt hfs := by
    rcases fhsync_withLease_iff.mp hfs with ⟨rfl, -⟩ | ⟨-, hfs⟩
    · exact (h.fhsync_lt hp).trans (Nat.lt_succ_self _)
    · exact (h.fhsync_lt hfs).trans (Nat.lt_succ_self _)

variable (fs) in
theorem key_withLease_iff (h : s.Linked) {q : ℕ} {k : UInt64 × UInt32} :
    (s.withLease fs le).Key q k ↔ s.Key q k ∨ q = le.fhs ∧ k = (le.cgen, le.fsno) := by
  constructor
  · rintro ⟨x, le', hle', rfl, rfl⟩
    rcases lease_withLease_iff.mp hle' with ⟨-, rfl⟩ | ⟨-, hle'⟩
    · exact .inr ⟨rfl, rfl⟩
    · exact .inl ⟨x, le', hle', rfl, rfl⟩
  · rintro (⟨x, le', hle', rfl, rfl⟩ | ⟨rfl, rfl⟩)
    · exact ⟨x, le', lease_withLease_iff.mpr (.inr ⟨(h.lease_lt hle').ne, hle'⟩), rfl, rfl⟩
    · exact ⟨s.brk, le, lease_withLease_iff.mpr (.inl ⟨rfl, rfl⟩), rfl, rfl⟩

variable (fs) in
/-- A lease that does not expire before it is made is only put into the tree, and a timer is
set if there was none: then there was no other lease. -/
theorem sched_withLease {now : ℕ} (hexpire : now ≤ le.expire.toNat) (htimer : s.TimerSet) :
    ∃ t, (s.withLease fs le).sched now false = some { s.withLease fs le with tmocb := some t } := by
  cases ht : s.tmocb with
  | some t =>
    refine ⟨t, ?_⟩
    have htmocb : (s.withLease fs le).tmocb = some t := ht
    simp only [sched, if_false, htmocb, ne_eq, reduceCtorEq, not_false_eq_true, if_true]
    rw [← htmocb]
  | none =>
    have htree : (s.withLease fs le).leasetree = [s.brk] := by
      apply List.perm_singleton.mp
      have hperm : (s.withLease fs le).leasetree.Perm (s.brk :: s.leasetree) :=
        leasetree_withLease_perm
      rwa [htimer ht] at hperm
    have hlease : (s.withLease fs le).lease s.brk = some le :=
      lease_withLease_iff.mpr (.inl ⟨rfl, rfl⟩)
    have htmocb : (s.withLease fs le).tmocb = none := ht
    refine ⟨(s.withLease fs le).expireAt s.brk + 1, ?_⟩
    simp only [sched, Bool.false_eq_true, if_false, htmocb, ne_eq, not_true_eq_false, htree,
      expireLoop, hlease, bind_some, if_neg (not_lt.mpr hexpire), map_some, if_true]

end Grant

end LeaseState

end SelfCertifyingFS.Nfs
