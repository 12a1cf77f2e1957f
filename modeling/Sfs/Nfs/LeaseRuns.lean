import Sfs.Nfs.LeaseCalls

/-!
# Lease coherence

Whole calls of `dolease` in terms of who holds a lease on a handle, and runs of such calls
with timers between them. After every step the tree, the count and the tables have the same
leases, and those who lose a lease because a file has changed are called, once each.
-/

namespace SelfCertifyingFS.Nfs

open Foundations Crypt Option List LeaseState
open Run (start)

namespace LeaseState

variable {s s' : LeaseState} {p : ℕ} {fs : Fhsync} {env : Filesrv} {clienttab : Clienttab}
  {fh : NfsFh3} {k caller : UInt64 × UInt32}

/-- A client and file system have a lease in the table of the file with a handle. -/
def Holds (s : LeaseState) (fh : NfsFh3) (k : UInt64 × UInt32) : Prop :=
  ∃ p ∈ s.fhtab, ∃ fs, s.fhsync p = some fs ∧ fs.fh = fh ∧
    ∃ l ∈ fs.leases, ∃ le, s.lease l = some le ∧ (le.cgen, le.fsno) = k

theorem holds_iff (h : s.Linked) :
    s.Holds fh k ↔ ∃ p fs, s.fhsync p = some fs ∧ fs.fh = fh ∧ s.Key p k := by
  constructor
  · rintro ⟨p, -, fs, hp, hfh, l, hl, le, hle, rfl⟩
    obtain ⟨le', hle', hfhs⟩ := (h.mem_leases hp l).mp hl
    obtain rfl := some.inj (hle'.symm.trans hle)
    exact ⟨p, fs, hp, hfh, l, le', hle, hfhs, rfl⟩
  · rintro ⟨p, fs, hp, hfh, l, le, hle, hfhs, rfl⟩
    exact ⟨p, (h.mem_tab p).mpr ⟨fs, hp⟩, fs, hp, hfh, l,
      (h.mem_leases hp l).mpr ⟨le, hle, hfhs⟩, le, hle, rfl⟩

theorem holds_iff_key (h : s.Linked) (hp : s.fhsync p = some fs) : s.Holds fs.fh k ↔ s.Key p k := by
  rw [holds_iff h]
  constructor
  · rintro ⟨q, fs', hq, hfh, hkey⟩
    rwa [h.fh_inj hp hq hfh.symm]
  · exact fun hkey => ⟨p, fs, hp, rfl, hkey⟩

theorem Granted.holds_iff (h : s.Granted s' p fs caller) (hlinked : s.Linked)
    (hp : s.fhsync p = some fs) : s'.Holds fh k ↔ s.Holds fh k ∨ fh = fs.fh ∧ k = caller := by
  obtain ⟨fs', hp', hsame⟩ := h.file
  by_cases hfh : fh = fs.fh
  · subst hfh
    rw [← hsame.1, holds_iff_key h.linked hp', hsame.1, holds_iff_key hlinked hp, h.key_iff]
    simp
  · simp only [hfh, false_and, or_false]
    rw [LeaseState.holds_iff h.linked, LeaseState.holds_iff hlinked]
    refine exists_congr fun q => ?_
    by_cases hq : q = p
    · subst hq
      constructor
      · rintro ⟨fs1, hfs1, heq, -⟩
        obtain rfl := some.inj (hp'.symm.trans hfs1)
        exact absurd (heq.symm.trans hsame.1) hfh
      · rintro ⟨fs1, hfs1, heq, -⟩
        obtain rfl := some.inj (hp.symm.trans hfs1)
        exact absurd heq.symm hfh
    · simp only [h.others q hq, h.key_iff, hq, false_and, or_false]

theorem Changed.holds_iff {a : Option Fattr3exp} {hs : List (UInt64 × UInt32)}
    (h : s.Changed s' clienttab p fs caller a hs) (hlinked : s.Linked) (hp : s.fhsync p = some fs) :
    s'.Holds fh k ↔ s.Holds fh k ∧ ¬(fh = fs.fh ∧ Loses caller a k) := by
  rw [LeaseState.holds_iff h.linked, LeaseState.holds_iff hlinked]
  constructor
  · rintro ⟨q, fs', hq', rfl, hkey⟩
    obtain ⟨hkey, hkept⟩ := (h.key_iff q k).mp hkey
    by_cases hq : q = p
    · subst hq
      refine ⟨⟨q, fs, hp, (h.file fs' hq').1.symm, hkey⟩, fun hlost => hkept ⟨rfl, hlost.2⟩⟩
    · obtain ⟨fs0, hfs0, hsame⟩ := h.others q fs' hq hq'
      refine ⟨⟨q, fs0, hfs0, hsame.1.symm, hkey⟩, fun hlost => hq ?_⟩
      exact hlinked.fh_inj hfs0 hp (hsame.1.symm.trans hlost.1)
  · rintro ⟨⟨q, fs0, hfs0, rfl, hkey⟩, hkept⟩
    have hkey' : s'.Key q k := by
      refine (h.key_iff q k).mpr ⟨hkey, ?_⟩
      rintro ⟨rfl, hlost⟩
      obtain rfl := some.inj (hp.symm.trans hfs0)
      exact hkept ⟨rfl, hlost⟩
    have hlive := hkey'
    obtain ⟨x, le, hle, rfl, -⟩ := hlive
    obtain ⟨fs', hfs'⟩ := h.linked.fhs_live hle
    refine ⟨le.fhs, fs', hfs', ?_, hkey'⟩
    by_cases hq : le.fhs = p
    · rw [hq] at hfs' hfs0
      obtain rfl := some.inj (hp.symm.trans hfs0)
      exact (h.file fs' hfs').1
    · obtain ⟨fs1, hfs1, hsame⟩ := h.others le.fhs fs' hq hfs'
      obtain rfl := some.inj (hfs1.symm.trans hfs0)
      exact hsame.1

section Dolease

/-- The times of a file are recorded, and are not those that a call reports. -/
def Differs (s : LeaseState) (fh : NfsFh3) (a : Fattr3exp) : Prop :=
  ∃ p ∈ s.fhtab, ∃ fs, s.fhsync p = some fs ∧ fs.fh = fh ∧
    ¬(a.mtime = fs.mtime ∧ a.ctime = fs.ctime)

/-- The holders of leases that lose them by a call: all if the file is gone, and all others if
it has changed. -/
def Dropped (s : LeaseState) (caller : UInt64 × UInt32) (fh : NfsFh3) (fattr : Option Fattr3exp)
    (k : UInt64 × UInt32) : Prop :=
  s.Holds fh k ∧ match fattr with
    | none => True
    | some a => s.Differs fh a ∧ k ≠ caller

/-- What a call does: each holder that is dropped is called once if the client is there, and
the caller has a lease if attributes were reported. -/
structure Answered (env : Filesrv) (clienttab : Clienttab) (s s' : LeaseState)
    (caller : UInt64 × UInt32) (fh : NfsFh3) (fattr : Option Fattr3exp)
    (calls : List Invalidate) : Prop where
  calls : ∃ hs : List (UInt64 × UInt32), hs.Nodup ∧ calls = hs.map (invalidateOf env fh fattr) ∧
    ∀ k, k ∈ hs ↔ s.Dropped caller fh fattr k ∧ clienttab k.1 ≠ none
  holds_iff : ∀ k, s'.Holds fh k ↔
    s.Holds fh k ∧ ¬s.Dropped caller fh fattr k ∨ fattr ≠ none ∧ k = caller
  others : ∀ fh', fh' ≠ fh → ∀ k, s'.Holds fh' k ↔ s.Holds fh' k

/-- The leases in the tree and in the tables, with a timer while there are any. -/
structure Coherent (s : LeaseState) : Prop where
  linked : s.Linked
  held : s.HeldBut fun _ => False
  timer : s.TimerSet

theorem differs_iff {a : Fattr3exp} (h : s.Linked) (hp : s.fhsync p = some fs) :
    s.Differs fs.fh a ↔ ¬(a.mtime = fs.mtime ∧ a.ctime = fs.ctime) := by
  constructor
  · rintro ⟨q, -, fs', hq, hfh, hdiffers⟩
    obtain rfl := h.fh_inj hp hq hfh.symm
    obtain rfl := some.inj (hp.symm.trans hq)
    exact hdiffers
  · exact fun hdiffers => ⟨p, (h.mem_tab p).mpr ⟨fs, hp⟩, fs, hp, rfl, hdiffers⟩

theorem findFhsync_some (hfind : s.findFhsync fh = some p) :
    ∃ fs, s.fhsync p = some fs ∧ fs.fh = fh := by
  have htest := List.find?_some hfind
  cases hp : s.fhsync p with
  | none => simp [hp] at htest
  | some fs =>
    rw [hp, any_some, decide_eq_true_eq] at htest
    exact ⟨fs, rfl, htest⟩

theorem findFhsync_none (h : s.Linked) (hfind : s.findFhsync fh = none) {q : ℕ} {fs' : Fhsync}
    (hq : s.fhsync q = some fs') : fs'.fh ≠ fh := by
  have hnot := List.find?_eq_none.mp hfind q ((h.mem_tab q).mpr ⟨fs', hq⟩)
  rw [hq, any_some, decide_eq_true_eq] at hnot
  exact hnot

section Update

variable {cgen : UInt64} {fsno : UInt32} {now : ℕ}

theorem update_gone (h : s.Coherent) (hp : s.fhsync p = some fs)
    (hcall : ∀ k, s.Dropped (cgen, fsno) fs.fh none k → Callable clienttab fs.fh k) :
    ∃ s' calls, fhsyncUpdate env clienttab s now p cgen fsno none = some (s', calls) ∧
      s'.Coherent ∧ Answered env clienttab s s' (cgen, fsno) fs.fh none calls := by
  have hholds : ∀ k, s.Holds fs.fh k ↔ s.Key p k := fun k => holds_iff_key h.linked hp
  have hlose : ∀ k, Loses (cgen, fsno) none k := fun k => .inr rfl
  obtain ⟨s', hs, heq, hchanged⟩ := change_spec env cgen fsno (a := none) h.linked hp h.timer
    h.held fun k hkey _ => hcall k ⟨(hholds k).mpr hkey, trivial⟩
  refine ⟨s', _, ?_, ⟨hchanged.linked, hchanged.held, hchanged.timer⟩,
    ⟨hs, hchanged.nodup, rfl, fun k => ?_⟩, fun k => ?_, fun fh' hne k => ?_⟩
  · rw [fhsyncUpdate, hp]
    exact heq
  · rw [hchanged.mem_iff, Dropped, hholds]
    simp [hlose]
  · rw [hchanged.holds_iff h.linked hp, Dropped]
    simp [hlose]
  · rw [hchanged.holds_iff h.linked hp]
    simp [hne]

variable {a : Fattr3exp} (env) (h : s.Linked) (htimer : s.TimerSet) (hheld : s.HeldBut (· = p))
  (hp : s.fhsync p = some fs) (hex : a.expire ≠ 0) (hnow : now + a.expire.toNat < 2 ^ 32)

include h htimer hheld hp hex hnow

/-- The attributes are those recorded: the caller gets a lease. -/
theorem update_same (hsame : a.mtime = fs.mtime ∧ a.ctime = fs.ctime) :
    ∃ s', fhsyncUpdate env clienttab s now p cgen fsno (some a) = some (s', []) ∧
      s'.Coherent ∧ Answered env clienttab s s' (cgen, fsno) fs.fh (some a) [] := by
  obtain ⟨s', hgrant, hgranted⟩ := grant_spec cgen fsno h hp htimer hex hnow
  obtain ⟨fs', hp', hfile⟩ := hgranted.file
  have hdropped : ∀ k, ¬s.Dropped (cgen, fsno) fs.fh (some a) k := fun k hdropped =>
    (differs_iff h hp).mp hdropped.2.1 hsame
  refine ⟨s', ?_, ⟨hgranted.linked, hgranted.held hheld, hgranted.timer⟩,
    ⟨[], nodup_nil, rfl, fun k => ?_⟩, fun k => ?_, fun fh' hne k => ?_⟩
  · rw [fhsyncUpdate, hp, bind_some]
    dsimp only
    rw [hgrant, bind_some, hp', bind_some, hfile.2.1, hfile.2.2, if_pos hsame]
  · simp [hdropped]
  · rw [hgranted.holds_iff h hp]
    simp [hdropped]
  · rw [hgranted.holds_iff h hp]
    simp [hne]

/-- The attributes have changed: the caller gets a lease, and all others lose theirs. -/
theorem update_differs (hdiffers : ¬(a.mtime = fs.mtime ∧ a.ctime = fs.ctime))
    (hcall : ∀ k, s.Dropped (cgen, fsno) fs.fh (some a) k → Callable clienttab fs.fh k) :
    ∃ s' calls, fhsyncUpdate env clienttab s now p cgen fsno (some a) = some (s', calls) ∧
      s'.Coherent ∧ Answered env clienttab s s' (cgen, fsno) fs.fh (some a) calls := by
  obtain ⟨s1, hgrant, hgranted⟩ := grant_spec cgen fsno h hp htimer hex hnow
  obtain ⟨fs1, hp1, hfile⟩ := hgranted.file
  have hdiff : s.Differs fs.fh a := (differs_iff h hp).mpr hdiffers
  have hlose : ∀ k, Loses (cgen, fsno) (some a) k ↔ k ≠ (cgen, fsno) := fun k => by simp [Loses]
  have hkey : ∀ k, s1.Key p k ∧ Loses (cgen, fsno) (some a) k ↔
      s.Dropped (cgen, fsno) fs.fh (some a) k := by
    intro k
    rw [hgranted.key_iff, hlose, Dropped, holds_iff_key h hp]
    constructor
    · rintro ⟨hk | hk, hne⟩
      · exact ⟨hk, hdiff, hne⟩
      · exact absurd hk.2 hne
    · exact fun hk => ⟨.inl hk.1, hk.2.2⟩
  obtain ⟨s', hs, heq, hchanged⟩ := change_spec env cgen fsno hgranted.linked hp1
    hgranted.timer (hgranted.held hheld) fun k hk hl => by
      rw [hfile.1]
      exact hcall k ((hkey k).mp ⟨hk, hl⟩)
  rw [hfile.1] at heq
  refine ⟨s', _, ?_, ⟨hchanged.linked, hchanged.held, hchanged.timer⟩,
    ⟨hs, hchanged.nodup, rfl, fun k => ?_⟩, fun k => ?_, fun fh' hne k => ?_⟩
  · rw [fhsyncUpdate, hp, bind_some]
    dsimp only
    rw [hgrant, bind_some, hp1, bind_some, hfile.2.1, hfile.2.2, if_neg hdiffers]
    exact heq
  · rw [hchanged.mem_iff, ← and_assoc, hkey]
  · rw [hchanged.holds_iff hgranted.linked hp1, hgranted.holds_iff h hp, hfile.1, hlose, Dropped]
    tauto
  · rw [hchanged.holds_iff hgranted.linked hp1, hgranted.holds_iff h hp, hfile.1]
    simp [hne]

end Update

section NewFile

variable {a : Fattr3exp}

theorem fhsync_newFhsync_iff {q : ℕ} {fs' : Fhsync} :
    (s.newFhsync fh a).fhsync q = some fs' ↔
      q = s.brk ∧ fs' = ⟨fh, a.mtime, a.ctime, []⟩ ∨ q ≠ s.brk ∧ s.fhsync q = some fs' :=
  update_fhsync_iff

theorem Linked.fhsync_brk (h : s.Linked) : s.fhsync s.brk = none := by
  cases hp : s.fhsync s.brk with
  | none => rfl
  | some fs => exact absurd (h.fhsync_lt hp) (lt_irrefl _)

theorem HeldBut.newFhsync (h : s.HeldBut fun _ => False) :
    (s.newFhsync fh a).HeldBut (· = s.brk) := by
  intro q fs' hfs' hq
  rcases fhsync_newFhsync_iff.mp hfs' with ⟨rfl, -⟩ | ⟨-, hfs'⟩
  · exact absurd rfl hq
  · exact h hfs' id

variable (h : s.Linked) (hnew : ∀ q fs', s.fhsync q = some fs' → fs'.fh ≠ fh)

include h hnew

theorem Linked.newFhsync : (s.newFhsync fh a).Linked where
  tree_nodup := h.tree_nodup
  tab_nodup := by
    refine nodup_cons.mpr ⟨fun hmem => ?_, h.tab_nodup⟩
    obtain ⟨fs', hfs'⟩ := (h.mem_tab _).mp hmem
    exact lt_irrefl _ (h.fhsync_lt hfs')
  mem_tree := h.mem_tree
  mem_tab q := by
    simp only [fhsync_newFhsync_iff]
    refine mem_cons.trans ?_
    rw [h.mem_tab]
    by_cases hq : q = s.brk
    · simp [hq]
    · simp [hq]
  leases_nodup hfs := by
    rcases fhsync_newFhsync_iff.mp hfs with ⟨-, rfl⟩ | ⟨-, hfs⟩
    · exact nodup_nil
    · exact h.leases_nodup hfs
  mem_leases hfs x := by
    rcases fhsync_newFhsync_iff.mp hfs with ⟨rfl, rfl⟩ | ⟨-, hfs⟩
    · refine ⟨fun hx => absurd hx not_mem_nil, ?_⟩
      rintro ⟨le, hle, hfhs⟩
      obtain ⟨fs', hfs'⟩ := h.fhs_live hle
      rw [hfhs, h.fhsync_brk] at hfs'
      cases hfs'
    · exact h.mem_leases hfs x
  fhs_live hle := by
    obtain ⟨fs', hfs'⟩ := h.fhs_live hle
    exact ⟨fs', fhsync_newFhsync_iff.mpr (.inr ⟨(h.fhsync_lt hfs').ne, hfs'⟩)⟩
  key_inj := h.key_inj
  fh_inj h1 h2 heq := by
    rcases fhsync_newFhsync_iff.mp h1 with ⟨rfl, rfl⟩ | ⟨-, h1'⟩ <;>
      rcases fhsync_newFhsync_iff.mp h2 with ⟨rfl, rfl⟩ | ⟨-, h2'⟩
    · rfl
    · exact absurd heq.symm (hnew _ _ h2')
    · exact absurd heq (hnew _ _ h1')
    · exact h.fh_inj h1' h2' heq
  count := h.count
  lease_lt hle := (h.lease_lt hle).trans (Nat.lt_succ_self _)
  fhsync_lt hfs := by
    rcases fhsync_newFhsync_iff.mp hfs with ⟨rfl, -⟩ | ⟨-, hfs⟩
    · exact Nat.lt_succ_self _
    · exact (h.fhsync_lt hfs).trans (Nat.lt_succ_self _)

theorem not_holds : ¬s.Holds fh k := by
  rw [LeaseState.holds_iff h]
  rintro ⟨q, fs', hq, hfh, -⟩
  exact hnew q fs' hq hfh

theorem holds_newFhsync_iff {fh' : NfsFh3} : (s.newFhsync fh a).Holds fh' k ↔ s.Holds fh' k := by
  rw [LeaseState.holds_iff (h.newFhsync hnew), LeaseState.holds_iff h]
  constructor
  · rintro ⟨q, fs', hq, rfl, l, le, hle, hfhs, hk⟩
    rcases fhsync_newFhsync_iff.mp hq with ⟨rfl, -⟩ | ⟨-, hq⟩
    · obtain ⟨fs1, hfs1⟩ := h.fhs_live hle
      rw [hfhs, h.fhsync_brk] at hfs1
      cases hfs1
    · exact ⟨q, fs', hq, rfl, l, le, hle, hfhs, hk⟩
  · rintro ⟨q, fs', hq, rfl, hkey⟩
    exact ⟨q, fs', fhsync_newFhsync_iff.mpr (.inr ⟨(h.fhsync_lt hq).ne, hq⟩), rfl, hkey⟩

end NewFile

/-- The condition under which a call does its work: leases have a time, which fits into the
clock of the tree, and every client that is to be called can be called. -/
structure Admits (env : Filesrv) (s : LeaseState) (clienttab : Clienttab) (now : ℕ)
    (caller : UInt64 × UInt32) (fh : NfsFh3) (fattr : Option Fattr3exp) : Prop where
  leasetime : fattr ≠ none → env.leasetime ≠ 0 ∧ now + env.leasetime.toNat < 2 ^ 32
  callable : ∀ k, s.Dropped caller fh fattr k → Callable clienttab fh k

variable {fattr : Option Fattr3exp}

theorem Answered.of_setExpire {calls : List Invalidate} (e : UInt32)
    (h : Answered env clienttab s s' caller fh (fattr.map (·.setExpire e)) calls) :
    Answered env clienttab s s' caller fh fattr calls := by
  cases fattr with
  | none => exact h
  | some a =>
    refine ⟨h.calls, fun k => (h.holds_iff k).trans (or_congr Iff.rfl ?_), h.others⟩
    simp

theorem Answered.refl (hnone : ∀ k, ¬s.Holds fh k) :
    Answered env clienttab s s caller fh none [] where
  calls := ⟨[], nodup_nil, rfl, fun k => by simp [Dropped, hnone]⟩
  holds_iff k := by simp [hnone]
  others _ _ _ := Iff.rfl

/-- A call about a file that is put into the table only then. -/
theorem Answered.of_newFhsync {a : Fattr3exp} {calls : List Invalidate} (hlinked : s.Linked)
    (hnew : ∀ q fs', s.fhsync q = some fs' → fs'.fh ≠ fh)
    (h : Answered env clienttab (s.newFhsync fh a) s' caller fh fattr calls) :
    Answered env clienttab s s' caller fh fattr calls := by
  have hnone : ∀ k, ¬s.Holds fh k := fun k => not_holds hlinked hnew
  have hnone' : ∀ k, ¬(s.newFhsync fh a).Holds fh k := fun k =>
    (holds_newFhsync_iff hlinked hnew).not.mpr (hnone k)
  obtain ⟨hs, hnodup, heq, hmem⟩ := h.calls
  refine ⟨⟨hs, hnodup, heq, fun k => ?_⟩, fun k => ?_, fun fh' hne k => ?_⟩
  · rw [hmem]
    simp [Dropped, hnone, hnone']
  · rw [h.holds_iff]
    simp [hnone, hnone']
  · rw [h.others fh' hne, holds_newFhsync_iff hlinked hnew]

theorem dolease_spec {now : ℕ} {cgen : UInt64} {fsno : UInt32} (h : s.Coherent)
    (hadmits : Admits env s clienttab now (cgen, fsno) fh fattr) :
    ∃ s' calls, dolease env clienttab s now cgen fsno fh fattr = some (s', calls) ∧
      s'.Coherent ∧ Answered env clienttab s s' (cgen, fsno) fh fattr calls := by
  unfold dolease
  cases hfind : s.findFhsync fh with
  | some p =>
    obtain ⟨fs, hp, rfl⟩ := findFhsync_some hfind
    cases fattr with
    | none => exact update_gone h hp hadmits.callable
    | some a =>
      obtain ⟨hex, hnow⟩ := hadmits.leasetime (some_ne_none a)
      have hheld : s.HeldBut (· = p) := fun hfs _ => h.held hfs id
      by_cases hsame : a.mtime = fs.mtime ∧ a.ctime = fs.ctime
      · obtain ⟨s', heq, hcoherent, hanswered⟩ := update_same env
          (a := a.setExpire env.leasetime) h.linked h.timer hheld hp hex hnow hsame
        exact ⟨s', [], heq, hcoherent, hanswered.of_setExpire env.leasetime⟩
      · obtain ⟨s', calls, heq, hcoherent, hanswered⟩ := update_differs env
          (a := a.setExpire env.leasetime) h.linked h.timer hheld hp hex hnow hsame
          hadmits.callable
        exact ⟨s', calls, heq, hcoherent, hanswered.of_setExpire env.leasetime⟩
  | none =>
    have hnew : ∀ q fs', s.fhsync q = some fs' → fs'.fh ≠ fh := fun q fs' =>
      findFhsync_none h.linked hfind
    cases fattr with
    | none => exact ⟨s, [], rfl, h, .refl fun k => not_holds h.linked hnew⟩
    | some a =>
      obtain ⟨hex, hnow⟩ := hadmits.leasetime (some_ne_none a)
      have hp : (s.newFhsync fh (a.setExpire env.leasetime)).fhsync s.brk =
          some ⟨fh, a.mtime, a.ctime, []⟩ := fhsync_newFhsync_iff.mpr (.inl ⟨rfl, rfl⟩)
      have hheld : (s.newFhsync fh (a.setExpire env.leasetime)).HeldBut (· = s.brk) :=
        HeldBut.newFhsync fun hfs hq => h.held hfs hq
      obtain ⟨s', heq, hcoherent, hanswered⟩ := update_same env
        (a := a.setExpire env.leasetime) (h.linked.newFhsync hnew) h.timer hheld hp hex hnow
        ⟨rfl, rfl⟩
      exact ⟨s', [], heq, hcoherent,
        (hanswered.of_newFhsync h.linked hnew).of_setExpire env.leasetime⟩

end Dolease

/-- What the server does: a call of `dolease`, at a time and with the clients there are then,
or the timer. -/
inductive LeaseEvent
  | dolease (clienttab : Clienttab) (now : ℕ) (cgen : UInt64) (fsno : UInt32) (fh : NfsFh3)
      (fattr : Option Fattr3exp)
  | timeout (now : ℕ)

/-- One step; there is no state after one that has no result. -/
def step (env : Filesrv) : Option LeaseState → LeaseEvent → Option LeaseState × List Invalidate
  | none, _ => (none, [])
  | some s, .dolease clienttab now cgen fsno fh fattr =>
    match dolease env clienttab s now cgen fsno fh fattr with
    | none => (none, [])
    | some (s, calls) => (some s, calls)
  | some s, .timeout now => if s.tmocb = none then (some s, []) else (s.sched now true, [])

/-- The steps of a run meet the condition for calls. -/
def StepAdmitted (env : Filesrv)
    (r : Run (Option LeaseState) LeaseEvent (List Invalidate)) : LeaseEvent → Prop
  | .dolease clienttab now cgen fsno fh fattr =>
    ∀ s, r.state = some s → Admits env s clienttab now (cgen, fsno) fh fattr
  | .timeout _ => True

/-- A run has a state, and its leases are in the tree and in the tables. -/
def RunCoherent (r : Run (Option LeaseState) LeaseEvent (List Invalidate)) : Prop :=
  ∃ s, r.state = some s ∧ s.Coherent

theorem runCoherent_start : RunCoherent (start (some initial)) := by
  refine ⟨initial, rfl, linked_initial, ?_, fun _ => rfl⟩
  intro q fs hq
  simp [initial] at hq

theorem RunCoherent.next {r : Run (Option LeaseState) LeaseEvent (List Invalidate)} {e : LeaseEvent}
    (h : RunCoherent r) (hadmitted : StepAdmitted env r e) : RunCoherent (r.next (step env) e) := by
  obtain ⟨s, hstate, hs⟩ := h
  unfold RunCoherent Run.next
  rw [hstate]
  cases e with
  | dolease clienttab now cgen fsno fh fattr =>
    obtain ⟨s', calls, heq, hcoherent, -⟩ := dolease_spec hs (hadmitted s hstate)
    rw [step, heq]
    exact ⟨s', rfl, hcoherent⟩
  | timeout now =>
    rw [step]
    split_ifs
    · exact ⟨s, rfl, hs⟩
    · obtain ⟨s', gone, heq, hlinked, hheld, htimer, -⟩ := sched_spec now hs.linked hs.held
      exact ⟨s', heq, hlinked, hheld, htimer⟩

/-- The tree, the count and the tables have the same leases, and the files in the table are
those with a lease. -/
structure SameLeases (s : LeaseState) : Prop where
  tree_nodup : s.leasetree.Nodup
  tree_iff : ∀ l, l ∈ s.leasetree ↔ ∃ p ∈ s.fhtab, ∃ fs, s.fhsync p = some fs ∧ l ∈ fs.leases
  count : s.numLeases = UInt32.ofNat s.leasetree.length
  leases_nodup : ∀ p ∈ s.fhtab, ∃ fs, s.fhsync p = some fs ∧ fs.leases.Nodup
  entry_iff : ∀ fh, (∃ p ∈ s.fhtab, ∃ fs, s.fhsync p = some fs ∧ fs.fh = fh) ↔ ∃ k, s.Holds fh k

theorem Coherent.sameLeases (h : s.Coherent) : s.SameLeases where
  tree_nodup := h.linked.tree_nodup
  tree_iff l := by
    rw [h.linked.mem_tree]
    constructor
    · rintro ⟨le, hle⟩
      obtain ⟨fs, hfs⟩ := h.linked.fhs_live hle
      exact ⟨le.fhs, (h.linked.mem_tab _).mpr ⟨fs, hfs⟩, fs, hfs,
        (h.linked.mem_leases hfs l).mpr ⟨le, hle, rfl⟩⟩
    · rintro ⟨p, -, fs, hfs, hl⟩
      obtain ⟨le, hle, -⟩ := (h.linked.mem_leases hfs l).mp hl
      exact ⟨le, hle⟩
  count := h.linked.count
  leases_nodup p hp := by
    obtain ⟨fs, hfs⟩ := (h.linked.mem_tab p).mp hp
    exact ⟨fs, hfs, h.linked.leases_nodup hfs⟩
  entry_iff fh := by
    constructor
    · rintro ⟨p, hp, fs, hfs, hfh⟩
      obtain ⟨l, hl⟩ := exists_mem_of_ne_nil _ (h.held hfs id)
      obtain ⟨le, hle, -⟩ := (h.linked.mem_leases hfs l).mp hl
      exact ⟨(le.cgen, le.fsno), p, hp, fs, hfs, hfh, l, hl, le, hle, rfl⟩
    · rintro ⟨k, p, hp, fs, hfs, hfh, -⟩
      exact ⟨p, hp, fs, hfs, hfh⟩

end LeaseState

open LeaseState

/-- In every run whose calls meet the condition, the tree, the count and the tables have the
same leases, and a further call that meets it calls those who lose a lease, once each, and
leaves a lease to the caller. -/
theorem leases_coherent (env : Filesrv) {es : List LeaseEvent}
    (hrun : Run.Guarded (step env) (StepAdmitted env) (start (some initial)) es) :
    ∃ s, ((start (some initial)).take (step env) es).state = some s ∧
      s.SameLeases ∧
      ∀ clienttab now cgen fsno fh fattr, Admits env s clienttab now (cgen, fsno) fh fattr →
        ∃ s' calls, step env (some s) (.dolease clienttab now cgen fsno fh fattr) =
            (some s', calls) ∧
          s'.SameLeases ∧ Answered env clienttab s s' (cgen, fsno) fh fattr calls := by
  obtain ⟨s, hstate, hs⟩ := Run.invariant_take runCoherent_start
    (fun _ _ hr hadmitted => hr.next hadmitted) hrun
  refine ⟨s, hstate, hs.sameLeases, fun clienttab now cgen fsno fh fattr hadmits => ?_⟩
  obtain ⟨s', calls, heq, hcoherent, hanswered⟩ := dolease_spec hs hadmits
  exact ⟨s', calls, by rw [step, heq], hcoherent.sameLeases, hanswered⟩

def sampleFilesrv : Filesrv where
  order := .little
  junk := fun _ => 0
  fhkey := Equiv.refl _
  leasetime := 60

def sampleHandle : NfsFh3 := ⟨[1, 2, 3], by decide⟩

/-- The attributes of a file that was written at some time. -/
def writtenAt (seconds : UInt32) : Fattr3exp where
  type := 1
  mode := 0o644
  nlink := 1
  uid := 100
  gid := 100
  size := 0
  used := 0
  rdev := (0, 0)
  fsid := 1
  fileid := 2
  atime := ⟨0, 0⟩
  mtime := ⟨seconds, 0⟩
  ctime := ⟨seconds, 0⟩
  expire := 0

/-- The first call of a client, at the time 1000. -/
theorem leases_coherent_first_call :
    ∃ s, ((start (some initial)).take (step sampleFilesrv)
        [.dolease (fun _ => some true) 1000 1 0 sampleHandle (some (writtenAt 900))]).state =
          some s ∧
      s.SameLeases := by
  have hrun : Run.Guarded (step sampleFilesrv) (StepAdmitted sampleFilesrv)
      (start (some initial))
      [.dolease (fun _ => some true) 1000 1 0 sampleHandle (some (writtenAt 900))] := by
    refine ⟨fun s hs => ?_, trivial⟩
    obtain rfl := some.inj hs
    refine ⟨fun _ => by decide, fun k hdropped => ?_⟩
    obtain ⟨⟨p, hp, -⟩, -⟩ := hdropped
    exact absurd hp not_mem_nil
  obtain ⟨s, hstate, hsame, -⟩ := leases_coherent sampleFilesrv hrun
  exact ⟨s, hstate, hsame⟩

/-- A client that has failed while a request of it is still open is in the table of clients
without its `nfscbc`; the next change of a file that it has a lease on calls through it. -/
theorem failed_client_is_called :
    (((start (some initial)).take (step sampleFilesrv)
      [.dolease (fun _ => some true) 1000 1 0 sampleHandle (some (writtenAt 900))]).state.isSome ∧
    ((start (some initial)).take (step sampleFilesrv)
      [.dolease (fun _ => some true) 1000 1 0 sampleHandle (some (writtenAt 900)),
        .dolease (fun c => some (c ≠ 1)) 1010 2 0 sampleHandle
          (some (writtenAt 1010))]).state.isNone) := by
  decide +kernel

end SelfCertifyingFS.Nfs
