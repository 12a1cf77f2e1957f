import Sfs.Nfs.Leases

/-!
# Calls that report attributes

A call of `dolease` gives the caller a lease, and calls back the others when the file has
changed. This holds over every run of calls and timers, as long as the time of leases fits
the clock, handles can be sealed, and no lease belongs to a failed client that is still in
the table.
-/

namespace SelfCertifyingFS.Nfs

open Foundations Crypt List Function
open Option (any_some bind_some some.inj)
open Fh3trans (sealer)

namespace LeaseState

variable {s : LeaseState} {l p : ℕ} {le : Lease} {fs : Fhsync} {env : Filesrv}
  {clienttab : Clienttab} {cgen : UInt64} {fsno : UInt32}

section Grants

/-- The caller has a lease afterwards, and nothing else changes. -/
structure Granted (s s' : LeaseState) (p : ℕ) (fs : Fhsync) (k : UInt64 × UInt32) : Prop where
  linked : s'.Linked
  timer : s'.TimerSet
  file : ∃ fs', s'.fhsync p = some fs' ∧ fs.SameFile fs'
  others : ∀ q, q ≠ p → s'.fhsync q = s.fhsync q
  key_iff : ∀ q k', s'.Key q k' ↔ s.Key q k' ∨ q = p ∧ k' = k

theorem Granted.held {s' : LeaseState} {k : UInt64 × UInt32} (h : s.Granted s' p fs k)
    (hheld : s.HeldBut (· = p)) : s'.HeldBut fun _ => False := by
  intro q fs' hfs' _
  by_cases hq : q = p
  · subst hq
    obtain ⟨x, le, hle, hfhs, -⟩ := (h.key_iff q k).mpr (.inr ⟨rfl, rfl⟩)
    exact ne_nil_of_mem ((h.linked.mem_leases hfs' x).mpr ⟨le, hle, hfhs⟩)
  · exact hheld (h.others q hq ▸ hfs') hq

variable (h : s.Linked) (hp : s.fhsync p = some fs)

include h hp

theorem findLease_some (hfind : s.findLease fs.leases cgen fsno = some l) :
    ∃ le, s.lease l = some le ∧ le.fhs = p ∧ (le.cgen, le.fsno) = (cgen, fsno) := by
  obtain ⟨le, hle, hfhs⟩ := (h.mem_leases hp l).mp (List.mem_of_find?_eq_some hfind)
  have hkey := List.find?_some hfind
  rw [hle, any_some, decide_eq_true_eq] at hkey
  exact ⟨le, hle, hfhs, by rw [hkey.1, hkey.2]⟩

theorem findLease_none (hfind : s.findLease fs.leases cgen fsno = none) :
    ¬s.Key p (cgen, fsno) := by
  rintro ⟨x, le, hle, hfhs, hkey⟩
  obtain ⟨hcgen, hfsno⟩ := Prod.mk.inj hkey
  have hnot := List.find?_eq_none.mp hfind x ((h.mem_leases hp x).mpr ⟨le, hle, hfhs⟩)
  rw [hle, any_some, decide_eq_true_eq] at hnot
  exact hnot ⟨hcgen, hfsno⟩

variable (cgen fsno) in
theorem grant_spec {now : ℕ} {a : Fattr3exp} (htimer : s.TimerSet) (hex : a.expire ≠ 0)
    (hnow : now + a.expire.toNat < 2 ^ 32) :
    ∃ s', s.grant now p fs.leases cgen fsno a = some s' ∧ s.Granted s' p fs (cgen, fsno) := by
  unfold grant
  cases hfind : s.findLease fs.leases cgen fsno with
  | some l =>
    obtain ⟨le, hle, hfhs, hkey⟩ := findLease_some h hp hfind
    obtain ⟨s', hs', hlinked, hfhsync, htmocb, htree, hkeys⟩ := renew_spec now a.expire h hle
    refine ⟨s', hs', hlinked, ?_, ⟨fs, hfhsync ▸ hp, rfl, rfl, rfl⟩, fun q _ => by rw [hfhsync],
      fun q k => ?_⟩
    · intro hnone
      have hnil := htimer (htmocb ▸ hnone)
      exact (List.perm_nil.mp (hnil ▸ htree))
    · rw [hkeys, or_iff_left_of_imp]
      rintro ⟨rfl, rfl⟩
      exact ⟨l, le, hle, hfhs, hkey⟩
  | none =>
    have hexpire : (UInt32.ofNat (now + a.expire.toNat)).toNat = now + a.expire.toNat :=
      UInt32.toNat_ofNat_of_lt' hnow
    have hnew := findLease_none h hp hfind
    set le : Lease := ⟨cgen, fsno, UInt32.ofNat (now + a.expire.toNat), p⟩
    have hle : now ≤ le.expire.toNat := hexpire ▸ Nat.le_add_right _ _
    obtain ⟨t, ht⟩ := sched_withLease fs hle htimer
    have hlinked : (s.withLease fs le).Linked := h.withLease hp hnew
    refine ⟨{ s.withLease fs le with tmocb := some t }, ?_, hlinked.setTmocb _,
      fun hnone => absurd hnone (by simp), ?_, ?_, fun q k => ?_⟩
    · rw [if_pos hex, newLease, hp]
      exact ht
    · exact ⟨_, fhsync_withLease_iff.mpr (.inl ⟨rfl, rfl⟩), rfl, rfl, rfl⟩
    · intro q hq
      exact update_of_ne hq _ _
    · exact key_withLease_iff fs h

end Grants

/-! ### Calls -/

variable {fh : NfsFh3} {a : Option Fattr3exp} {caller : UInt64 × UInt32} {ls : List ℕ}

def sealedHandle (env : Filesrv) (fh : NfsFh3) (fsno : UInt32) : NfsFh3 :=
  ((sealer env.fhkey fsno).traverse env.order env.junk fh).2.2

def invalidateOf (env : Filesrv) (fh : NfsFh3) (a : Option Fattr3exp) (k : UInt64 × UInt32) :
    Invalidate :=
  ⟨k.1, sealedHandle env fh k.2, a.map (Fattr3exp.setExpire · 0)⟩

def Loses (caller : UInt64 × UInt32) (a : Option Fattr3exp) (k : UInt64 × UInt32) : Prop :=
  k ≠ caller ∨ a = none

instance (caller : UInt64 × UInt32) (a : Option Fattr3exp) (k : UInt64 × UInt32) :
    Decidable (Loses caller a k) := inferInstanceAs (Decidable (_ ∨ _))

def holder (le : Lease) : UInt64 × UInt32 := (le.cgen, le.fsno)

/-- The holders that are called, in the order of the table. -/
def calledOf (clienttab : Clienttab) (caller : UInt64 × UInt32) (a : Option Fattr3exp)
    (s : LeaseState) (ls : List ℕ) : List (UInt64 × UInt32) :=
  ((ls.filterMap s.lease).map holder).filter fun k => Loses caller a k ∧ clienttab k.1 ≠ none

theorem callClient_eq (hlen : fh.data.length ≤ nfs3FhSize - 4) (n : UInt32) (le : Lease)
    (a : Option Fattr3exp) :
    callClient env (sealer env.fhkey n) fh le true (a.map (Fattr3exp.setExpire · 0)) =
      some (sealer env.fhkey le.fsno, [invalidateOf env fh a (holder le)]) := by
  obtain ⟨sealed, htraverse, -⟩ := traverse_sealer env.order env.fhkey env.junk le.fsno hlen
  have hsrvno : { sealer env.fhkey n with srvno := le.fsno } = sealer env.fhkey le.fsno := rfl
  rw [callClient, hsrvno, invalidateOf, sealedHandle, holder, htraverse]
  rfl

/-- A call to a client either is not made, since the client is gone, or goes through. -/
def Callable (clienttab : Clienttab) (fh : NfsFh3) (k : UInt64 × UInt32) : Prop :=
  clienttab k.1 = none ∨ clienttab k.1 = some true ∧ fh.data.length ≤ nfs3FhSize - 4

instance (clienttab : Clienttab) (fh : NfsFh3) (k : UInt64 × UInt32) :
    Decidable (Callable clienttab fh k) := inferInstanceAs (Decidable (_ ∨ _))

variable (env) in
/-- The holder of a lease that is lost is called if the client is there. -/
theorem callHolder_spec (hp : s.fhsync p = some fs) (hfh : fs.fh = fh)
    (hcall : Callable clienttab fh (holder le)) (hlose : Loses caller a (holder le)) (n : UInt32) :
    ∃ m, callHolder env clienttab s p (sealer env.fhkey n) le a =
      some (sealer env.fhkey m,
        ([holder le].filter fun k => Loses caller a k ∧ clienttab k.1 ≠ none).map
          (invalidateOf env fh a)) := by
  rw [callHolder, filter_singleton]
  rcases hcall with hnone | ⟨hsome, hlen⟩
  · have hnot : ¬(Loses caller a (holder le) ∧ clienttab (holder le).1 ≠ none) := fun h => h.2 hnone
    rw [decide_eq_false hnot, show clienttab le.cgen = none from hnone]
    exact ⟨n, rfl⟩
  · have hcalled : Loses caller a (holder le) ∧ clienttab (holder le).1 ≠ none :=
      ⟨hlose, fun hnone => by simp [hsome] at hnone⟩
    rw [decide_eq_true hcalled, show clienttab le.cgen = some true from hsome]
    dsimp only
    rw [hp, bind_some, hfh, callClient_eq hlen]
    exact ⟨le.fsno, rfl⟩

theorem calledOf_cons (hle : s.lease l = some le) :
    calledOf clienttab caller a s (l :: ls) =
      [holder le].filter (fun k => Loses caller a k ∧ clienttab k.1 ≠ none) ++
        calledOf clienttab caller a s ls := by
  rw [calledOf, filterMap_cons_some hle, map_cons, ← singleton_append, filter_append, calledOf]

/-- What the loop needs to know of the leases that are still to come. -/
structure LoopReady (s : LeaseState) (clienttab : Clienttab) (p : ℕ) (fh : NfsFh3)
    (caller : UInt64 × UInt32) (a : Option Fattr3exp) (ls : List ℕ) : Prop where
  nodup : ls.Nodup
  leases : ∀ x ∈ ls, ∃ le, s.lease x = some le ∧ le.fhs = p ∧
    (Loses caller a (holder le) → Callable clienttab fh (holder le))
  file : ∀ fs, s.fhsync p = some fs → fs.fh = fh

theorem LoopReady.of_cons (h : s.LoopReady clienttab p fh caller a (l :: ls)) :
    s.LoopReady clienttab p fh caller a ls :=
  ⟨(nodup_cons.mp h.nodup).2, fun x hx => h.leases x (mem_cons_of_mem l hx), h.file⟩

theorem lease_of_trimmed {s1 : LeaseState} {x : ℕ} (htrim : s.Trimmed s1 (· = l)) (hx : x ≠ l) :
    s1.lease x = s.lease x := by
  apply Option.ext
  intro le'
  exact htrim.lease_iff.trans (and_iff_left hx)

theorem LoopReady.deleted {s1 : LeaseState} (h : s.LoopReady clienttab p fh caller a (l :: ls))
    (htrim : s.Trimmed s1 (· = l)) : s1.LoopReady clienttab p fh caller a ls where
  nodup := (nodup_cons.mp h.nodup).2
  leases x hx := by
    have hxl : x ≠ l := fun heq => (nodup_cons.mp h.nodup).1 (heq ▸ hx)
    rw [lease_of_trimmed htrim hxl]
    exact h.leases x (mem_cons_of_mem l hx)
  file fs1 hfs1 := by
    obtain ⟨fs, hfs, hsame⟩ := htrim.file hfs1
    exact hsame.1.trans (h.file fs hfs)

variable (env cgen fsno) in
/-- The loop over the leases of a file takes away all but that of the caller, and calls every
client that is there. -/
theorem invalidateLoop_spec {n : UInt32} (h : s.Linked)
    (hready : s.LoopReady clienttab p fh (cgen, fsno) a ls) :
    ∃ s', invalidateLoop env clienttab p cgen fsno a ls (sealer env.fhkey n) s =
        some (s', (calledOf clienttab (cgen, fsno) a s ls).map (invalidateOf env fh a)) ∧
      s.Trimmed s' fun x => x ∈ ls ∧ ∃ le, s.lease x = some le ∧
        Loses (cgen, fsno) a (holder le) := by
  induction ls generalizing s n with
  | nil =>
    refine ⟨s, rfl, (Trimmed.refl h).congr fun x => ?_⟩
    simp
  | cons l ls ih =>
    obtain ⟨le, hle, hfhs, hcb⟩ := hready.leases l mem_cons_self
    have htest : (le.cgen ≠ cgen ∨ le.fsno ≠ fsno ∨ a = none) ↔
        Loses (cgen, fsno) a (holder le) := by
      simp only [Loses, holder, ne_eq, Prod.mk.injEq, not_and_or, or_assoc]
    rw [invalidateLoop, hle, bind_some, calledOf_cons hle]
    by_cases hlose : Loses (cgen, fsno) a (holder le)
    · obtain ⟨s1, hdel, htrim⟩ := deleteLease_spec h hle
      obtain ⟨fs, hfs⟩ := h.fhs_live hle
      rw [hfhs] at hfs
      obtain ⟨m, hcall⟩ := callHolder_spec env hfs (hready.file fs hfs) (hcb hlose) hlose n
      obtain ⟨s', hloop, htrim'⟩ := ih htrim.linked (hready.deleted htrim)
      have hsame : ∀ x ∈ ls, s1.lease x = s.lease x := fun x hx =>
        lease_of_trimmed htrim fun heq => (nodup_cons.mp hready.nodup).1 (heq ▸ hx)
      have hrest : calledOf clienttab (cgen, fsno) a s1 ls =
          calledOf clienttab (cgen, fsno) a s ls := by
        rw [calledOf, calledOf, filterMap_congr hsame]
      refine ⟨s', ?_, (htrim.trans htrim').congr fun x => ?_⟩
      · rw [if_pos (htest.mpr hlose), hcall, bind_some]
        dsimp only
        rw [hdel, bind_some, hloop, hrest, Option.map_some, map_append]
      · constructor
        · rintro (rfl | ⟨hx, hlost⟩)
          · exact ⟨mem_cons_self, le, hle, hlose⟩
          · exact ⟨mem_cons_of_mem l hx, hsame x hx ▸ hlost⟩
        · rintro ⟨hx, hlost⟩
          rcases mem_cons.mp hx with rfl | hx
          · exact .inl rfl
          · exact .inr ⟨hx, (hsame x hx).symm ▸ hlost⟩
    · obtain ⟨s', hloop, htrim'⟩ := ih h hready.of_cons
      have hout : ¬(Loses (cgen, fsno) a (holder le) ∧ clienttab (holder le).1 ≠ none) :=
        fun hcalled => hlose hcalled.1
      refine ⟨s', ?_, htrim'.congr fun x => ?_⟩
      · rw [if_neg (htest.not.mpr hlose), hloop, filter_singleton, decide_eq_false hout]
        rfl
      · constructor
        · exact fun hx => ⟨mem_cons_of_mem l hx.1, hx.2⟩
        · rintro ⟨hx, le', hle', hlost⟩
          rcases mem_cons.mp hx with rfl | hx
          · rw [hle, Option.some.injEq] at hle'
            exact absurd (hle' ▸ hlost) hlose
          · exact ⟨hx, le', hle', hlost⟩

/-! ### Changes -/

theorem mem_calledOf {k : UInt64 × UInt32} (h : s.Linked) (hp : s.fhsync p = some fs) :
    k ∈ calledOf clienttab caller a s fs.leases ↔
      s.Key p k ∧ Loses caller a k ∧ clienttab k.1 ≠ none := by
  rw [calledOf, mem_filter, decide_eq_true_eq]
  refine and_congr_left fun _ => ?_
  simp only [mem_map, mem_filterMap]
  constructor
  · rintro ⟨le, ⟨x, hx, hle⟩, rfl⟩
    obtain ⟨le', hle', hfhs⟩ := (h.mem_leases hp x).mp hx
    obtain rfl := some.inj (hle'.symm.trans hle)
    exact ⟨x, le', hle, hfhs, rfl⟩
  · rintro ⟨x, le, hle, hfhs, rfl⟩
    exact ⟨le, ⟨x, (h.mem_leases hp x).mpr ⟨le, hle, hfhs⟩, hle⟩, rfl⟩

theorem nodup_calledOf (h : s.Linked) (hready : s.LoopReady clienttab p fh caller a ls) :
    (calledOf clienttab caller a s ls).Nodup := by
  refine Nodup.filter _ ?_
  induction ls with
  | nil => exact nodup_nil
  | cons l ls ih =>
    obtain ⟨le, hle, hfhs, -⟩ := hready.leases l mem_cons_self
    rw [filterMap_cons_some hle, map_cons, nodup_cons]
    refine ⟨fun hmem => ?_, ih hready.of_cons⟩
    obtain ⟨le', hle', hkey⟩ := mem_map.mp hmem
    obtain ⟨x, hx, hxle⟩ := mem_filterMap.mp hle'
    obtain ⟨le'', hle'', hfhs', -⟩ := hready.of_cons.leases x hx
    obtain rfl := some.inj (hle''.symm.trans hxle)
    obtain ⟨hcgen, hfsno⟩ := Prod.mk.inj hkey
    have heq : x = l := h.key_inj hxle hle (hfhs'.trans hfhs.symm) hcgen hfsno
    exact (nodup_cons.mp hready.nodup).1 (heq ▸ hx)

theorem update_fhsync_iff {q : ℕ} {fs1 fs' : Fhsync} :
    update s.fhsync p (some fs1) q = some fs' ↔
      q = p ∧ fs' = fs1 ∨ q ≠ p ∧ s.fhsync q = some fs' := by
  by_cases hq : q = p
  · simp [hq, eq_comm]
  · simp [hq]

theorem Linked.setFile {fs1 : Fhsync} (h : s.Linked) (hp : s.fhsync p = some fs)
    (hfh : fs1.fh = fs.fh) (hleases : fs1.leases = fs.leases) :
    { s with fhsync := update s.fhsync p (some fs1) }.Linked where
  tree_nodup := h.tree_nodup
  tab_nodup := h.tab_nodup
  mem_tree := h.mem_tree
  mem_tab q := by
    refine (h.mem_tab q).trans ?_
    by_cases hq : q = p
    · subst hq
      simp [hp]
    · simp [hq]
  leases_nodup hfs := by
    rcases update_fhsync_iff.mp hfs with ⟨rfl, rfl⟩ | ⟨-, hfs⟩
    · exact hleases ▸ h.leases_nodup hp
    · exact h.leases_nodup hfs
  mem_leases hfs x := by
    rcases update_fhsync_iff.mp hfs with ⟨rfl, rfl⟩ | ⟨-, hfs⟩
    · rw [hleases]
      exact h.mem_leases hp x
    · exact h.mem_leases hfs x
  fhs_live := by
    intro x le hle
    obtain ⟨fs', hfs'⟩ := h.fhs_live hle
    by_cases hq : le.fhs = p
    · exact ⟨fs1, update_fhsync_iff.mpr (.inl ⟨hq, rfl⟩)⟩
    · exact ⟨fs', update_fhsync_iff.mpr (.inr ⟨hq, hfs'⟩)⟩
  key_inj := h.key_inj
  fh_inj h1 h2 heq := by
    rcases update_fhsync_iff.mp h1 with ⟨rfl, rfl⟩ | ⟨-, h1'⟩ <;>
      rcases update_fhsync_iff.mp h2 with ⟨rfl, rfl⟩ | ⟨-, h2'⟩
    · rfl
    · exact h.fh_inj hp h2' (hfh.symm.trans heq)
    · exact h.fh_inj h1' hp (heq.trans hfh)
    · exact h.fh_inj h1' h2' heq
  count := h.count
  lease_lt := h.lease_lt
  fhsync_lt hfs := by
    rcases update_fhsync_iff.mp hfs with ⟨rfl, -⟩ | ⟨-, hfs⟩
    · exact h.fhsync_lt hp
    · exact h.fhsync_lt hfs

theorem Trimmed.timer {s' : LeaseState} {gone : ℕ → Prop} (htrim : s.Trimmed s' gone)
    (h : s.Linked) (htimer : s.TimerSet) : s'.TimerSet := by
  intro hnone
  have hnil := htimer (htrim.tmocb ▸ hnone)
  rw [eq_nil_iff_forall_not_mem]
  intro x hx
  obtain ⟨le, hle⟩ := (htrim.linked.mem_tree x).mp hx
  have hmem := (h.mem_tree x).mpr ⟨le, (htrim.lease_iff.mp hle).1⟩
  rw [hnil] at hmem
  exact not_mem_nil hmem

def newTimes (a : Option Fattr3exp) : NfsTime3 × NfsTime3 :=
  ((a.map (·.mtime)).getD ⟨0, 0⟩, (a.map (·.ctime)).getD ⟨0, 0⟩)

/-- The file at an address changes: the holders `hs` of leases on it are called. -/
structure Changed (s s' : LeaseState) (clienttab : Clienttab) (p : ℕ) (fs : Fhsync)
    (caller : UInt64 × UInt32) (a : Option Fattr3exp) (hs : List (UInt64 × UInt32)) : Prop where
  linked : s'.Linked
  timer : s'.TimerSet
  held : s'.HeldBut fun _ => False
  nodup : hs.Nodup
  mem_iff : ∀ k, k ∈ hs ↔ s.Key p k ∧ Loses caller a k ∧ clienttab k.1 ≠ none
  key_iff : ∀ q k, s'.Key q k ↔ s.Key q k ∧ ¬(q = p ∧ Loses caller a k)
  file : ∀ fs', s'.fhsync p = some fs' → fs'.fh = fs.fh ∧ (fs'.mtime, fs'.ctime) = newTimes a
  others : ∀ q fs', q ≠ p → s'.fhsync q = some fs' → ∃ fs0, s.fhsync q = some fs0 ∧ fs0.SameFile fs'

variable (env cgen fsno) in
theorem change_spec (h : s.Linked) (hp : s.fhsync p = some fs) (htimer : s.TimerSet)
    (hheld : s.HeldBut fun _ => False)
    (hcb : ∀ k, s.Key p k → Loses (cgen, fsno) a k → Callable clienttab fs.fh k) :
    ∃ s' hs, change env clienttab s p fs cgen fsno a =
        some (s', hs.map (invalidateOf env fs.fh a)) ∧
      s.Changed s' clienttab p fs (cgen, fsno) a hs := by
  set fs1 : Fhsync := { fs with mtime := (newTimes a).1, ctime := (newTimes a).2 } with hfs1
  set s1 : LeaseState := { s with fhsync := update s.fhsync p (some fs1) } with hs1
  have hlinked1 : s1.Linked := h.setFile hp rfl rfl
  have hp1 : s1.fhsync p = some fs1 := update_self p _ _
  have hready : s1.LoopReady clienttab p fs.fh (cgen, fsno) a fs1.leases := by
    refine ⟨hlinked1.leases_nodup hp1, fun x hx => ?_, fun fs' hfs' => ?_⟩
    · obtain ⟨le, hle, hfhs⟩ := (hlinked1.mem_leases hp1 x).mp hx
      exact ⟨le, hle, hfhs, hcb (holder le) ⟨x, le, hle, hfhs, rfl⟩⟩
    · rw [← some.inj (hp1.symm.trans hfs')]
  obtain ⟨s', hloop, htrim⟩ := invalidateLoop_spec env cgen fsno (n := 0) hlinked1 hready
  have hheld1 : s1.HeldBut fun _ => False := by
    intro q fs' hfs' hq
    have hne : fs.leases ≠ [] := hheld hp id
    rcases update_fhsync_iff.mp hfs' with ⟨rfl, rfl⟩ | ⟨-, hfs'⟩
    · exact hne
    · exact hheld hfs' hq
  have hheld' : s'.HeldBut fun _ => False := htrim.held hheld1
  refine ⟨s', calledOf clienttab (cgen, fsno) a s1 fs1.leases, hloop, htrim.linked,
    htrim.timer hlinked1 htimer, hheld', nodup_calledOf hlinked1 hready,
    fun k => mem_calledOf hlinked1 hp1, fun q k => ?_, fun fs' hfs' => ?_,
    fun q fs' hq hfs' => ?_⟩
  · constructor
    · rintro ⟨x, le, hle, rfl, rfl⟩
      obtain ⟨hle, hgone⟩ := htrim.lease_iff.mp hle
      refine ⟨⟨x, le, hle, rfl, rfl⟩, fun hlost => hgone ⟨?_, le, hle, hlost.2⟩⟩
      exact (hlinked1.mem_leases hp1 x).mpr ⟨le, hle, hlost.1⟩
    · rintro ⟨⟨x, le, hle, rfl, rfl⟩, hkept⟩
      refine ⟨x, le, htrim.lease_iff.mpr ⟨hle, ?_⟩, rfl, rfl⟩
      rintro ⟨hx, le', hle', hlost⟩
      obtain rfl := some.inj (hle'.symm.trans hle)
      obtain ⟨le'', hle'', hfhs⟩ := (hlinked1.mem_leases hp1 x).mp hx
      obtain rfl := some.inj (hle''.symm.trans hle)
      exact hkept ⟨hfhs, hlost⟩
  · obtain ⟨fs0, hfs0, hsame⟩ := htrim.file hfs'
    obtain rfl := some.inj (hp1.symm.trans hfs0)
    exact ⟨hsame.1, by rw [hsame.2.1, hsame.2.2]⟩
  · obtain ⟨fs0, hfs0, hsame⟩ := htrim.file hfs'
    rcases update_fhsync_iff.mp hfs0 with ⟨hqp, -⟩ | ⟨-, hfs0⟩
    · exact absurd hqp hq
    · exact ⟨fs0, hfs0, hsame⟩

end LeaseState

end SelfCertifyingFS.Nfs
