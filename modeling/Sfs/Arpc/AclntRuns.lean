import Sfs.Arpc.Aclnt

/-!
# Every call ends once

The frames on the stack point to calls: the loop of `fail` to the call it takes
next, a `dispatch` to the call it has a reply for. If no operation ends such a
call, the queues and the table of numbers hold the same calls, the frames point to
calls that exist, and a callback runs at most once, not after its call has been
cancelled, and with success only for a reply.
-/

namespace SelfCertifyingFS.Arpc

open Foundations List Function Aclnts
open Run (start)

def Frame.holds : Frame → List CallBase
  | .failFrom _ (some k) | .finish k _ | .rawReplied k | .rawEnd k => [k]
  | _ => []

/-- Calls whose callback has run although they exist. -/
def Frame.spends : Frame → List CallBase
  | .rawReplied k | .rawEnd k => [k]
  | _ => []

/-- Calls that have a number but are not in the tables yet. -/
def Frame.pends : Frame → List CallBase
  | .alloc k => [k]
  | _ => []

variable (fs : List Frame)

def heldBy : List CallBase := fs.flatMap Frame.holds

def spentBy : List CallBase := fs.flatMap Frame.spends

def pendingIn : List CallBase := fs.flatMap Frame.pends

def Frame.fails : Frame → Prop
  | .fail _ | .failFrom _ _ => True
  | _ => False

/-- Nothing is held below a loop of `fail`. -/
def FailsLast : List Frame → Prop
  | [] => True
  | f :: fs => (f.fails → heldBy fs = []) ∧ FailsLast fs

theorem heldBy_append_fail (clist : List ℕ) (fs : List Frame) :
    heldBy (clist.map .fail ++ fs) = heldBy fs := by
  induction clist with
  | nil => rfl
  | cons c clist ih => exact ih

section Logs

def CallEvent.ranId : CallEvent → Option ℕ
  | .ran k _ => some k.id
  | _ => none

def ranIds (log : List CallEvent) : List ℕ := log.filterMap CallEvent.ranId

variable (conf : XprtConf)

/-- A packet with the number of the call has come from where it may come, after the call was
made. -/
def Answered (log : List CallEvent) (k : CallBase) : Prop :=
  ∃ mid msg src before, log = mid ++ .packet msg src :: before ∧ .issued k ∈ before ∧
    getxid msg = k.xid ∧ conf.checksrc k src = true

/-- What must be true when a callback runs. -/
structure RanOk (log : List CallEvent) (k : CallBase) (stat : ClntStat) : Prop where
  first : k.id ∉ ranIds log
  uncancelled : .cancelled k ∉ log
  answered : stat = .success → Answered conf log k

def LogOk : List CallEvent → Prop
  | [] => True
  | .ran k stat :: log => RanOk conf log k stat ∧ LogOk log
  | _ :: log => LogOk log

variable {conf}

theorem Answered.cons {log : List CallEvent} {k : CallBase} (h : Answered conf log k)
    (e : CallEvent) : Answered conf (e :: log) k := by
  obtain ⟨mid, msg, src, before, rfl, hrest⟩ := h
  exact ⟨e :: mid, msg, src, before, rfl, hrest⟩

theorem LogOk.ran_of_append {later earlier : List CallEvent} {k : CallBase} {stat : ClntStat}
    (h : LogOk conf (later ++ .ran k stat :: earlier)) : RanOk conf earlier k stat := by
  induction later with
  | nil => exact h.1
  | cons e later ih =>
    cases e with
    | ran k' stat' => exact ih h.2
    | _ => exact ih h

end Logs

namespace Aclnts

section Tables

variable {s : Aclnts} {k : CallBase}

theorem mem_of_lookup {xid : UInt32} (h : s.lookup xid = some k) : k ∈ s.xidtab ∧ k.xid = xid :=
  ⟨List.mem_of_find?_eq_some h, by simpa using List.find?_some h⟩

theorem lookup_of_mem (hxids : (s.xidtab.map CallBase.xid).Nodup) (hk : k ∈ s.xidtab) :
    s.lookup k.xid = some k := by
  cases hj : s.lookup k.xid with
  | none => simpa using List.find?_eq_none.mp hj k hk
  | some j =>
    obtain ⟨hmem, hxid⟩ := mem_of_lookup hj
    rw [inj_on_of_nodup_map hxids hmem hk hxid]

theorem xid_of_genxid {draws : List UInt32} {xid : UInt32} (h : s.genxid draws = some xid) :
    xid ∉ s.xidtab.map CallBase.xid ∧ xid ≠ 0 := by
  obtain ⟨hnone, hzero⟩ : s.lookup xid = none ∧ xid ≠ 0 := by
    simpa using List.find?_some h
  refine ⟨?_, hzero⟩
  rintro hmem
  obtain ⟨j, hj, rfl⟩ := mem_map.mp hmem
  simpa using List.find?_eq_none.mp hnone j hj

theorem nextCall_mem {l : List CallBase} (hl : l.Nodup) {j : CallBase}
    (h : nextCall k l = some j) : j ∈ l ∧ j ≠ k := by
  induction l with
  | nil => simp [nextCall] at h
  | cons i is ih =>
    obtain ⟨hi, his⟩ := nodup_cons.mp hl
    rw [nextCall] at h
    split at h
    · rename_i hik
      subst hik
      have hj := List.mem_of_mem_head? h
      exact ⟨mem_cons_of_mem _ hj, fun hji => hi (hji ▸ hj)⟩
    · obtain ⟨hj, hjk⟩ := ih his h
      exact ⟨mem_cons_of_mem _ hj, hjk⟩

theorem mem_calls_insert (c : ℕ) (j : CallBase) :
    j ∈ (s.insert k).calls c ↔ j ∈ s.calls c ∨ (j = k ∧ k.client = c) := by
  by_cases hc : c = k.client
  · subst hc
    simp [Aclnts.insert]
  · simp [Aclnts.insert, update_of_ne hc, Ne.symm hc]

theorem mem_calls_delete (hnd : ∀ c, (s.calls c).Nodup) (c : ℕ) (j : CallBase) :
    j ∈ (s.delete k).calls c ↔ j ∈ s.calls c ∧ ¬ (j = k ∧ k.client = c) := by
  by_cases hc : c = k.client
  · subst hc
    simp [Aclnts.delete, (hnd _).mem_erase_iff, and_comm]
  · simp [Aclnts.delete, update_of_ne hc, Ne.symm hc]

end Tables

/-- The tables agree, the frames point to calls that exist, and the log is in order. The frames
are those still to be done, the next one first. -/
structure Inv (conf : XprtConf) (s : Aclnts) (fs : List Frame) : Prop where
  running : s.halted = false
  mem_calls : ∀ c k, k ∈ s.calls c ↔ k ∈ s.xidtab ∧ k.client = c
  nodup_calls : ∀ c, (s.calls c).Nodup
  ids : ((s.xidtab ++ pendingIn fs).map CallBase.id).Nodup
  xids : ((s.xidtab ++ pendingIn fs).map CallBase.xid).Nodup
  nonzero : ∀ k ∈ s.xidtab ++ pendingIn fs, k.xid ≠ 0
  known : ∀ k ∈ s.xidtab ++ pendingIn fs, k.id < s.fresh
  held : ∀ k ∈ heldBy fs, k ∈ s.xidtab
  heldOnce : (heldBy fs).Nodup
  failsLast : FailsLast fs
  loops : ∀ c k, .failFrom c (some k) ∈ fs → k.client = c
  unrun : ∀ k ∈ s.xidtab ++ pendingIn fs, k ∉ spentBy fs → k.id ∉ ranIds s.log
  uncancelled : ∀ k ∈ s.xidtab ++ pendingIn fs, .cancelled k ∉ s.log
  issued : ∀ k ∈ s.xidtab, .issued k ∈ s.log
  ranKnown : ∀ i ∈ ranIds s.log, i < s.fresh
  cancelledKnown : ∀ k, .cancelled k ∈ s.log → k.id < s.fresh
  answered : ∀ k, .finish k .success ∈ fs → Answered conf s.log k
  logOk : LogOk conf s.log

namespace Inv

variable {conf : XprtConf} {s : Aclnts} {fs : List Frame} {k : CallBase}

theorem live (h : Inv conf s fs) : k ∈ s.calls k.client ↔ k ∈ s.xidtab := by
  simp [h.mem_calls]

theorem new (conf : XprtConf) : Inv conf .new [] where
  running := rfl
  mem_calls := by simp [Aclnts.new]
  nodup_calls := by simp [Aclnts.new]
  ids := by simp [Aclnts.new, pendingIn]
  xids := by simp [Aclnts.new, pendingIn]
  nonzero := by simp [Aclnts.new, pendingIn]
  known := by simp [Aclnts.new, pendingIn]
  held := by simp [heldBy]
  heldOnce := by simp [heldBy]
  failsLast := trivial
  loops := by simp
  unrun := by simp [Aclnts.new, pendingIn]
  uncancelled := by simp [Aclnts.new]
  issued := by simp [Aclnts.new]
  ranKnown := by simp [Aclnts.new, ranIds]
  cancelledKnown := by simp [Aclnts.new]
  answered := by simp
  logOk := trivial

theorem note_packet (h : Inv conf s fs) (msg : Bytes) (src : Option Sockaddr) :
    Inv conf (s.note (.packet msg src)) fs :=
  { h with
    uncancelled := fun k hk => by simpa [note] using h.uncancelled k hk
    issued := fun k hk => mem_cons_of_mem _ (h.issued k hk)
    cancelledKnown := fun k hk => h.cancelledKnown k (by simpa [note] using hk)
    answered := fun k hk => (h.answered k hk).cons _ }

theorem insert (h : Inv conf s (.alloc k :: fs)) : Inv conf (s.insert k) fs := by
  have hperm : (s.xidtab ++ pendingIn (.alloc k :: fs)).Perm (k :: s.xidtab ++ pendingIn fs) :=
    perm_middle
  have hids := (hperm.map CallBase.id).nodup_iff.mp h.ids
  have hnew : k ∉ s.xidtab := by
    intro hk
    rw [cons_append, map_cons, nodup_cons] at hids
    exact hids.1 (mem_map_of_mem (mem_append_left _ hk))
  exact { h with
    mem_calls := by
      intro c j
      have hmem : j ∈ (s.insert k).xidtab ↔ j = k ∨ j ∈ s.xidtab := mem_cons
      rw [mem_calls_insert, h.mem_calls, hmem]
      constructor
      · rintro (⟨hj, hc⟩ | ⟨rfl, hc⟩)
        · exact ⟨.inr hj, hc⟩
        · exact ⟨.inl rfl, hc⟩
      · rintro ⟨rfl | hj, hc⟩
        · exact .inr ⟨rfl, hc⟩
        · exact .inl ⟨hj, hc⟩
    nodup_calls := by
      intro c
      by_cases hc : c = k.client
      · subst hc
        have hk : k ∉ s.calls k.client := fun hk => hnew (h.live.mp hk)
        have happ : (s.calls k.client ++ [k]).Nodup := by
          rw [← concat_eq_append]
          exact (h.nodup_calls _).concat hk
        simpa [Aclnts.insert] using happ
      · simpa [Aclnts.insert, update_of_ne hc] using h.nodup_calls c
    ids := hids
    xids := (hperm.map CallBase.xid).nodup_iff.mp h.xids
    nonzero := fun j hj => h.nonzero j (hperm.mem_iff.mpr hj)
    known := fun j hj => h.known j (hperm.mem_iff.mpr hj)
    held := fun j hj => mem_cons_of_mem _ (h.held j hj)
    failsLast := h.failsLast.2
    loops := fun c j hj => h.loops c j (mem_cons_of_mem _ hj)
    unrun := fun j hj hspent => h.unrun j (hperm.mem_iff.mpr hj) hspent
    uncancelled := fun j hj => by
      simpa [Aclnts.insert] using h.uncancelled j (hperm.mem_iff.mpr hj)
    issued := by
      intro j hj
      rcases mem_cons.mp hj with rfl | hj
      · exact mem_cons_self
      · exact mem_cons_of_mem _ (h.issued j hj)
    cancelledKnown := fun j hj => h.cancelledKnown j (by simpa [Aclnts.insert] using hj)
    answered := fun j hj => (h.answered j (mem_cons_of_mem _ hj)).cons _
    logOk := h.logOk }

theorem spent_held (hk : k ∈ spentBy fs) : k ∈ heldBy fs := by
  obtain ⟨f, hf, hkf⟩ := mem_flatMap.mp hk
  refine mem_flatMap.mpr ⟨f, hf, ?_⟩
  cases f <;> simp_all [Frame.spends, Frame.holds]

section

variable (h : Inv conf s fs)

include h

/-- A frame that keeps no call pending, and holds calls that exist and no other holds. -/
theorem push {f : Frame} (hpends : f.pends = []) (hheld : ∀ j ∈ f.holds, j ∈ s.xidtab)
    (honce : (f.holds ++ heldBy fs).Nodup) (hfails : f.fails → heldBy fs = [])
    (hloop : ∀ c j, f = .failFrom c (some j) → j.client = c)
    (hans : ∀ j, f = .finish j .success → Answered conf s.log j) : Inv conf s (f :: fs) := by
  have hpending : pendingIn (f :: fs) = pendingIn fs := by simp [pendingIn, hpends]
  exact { h with
    ids := hpending.symm ▸ h.ids
    xids := hpending.symm ▸ h.xids
    nonzero := hpending.symm ▸ h.nonzero
    known := hpending.symm ▸ h.known
    held := fun j hj => (mem_append.mp hj).elim (hheld j) (h.held j)
    heldOnce := honce
    failsLast := ⟨hfails, h.failsLast⟩
    loops := fun c j hj => (mem_cons.mp hj).elim (fun heq => hloop c j heq.symm) (h.loops c j)
    unrun := by
      rw [hpending]
      exact fun j hj hspent => h.unrun j hj fun hj => hspent (mem_append_right _ hj)
    uncancelled := hpending.symm ▸ h.uncancelled
    answered := fun j hj => (mem_cons.mp hj).elim (fun heq => hans j heq.symm) (h.answered j)
    logOk := h.logOk }

theorem rawEnd (hk : k ∈ s.xidtab) (hfree : k ∉ heldBy fs) : Inv conf s (.rawEnd k :: fs) :=
  h.push rfl (by simpa [Frame.holds] using hk) (nodup_cons.mpr ⟨hfree, h.heldOnce⟩) False.elim
    (by simp) (by simp)

/-- A callback runs; its call still exists. -/
theorem ran (hk : k ∈ s.xidtab) (hfree : k ∉ heldBy fs) {stat : ClntStat}
    (hans : stat = .success → Answered conf s.log k) :
    Inv conf (s.note (.ran k stat)) (.rawEnd k :: fs) :=
  have hall := mem_append_left (pendingIn fs) hk
  have hunrun := h.unrun k hall fun hspent => hfree (spent_held hspent)
  { h.rawEnd hk hfree with
    unrun := by
      intro j hj hspent hran
      have hjk : j ≠ k := fun hjk => hspent (hjk ▸ mem_cons_self)
      rcases mem_cons.mp hran with hid | hran
      · exact hjk (inj_on_of_nodup_map h.ids hj hall hid)
      · exact h.unrun j hj (fun hj => hspent (mem_cons_of_mem _ hj)) hran
    uncancelled := fun j hj => by simpa [note] using h.uncancelled j hj
    issued := fun j hj => mem_cons_of_mem _ (h.issued j hj)
    ranKnown := by
      intro i hi
      rcases mem_cons.mp hi with rfl | hi
      · exact h.known k hall
      · exact h.ranKnown i hi
    cancelledKnown := fun j hj => h.cancelledKnown j (by simpa [note] using hj)
    answered := fun j hj => (h.answered j (by simpa using hj)).cons _
    logOk := ⟨⟨hunrun, h.uncancelled k hall, hans⟩, h.logOk⟩ }

theorem xidtab_delete (hk : k ∈ s.xidtab) :
    (s.delete k).xidtab = s.xidtab.erase k ∧
      ∀ j, j ∈ (s.delete k).xidtab ↔ j ≠ k ∧ j ∈ s.xidtab := by
  have hxids : (s.xidtab.map CallBase.xid).Nodup := by
    have hxids := h.xids
    rw [map_append] at hxids
    exact hxids.of_append_left
  have htab : (s.delete k).xidtab = s.xidtab.erase k := if_pos (lookup_of_mem hxids hk)
  refine ⟨htab, fun j => ?_⟩
  rw [htab]
  exact (hxids.of_map _).mem_erase_iff

theorem not_mem_delete (hk : k ∈ s.xidtab) : k ∉ (s.delete k).xidtab ++ pendingIn fs := by
  intro hmem
  rcases mem_append.mp hmem with hmem | hmem
  · exact (((h.xidtab_delete hk).2 k).mp hmem).1 rfl
  · have hids := h.ids
    rw [map_append] at hids
    exact disjoint_of_nodup_append hids (mem_map_of_mem hk) (mem_map_of_mem hmem)

end

theorem delete (h : Inv conf s (.rawEnd k :: fs)) : Inv conf (s.delete k) fs := by
  have hk : k ∈ s.xidtab := h.held k mem_cons_self
  have hfree : k ∉ heldBy fs := (nodup_cons.mp h.heldOnce).1
  obtain ⟨htab, hmem⟩ := h.xidtab_delete hk
  have hsub : ((s.delete k).xidtab ++ pendingIn fs).Sublist (s.xidtab ++ pendingIn fs) := by
    rw [htab]
    exact List.erase_sublist.append_right _
  exact { h with
    mem_calls := by
      intro c j
      rw [mem_calls_delete h.nodup_calls, h.mem_calls, hmem]
      constructor
      · rintro ⟨⟨hj, rfl⟩, hjk⟩
        exact ⟨⟨fun hjk' => hjk ⟨hjk', hjk' ▸ rfl⟩, hj⟩, rfl⟩
      · rintro ⟨⟨hjk, hj⟩, hc⟩
        exact ⟨⟨hj, hc⟩, fun hjk' => hjk hjk'.1⟩
    nodup_calls := by
      intro c
      by_cases hc : c = k.client
      · subst hc
        simpa [Aclnts.delete] using (h.nodup_calls _).erase k
      · simpa [Aclnts.delete, update_of_ne hc] using h.nodup_calls c
    ids := h.ids.sublist (hsub.map _)
    xids := h.xids.sublist (hsub.map _)
    nonzero := fun j hj => h.nonzero j (hsub.mem hj)
    known := fun j hj => h.known j (hsub.mem hj)
    held := by
      intro j hj
      exact (hmem j).mpr ⟨fun hjk => hfree (hjk ▸ hj), h.held j (mem_cons_of_mem _ hj)⟩
    heldOnce := (nodup_cons.mp h.heldOnce).2
    failsLast := h.failsLast.2
    loops := fun c j hj => h.loops c j (mem_cons_of_mem _ hj)
    unrun := by
      intro j hj hspent
      refine h.unrun j (hsub.mem hj) ?_
      intro hjs
      rcases mem_cons.mp hjs with rfl | hjs
      · exact h.not_mem_delete hk hj
      · exact hspent hjs
    uncancelled := fun j hj => h.uncancelled j (hsub.mem hj)
    issued := fun j hj => h.issued j ((hmem j).mp hj).2
    answered := fun j hj => h.answered j (mem_cons_of_mem _ hj)
    logOk := h.logOk }

theorem rawReplied_iff : Inv conf s (.rawReplied k :: fs) ↔ Inv conf s (.rawEnd k :: fs) := by
  constructor <;> intro h
  all_goals exact { h with
    failsLast := ⟨False.elim, h.failsLast.2⟩
    loops := fun c j hj => h.loops c j (by simpa using hj)
    answered := fun j hj => h.answered j (by simpa using hj) }

theorem cancelled (h : Inv conf s fs) (hk : k ∈ s.xidtab) (hfree : k ∉ heldBy fs) :
    Inv conf ((s.delete k).note (.cancelled k)) fs :=
  have hgone := (h.rawEnd hk hfree).delete
  { hgone with
    uncancelled := by
      intro j hj hmem
      rcases mem_cons.mp hmem with heq | hmem
      · obtain rfl : j = k := by simpa using heq
        exact h.not_mem_delete hk hj
      · exact hgone.uncancelled j hj hmem
    issued := fun j hj => mem_cons_of_mem _ (hgone.issued j hj)
    cancelledKnown := by
      intro j hj
      rcases mem_cons.mp hj with heq | hj
      · obtain rfl : j = k := by simpa using heq
        exact h.known j (mem_append_left _ hk)
      · exact hgone.cancelledKnown j hj
    answered := fun j hj => (hgone.answered j hj).cons _ }

/-- A frame that neither keeps a call pending nor marks it as spent can be dropped. -/
theorem pop {f : Frame} (h : Inv conf s (f :: fs)) (hpends : f.pends = [])
    (hspends : f.spends = []) : Inv conf s fs := by
  have hpending : pendingIn (f :: fs) = pendingIn fs := by simp [pendingIn, hpends]
  have hspent : spentBy (f :: fs) = spentBy fs := by simp [spentBy, hspends]
  have hheld : heldBy (f :: fs) = f.holds ++ heldBy fs := flatMap_cons
  exact { h with
    ids := hpending ▸ h.ids
    xids := hpending ▸ h.xids
    nonzero := hpending ▸ h.nonzero
    known := hpending ▸ h.known
    held := fun j hj => h.held j (hheld ▸ mem_append_right _ hj)
    heldOnce := (hheld ▸ h.heldOnce : (f.holds ++ heldBy fs).Nodup).of_append_right
    failsLast := h.failsLast.2
    loops := fun c j hj => h.loops c j (mem_cons_of_mem _ hj)
    unrun := hspent ▸ hpending ▸ h.unrun
    uncancelled := hpending ▸ h.uncancelled
    answered := fun j hj => h.answered j (mem_cons_of_mem _ hj)
    logOk := h.logOk }

section

variable (h : Inv conf s fs)

include h

/-- The loop of `fail` keeps a pointer to a call of its client. -/
theorem failFrom {c : ℕ} {nrb : Option CallBase} (hheld : heldBy fs = [])
    (hnrb : ∀ j ∈ nrb, j ∈ s.calls c) : Inv conf s (.failFrom c nrb :: fs) := by
  have hmem : ∀ j ∈ nrb, j ∈ s.xidtab ∧ j.client = c := fun j hj =>
    (h.mem_calls c j).mp (hnrb j hj)
  refine h.push rfl ?_ ?_ (fun _ => hheld) ?_ (by simp)
  · cases nrb with
    | none => simp [Frame.holds]
    | some i => simpa [Frame.holds] using (hmem i rfl).1
  · rw [hheld]
    cases nrb <;> simp [Frame.holds]
  · intro c' j heq
    obtain ⟨rfl, rfl⟩ := Frame.failFrom.inj heq
    exact (hmem j rfl).2

theorem fails (hheld : heldBy fs = []) (clist : List ℕ) : Inv conf s (clist.map .fail ++ fs) := by
  induction clist with
  | nil => exact h
  | cons c clist ih =>
    have hrest := (heldBy_append_fail clist fs).trans hheld
    exact ih.push rfl (by simp [Frame.holds]) ih.heldOnce (fun _ => hrest) (by simp) (by simp)

theorem bump : Inv conf { s with fresh := s.fresh + 1 } fs :=
  { h with
    known := fun j hj => Nat.lt_succ_of_lt (h.known j hj)
    ranKnown := fun i hi => Nat.lt_succ_of_lt (h.ranKnown i hi)
    cancelledKnown := fun j hj => Nat.lt_succ_of_lt (h.cancelledKnown j hj) }

theorem ran_new (hid : k.id = s.fresh) {stat : ClntStat} (hstat : stat ≠ .success) :
    Inv conf ({ s with fresh := s.fresh + 1 }.note (.ran k stat)) fs :=
  have hb := h.bump
  { hb with
    unrun := by
      intro j hj hspent hran
      rcases mem_cons.mp hran with hjk | hran
      · have hlt := h.known j hj
        omega
      · exact h.unrun j hj hspent hran
    uncancelled := fun j hj => by simpa [note] using h.uncancelled j hj
    issued := fun j hj => mem_cons_of_mem _ (h.issued j hj)
    ranKnown := by
      intro i hi
      rcases mem_cons.mp hi with rfl | hi
      · exact hid ▸ Nat.lt_succ_self _
      · exact hb.ranKnown i hi
    cancelledKnown := fun j hj => hb.cancelledKnown j (by simpa [note] using hj)
    answered := fun j hj => (h.answered j hj).cons _
    logOk := by
      refine ⟨⟨fun hran => ?_, fun hcan => ?_, fun hs => absurd hs hstat⟩, h.logOk⟩
      · exact absurd (h.ranKnown _ hran) (by omega)
      · exact absurd (h.cancelledKnown _ hcan) (by omega) }

theorem alloc (hid : k.id = s.fresh) {draws : List UInt32} (hxid : s.genxid draws = some k.xid)
    (hfree : k.xid ∉ (pendingIn fs).map CallBase.xid) :
    Inv conf { s with fresh := s.fresh + 1 } (.alloc k :: fs) := by
  have hperm : (s.xidtab ++ pendingIn (.alloc k :: fs)).Perm (k :: (s.xidtab ++ pendingIn fs)) :=
    perm_middle
  obtain ⟨hnew, hzero⟩ := xid_of_genxid hxid
  have hb := h.bump
  have hall : ∀ j ∈ s.xidtab ++ pendingIn (.alloc k :: fs), j = k ∨ j ∈ s.xidtab ++ pendingIn fs :=
    fun j hj => mem_cons.mp (hperm.mem_iff.mp hj)
  exact { hb with
    ids := by
      rw [(hperm.map CallBase.id).nodup_iff, map_cons, nodup_cons]
      refine ⟨fun hmem => ?_, h.ids⟩
      obtain ⟨j, hj, hjk⟩ := mem_map.mp hmem
      have hlt := h.known j hj
      omega
    xids := by
      rw [(hperm.map CallBase.xid).nodup_iff, map_cons, nodup_cons, map_append,
        mem_append, not_or, ← map_append]
      exact ⟨⟨hnew, hfree⟩, h.xids⟩
    nonzero := by
      intro j hj
      rcases hall j hj with rfl | hj
      · exact hzero
      · exact h.nonzero j hj
    known := by
      intro j hj
      rcases hall j hj with rfl | hj
      · exact hid ▸ Nat.lt_succ_self _
      · exact hb.known j hj
    failsLast := ⟨False.elim, h.failsLast⟩
    loops := fun c j hj => h.loops c j (by simpa using hj)
    unrun := by
      intro j hj hspent hran
      rcases hall j hj with rfl | hj
      · exact absurd (h.ranKnown _ hran) (by omega)
      · exact h.unrun j hj hspent hran
    uncancelled := by
      intro j hj hcan
      rcases hall j hj with rfl | hj
      · exact absurd (h.cancelledKnown _ hcan) (by omega)
      · exact h.uncancelled j hj hcan
    answered := fun j hj => h.answered j (by simpa using hj) }

end

end Inv

section Execution

variable {conf : XprtConf} {s : Aclnts} {k : CallBase}

theorem inv_finish {fs : List Frame} {stat : ClntStat}
    (h : Inv conf s (fs ++ s.stack.flatten)) (hk : k ∈ s.xidtab)
    (hfree : k ∉ heldBy (fs ++ s.stack.flatten))
    (hans : stat = .success → Answered conf s.log k) :
    Inv conf (s.finish k stat fs) (s.finish k stat fs).stack.flatten := by
  have hran := h.ran hk hfree hans
  rw [finish, if_pos (h.live.mpr hk)]
  cases hraw : k.raw with
  | true => exact { hran with }
  | false => exact { hran.delete with }

theorem inv_failLoop {c : ℕ} {rb : Option CallBase} {fs : List Frame} {ret : Aclnts → Aclnts}
    (h : Inv conf s (fs ++ s.stack.flatten)) (hheld : heldBy (fs ++ s.stack.flatten) = [])
    (hrb : ∀ k ∈ rb, k ∈ s.calls c)
    (hret : Inv conf (ret s) (ret s).stack.flatten) :
    Inv conf (s.failLoop c rb fs ret) (s.failLoop c rb fs ret).stack.flatten := by
  unfold failLoop
  cases rb with
  | none =>
    dsimp only
    split
    · exact { h with }
    · exact hret
  | some k =>
    have hk := hrb k rfl
    have hnext := fun j => nextCall_mem (k := k) (j := j) (h.nodup_calls c)
    have hloop : Inv conf s (.failFrom c (nextCall k (s.calls c)) :: fs ++ s.stack.flatten) :=
      h.failFrom hheld fun j hj => (hnext j hj).1
    refine inv_finish hloop ((h.mem_calls c k).mp hk).1 ?_ (by simp)
    intro hmem
    change k ∈ _ ++ heldBy (fs ++ s.stack.flatten) at hmem
    rw [hheld] at hmem
    cases hn : nextCall k (s.calls c) with
    | none => simp [hn, Frame.holds] at hmem
    | some j => exact (hnext j hn).2 (by simpa [hn, Frame.holds, eq_comm] using hmem)

theorem inv_exec (fs : List Frame) (h : Inv conf s (fs ++ s.stack.flatten)) :
    Inv conf (exec fs s) (exec fs s).stack.flatten := by
  induction fs generalizing s with
  | nil => exact h
  | cons f fs ih =>
    cases f with
    | alloc k => exact ih h.insert
    | fail c =>
      have hrest : Inv conf s (fs ++ s.stack.flatten) := h.pop rfl rfl
      exact inv_failLoop hrest (h.failsLast.1 trivial) (fun k hk => List.mem_of_mem_head? hk)
        (ih hrest)
    | failFrom c nrb =>
      have hrest : Inv conf s (fs ++ s.stack.flatten) := h.pop rfl rfl
      refine inv_failLoop hrest (h.failsLast.1 trivial) ?_ (ih hrest)
      rintro k rfl
      exact (h.mem_calls c k).mpr ⟨h.held k mem_cons_self, h.loops c k mem_cons_self⟩
    | finish k stat =>
      have hrest : Inv conf s (fs ++ s.stack.flatten) := h.pop rfl rfl
      refine inv_finish hrest (h.held k mem_cons_self) (nodup_cons.mp h.heldOnce).1 ?_
      rintro rfl
      exact h.answered k mem_cons_self
    | rawReplied k =>
      have hend := Inv.rawReplied_iff.mp h
      rw [exec, if_pos (h.live.mpr (h.held k mem_cons_self))]
      split
      · exact { hend with }
      · exact ih hend.delete
    | rawEnd k =>
      rw [exec, if_pos (h.live.mpr (h.held k mem_cons_self))]
      exact ih h.delete

theorem inv_seteof (h : Inv conf s s.stack.flatten)
    (hheld : conf.connected = true → heldBy s.stack.flatten = []) :
    Inv conf (s.seteof conf) (s.seteof conf).stack.flatten := by
  unfold seteof
  split
  · rename_i hconn
    have hfails := h.fails (hheld hconn) conf.clist
    exact inv_exec _ { hfails with }
  · exact h

theorem inv_dispatch {msg : Bytes} {src : Option Sockaddr} {log : List CallEvent}
    (hlog : s.log = .packet msg src :: log) (hissued : ∀ k ∈ s.xidtab, .issued k ∈ log)
    (h : Inv conf s s.stack.flatten)
    (hfree : ∀ k ∈ s.lookup (getxid msg), conf.checksrc k src = true → k ∉ heldBy s.stack.flatten) :
    Inv conf (s.dispatch conf msg src) (s.dispatch conf msg src).stack.flatten := by
  unfold dispatch
  split
  · exact h
  · rename_i rp hrp
    obtain ⟨hmem, hxid⟩ := mem_of_lookup hrp
    split
    · rename_i hsrc
      have hnot := hfree rp hrp hsrc
      have hans : Answered conf s.log rp :=
        ⟨[], msg, src, log, hlog, hissued rp hmem, hxid.symm, hsrc⟩
      split
      · have hran : Inv conf (s.note (.ran rp .success)) (.rawReplied rp :: s.stack.flatten) :=
          Inv.rawReplied_iff.mpr (h.ran hmem hnot fun _ => hans)
        exact { hran with }
      · dsimp only
        split
        · have hwait : Inv conf s (.finish rp (conf.decodemsg rp msg) :: s.stack.flatten) := by
            refine h.push rfl (by simpa [Frame.holds] using hmem)
              (nodup_cons.mpr ⟨hnot, h.heldOnce⟩) False.elim (by simp) ?_
            intro j hj
            obtain rfl : rp = j := (Frame.finish.inj hj).1
            exact hans
          exact { hwait with }
        · exact inv_finish h hmem hnot fun _ => hans
    · exact h

end Execution

section Steps

variable (conf : XprtConf)

/-- What the user, the peers and the random numbers must not do: end or answer a call that a
frame on the stack points to, end the transport while a frame points to a call, or draw a
number that a call waiting for its send hook has drawn. -/
def Sound (s : Aclnts) : CallOp → Prop
  | .call _ _ _ _ draws | .rawcall _ _ draws =>
      ∀ xid ∈ s.genxid draws, xid ∉ (pendingIn s.stack.flatten).map CallBase.xid
  | .cancel k | .expire k => k ∉ heldBy s.stack.flatten
  | .packet msg src =>
      if msgKind msg = .reply ∧ conf.clist ≠ [] then
        ∀ k ∈ s.lookup (getxid msg), conf.checksrc k src = true → k ∉ heldBy s.stack.flatten
      else if msgKind msg = .call ∧ conf.services = true then True
      else conf.connected = true → heldBy s.stack.flatten = []
  | .eof => conf.connected = true → heldBy s.stack.flatten = []
  | _ => True

instance decidableSound (s : Aclnts) : DecidablePred (s.Sound conf)
  -- named, since `UInt32` can also be enumerated
  | .call _ _ _ _ _ | .rawcall _ _ _ => Option.decidableForallMem _
  | .cancel _ | .expire _ => inferInstanceAs (Decidable (_ ∉ _))
  | .packet msg src => inferInstanceAs (Decidable (if msgKind msg = .reply ∧ conf.clist ≠ [] then
      ∀ k ∈ s.lookup (getxid msg), conf.checksrc k src = true → k ∉ heldBy s.stack.flatten
      else if msgKind msg = .call ∧ conf.services = true then True else _ → _))
  | .eof => inferInstanceAs (Decidable (_ → _))
  | .setHooks _ _ | .ret => inferInstanceAs (Decidable True)

variable {conf} {s : Aclnts}

section

variable (h : Inv conf s s.stack.flatten)

include h

theorem inv_call {c : ℕ} {dest : Option Sockaddr} {nullcb marshals : Bool} {draws : List UInt32}
    (hop : s.Sound conf (.call c dest nullcb marshals draws)) :
    Inv conf (s.call conf c dest nullcb marshals draws)
      (s.call conf c dest nullcb marshals draws).stack.flatten := by
  have hb := h.bump
  unfold call
  split
  · have hran : Inv conf (note (.ran ⟨s.fresh, c, 0, dest, false⟩ .cantSend) _) _ :=
      h.ran_new rfl (by simp)
    exact { hran with }
  split
  · have hran : Inv conf (note (.ran ⟨s.fresh, c, 0, dest, false⟩ .cantEncodeArgs) _) _ :=
      h.ran_new rfl (by simp)
    exact { hran with }
  split
  · split
    · exact { hb with }
    · exact { hb with }
  split
  · exact { hb with }
  · rename_i xid hxid
    have hnew := h.alloc (k := ⟨s.fresh, c, xid, dest, false⟩) rfl hxid (hop xid hxid)
    split
    · exact { hnew with }
    · exact inv_exec [_] { hnew with }

theorem inv_packet {msg : Bytes} {src : Option Sockaddr} (hop : s.Sound conf (.packet msg src)) :
    Inv conf (s.step conf (.packet msg src)).1 (s.step conf (.packet msg src)).1.stack.flatten := by
  have hnote := h.note_packet msg src
  unfold step
  rw [if_neg (by simp [h.running])]
  dsimp only
  split
  · exact h
  simp only [Sound] at hop
  cases hkind : msgKind msg with
  | call =>
    dsimp only
    split
    · exact hnote
    · rename_i hsvc
      rw [hkind, if_neg (by simp), if_neg (by simp [hsvc])] at hop
      exact inv_seteof hnote hop
  | reply =>
    dsimp only
    split
    · rename_i hclist
      rw [hkind, if_pos ⟨rfl, hclist⟩] at hop
      exact inv_dispatch rfl h.issued hnote hop
    · rename_i hclist
      rw [hkind, if_neg (by simp [hclist])] at hop
      exact inv_seteof hnote hop
  | bad =>
    rw [hkind] at hop
    exact inv_seteof hnote hop

theorem inv_step (op : CallOp) (hop : s.Sound conf op) :
    Inv conf (s.step conf op).1 (s.step conf op).1.stack.flatten := by
  cases op with
  | packet msg src => exact inv_packet h hop
  | call c dest nullcb marshals draws =>
    rw [step, if_neg (by simp [h.running])]
    exact inv_call h hop
  | rawcall c dest draws =>
    rw [step, if_neg (by simp [h.running])]
    dsimp only [rawcall]
    split
    · exact h
    · rename_i xid hxid
      have hnew : Inv conf { s with fresh := s.fresh + 1 }
          (.alloc ⟨s.fresh, c, xid, dest, true⟩ :: s.stack.flatten) :=
        h.alloc rfl hxid (hop xid hxid)
      exact hnew.insert
  | cancel k =>
    rw [step, if_neg (by simp [h.running])]
    split
    · rename_i hk
      exact h.cancelled (h.live.mp hk) hop
    · exact h
  | expire k =>
    rw [step, if_neg (by simp [h.running])]
    split
    · rename_i hk
      exact inv_finish h (h.live.mp hk) hop (by simp)
    · exact h
  | eof =>
    rw [step, if_neg (by simp [h.running])]
    split
    · exact h
    · exact inv_seteof h hop
  | setHooks c hooks =>
    rw [step, if_neg (by simp [h.running])]
    exact { h with }
  | ret =>
    rw [step, if_neg (by simp [h.running])]
    split
    · exact h
    · rename_i fs stack hstack
      rw [hstack] at h
      exact inv_exec fs { h with }

end

end Steps

end Aclnts

/-- Calls end once: whenever a callback runs it has not run before, its call has not been
cancelled, and success means a reply with the number of the call. Outstanding calls have
numbers of their own, and none is zero. -/
theorem calls_end_once (conf : XprtConf) (ops : List CallOp)
    (h : Run.Guarded (step conf) (fun r op => r.state.Sound conf op)
      (start Aclnts.new) ops) :
    (∀ later k stat earlier,
      ((start Aclnts.new).take (step conf) ops).state.log =
        later ++ .ran k stat :: earlier →
      k.id ∉ ranIds earlier ∧ .cancelled k ∉ earlier ∧
        (stat = .success → Answered conf earlier k)) ∧
    ∀ c c', ∀ k ∈ ((start Aclnts.new).take (step conf) ops).state.calls c,
      ∀ k' ∈ ((start Aclnts.new).take (step conf) ops).state.calls c',
        k.xid ≠ 0 ∧ (k.xid = k'.xid → k = k') := by
  have hinv : Aclnts.Inv conf ((start Aclnts.new).take (step conf) ops).state
      ((start Aclnts.new).take (step conf) ops).state.stack.flatten := by
    have hstep : ∀ (r : Run Aclnts CallOp Unit) op,
        Aclnts.Inv conf r.state r.state.stack.flatten → r.state.Sound conf op →
          Aclnts.Inv conf (r.next (step conf) op).state
            (r.next (step conf) op).state.stack.flatten :=
      fun r op hr hop => inv_step hr op hop
    exact Run.invariant_take (Aclnts.Inv.new conf) hstep h
  constructor
  · intro later k stat earlier hlog
    have hlogOk := hinv.logOk
    rw [hlog] at hlogOk
    obtain ⟨hfirst, hcan, hans⟩ := hlogOk.ran_of_append
    exact ⟨hfirst, hcan, hans⟩
  · intro c c' k hk k' hk'
    have hmem := ((hinv.mem_calls c k).mp hk).1
    have hmem' := ((hinv.mem_calls c' k').mp hk').1
    exact ⟨hinv.nonzero k (mem_append_left _ hmem), inj_on_of_nodup_map hinv.xids
      (mem_append_left _ hmem) (mem_append_left _ hmem')⟩

/-- A transport with one client whose replies all decode. -/
def oneClient : XprtConf where
  connected := true
  reliable := true
  socksize := 16
  clist := [0]
  services := false
  decodemsg := fun _ _ => .success

/-- A call that is answered, one that is cancelled, and one that the end of the transport ends
while a reply comes too late. -/
theorem calls_end_once_three :
    Answered oneClient
      [.packet [0, 0, 0, 7, 0, 0, 0, 1] none, .issued ⟨0, 0, 7, none, false⟩]
      ⟨0, 0, 7, none, false⟩ :=
  ((calls_end_once oneClient
    [.call 0 none false true [0, 7], .packet [0, 0, 0, 7, 0, 0, 0, 1] none, .ret,
      .call 0 none false true [8], .cancel ⟨1, 0, 8, none, false⟩,
      .call 0 none false true [9], .eof, .packet [0, 0, 0, 9, 0, 0, 0, 1] none, .ret]
    ⟨by decide, by decide, by decide, by decide, by decide, by decide, by decide, by decide,
      by decide, trivial⟩).1
    [.ran ⟨2, 0, 9, none, false⟩ .cantRecv, .issued ⟨2, 0, 9, none, false⟩,
      .cancelled ⟨1, 0, 8, none, false⟩, .issued ⟨1, 0, 8, none, false⟩]
    _ .success _ (by decide)).2.2 rfl

/-- The first of two calls is ended by the end of the transport, and its callback cancels the
second: the loop of `fail` has read the pointer to the second already. And a call made by the
send hook of another can draw its number. -/
theorem cancelled_call_finished :
    ((start Aclnts.new).take (step oneClient)
      [.call 0 none false true [7], .call 0 none false true [8], .eof,
        .cancel ⟨1, 0, 8, none, false⟩, .ret]).state.log =
      [.ran ⟨1, 0, 8, none, false⟩ .cantRecv, .cancelled ⟨1, 0, 8, none, false⟩,
        .ran ⟨0, 0, 7, none, false⟩ .cantRecv, .issued ⟨1, 0, 8, none, false⟩,
        .issued ⟨0, 0, 7, none, false⟩] ∧
    ((start Aclnts.new).take (step oneClient)
      [.setHooks 0 ⟨true, false, false⟩, .call 0 none false true [7],
        .setHooks 0 ⟨false, false, false⟩, .call 0 none false true [7], .ret]).state.calls 0 =
      [⟨1, 0, 7, none, false⟩, ⟨0, 0, 7, none, false⟩] := by
  decide

/-- The loop of `fail` over the calls of a client: the queue, the call that it takes next, the
calls whose callbacks have run, and those that callbacks have cancelled. -/
structure Failing where
  calls : List CallBase
  rb : Option CallBase
  ran : List CallBase
  cancelled : List CallBase
  deriving DecidableEq

namespace Failing

/-- One turn, with the calls that the callback cancels and those that it makes. A process that
uses a call that is gone stops. -/
def turn (s : Option Failing) (w : List CallBase × List CallBase) : Option Failing × Unit :=
  (s.bind fun t =>
    match t.rb with
    | none => some t
    | some rb =>
        if rb ∈ t.calls then
          let rest := t.calls.erase rb
          let made := w.2.filter (· ∉ t.ran ++ t.cancelled ++ t.calls)
          some ⟨rest.filter (· ∉ w.1) ++ made, nextCall rb t.calls, rb :: t.ran,
            rest.filter (· ∈ w.1) ++ t.cancelled⟩
        else none, ())

/-- The loop goes on with the first call of the queue; of the calls it has found, each has been
finished once, or been cancelled, or is waiting, and none is when it ends and tells the end. -/
structure Right (found : List CallBase) (t : Failing) : Prop where
  next : ∀ k ∈ t.rb, t.calls.head? = some k
  once : ∀ k ∈ found, (t.ran ++ t.cancelled ++ t.calls).count k = 1
  all : t.rb = none → ∀ k ∈ found, k ∉ t.calls

theorem right_turn_iff {found : List CallBase} {t : Failing} (h : t.Right found)
    (w : List CallBase × List CallBase) :
    (∃ t' ∈ (turn (some t) w).1, t'.Right found) ↔
      ∀ rb ∈ t.rb, ∀ k ∈ nextCall rb t.calls, k ∉ w.1 := by
  obtain ⟨calls, rb, ran, cancelled⟩ := t
  obtain ⟨hnext, honce, hall⟩ := h
  cases rb with
  | none => simpa [turn] using ⟨hnext, honce, hall⟩
  | some rb =>
    obtain ⟨rest, rfl⟩ : ∃ rest, calls = rb :: rest := head?_eq_some_iff.mp (hnext rb rfl)
    have hmade : ∀ k ∈ found, k ∉ w.2.filter (· ∉ ran ++ cancelled ++ rb :: rest) := by
      intro k hk hmem
      have hin : k ∈ ran ++ cancelled ++ rb :: rest := count_pos_iff.mp (by rw [honce k hk]; decide)
      simp_all
    have hturn : (turn (some ⟨rb :: rest, some rb, ran, cancelled⟩) w).1 =
        some ⟨rest.filter (· ∉ w.1) ++ w.2.filter (· ∉ ran ++ cancelled ++ rb :: rest), rest.head?,
          rb :: ran, rest.filter (· ∈ w.1) ++ cancelled⟩ := by
      simp [turn, nextCall]
    rw [hturn]
    constructor
    · rintro ⟨t', ht', hright⟩ rb' hrb k hk hcancel
      cases ht'
      cases hrb
      have hhead : k ∈ rest.head? := by simpa [nextCall] using hk
      have hin := mem_of_mem_head? (hright.next k hhead)
      have hrest := mem_of_mem_head? hhead
      simp_all
    · intro hguard
      have hfirst : ∀ k ∈ rest.head?, k ∉ w.1 := by simpa [nextCall] using hguard
      refine ⟨_, rfl, fun k hk => ?_, fun k hk => ?_, fun hnil k hk => ?_⟩
      · obtain ⟨rest, rfl⟩ := head?_eq_some_iff.mp hk
        simp [hfirst k rfl]
      · have hsplit := (filter_append_perm (· ∈ w.1) rest).count_eq k
        have hzero := count_eq_zero_of_not_mem (hmade k hk)
        have hone := honce k hk
        simp only [count_append, count_cons, decide_not] at *
        omega
      · obtain rfl := head?_eq_none_iff.mp hnil
        exact hmade k hk

end Failing

end SelfCertifyingFS.Arpc
