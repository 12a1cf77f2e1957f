import Sfs.Nfs.AttrCache

/-!
# What the attribute cache may answer

The history of calls determines what the server has said last: the attributes
of each file, each permission bit of each user since the file last changed
owner or mode and since the last flush, and the time of last use of each entry.
The cache is compared with this history along whole runs.
-/

namespace SelfCertifyingFS.Nfs

open Foundations List Function BitVec
open Option (some.injEq)

variable {κ φ α : Type*} [DecidableEq κ] [DecidableEq φ]

/-- The calls made so far and their results, newest first. -/
abbrev CacheHistory (κ φ α : Type*) := List (CacheOp κ φ α × CacheRes)

/-- The last entry of attributes for a file: nothing after a null entry, which
invalidates them, or after a flush. -/
def lastEntered (k : κ × φ) : CacheHistory κ φ α → Option Fattr3exp
  | [] => none
  | (.attrEnter c fh a, _) :: h => if (c, fh) = k then a else lastEntered k h
  | (.flushAttr c, _) :: h => if c = k.1 then none else lastEntered k h
  | _ :: h => lastEntered k h

/-- The last attributes of a file that were ever entered. -/
def lastKnown (k : κ × φ) : CacheHistory κ φ α → Option Fattr3exp
  | [] => none
  | (.attrEnter c fh (some a), _) :: h => if (c, fh) = k then some a else lastKnown k h
  | _ :: h => lastKnown k h

/-- Entering these attributes changes the mode, the owner or the group. -/
def ChangesOwner (k : κ × φ) (a : Fattr3exp) (h : CacheHistory κ φ α) : Prop :=
  ∃ b ∈ lastKnown k h, ¬a.SameOwner b

instance (k : κ × φ) (a : Fattr3exp) (h : CacheHistory κ φ α) : Decidable (ChangesOwner k a h) :=
  inferInstanceAs (Decidable (∃ b ∈ lastKnown k h, ¬a.SameOwner b))

/-- The last answer of the server on one permission bit of one user, since the
last change of owner or mode and since the last flush. -/
def lastReport [DecidableEq α] (k : κ × φ) (aid : α) (i : ℕ) : CacheHistory κ φ α → Option Bool
  | [] => none
  | (.accessEnter c fh aid' mask perm, _) :: h =>
      if (c, fh) = k ∧ aid' = aid ∧ mask.getLsbD i = true then some (perm.getLsbD i)
      else lastReport k aid i h
  | (.attrEnter c fh (some a), _) :: h =>
      if (c, fh) = k ∧ ChangesOwner k a h then none else lastReport k aid i h
  | (.flushAttr c, _) :: h => if c = k.1 then none else lastReport k aid i h
  | (.flushAccess c aid', _) :: h =>
      if c = k.1 ∧ aid' = aid then none else lastReport k aid i h
  | (.flushAccessFh c fh aid', _) :: h =>
      if (c, fh) = k ∧ aid' = aid then none else lastReport k aid i h
  | _ :: h => lastReport k aid i h

/-- The call makes use of the entry of a file, if it has one. -/
def Uses (k : κ × φ) : CacheOp κ φ α × CacheRes → Bool
  | (.attrEnter c fh (some _), _) | (.attrLookup c fh _, .attr (some _))
  | (.accessEnter c fh _ _ _, _) | (.accessLookup c fh _ _ _, .perm true _) => (c, fh) = k
  | _ => false

/-- The time of the last use of a file, counted in calls. -/
def lastUse (h : CacheHistory κ φ α) (k : κ × φ) : ℕ :=
  match h with
  | [] => 0
  | e :: h => if Uses k e then h.length + 1 else lastUse h k

theorem lastUse_le (h : CacheHistory κ φ α) (k : κ × φ) : lastUse h k ≤ h.length := by
  induction h with
  | nil => exact le_rfl
  | cons e h ih =>
    simp only [lastUse, length_cons]
    split_ifs <;> omega

variable [DecidableEq α]

/-- A call answers from what the server said last: attributes that are the last
ones entered and unexpired, permission bits that are the last ones reported. -/
def Answers (h : CacheHistory κ φ α) : CacheOp κ φ α → CacheRes → Prop
  | .attrLookup c fh timenow, .attr (some a) =>
      lastEntered (c, fh) h = some a ∧ timenow < a.expire.toNat
  | .accessLookup c fh aid mask timenow, .perm _ p =>
      mask.toNat < 2 ^ 31 → p = -1 ∨
        (∃ a, lastEntered (c, fh) h = some a ∧ timenow < a.expire.toNat) ∧ 0 ≤ p ∧
          ∀ i, mask.getLsbD i = true → lastReport (c, fh) aid i h = some (p.toNat.testBit i)
  | _, _ => True

def AttrCaches.keys (s : AttrCaches κ φ α) : List (κ × φ) := s.lrulist.map AttrDat.key

/-- The property of one call in a run: its answer is right, the entries stay
bounded, and an entry that is lost without a flush of its cache was used less
recently than every entry that stays. -/
structure CallCorrect (r : Run (AttrCaches κ φ α) (CacheOp κ φ α) CacheRes)
    (op : CacheOp κ φ α) : Prop where
  answers : Answers r.past op (r.state.step op).2
  bounded : (r.state.step op).1.lrulist.length ≤ maxAttrDat
  evicts : ∀ gone ∈ r.state.keys, gone ∉ (r.state.step op).1.keys →
    op ≠ .flushAttr gone.1 → ∀ kept ∈ (r.state.step op).1.keys,
      lastUse (r.next AttrCaches.step op).past gone < lastUse (r.next AttrCaches.step op).past kept

/-- A report does not withdraw a permission held in the cache, and does not speak
of a held permission that it was not asked for. -/
def AccessDat.Agrees (ac : AccessDat) (mask perm : BitVec 32) : Prop :=
  ac.perm &&& mask &&& ~~~perm = 0 ∧ ac.perm &&& ac.mask &&& perm &&& ~~~mask = 0

/-- The condition on a call in the state where it is made. -/
def ReportAgrees (r : Run (AttrCaches κ φ α) (CacheOp κ φ α) CacheRes) :
    CacheOp κ φ α → Prop
  | .accessEnter c fh aid mask perm =>
      ∀ ad ∈ r.state.lrulist, ad.key = (c, fh) → ∀ ac, ad.access aid = some ac → ac.Agrees mask perm
  | _ => True

/-! ## What a call does to an entry -/

/-- The entry after the call, or none if the call flushes it. -/
def CacheOp.effect (op : CacheOp κ φ α) (ad : AttrDat κ φ α) : Option (AttrDat κ φ α) :=
  match op with
  | .attrEnter c fh none => some (if ad.key = (c, fh) then ad.expireNow else ad)
  | .attrEnter c fh (some a) => some (if ad.key = (c, fh) then ad.set a else ad)
  | .accessEnter c fh aid mask perm =>
      some (if ad.key = (c, fh) then ad.enterAccess aid mask perm else ad)
  | .flushAttr c => if ad.cache = c then none else some ad
  | .flushAccess c aid => some (if ad.cache = c then ad.removeAccess aid else ad)
  | .flushAccessFh c fh aid => some (if ad.key = (c, fh) then ad.removeAccess aid else ad)
  | .attrLookup .. | .accessLookup .. => some ad

namespace AttrCaches

variable {s : AttrCaches κ φ α} {k : κ × φ}

omit [DecidableEq α] in
theorem key_ne_of_lookup_none (h : s.lookup k = none) : ∀ ad ∈ s.lrulist, ad.key ≠ k := by
  intro ad had
  simpa using List.find?_eq_none.mp h ad had

omit [DecidableEq α] in
theorem mem_of_lookup {ad : AttrDat κ φ α} (h : s.lookup k = some ad) :
    ad ∈ s.lrulist ∧ ad.key = k :=
  ⟨List.mem_of_find?_eq_some h, by simpa using List.find?_some h⟩

omit [DecidableEq α] in
@[simp] theorem mem_touch {ad : AttrDat κ φ α} : ad ∈ (s.touch k).lrulist ↔ ad ∈ s.lrulist := by
  by_cases h : ad.key = k <;> simp [touch, h]

omit [DecidableEq κ] [DecidableEq φ] [DecidableEq α] in
theorem evict_eq (l : List (AttrDat κ φ α)) :
    evict l l.length = ⟨l.drop (l.length - maxAttrDat), min l.length maxAttrDat⟩ := by
  induction l with
  | nil => simp [evict]
  | cons ad l ih =>
    simp only [evict, length_cons]
    split_ifs with h
    · have hdrop : l.length + 1 - maxAttrDat = (l.length - maxAttrDat) + 1 := by omega
      rw [Nat.add_sub_cancel, ih, hdrop, drop_succ_cons, Nat.min_eq_right (by omega),
        Nat.min_eq_right (by omega)]
    · have hdrop : l.length + 1 - maxAttrDat = 0 := by omega
      rw [hdrop, drop_zero, Nat.min_eq_left (by omega)]

omit [DecidableEq κ] [DecidableEq φ] [DecidableEq α] in
theorem lrulist_construct (hsize : s.numAttrDat = s.lrulist.length) (c : κ) (fh : φ)
    (a : Fattr3exp) :
    (s.construct c fh a).lrulist =
      (s.lrulist ++ [AttrDat.create c fh a]).drop (s.lrulist.length + 1 - maxAttrDat) := by
  have h := evict_eq (s.lrulist ++ [.create c fh a])
  rw [length_append, length_singleton] at h
  rw [construct, hsize, h]

def Fresh (op : CacheOp κ φ α) (ad : AttrDat κ φ α) : Prop :=
  ∃ c fh a, op = .attrEnter c fh (some a) ∧ ad = .create c fh a

/-- Every entry after a call was there before it, up to the call's effect, or
is created by it. -/
theorem mem_step (hsize : s.numAttrDat = s.lrulist.length) {op : CacheOp κ φ α}
    {ad' : AttrDat κ φ α} (h : ad' ∈ (s.step op).1.lrulist) :
    (∃ ad ∈ s.lrulist, op.effect ad = some ad') ∨ Fresh op ad' := by
  cases op with
  | attrEnter c fh a =>
    cases a with
    | none =>
      obtain ⟨ad, had, rfl⟩ := mem_map.mp h
      exact .inl ⟨ad, had, rfl⟩
    | some a =>
      simp only [step, attrEnter] at h
      cases hl : s.lookup (c, fh) with
      | none =>
        simp only [hl, lrulist_construct hsize] at h
        rcases mem_append.mp (mem_of_mem_drop h) with had | hnew
        · refine .inl ⟨ad', had, ?_⟩
          simp [CacheOp.effect, key_ne_of_lookup_none hl ad' had]
        · exact .inr ⟨c, fh, a, rfl, mem_singleton.mp hnew⟩
      | some ad0 =>
        simp only [hl, mem_touch] at h
        obtain ⟨ad, had, rfl⟩ := mem_map.mp h
        exact .inl ⟨ad, had, rfl⟩
  | attrLookup c fh timenow =>
    refine .inl ⟨ad', ?_, rfl⟩
    simp only [step, attrLookup] at h
    split at h
    · exact h
    · split_ifs at h
      · exact mem_touch.mp h
      · exact h
  | accessEnter c fh aid mask perm =>
    simp only [step, accessEnter] at h
    cases hl : s.lookup (c, fh) with
    | none =>
      simp only [hl] at h
      refine .inl ⟨ad', h, ?_⟩
      simp [CacheOp.effect, key_ne_of_lookup_none hl ad' h]
    | some ad0 =>
      simp only [hl, mem_touch] at h
      obtain ⟨ad, had, rfl⟩ := mem_map.mp h
      exact .inl ⟨ad, had, rfl⟩
  | accessLookup c fh aid mask timenow =>
    refine .inl ⟨ad', ?_, rfl⟩
    simp only [step, accessLookup] at h
    split at h
    · exact h
    · exact mem_touch.mp h
  | flushAttr c =>
    obtain ⟨had, hc⟩ := mem_filter.mp h
    exact .inl ⟨ad', had, by simpa [CacheOp.effect] using hc⟩
  | flushAccess c aid | flushAccessFh c fh aid =>
    obtain ⟨ad, had, rfl⟩ := mem_map.mp h
    exact .inl ⟨ad, had, rfl⟩

end AttrCaches

/-! ## Entries agree with the history -/

/-- What an entry says is what the history says. -/
structure EntryOk (h : CacheHistory κ φ α) (ad : AttrDat κ φ α) : Prop where
  known : ∃ a, lastKnown ad.key h = some a ∧ a.SameOwner ad.attr
  entered : lastEntered ad.key h = some ad.attr ∨ ad.attr.expire = 0
  reported : ∀ aid ac, ad.access aid = some ac → ∀ i, ac.mask.getLsbD i = true →
    lastReport ad.key aid i h = some (ac.perm.getLsbD i)

/-- On the bits it covers, merging a report that agrees is overwriting. -/
theorem merge_getLsbD {ac : AccessDat} {mask perm : BitVec 32} (h : ac.Agrees mask perm) {i : ℕ}
    (hi : (ac.merge mask perm).mask.getLsbD i = true) :
    (ac.merge mask perm).perm.getLsbD i =
      if mask.getLsbD i = true then perm.getLsbD i else ac.perm.getLsbD i := by
  have hlt : i < 32 := lt_of_getLsbD hi
  have hgrant := congrArg (fun w => w.getLsbD i) h.1
  have hother := congrArg (fun w => w.getLsbD i) h.2
  simp only [AccessDat.merge, getLsbD_or, getLsbD_and, getLsbD_not, hlt] at *
  revert hi hgrant hother
  cases mask.getLsbD i <;> cases perm.getLsbD i <;> cases ac.perm.getLsbD i <;>
    cases ac.mask.getLsbD i <;> simp

theorem EntryOk.create (h : CacheHistory κ φ α) (res : CacheRes) (c : κ) (fh : φ) (a : Fattr3exp) :
    EntryOk ((.attrEnter c fh (some a), res) :: h) (.create c fh a) where
  known := ⟨a, if_pos rfl, rfl, rfl, rfl⟩
  entered := .inl (if_pos rfl)
  reported := by
    intro aid ac hac
    cases hac

variable {h : CacheHistory κ φ α} {ad : AttrDat κ φ α}

section

variable (hok : EntryOk h ad)

include hok

/-- Setting attributes keeps the permissions only if the owner does not change. -/
theorem EntryOk.set (res : CacheRes) (a : Fattr3exp) :
    EntryOk ((.attrEnter ad.cache ad.fh (some a), res) :: h) (ad.set a) where
  known := ⟨a, by exact if_pos rfl, rfl, rfl, rfl⟩
  entered := .inl (by exact if_pos rfl)
  reported := by
    intro aid ac hac i hi
    obtain ⟨b, hb, hsame⟩ := hok.known
    by_cases ha : a.SameOwner ad.attr
    · have hkeep : ¬ChangesOwner ad.key a h := by
        rintro ⟨b', hb', hne⟩
        rw [hb, Option.mem_some_iff] at hb'
        subst hb'
        exact hne ⟨ha.1.trans hsame.1.symm, ha.2.1.trans hsame.2.1.symm,
          ha.2.2.trans hsame.2.2.symm⟩
      simp only [AttrDat.set, if_pos ha] at hac
      rw [lastReport, if_neg (fun hc => hkeep hc.2)]
      exact hok.reported aid ac hac i hi
    · simp [AttrDat.set, ha] at hac

theorem EntryOk.enterAccess (res : CacheRes) (aid : α) (mask perm : BitVec 32)
    (hagree : ∀ ac, ad.access aid = some ac → ac.Agrees mask perm) :
    EntryOk ((.accessEnter ad.cache ad.fh aid mask perm, res) :: h)
      (ad.enterAccess aid mask perm) where
  known := hok.known
  entered := hok.entered
  reported := by
    intro aid' ac' hac i hi
    rw [lastReport]
    by_cases haid : aid' = aid
    · subst haid
      simp only [AttrDat.enterAccess, update_self, some.injEq] at hac
      by_cases hbit : mask.getLsbD i = true
      · rw [if_pos ⟨rfl, rfl, hbit⟩]
        cases hheld : ad.access aid' with
        | none => rw [← hac, hheld]
        | some ac =>
          rw [hheld] at hac
          subst hac
          rw [merge_getLsbD (hagree ac hheld) hi, if_pos hbit]
      · rw [if_neg (fun hc => hbit hc.2.2)]
        cases hheld : ad.access aid' with
        | none =>
          rw [← hac, hheld] at hi
          exact absurd hi hbit
        | some ac =>
          rw [hheld] at hac
          subst hac
          rw [merge_getLsbD (hagree ac hheld) hi, if_neg hbit]
          have hmask : ac.mask.getLsbD i = true := by
            simpa [AccessDat.merge, hbit] using hi
          exact hok.reported aid' ac hheld i hmask
    · rw [if_neg (fun hc => haid hc.2.1.symm)]
      simp only [AttrDat.enterAccess, update_of_ne haid] at hac
      exact hok.reported aid' ac' hac i hi

variable {h' : CacheHistory κ φ α}

/-- Forgetting a user forgets nothing about the others. -/
theorem EntryOk.removeAccess (aid : α)
    (hknown : lastKnown ad.key h' = lastKnown ad.key h)
    (hentered : lastEntered ad.key h' = lastEntered ad.key h)
    (hreport : ∀ aid' i, aid' ≠ aid → lastReport ad.key aid' i h' = lastReport ad.key aid' i h) :
    EntryOk h' (ad.removeAccess aid) where
  known := hknown ▸ hok.known
  entered := by
    rw [key_removeAccess, hentered]
    exact hok.entered
  reported := by
    intro aid' ac hac i hi
    by_cases haid : aid' = aid
    · simp [AttrDat.removeAccess, haid] at hac
    · simp only [AttrDat.removeAccess, update_of_ne haid] at hac
      rw [key_removeAccess, hreport aid' i haid]
      exact hok.reported aid' ac hac i hi

theorem EntryOk.of_eq (hknown : lastKnown ad.key h' = lastKnown ad.key h)
    (hentered : lastEntered ad.key h' = lastEntered ad.key h)
    (hreport : ∀ aid i, lastReport ad.key aid i h' = lastReport ad.key aid i h) :
    EntryOk h' ad where
  known := hknown ▸ hok.known
  entered := hentered ▸ hok.entered
  reported := by
    intro aid ac hac i hi
    rw [hreport]
    exact hok.reported aid ac hac i hi

end

theorem EntryOk.effect {r : Run (AttrCaches κ φ α) (CacheOp κ φ α) CacheRes} {ad' : AttrDat κ φ α}
    {op : CacheOp κ φ α} (hok : EntryOk r.past ad) (hmem : ad ∈ r.state.lrulist)
    (hguard : ReportAgrees r op) (heff : op.effect ad = some ad') (res : CacheRes) :
    EntryOk ((op, res) :: r.past) ad' := by
  cases op with
  | attrEnter c fh a =>
    by_cases hk : ad.key = (c, fh)
    · obtain ⟨rfl, rfl⟩ := Prod.mk.inj hk
      cases a <;> simp only [CacheOp.effect, if_pos hk, some.injEq] at heff <;> subst heff
      · exact ⟨hok.known, .inr rfl, hok.reported⟩
      · exact hok.set res _
    · have hk' : (c, fh) ≠ ad.key := Ne.symm hk
      cases a <;> simp only [CacheOp.effect, if_neg hk, some.injEq] at heff <;>
        subst heff <;>
        exact hok.of_eq (by simp [lastKnown, hk']) (by simp [lastEntered, hk'])
          (by simp [lastReport, hk'])
  | attrLookup c fh timenow | accessLookup c fh aid mask timenow =>
    cases heff
    exact hok.of_eq rfl rfl fun _ _ => rfl
  | accessEnter c fh aid mask perm =>
    rw [CacheOp.effect, some.injEq] at heff
    split_ifs at heff with hk <;> subst heff
    · have hagree := hguard ad hmem hk
      obtain ⟨rfl, rfl⟩ := Prod.mk.inj hk
      exact hok.enterAccess res aid mask perm hagree
    · exact hok.of_eq rfl rfl (by simp [lastReport, Ne.symm hk])
  | flushAttr c =>
    by_cases hc : ad.cache = c
    · simp [CacheOp.effect, hc] at heff
    · simp only [CacheOp.effect, if_neg hc, some.injEq] at heff
      subst heff
      have hc' : c ≠ ad.key.1 := Ne.symm hc
      exact hok.of_eq rfl (by simp [lastEntered, hc']) (by simp [lastReport, hc'])
  | flushAccess c aid =>
    rw [CacheOp.effect, some.injEq] at heff
    split_ifs at heff with hc <;> subst heff
    · exact hok.removeAccess aid rfl rfl fun _ _ hne => by simp [lastReport, hne.symm]
    · have hc' : c ≠ ad.key.1 := Ne.symm hc
      exact hok.of_eq rfl rfl (by simp [lastReport, hc'])
  | flushAccessFh c fh aid =>
    rw [CacheOp.effect, some.injEq] at heff
    split_ifs at heff with hk <;> subst heff
    · exact hok.removeAccess aid rfl rfl fun _ _ hne => by simp [lastReport, hne.symm]
    · exact hok.of_eq rfl rfl (by simp [lastReport, Ne.symm hk])

end SelfCertifyingFS.Nfs
