import Sfs.Nfs.AttrCacheHistory

/-!
# Runs of the attribute cache

Along every run whose access reports agree with the permissions held, the
entries say what the history says and stand in the order of their last use. The
answers, the bound on the entries and the order of eviction follow.
-/

namespace SelfCertifyingFS.Nfs

open Foundations List AttrCaches

variable {κ φ α : Type*} [DecidableEq κ] [DecidableEq φ]

namespace AttrCaches

@[simp] theorem keys_update (s : AttrCaches κ φ α) (k : κ × φ) {f : AttrDat κ φ α → AttrDat κ φ α}
    (hf : ∀ ad, (f ad).key = ad.key) : (s.update k f).keys = s.keys := by
  simp only [keys, update, map_map]
  refine map_congr_left fun ad _ => ?_
  by_cases h : ad.key = k <;> simp [h, hf]

variable {s : AttrCaches κ φ α} {k : κ × φ}

theorem keys_touch (hnodup : s.keys.Nodup) (hk : k ∈ s.keys) :
    (s.touch k).keys = s.keys.filter (· ≠ k) ++ [k] := by
  have htail : (s.lrulist.filter fun ad => ad.key = k).map AttrDat.key = [k] := by
    calc (s.lrulist.filter fun ad => ad.key = k).map AttrDat.key
        = s.keys.filter fun b => b = k := by rw [keys, filter_map]; rfl
      _ = replicate (s.keys.count k) k := filter_eq k
      _ = [k] := by rw [count_eq_one_of_mem hnodup hk, replicate_one]
  rw [keys, touch, map_append, htail, keys, filter_map]
  rfl

theorem mem_keys_of_lookup {ad : AttrDat κ φ α} (h : s.lookup k = some ad) : k ∈ s.keys :=
  mem_map.mpr ⟨ad, mem_of_lookup h⟩

theorem not_mem_keys_of_lookup (h : s.lookup k = none) : k ∉ s.keys := by
  intro hk
  obtain ⟨ad, had, hkey⟩ := mem_map.mp hk
  exact key_ne_of_lookup_none h ad had hkey

end AttrCaches

/-- What a call does to the order of the entries: it uses none of those that
stay and drops only those of a flushed cache, or it moves one key, new or old,
to the tail and cuts off a part of the head. -/
inductive KeysMove (e : CacheOp κ φ α × CacheRes) (keys : List (κ × φ)) : List (κ × φ) → Prop
  | unused {keys'} (hsub : keys'.Sublist keys) (hno : ∀ k ∈ keys', Uses k e = false)
      (hlost : ∀ k ∈ keys, k ∉ keys' → e.1 = .flushAttr k.1) : KeysMove e keys keys'
  | used (k : κ × φ) (n : ℕ) (huse : ∀ k', Uses k' e = true ↔ k' = k) :
      KeysMove e keys ((keys.filter (· ≠ k) ++ [k]).drop n)

theorem KeysMove.same {e : CacheOp κ φ α × CacheRes} {keys : List (κ × φ)}
    (hno : ∀ k ∈ keys, Uses k e = false) : KeysMove e keys keys :=
  .unused (.refl _) hno fun _ hk hk' => absurd hk hk'

namespace AttrCaches

variable {s : AttrCaches κ φ α}

theorem keysMove_touch (hnodup : s.keys.Nodup) {k : κ × φ} (hk : k ∈ s.keys)
    {e : CacheOp κ φ α × CacheRes} (huse : ∀ k', Uses k' e = true ↔ k' = k) :
    KeysMove e s.keys (s.touch k).keys := by
  rw [keys_touch hnodup hk]
  exact .used k 0 huse

theorem accessHit_eq_some {c : κ} {fh : φ} {aid : α} {mask perm : BitVec 32} {timenow : ℕ}
    (h : s.accessHit c fh aid mask timenow = some perm) :
    ∃ ad ∈ s.lrulist, ad.key = (c, fh) ∧ ad.Valid timenow ∧
      ∃ ac, ad.access aid = some ac ∧ mask &&& ac.mask = mask ∧ ac.perm &&& mask = perm := by
  unfold accessHit at h
  cases hl : s.lookup (c, fh) with
  | none => simp [hl] at h
  | some ad =>
    obtain ⟨had, hkey⟩ := mem_of_lookup hl
    by_cases hv : ad.Valid timenow
    · cases hac : ad.access aid with
      | none => simp [hl, hac] at h
      | some ac =>
        by_cases hcover : mask &&& ac.mask = mask
        · simp only [hl, if_pos hv, hac, if_pos hcover, Option.some.injEq] at h
          exact ⟨ad, had, hkey, hv, ac, hac, hcover, h⟩
        · simp [hl, hac, hcover] at h
    · simp [hl, hv] at h

/-- A new entry goes to the end, and the oldest ones make room for it. -/
theorem keys_construct (hsize : s.numAttrDat = s.lrulist.length) {c : κ} {fh : φ}
    (hl : s.lookup (c, fh) = none) (a : Fattr3exp) :
    (s.construct c fh a).keys =
      (s.keys.filter (· ≠ (c, fh)) ++ [(c, fh)]).drop (s.lrulist.length + 1 - maxAttrDat) := by
  have hkeep : s.keys.filter (· ≠ (c, fh)) = s.keys := by
    refine filter_eq_self.mpr fun k hk => decide_eq_true ?_
    rintro rfl
    exact not_mem_keys_of_lookup hl hk
  rw [keys, lrulist_construct hsize, map_drop, map_append, hkeep]
  rfl

theorem length_touch (s : AttrCaches κ φ α) (k : κ × φ) :
    (s.touch k).lrulist.length = s.lrulist.length := by
  rw [touch, length_append, add_comm,
    s.lrulist.length_eq_length_filter_add fun ad => decide (ad.key = k)]
  simp

/-- The counter is the number of entries, and the bound holds. -/
structure SizeOk (s : AttrCaches κ φ α) : Prop where
  counted : s.numAttrDat = s.lrulist.length
  bounded : s.lrulist.length ≤ maxAttrDat

omit [DecidableEq κ] [DecidableEq φ] in
theorem SizeOk.of_eq {s' : AttrCaches κ φ α} (h : s.SizeOk)
    (hlen : s'.lrulist.length = s.lrulist.length) (hnum : s'.numAttrDat = s.numAttrDat) :
    s'.SizeOk :=
  ⟨by rw [hnum, hlen, h.counted], hlen ▸ h.bounded⟩

omit [DecidableEq κ] [DecidableEq φ] in
theorem SizeOk.construct (h : s.SizeOk) (c : κ) (fh : φ) (a : Fattr3exp) :
    (s.construct c fh a).SizeOk := by
  have hevict := evict_eq (s.lrulist ++ [AttrDat.create c fh a])
  rw [length_append, length_singleton] at hevict
  rw [AttrCaches.construct, h.counted, hevict]
  constructor <;> simp only [length_drop, length_append, length_singleton] <;> omega

omit [DecidableEq φ] in
theorem SizeOk.flushAttr (h : s.SizeOk) (c : κ) : (s.flushAttr c).SizeOk := by
  have hsplit := s.lrulist.length_eq_length_filter_add fun ad => decide (ad.cache = c)
  have hbound := h.bounded
  constructor <;> simp only [AttrCaches.flushAttr, h.counted, countP_eq_length_filter,
    decide_not] <;> omega

variable [DecidableEq α]

omit [DecidableEq φ] in
theorem keys_flushAccess (s : AttrCaches κ φ α) (c : κ) (aid : α) :
    (s.flushAccess c aid).keys = s.keys := by
  simp only [keys, flushAccess, map_map]
  refine map_congr_left fun ad _ => ?_
  by_cases h : ad.cache = c <;> simp [h]

theorem keysMove_step (hsize : s.numAttrDat = s.lrulist.length) (hnodup : s.keys.Nodup)
    (op : CacheOp κ φ α) : KeysMove (op, (s.step op).2) s.keys (s.step op).1.keys := by
  cases op with
  | attrEnter c fh a =>
    cases a with
    | none =>
      simp only [step, attrEnter, keys_update s (c, fh) key_expireNow]
      exact .same fun _ _ => rfl
    | some a =>
      have huse : ∀ k', Uses k' ((.attrEnter c fh (some a), .unit) :
          CacheOp κ φ α × CacheRes) = true ↔ k' = (c, fh) := by
        intro k'
        rw [Uses, decide_eq_true_iff, eq_comm]
      simp only [step, attrEnter]
      cases hl : s.lookup (c, fh) with
      | none =>
        simp only [keys_construct hsize hl]
        exact .used _ _ huse
      | some ad =>
        have hkeys := keys_update s (c, fh) fun ad => key_set a ad
        rw [← hkeys]
        refine keysMove_touch (hkeys ▸ hnodup) (hkeys ▸ mem_keys_of_lookup hl) huse
  | attrLookup c fh timenow =>
    simp only [step, attrLookup]
    cases hl : s.lookup (c, fh) with
    | none => exact .same fun _ _ => rfl
    | some ad =>
      by_cases hv : ad.Valid timenow
      · simp only [if_pos hv]
        refine keysMove_touch hnodup (mem_keys_of_lookup hl) fun k' => ?_
        rw [Uses, decide_eq_true_iff, eq_comm]
      · simp only [if_neg hv]
        exact .same fun _ _ => rfl
  | accessEnter c fh aid mask perm =>
    simp only [step, accessEnter]
    cases hl : s.lookup (c, fh) with
    | none =>
      refine .same fun k hk => decide_eq_false ?_
      rintro rfl
      exact not_mem_keys_of_lookup hl hk
    | some ad =>
      have hkeys := keys_update s (c, fh) fun ad => key_enterAccess aid mask perm ad
      rw [← hkeys]
      refine keysMove_touch (hkeys ▸ hnodup) (hkeys ▸ mem_keys_of_lookup hl) fun k' => ?_
      rw [Uses, decide_eq_true_iff, eq_comm]
  | accessLookup c fh aid mask timenow =>
    simp only [step, accessLookup]
    cases hh : s.accessHit c fh aid mask timenow with
    | none => exact .same fun _ _ => rfl
    | some perm =>
      obtain ⟨ad, had, hkey, -⟩ := accessHit_eq_some hh
      refine keysMove_touch hnodup (mem_map.mpr ⟨ad, had, hkey⟩) fun k' => ?_
      rw [Option.isSome_some, Uses, decide_eq_true_iff, eq_comm]
  | flushAttr c =>
    refine .unused ((filter_sublist).map _) (fun _ _ => rfl) fun k hk hlost => ?_
    obtain ⟨ad, had, rfl⟩ := mem_map.mp hk
    by_contra hne
    refine hlost (mem_map.mpr ⟨ad, mem_filter.mpr ⟨had, decide_eq_true ?_⟩, rfl⟩)
    intro hc
    exact hne (by rw [← hc]; rfl)
  | flushAccess c aid =>
    simp only [step, keys_flushAccess]
    exact .same fun _ _ => rfl
  | flushAccessFh c fh aid =>
    simp only [step, keys_update s (c, fh) (key_removeAccess aid)]
    exact .same fun _ _ => rfl

theorem SizeOk.step (h : s.SizeOk) (op : CacheOp κ φ α) : (s.step op).1.SizeOk := by
  have htouch : ∀ (s : AttrCaches κ φ α) k, s.SizeOk → (s.touch k).SizeOk :=
    fun s k hs => hs.of_eq (length_touch s k) rfl
  have hupdate : ∀ k (f : AttrDat κ φ α → AttrDat κ φ α), (s.update k f).SizeOk :=
    fun k f => h.of_eq (length_map _) rfl
  cases op with
  | attrEnter c fh a =>
    cases a with
    | none => exact hupdate _ _
    | some a =>
      simp only [AttrCaches.step, attrEnter]
      cases s.lookup (c, fh) with
      | none => exact h.construct c fh a
      | some ad => exact htouch _ _ (hupdate _ _)
  | attrLookup c fh timenow =>
    simp only [AttrCaches.step, attrLookup]
    cases s.lookup (c, fh) with
    | none => exact h
    | some ad =>
      by_cases hv : ad.Valid timenow
      · simpa only [if_pos hv] using htouch s _ h
      · simpa only [if_neg hv] using h
  | accessEnter c fh aid mask perm =>
    simp only [AttrCaches.step, accessEnter]
    cases s.lookup (c, fh) with
    | none => exact h
    | some ad => exact htouch _ _ (hupdate _ _)
  | accessLookup c fh aid mask timenow =>
    simp only [AttrCaches.step, accessLookup]
    cases s.accessHit c fh aid mask timenow with
    | none => exact h
    | some perm => exact htouch s _ h
  | flushAttr c => exact h.flushAttr c
  | flushAccess c aid => exact h.of_eq (length_map _) rfl
  | flushAccessFh c fh aid => exact hupdate _ _

end AttrCaches

/-! ## The order of eviction -/

section Order

variable {e : CacheOp κ φ α × CacheRes} {h : CacheHistory κ φ α} {keys keys' : List (κ × φ)}

section

variable (hord : RecencyOrdered (lastUse h) keys)

include hord

theorem ordered_of_used {k : κ × φ} (huse : ∀ k', Uses k' e = true ↔ k' = k) :
    RecencyOrdered (lastUse (e :: h)) (keys.filter (· ≠ k) ++ [k]) := by
  refine (hord.sublist filter_sublist).concat (fun a _ => lastUse_le h a) ?_ ?_
  · intro a ha
    have hne : a ≠ k := by simpa using (mem_filter.mp ha).2
    rw [lastUse, if_neg (fun hc => hne ((huse a).mp hc))]
  · rw [lastUse, if_pos ((huse k).mpr rfl)]
    exact Nat.lt_succ_self _

theorem KeysMove.ordered (hmove : KeysMove e keys keys') :
    RecencyOrdered (lastUse (e :: h)) keys' := by
  cases hmove with
  | unused hsub hno hlost =>
    refine (hord.sublist hsub).congr fun k hk => ?_
    rw [lastUse, hno k hk]
    rfl
  | used k n huse => exact (ordered_of_used hord huse).sublist (drop_sublist _ _)

/-- A key lost without a flush was used before every key that stays. -/
theorem KeysMove.lost_lt (hmove : KeysMove e keys keys') {gone kept : κ × φ} (hgone : gone ∈ keys)
    (hlost : gone ∉ keys') (hflush : e.1 ≠ .flushAttr gone.1) (hkept : kept ∈ keys') :
    lastUse (e :: h) gone < lastUse (e :: h) kept := by
  cases hmove with
  | unused hsub hno hdrop => exact absurd (hdrop gone hgone hlost) hflush
  | used k n huse =>
    refine (ordered_of_used hord huse).cut_lt ?_ hlost hkept
    by_cases hk : gone = k
    · exact mem_append_right _ (mem_singleton.mpr hk)
    · exact mem_append_left _ (mem_filter.mpr ⟨hgone, decide_eq_true hk⟩)

end

end Order

variable [DecidableEq α]

/-! ## The invariant of a run -/

structure CacheOk (r : Run (AttrCaches κ φ α) (CacheOp κ φ α) CacheRes) : Prop where
  size : r.state.SizeOk
  ordered : RecencyOrdered (lastUse r.past) r.state.keys
  entries : ∀ ad ∈ r.state.lrulist, EntryOk r.past ad

theorem CacheOk.start : CacheOk (Run.start (empty : AttrCaches κ φ α)) where
  size := ⟨rfl, Nat.zero_le _⟩
  ordered := Pairwise.nil
  entries := by
    intro ad had
    cases had

variable {r : Run (AttrCaches κ φ α) (CacheOp κ φ α) CacheRes}

theorem CacheOk.next (hr : CacheOk r) {op : CacheOp κ φ α} (hguard : ReportAgrees r op) :
    CacheOk (r.next AttrCaches.step op) where
  size := hr.size.step op
  ordered := (keysMove_step hr.size.counted hr.ordered.nodup op).ordered hr.ordered
  entries := by
    intro ad' had'
    rcases mem_step hr.size.counted had' with ⟨ad, had, heff⟩ | ⟨c, fh, a, rfl, rfl⟩
    · exact (hr.entries ad had).effect had hguard heff _
    · exact EntryOk.create _ _ c fh a

theorem CacheOk.entered_of_valid (hr : CacheOk r) {ad : AttrDat κ φ α} (had : ad ∈ r.state.lrulist)
    {timenow : ℕ} (hv : ad.Valid timenow) : lastEntered ad.key r.past = some ad.attr := by
  rcases (hr.entries ad had).entered with hent | hexp
  · exact hent
  · rw [AttrDat.Valid, hexp] at hv
    exact absurd hv (Nat.not_lt_zero _)

theorem toNat_toInt_and {w mask : BitVec 32} (hmask : mask.toNat < 2 ^ 31) :
    (w &&& mask).toInt = ((w &&& mask).toNat : ℤ) := by
  have hle : (w &&& mask).toNat ≤ mask.toNat := by
    exact Nat.and_le_right
  exact BitVec.toInt_eq_toNat_of_lt (by omega)

theorem CacheOk.answers_accessLookup (hr : CacheOk r) (c : κ) (fh : φ) (aid : α) (mask : BitVec 32)
    (timenow : ℕ) :
    Answers r.past (.accessLookup c fh aid mask timenow)
      (r.state.step (.accessLookup c fh aid mask timenow)).2 := by
  simp only [AttrCaches.step, AttrCaches.accessLookup]
  cases hhit : r.state.accessHit c fh aid mask timenow with
  | none => exact fun _ => .inl rfl
  | some perm =>
    intro hmask
    obtain ⟨ad, had, hkey, hv, ac, hac, hcover, rfl⟩ := accessHit_eq_some hhit
    simp only [toNat_toInt_and hmask]
    refine .inr ⟨⟨ad.attr, hkey ▸ hr.entered_of_valid had hv, hv⟩, Int.natCast_nonneg _, ?_⟩
    intro i hi
    have hcov : ac.mask.getLsbD i = true := by
      have hbit := congrArg (fun w => w.getLsbD i) hcover
      simpa [hi] using hbit
    rw [Int.toNat_natCast, ← hkey, (hr.entries ad had).reported aid ac hac i hcov,
      BitVec.testBit_toNat, BitVec.getLsbD_and, hi, Bool.and_true]

theorem CacheOk.answers (hr : CacheOk r) (op : CacheOp κ φ α) :
    Answers r.past op (r.state.step op).2 := by
  cases op with
  | attrLookup c fh timenow =>
    simp only [AttrCaches.step, AttrCaches.attrLookup]
    cases hl : r.state.lookup (c, fh) with
    | none => trivial
    | some ad =>
      obtain ⟨had, hkey⟩ := mem_of_lookup hl
      by_cases hv : ad.Valid timenow
      · simp only [if_pos hv]
        exact ⟨hkey ▸ hr.entered_of_valid had hv, hv⟩
      · simp only [if_neg hv]
        trivial
  | accessLookup c fh aid mask timenow => exact hr.answers_accessLookup c fh aid mask timenow
  | _ => trivial

theorem CacheOk.callCorrect (hr : CacheOk r) (op : CacheOp κ φ α) : CallCorrect r op where
  answers := hr.answers op
  bounded := (hr.size.step op).bounded
  evicts := by
    intro gone hgone hlost hflush kept hkept
    have hmove := keysMove_step hr.size.counted hr.ordered.nodup op
    exact hmove.lost_lt hr.ordered hgone hlost hflush hkept

/-- In every run whose access reports agree with the permissions held, every
call answers from what the server said last, and evictions go by last use. -/
theorem calls_correct_of_reportAgrees (before : List (CacheOp κ φ α)) (op : CacheOp κ φ α)
    (after : List (CacheOp κ φ α))
    (hguard : Run.Guarded AttrCaches.step ReportAgrees (Run.start .empty)
      (before ++ op :: after)) :
    CallCorrect ((Run.start .empty).take AttrCaches.step before) op := by
  obtain ⟨hok, -⟩ := Run.invariant_of_guarded CacheOk.start (fun _ _ hr hg => hr.next hg) hguard
  exact hok.callCorrect op

def sampleAttr : Fattr3exp where
  type := 1
  mode := 0o644
  nlink := 1
  uid := 100
  gid := 100
  size := 0
  used := 0
  rdev := (0, 0)
  fsid := 1
  fileid := 2
  atime := ⟨0, 0⟩
  mtime := ⟨0, 0⟩
  ctime := ⟨0, 0⟩
  expire := 10

theorem calls_correct_after_grant :
    CallCorrect ((Run.start (.empty : AttrCaches ℕ ℕ ℕ)).take AttrCaches.step
      [.attrEnter 0 7 (some sampleAttr), .accessEnter 0 7 100 3 1])
      (.accessLookup 0 7 100 1 5) := by
  refine calls_correct_of_reportAgrees _ _ [] ⟨trivial, ?_, trivial, trivial⟩
  intro ad had _ ac hac
  rw [mem_singleton.mp had] at hac
  cases hac

/-- A permission that the server has withdrawn is still granted from the cache. -/
theorem withdrawn_permission_still_granted :
    ¬CallCorrect ((Run.start (.empty : AttrCaches ℕ ℕ ℕ)).take AttrCaches.step
      [.attrEnter 0 7 (some sampleAttr), .accessEnter 0 7 100 1 1, .accessEnter 0 7 100 1 0])
      (.accessLookup 0 7 100 1 5) := by
  intro h
  rcases h.answers (by decide) with hmiss | ⟨-, -, hbits⟩
  · revert hmiss
    decide
  · have hbit := hbits 0 (by decide)
    revert hbit
    decide

end SelfCertifyingFS.Nfs
