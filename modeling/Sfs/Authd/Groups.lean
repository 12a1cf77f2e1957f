import Sfs.Authd.Cursors
import Sfs.Foundations.Worklist

/-!
# Group members

The lists of owners and members of groups (`sfsauthd/authgrps.C`). A member is a user, a
group or the hash of a key; the members of groups, and those of other servers, are found
in a cache. The owners of a group are the users and keys that its list of owners leads to
through the cache. A client that has members of an earlier version is sent the changes
since then. The loop of `transitive_closure` stops for every cache.
-/

namespace SelfCertifyingFS.Authd

section

open Foundations Rpc Finset

/-- The common test of `isuser` and `ispkhash`. -/
def hasMemberType (t : UInt8) (s : Bytes) : Bool := [t, 0x3d].isPrefixOf s

def isuser (s : Bytes) : Bool := hasMemberType 0x75 s

def ispkhash (s : Bytes) : Bool := hasMemberType 0x70 s

/-- `isremote`: the text has both an at sign and a comma. -/
def isremote (s : Bytes) : Bool := 0x40 ∈ s ∧ 0x2c ∈ s

/-- The members that are not looked up any further. -/
def isTerminal (e : Bytes) : Bool := !isremote e && (isuser e || ispkhash e)

section Closure

/-- `global_dbcache`, if there is one. -/
abbrev Dbcache := Option (List SfsauthCacheentry)

/-- What `global_dbcache->lookup` finds under a member. -/
def cachedValues : List SfsauthCacheentry → Bytes → List Bytes
  | [], _ => []
  | c :: cs, e => if c.key = e then c.values else cachedValues cs e

variable (cache : Dbcache)

def memberValues (e : Bytes) : List Bytes :=
  if isTerminal e then [] else cachedValues (cache.getD []) e

/-- `transitive_closure`. Every member puts the values of at most one entry into the queue. -/
def transitiveClosure (queue : List Bytes) : List Bytes :=
  (Worklist.visit (memberValues cache)
    (queue.length + ((cache.getD []).map fun c => c.values.length).sum) [] queue).filter
    fun e => isTerminal e

def isAMember (user pkhash : Bytes) (list : List Bytes) : Bool :=
  (transitiveClosure cache list).any fun e =>
    e = addMemberType user (ascii "u") || e = addMemberType pkhash (ascii "p")

/-- The users and keys that a list of members leads to. -/
def InClosure (list : List Bytes) (e : Bytes) : Prop :=
  isTerminal e = true ∧ ∃ q ∈ list, Worklist.Leads (memberValues cache) q e

theorem sum_cachedValues_le (cs : List SfsauthCacheentry) :
    ∑ e ∈ (cs.map (·.key)).toFinset, (cachedValues cs e).length ≤
      (cs.map fun c => c.values.length).sum := by
  induction cs with
  | nil => simp
  | cons c cs ih =>
    simp only [List.map_cons, List.toFinset_cons]
    have hrest : ∑ e ∈ (cs.map (·.key)).toFinset.erase c.key, (cachedValues (c :: cs) e).length ≤
        (cs.map fun c => c.values.length).sum := by
      calc ∑ e ∈ (cs.map (·.key)).toFinset.erase c.key, (cachedValues (c :: cs) e).length
          = ∑ e ∈ (cs.map (·.key)).toFinset.erase c.key, (cachedValues cs e).length := by
            apply sum_congr rfl
            intro e he
            rw [cachedValues, if_neg (ne_of_mem_erase he).symm]
        _ ≤ ∑ e ∈ (cs.map (·.key)).toFinset, (cachedValues cs e).length :=
            sum_le_sum_of_subset (erase_subset _ _)
        _ ≤ (cs.map fun c => c.values.length).sum := ih
    rw [← insert_erase (mem_insert_self c.key _), sum_insert (notMem_erase _ _),
      erase_insert_eq_erase, cachedValues, if_pos rfl]
    exact Nat.add_le_add_left hrest _

variable {e : Bytes} {cache : Dbcache}

theorem mem_keys_of_cachedValues {cs : List SfsauthCacheentry} (h : cachedValues cs e ≠ []) :
    e ∈ (cs.map (·.key)).toFinset := by
  induction cs with
  | nil => exact absurd rfl h
  | cons c cs ih =>
    by_cases hc : c.key = e
    · simp [hc]
    · rw [cachedValues, if_neg hc] at h
      have hmem := ih h
      simp only [List.map_cons, List.toFinset_cons, mem_insert]
      exact .inr hmem

theorem mem_keys_of_memberValues (h : memberValues cache e ≠ []) :
    e ∈ ((cache.getD []).map (·.key)).toFinset := by
  apply mem_keys_of_cachedValues
  intro hnil
  refine h ?_
  rw [memberValues, hnil, ite_self]

/-- The number of turns the search of a queue can take. -/
def closureTurns (cache : Dbcache) (queue : List Bytes) : ℕ :=
  queue.length + ((cache.getD []).map fun c => c.values.length).sum

theorem work_le_closureTurns (cache : Dbcache) (queue : List Bytes) :
    Worklist.work (memberValues cache) ((cache.getD []).map (·.key)).toFinset [] queue ≤
      closureTurns cache queue := by
  apply Nat.add_le_add_left
  calc ∑ a ∈ ((cache.getD []).map (·.key)).toFinset.filter (· ∉ []), (memberValues cache a).length
      ≤ ∑ a ∈ ((cache.getD []).map (·.key)).toFinset, (memberValues cache a).length :=
        sum_le_sum_of_subset (filter_subset _ _)
    _ ≤ ∑ a ∈ ((cache.getD []).map (·.key)).toFinset, (cachedValues (cache.getD []) a).length := by
        apply sum_le_sum
        intro a ha
        unfold memberValues
        split_ifs
        · exact Nat.zero_le _
        · exact le_rfl
    _ ≤ _ := sum_cachedValues_le _

theorem mem_transitiveClosure_iff {queue : List Bytes} :
    e ∈ transitiveClosure cache queue ↔ InClosure cache queue e := by
  have hiff := Worklist.mem_visit_iff (x := e) (fun _ => mem_keys_of_memberValues)
    (work_le_closureTurns cache queue)
  rw [transitiveClosure, List.mem_filter, ← closureTurns, hiff, InClosure, and_comm]

theorem isAMember_iff {user pkhash : Bytes} {list : List Bytes} :
    isAMember cache user pkhash list = true ↔
      InClosure cache list (addMemberType user (ascii "u")) ∨
        InClosure cache list (addMemberType pkhash (ascii "p")) := by
  simp only [isAMember, List.any_eq_true, mem_transitiveClosure_iff, Bool.or_eq_true,
    decide_eq_true_eq]
  constructor
  · rintro ⟨e, he, rfl | rfl⟩
    · exact .inl he
    · exact .inr he
  · rintro (h | h)
    · exact ⟨_, h, .inl rfl⟩
    · exact ⟨_, h, .inr rfl⟩

end Closure

/-- One turn of `process_group_updates`: the list, and the updates that were not rejected. -/
def groupUpdate (acc : List Bytes × List Bytes) (u : Bytes) : List Bytes × List Bytes :=
  match u with
  | 0x2b :: m => if m ∈ acc.1 then acc else (acc.1 ++ [m], acc.2 ++ [u])
  | 0x2d :: m => if m ∈ acc.1 then (acc.1.filter (· ≠ m), acc.2 ++ [u]) else acc
  | _ => acc

def processGroupUpdates (cur updates : List Bytes) : List Bytes × List Bytes :=
  updates.foldl groupUpdate (cur, [])

/-- What an update says about the set of members. -/
def applyUpdate (s : Finset Bytes) : Bytes → Finset Bytes
  | 0x2b :: m => insert m s
  | 0x2d :: m => s.erase m
  | _ => s

/-- The updates that change the set when they are applied one after the other. -/
def effective : Finset Bytes → List Bytes → List Bytes
  | _, [] => []
  | s, u :: us =>
    if applyUpdate s u = s then effective s us else u :: effective (applyUpdate s u) us

theorem groupUpdate_cases (cur : List Bytes) (u : Bytes) :
    (applyUpdate cur.toFinset u = cur.toFinset ∧ ∀ kept, groupUpdate (cur, kept) u = (cur, kept)) ∨
      applyUpdate cur.toFinset u ≠ cur.toFinset ∧ ∃ next,
        next.toFinset = applyUpdate cur.toFinset u ∧ (cur.Nodup → next.Nodup) ∧
          ∀ kept, groupUpdate (cur, kept) u = (next, kept ++ [u]) := by
  unfold groupUpdate applyUpdate
  split
  · rename_i m
    by_cases hm : m ∈ cur
    · exact .inl (by simp [hm])
    · refine .inr ⟨by simp [hm], cur ++ [m], by simp, fun h => ?_, by simp [hm]⟩
      simpa using h.concat hm
  · rename_i m
    by_cases hm : m ∈ cur
    · refine .inr ⟨by simp [hm], cur.filter (· ≠ m), ?_, .filter _, by simp [hm]⟩
      ext
      simp [and_comm]
    · exact .inl (by simp [hm])
  · exact .inl (by simp)

theorem foldl_groupUpdate (updates cur : List Bytes) :
    ∃ final, final.toFinset = updates.foldl applyUpdate cur.toFinset ∧
      (cur.Nodup → final.Nodup) ∧ ∀ kept,
        updates.foldl groupUpdate (cur, kept) = (final, kept ++ effective cur.toFinset updates) ∧
          (effective cur.toFinset updates).foldl groupUpdate (cur, kept) =
            (final, kept ++ effective cur.toFinset updates) := by
  induction updates generalizing cur with
  | nil => exact ⟨cur, rfl, id, by simp [effective]⟩
  | cons u us ih =>
    obtain ⟨hu, hstay⟩ | ⟨hu, next, hset, hnodup, hnext⟩ := groupUpdate_cases cur u
    · obtain ⟨final, h⟩ := ih cur
      refine ⟨final, ?_⟩
      simpa only [List.foldl_cons, effective, hstay, hu, if_true] using h
    · obtain ⟨final, hset', hnodup', h⟩ := ih next
      rw [hset] at hset' h
      refine ⟨final, hset', hnodup' ∘ hnodup, fun kept => ?_⟩
      simpa [effective, hu, hnext] using h (kept ++ [u])

theorem process_group_updates_correct (cur updates : List Bytes) :
    (processGroupUpdates cur updates).1.toFinset = updates.foldl applyUpdate cur.toFinset ∧
      (cur.Nodup → (processGroupUpdates cur updates).1.Nodup) ∧
      (processGroupUpdates cur updates).2 = effective cur.toFinset updates ∧
      processGroupUpdates cur (processGroupUpdates cur updates).2 =
        processGroupUpdates cur updates := by
  obtain ⟨cur', hset, hnodup, h⟩ := foldl_groupUpdate updates cur
  obtain ⟨hrun, hagain⟩ := h []
  rw [processGroupUpdates, hrun]
  exact ⟨hset, hnodup, rfl, hagain⟩

section Expander

variable (c : Sfscrypt)

/-- `get_pubkey_hash` of the key that is made out of an encoding. -/
def pubkeyHash (key : SfsPubkey2) : Option SfsHash := (c.alloc key).bind Sfspub.getPubkeyHash

def hashPubkey (key : SfsPubkey2) : Option Bytes :=
  (pubkeyHash c key).map fun h => addMemberType (armor32 h.1) (ascii "p")

/-- `fetch_user_cb` until it goes on with the queue: what it queues, and the cache. The answer
of the server is missing, an error, or a record with a key; `fresh` says that a cached record
has not timed out. -/
def fetchUserCb (cache : List SfsauthCacheentry) (e : Bytes) (tooBig uptodate fresh : Bool)
    (aqr : Option (Option SfsPubkey2)) : List Bytes × List SfsauthCacheentry :=
  let cached := (cachedValues cache e).take 1
  let without := cache.filter (·.key ≠ e)
  if tooBig then ([], cache)
  else if uptodate then (cached, cache)
  else
    match aqr with
    | none => if fresh then (cached, cache) else ([], without)
    | some none => ([], without)
    | some (some key) =>
      match pubkeyHash c key with
      | none => ([], without)
      | some pkhash =>
        -- the hash that was found is armored, and armored once more for the entry
        let h := addMemberType (armor32 (armor32 pkhash.1)) (ascii "p")
        ([h], ⟨e, [h]⟩ :: without)

theorem length_armor32 (bs : Bytes) : (armor32 bs).length = (8 * bs.length + 4) / 5 := by
  fun_induction armor32 bs with
  | case1 p0 p1 p2 p3 p4 rest ih => simp [ih]; omega
  | _ => simp

/-- The cached entry is armored twice, so that it is never the one of `hash_pubkey`. -/
theorem fetchUserCb_entry_iff (cache : List SfsauthCacheentry) (e : Bytes) (fresh : Bool)
    (key : SfsPubkey2) :
    cachedValues (fetchUserCb c cache e false false fresh (some (some key))).2 e =
        (hashPubkey c key).toList ↔ hashPubkey c key = none := by
  cases hkey : pubkeyHash c key with
  | none =>
    have hnot : cachedValues (cache.filter (·.key ≠ e)) e = [] := by
      by_contra h
      obtain ⟨c, ⟨-, hc⟩, hce⟩ := by simpa using mem_keys_of_cachedValues h
      exact hc hce
    simpa [fetchUserCb, hashPubkey, hkey] using hnot
  | some h =>
    have hlen : (armor32 (armor32 h.1)).length ≠ (armor32 h.1).length := by
      simp [length_armor32, h.2]
    simpa [fetchUserCb, hashPubkey, hkey, cachedValues, addMemberType] using
      ne_of_apply_ne List.length hlen

theorem fetched_user_unlike_key : ∃ (c : Sfscrypt) (key : SfsPubkey2),
    (hashPubkey c key).isSome ∧
      cachedValues (fetchUserCb c [] (ascii "u=a@b,c") false false false (some (some key))).2
        (ascii "u=a@b,c") ≠ (hashPubkey c key).toList :=
  ⟨⟨fun _ => some ⟨fun _ _ => .ok (), fun _ _ => none, none, some zeroHash, fun _ => false,
    fun _ => false⟩, fun _ => none, fun _ => zeroHash⟩, .rabin 5, rfl, by decide⟩

end Expander

section Changelog

/-- The records of a log that its readers do not skip. -/
def logentries (recs : List SfsauthDbrec) : List SfsauthLogentry :=
  recs.filterMap fun | .logentry e => some e | _ => none

variable (v : UInt32)

/-- `verify_changelog`, for a client of version `v`. -/
def verifyChangelog (log : List SfsauthLogentry) : Bool :=
  log.head?.all (·.vers ≤ v + 1) && decide (log.IsChain fun e e' => e'.vers = e.vers + 1)

/-- The loop of `read_group_changelog`. -/
def changelogLoop (latest : UInt32) (spaces : ℕ) (updates : List Bytes) :
    List SfsauthLogentry → UInt32 × List Bytes
  | [] => (latest, updates)
  | e :: log =>
    if e.vers ≤ v then changelogLoop e.vers spaces updates log
    else if e.members.length > spaces then (e.vers - 1, updates)
    else changelogLoop e.vers (spaces - e.members.length) (updates ++ e.members) log

/-- `read_group_changelog` of a log that can be opened. -/
def readGroupChangelog (recs : List SfsauthDbrec) : UInt32 × List Bytes :=
  if verifyChangelog v (logentries recs) then
    let r := changelogLoop v 0 250 [] (logentries recs)
    (if r.1 < v then 0 else r.1, r.2)
  else (0, [])

structure Changelog where
  recs : List SfsauthDbrec
  consecutive : (logentries recs).IsChain fun e e' => e'.vers = e.vers + 1 ∧ e.vers < e'.vers

variable (log : List SfsauthLogentry)

/-- The updates of the versions after `v` up to `w`. -/
def updatesBetween (w : UInt32) : List Bytes :=
  (log.filter fun e => v < e.vers ∧ e.vers ≤ w).flatMap (·.members)

/-- The members at version `w`, from those before the log. -/
def membersAt (cur : List Bytes) (w : UInt32) : List Bytes :=
  (processGroupUpdates cur ((log.filter (·.vers ≤ w)).flatMap (·.members))).1

/-- The log reaches back to version `v + 1`, and does not end before `v`. -/
def Reaches : Prop := (∃ e ∈ log, e.vers ≤ v ∨ e.vers = v + 1) ∧ ∃ e ∈ log, v ≤ e.vers

structure Synced (r : UInt32 × List Bytes) : Prop where
  largest : IsGreatest {w | (w = v ∨ ∃ e ∈ log, e.vers = w) ∧ v ≤ w ∧
    (updatesBetween v log w).length ≤ 250} r.1
  updates : r.2 = updatesBetween v log r.1
  applied (cur : List Bytes) :
    (processGroupUpdates (membersAt log cur v) r.2).1 = membersAt log cur r.1
  newer : (∃ e ∈ log, v < e.vers) → v < r.1

/-- The next version after `v` is no smaller number, and has few updates. -/
def Sendable : Prop :=
  ∀ e ∈ log, (e.vers = v → v + 1 = 0 → ∃ a ∈ log, a.vers = 0) ∧
    (v < e.vers → e.vers = v + 1 → e.members.length ≤ 250)

variable {v log}

theorem updatesBetween_cons (e : SfsauthLogentry) (w : UInt32) : updatesBetween v (e :: log) w =
    (if v < e.vers ∧ e.vers ≤ w then e.members else []) ++ updatesBetween v log w := by
  simp only [updatesBetween, List.filter_cons]
  split_ifs <;> simp_all

/-- Where the loop ends before the log does, the next entry does not fit. -/
theorem changelogLoop_spec (h : log.Pairwise (·.vers < ·.vers)) (latest : UInt32) (spaces : ℕ)
    (updates : List Bytes) : ∃ w, changelogLoop v latest spaces updates log =
        (w, updates ++ updatesBetween v log w) ∧ (updatesBetween v log w).length ≤ spaces ∧
      (∀ e ∈ log, v < e.vers → e.vers ≤ w → e.members.length ≤ spaces) ∧
      (∀ e ∈ log, w < e.vers → spaces < (updatesBetween v log e.vers).length ∧
        ∃ a ∈ log, v < a.vers ∧ w = a.vers - 1 ∧
          spaces < (updatesBetween v log w).length + a.members.length) ∧
      (log = [] ∧ w = latest ∨ ∃ e ∈ log, e.vers = w ∨ w < e.vers) := by
  induction log generalizing latest spaces updates with
  | nil => exact ⟨latest, by simp [changelogLoop, updatesBetween]⟩
  | cons e log ih =>
    obtain ⟨hfirst, hrest⟩ := List.pairwise_cons.mp h
    unfold changelogLoop
    split_ifs with hold hbig
    · obtain ⟨w, hw⟩ := ih hrest e.vers spaces updates
      exact ⟨w, by grind [updatesBetween_cons]⟩
    · have hnone : updatesBetween v log (e.vers - 1) = [] := by
        simp only [updatesBetween, List.flatMap_eq_nil_iff, List.mem_filter]
        grind
      exact ⟨e.vers - 1, by grind [updatesBetween_cons]⟩
    · obtain ⟨w, hw⟩ := ih hrest e.vers (spaces - e.members.length) (updates ++ e.members)
      have hle : e.vers ≤ w := by grind
      exact ⟨w, by grind [updatesBetween_cons]⟩

theorem updates_upTo (h : log.Pairwise (·.vers < ·.vers)) {w : UInt32} (hw : v ≤ w) :
    (log.filter (·.vers ≤ w)).flatMap (·.members) =
      (log.filter (·.vers ≤ v)).flatMap (·.members) ++ updatesBetween v log w := by
  induction log with
  | nil => rfl
  | cons e log ih =>
    obtain ⟨hfirst, hrest⟩ := List.pairwise_cons.mp h
    have hnew : v < e.vers → log.filter (·.vers ≤ v) = [] := by
      intro he
      simp only [List.filter_eq_nil_iff]
      grind
    grind [updatesBetween_cons]

theorem membersAt_between (h : log.Pairwise (·.vers < ·.vers)) {w : UInt32} (hw : v ≤ w)
    (cur : List Bytes) : (processGroupUpdates (membersAt log cur v) (updatesBetween v log w)).1 =
      membersAt log cur w := by
  unfold membersAt processGroupUpdates
  rw [updates_upTo h hw, List.foldl_append]
  generalize List.foldl groupUpdate (cur, []) _ = r
  obtain ⟨final, -, -, hfinal⟩ := foldl_groupUpdate (updatesBetween v log w) r.1
  rw [(hfinal []).1, (hfinal r.2).1]

theorem exists_vers_before {e : SfsauthLogentry}
    (h : (e :: log).IsChain fun e e' => e'.vers = e.vers + 1) :
    ∀ e' ∈ log, ∃ a ∈ e :: log, e'.vers = a.vers + 1 := by
  induction log generalizing e with
  | nil => simp
  | cons b log ih =>
    grind

theorem changelog_synced_iff (l : Changelog) (v : UInt32) :
    let log := logentries l.recs
    let r := readGroupChangelog v l.recs
    (Reaches v log ∧ Synced v log r ∨ ¬ Reaches v log ∧ r.1 = 0) ↔ Sendable v log := by
  obtain ⟨recs, hlog⟩ := l
  have hchain := hlog.imp fun _ _ => And.left
  have hlt : (logentries recs).Pairwise (·.vers < ·.vers) := by
    exact (hlog.imp fun _ _ => And.right).pairwise
  simp only [readGroupChangelog, verifyChangelog, hchain, decide_true, Bool.and_true]
  generalize logentries recs = log at *
  cases log with
  | nil => grind [Reaches, Sendable, changelogLoop]
  | cons e log =>
    obtain ⟨hfirst, -⟩ := List.pairwise_cons.mp hlt
    split_ifs with hv hold
    · obtain ⟨w, hw, -, -, hmost, hfrom⟩ := changelogLoop_spec (v := v) hlt 0 250 []
      grind [Reaches, Sendable]
    · have hbefore := exists_vers_before hchain
      obtain ⟨w, hw, hfew, hsmall, hmost, hfrom⟩ := changelogLoop_spec (v := v) hlt 0 250 []
      rw [hw] at hold ⊢
      have hvw : v ≤ w := UInt32.not_lt.mp hold
      have hreach : Reaches v (e :: log) := by grind [Reaches]
      have hnone : updatesBetween v (e :: log) v = [] := by simp [updatesBetween]
      have hnewer : ((∃ a ∈ e :: log, v < a.vers) → v < w) ↔ Sendable v (e :: log) := by
        grind [Sendable]
      simp only [hreach, true_and, not_true, false_and, or_false]
      refine ⟨fun hs => hnewer.mp hs.newer, fun hs => ⟨⟨⟨?_, hvw, hfew⟩, ?_⟩, rfl,
        membersAt_between hlt hvw, hnewer.mpr hs⟩⟩
      · grind
      · rintro w' ⟨hw', -, hfew'⟩
        grind
    · have hnot : Reaches v (e :: log) → ¬ Synced v (e :: log) (0, []) := by
        intro hreach hs
        have := hs.largest.1.2.1
        grind [Reaches]
      grind [Reaches, Sendable]

/-- An entry of 251 updates is never sent. -/
theorem long_entry_not_sent : ∃ l : Changelog, Reaches 3 (logentries l.recs) ∧
    (∃ e ∈ logentries l.recs, 3 < e.vers) ∧ readGroupChangelog 3 l.recs = (3, []) := by
  obtain ⟨us, hus⟩ : ∃ us : List Bytes, us.length = 251 := ⟨_, List.length_replicate (a := [])⟩
  refine ⟨⟨[.logentry ⟨4, us, []⟩], .singleton _⟩, ?_⟩
  simp [Reaches, logentries, readGroupChangelog, verifyChangelog, changelogLoop, hus]

end Changelog

end

open Foundations Rpc Worklist List Option

section Loop

def lookup : List SfsauthCacheentry → Bytes → Option SfsauthCacheentry
  | [], _ => none
  | c :: cs, e => if c.key = e then some c else lookup cs e

/-- The variables of `transitive_closure`: `cache` holds the members met so far. -/
structure ClosureLoop where
  queue : List Bytes
  cache : List Bytes
  closure : List Bytes

def ClosureLoop.turn (dbcache : Dbcache) : ClosureLoop → Option ClosureLoop
  | ⟨[], _, _⟩ => none
  | ⟨e :: queue, cache, closure⟩ =>
    if e ∈ cache then some ⟨queue, cache, closure⟩
    else if !isremote e && (isuser e || ispkhash e) then
      some ⟨queue, cache ++ [e], closure ++ [e]⟩
    else
      match dbcache.bind (lookup · e) with
      | none => some ⟨queue, cache ++ [e], closure⟩
      | some dbe => some ⟨queue ++ dbe.values, cache ++ [e], closure⟩

/-- The loop: the list that it leaves if it ends within so many turns. -/
def ClosureLoop.run (dbcache : Dbcache) : ℕ → ClosureLoop → Option (List Bytes)
  | 0, s => if s.queue = [] then some s.closure else none
  | fuel + 1, s =>
    match s.turn dbcache with
    | none => some s.closure
    | some s => run dbcache fuel s

theorem cachedValues_eq_lookup (db : List SfsauthCacheentry) (e : Bytes) :
    cachedValues db e = ((lookup db e).map (·.values)).getD [] := by
  induction db with
  | nil => rfl
  | cons c cs ih =>
    rw [cachedValues, lookup]
    split_ifs with hc
    · rfl
    · exact ih

/-- The state of the loop after the members seen so far. -/
def loopState (seen queue : List Bytes) : ClosureLoop := ⟨queue, seen, seen.filter (isTerminal ·)⟩

variable {dbcache : Dbcache} {seen queue : List Bytes}

theorem turn_new {e : Bytes} (he : e ∉ seen) :
    (loopState seen (e :: queue)).turn dbcache =
      some (loopState (seen ++ [e]) (queue ++ memberValues dbcache e)) := by
  rw [loopState, ClosureLoop.turn, if_neg he, loopState, filter_append,
    filter_singleton, memberValues, ← isTerminal]
  by_cases hterm : isTerminal e = true
  · rw [if_pos hterm, if_pos hterm, hterm, append_nil]
    rfl
  · rw [if_neg hterm, if_neg hterm, Bool.eq_false_iff.mpr hterm, cond_false, append_nil,
      cachedValues_eq_lookup]
    cases dbcache with
    | none => rw [getD_none, lookup, map_none, getD_none, append_nil]; rfl
    | some db =>
      rw [getD_some, bind_some]
      cases lookup db e with
      | none => rw [map_none, getD_none, append_nil]
      | some dbe => rfl

/-- While the work that is left fits into the turns, the loop and the search of the queue see
the same members. -/
theorem run_loopState {fuel : ℕ}
    (hfuel : work (memberValues dbcache) ((dbcache.getD []).map (·.key)).toFinset seen
      queue ≤ fuel) :
    ClosureLoop.run dbcache fuel (loopState seen queue) =
      some ((visit (memberValues dbcache) fuel seen queue).filter (isTerminal ·)) := by
  induction fuel generalizing seen queue with
  | zero =>
    obtain rfl : queue = [] := by
      apply eq_nil_of_length_eq_zero
      rw [work] at hfuel
      omega
    rfl
  | succ fuel ih =>
    cases queue with
    | nil => rfl
    | cons e queue =>
      rw [ClosureLoop.run, visit]
      split_ifs with he
      · rw [loopState, ClosureLoop.turn, if_pos he]
        exact ih (Nat.le_of_succ_le_succ (work_skip.trans_le hfuel))
      · rw [turn_new he]
        apply ih
        apply Nat.le_of_succ_le_succ
        exact (work_visit (fun _ => mem_keys_of_memberValues) he).trans hfuel

/-- More turns than the search needs change nothing. -/
theorem visit_more (more : ℕ) :
    (visit (memberValues dbcache) (closureTurns dbcache queue + more) [] queue) =
      visit (memberValues dbcache) (closureTurns dbcache queue) [] queue :=
  visit_add (fun _ => mem_keys_of_memberValues) (work_le_closureTurns dbcache queue) more

end Loop

/-- What a list of members leads to through the cache. -/
def Reachable (dbcache : Dbcache) (list : List Bytes) (e : Bytes) : Prop :=
  ∃ q ∈ list, Worklist.Leads (memberValues dbcache) q e

/-- `transitive_closure` ends, and finds every local user and key that the list leads to, once;
`is_a_member` says whether the user or the key is one of them. -/
theorem transitiveClosure_exact (dbcache : Dbcache) (list : List Bytes) :
    (∃ turns, ∀ more, ClosureLoop.run dbcache (turns + more) ⟨list, [], []⟩ =
      some (transitiveClosure dbcache list)) ∧
    (transitiveClosure dbcache list).Nodup ∧
    (∀ e, e ∈ transitiveClosure dbcache list ↔
      isremote e = false ∧ (isuser e = true ∨ ispkhash e = true) ∧ Reachable dbcache list e) ∧
    ∀ user pkhash, isAMember dbcache user pkhash list = true ↔
      (isremote (addMemberType user (ascii "u")) = false ∧
        Reachable dbcache list (addMemberType user (ascii "u"))) ∨
      (isremote (addMemberType pkhash (ascii "p")) = false ∧
        Reachable dbcache list (addMemberType pkhash (ascii "p"))) := by
  refine ⟨⟨closureTurns dbcache list, fun more => ?_⟩, ?_, ?_, ?_⟩
  · have hwork := work_le_closureTurns dbcache list
    have hrun := run_loopState (hwork.trans (Nat.le_add_right _ more))
    rw [visit_more] at hrun
    exact hrun
  · exact (nodup_visit _ nodup_nil).filter _
  · intro e
    rw [mem_transitiveClosure_iff, InClosure, isTerminal, Bool.and_eq_true, Bool.or_eq_true,
      Bool.not_eq_true', and_assoc]
    rfl
  · intro user pkhash
    have huser : isuser (addMemberType user (ascii "u")) = true := rfl
    have hhash : ispkhash (addMemberType pkhash (ascii "p")) = true := rfl
    rw [isAMember_iff, InClosure, InClosure, isTerminal, isTerminal, huser, hhash, Bool.true_or,
      Bool.or_true, Bool.and_true, Bool.and_true, Bool.not_eq_true', Bool.not_eq_true']
    rfl

end SelfCertifyingFS.Authd
