import Sfs.Async.IhashRuns

/-!
# A hash table as a finite map

The slots of a `qhash` have different keys, so a key finds at most one of them. What is in
the map is what the operations have put there, as long as the table below can grow; it
cannot once it has the largest size of its list of primes.
-/

namespace SelfCertifyingFS.Async

open Foundations List Function Ihash Qhash
open Option (bind_some some.inj)

variable {ι K V : Type*} [DecidableEq ι] [DecidableEq K]

namespace Qhash

variable {hash : K → UInt32} {core : Ihash ι} {slot : ι → K × V} {L : ℕ → List ι}
  {live : Finset ι} {values : K → Option V}

/-- A map whose table holds one slot for each key that has a value. -/
structure Rep (hash : K → UInt32) (core : Ihash ι) (slot : ι → K × V) (L : ℕ → List ι)
    (live : Finset ι) (values : K → Option V) : Prop where
  rep : core.Rep L live
  vals : ∀ e ∈ live, core.val e = hash (slot e).1
  distinct : ∀ e ∈ live, ∀ e' ∈ live, (slot e).1 = (slot e').1 → e = e'
  holds : ∀ k v, values k = some v ↔ ∃ e ∈ live, slot e = (k, v)

omit [DecidableEq ι] in
theorem getslot_eq_lookup (q : Qhash ι K V) (k : K) :
    q.getslot hash k = q.core.lookup (fun e => (q.slot e).1) hash k := by
  have hcomm : (fun s => decide ((q.slot s).1 = k)) = fun s => decide (k = (q.slot s).1) := by
    funext s
    exact decide_eq_decide.mpr eq_comm
  rw [getslot, Ihash.lookup, hcomm]

theorem Rep.getslot (h : Rep hash core slot L live values) (k : K) :
    (∃ e ∈ live, getslot hash ⟨core, slot⟩ k = some (some e) ∧ (slot e).1 = k ∧
        values k = some (slot e).2) ∨
      getslot hash ⟨core, slot⟩ k = some none ∧ values k = none ∧ ∀ e ∈ live, (slot e).1 ≠ k := by
  obtain ⟨l, hlookup, -, -, hmem⟩ := h.rep.lookup_eq h.vals k
  rw [← getslot_eq_lookup ⟨core, slot⟩] at hlookup
  cases l with
  | nil =>
    have hnone : ∀ e ∈ live, (slot e).1 ≠ k := fun e he heq =>
      absurd ((hmem e).mpr ⟨he, heq⟩) not_mem_nil
    refine Or.inr ⟨hlookup, ?_, hnone⟩
    rw [Option.eq_none_iff_forall_ne_some]
    intro v hv
    obtain ⟨e, he, hslot⟩ := (h.holds k v).mp hv
    exact hnone e he (congrArg Prod.fst hslot)
  | cons e l =>
    obtain ⟨he, hkey⟩ := (hmem e).mp mem_cons_self
    refine Or.inl ⟨e, he, hlookup, hkey, (h.holds k _).mpr ⟨e, he, ?_⟩⟩
    rw [← hkey]

omit [DecidableEq ι] in
theorem holds_update {slot slot' : ι → K × V} {live' : Finset ι} {k : K} {o : Option V}
    (h : ∀ k v, values k = some v ↔ ∃ e ∈ live, slot e = (k, v))
    (hk : ∀ v, o = some v ↔ ∃ e ∈ live', slot' e = (k, v))
    (hother : ∀ e, (slot' e).1 ≠ k ∨ (slot e).1 ≠ k →
      slot' e = slot e ∧ (e ∈ live' ↔ e ∈ live)) (k' : K) (v : V) :
    update values k o k' = some v ↔ ∃ e ∈ live', slot' e = (k', v) := by
  by_cases heq : k' = k
  · subst heq
    rw [update_self]
    exact hk v
  · rw [update_of_ne heq, h]
    constructor
    · rintro ⟨e, he, hslot⟩
      obtain ⟨hsame, hlive⟩ := hother e (Or.inr (by rw [hslot]; exact heq))
      exact ⟨e, hlive.mpr he, hsame.trans hslot⟩
    · rintro ⟨e, he, hslot⟩
      obtain ⟨hsame, hlive⟩ := hother e (Or.inl (by rw [hslot]; exact heq))
      exact ⟨e, hlive.mp he, hsame.symm.trans hslot⟩

theorem Rep.assign (h : Rep hash core slot L live values) {s : ι} (hs : s ∈ live) (v : V) :
    Rep hash core (update slot s ((slot s).1, v)) L live
      (update values (slot s).1 (some v)) := by
  have hkeep : ∀ e, (update slot s ((slot s).1, v) e).1 = (slot e).1 := by
    intro e
    by_cases he : e = s
    · subst he
      rw [update_self]
    · rw [update_of_ne he]
  refine ⟨h.rep, fun e he => ?_, fun e he e' he' heq => ?_, ?_⟩
  · exact (h.vals e he).trans (congrArg hash (hkeep e).symm)
  · exact h.distinct e he e' he' ((hkeep e).symm.trans (heq.trans (hkeep e')))
  · apply holds_update h.holds
    · intro v'
      constructor
      · intro hv
        exact ⟨s, hs, by rw [update_self, some.inj hv]⟩
      · rintro ⟨e, he, hslot⟩
        have hkey : (slot e).1 = (slot s).1 := by
          rw [← hkeep e, hslot]
        obtain rfl := h.distinct e he s hs hkey
        rw [update_self] at hslot
        exact congrArg some (congrArg Prod.snd hslot)
    · intro e he
      rw [hkeep, or_self] at he
      have hne : e ≠ s := fun heq => he (heq ▸ rfl)
      exact ⟨update_of_ne hne _ _, Iff.rfl⟩

section

variable (h : Rep hash core slot L live values)

include h

variable {core' : Ihash ι} {L' : ℕ → List ι}

theorem Rep.add {elm : ι} {k : K} (v : V)
    (hrep : core'.Rep L' (Insert.insert elm live)) (hval : core'.val = update core.val elm (hash k))
    (hnew : elm ∉ live) (hkeys : ∀ e ∈ live, (slot e).1 ≠ k) :
    Rep hash core' (update slot elm (k, v)) L' (Insert.insert elm live)
      (update values k (some v)) := by
  have hne : ∀ e ∈ live, e ≠ elm := fun e he heq => hnew (heq ▸ he)
  have hself : update slot elm (k, v) elm = (k, v) := update_self _ _ _
  have hold : ∀ e, e ≠ elm → update slot elm (k, v) e = slot e := fun e he =>
    update_of_ne he _ _
  refine ⟨hrep, fun e he => ?_, fun e he e' he' heq => ?_, fun k' v' => ?_⟩
  · rw [hval]
    rcases Finset.mem_insert.mp he with rfl | he
    · rw [hself, update_self]
    · rw [hold e (hne e he), update_of_ne (hne e he)]
      exact h.vals e he
  · rcases Finset.mem_insert.mp he with hself' | hlive <;>
      rcases Finset.mem_insert.mp he' with hself'' | hlive'
    · exact hself'.trans hself''.symm
    · rw [hself', hself, hold e' (hne e' hlive')] at heq
      exact absurd heq.symm (hkeys e' hlive')
    · rw [hself'', hself, hold e (hne e hlive)] at heq
      exact absurd heq (hkeys e hlive)
    · rw [hold e (hne e hlive), hold e' (hne e' hlive')] at heq
      exact h.distinct e hlive e' hlive' heq
  · have hsplit : (∃ e ∈ Insert.insert elm live, update slot elm (k, v) e = (k', v')) ↔
        (k, v) = (k', v') ∨ ∃ e ∈ live, slot e = (k', v') := by
      rw [Finset.exists_mem_insert, hself]
      apply or_congr_right
      exact exists_congr fun e => and_congr_right fun he => by rw [hold e (hne e he)]
    rw [hsplit, ← h.holds]
    by_cases heq : k' = k
    · subst heq
      have hnone : values k' ≠ some v' := by
        intro hv
        obtain ⟨e, he, hslot⟩ := (h.holds k' v').mp hv
        exact hkeys e he (congrArg Prod.fst hslot)
      rw [update_self, or_iff_left hnone, Option.some_inj, Prod.mk.injEq, and_iff_right rfl]
    · rw [update_of_ne heq, or_iff_right]
      exact fun hpair => heq (congrArg Prod.fst hpair).symm

theorem Rep.drop {s : ι} (hs : s ∈ live)
    (hrep : core'.Rep L' (live.erase s)) (hval : core'.val = core.val) :
    Rep hash core' slot L' (live.erase s) (update values (slot s).1 none) := by
  refine ⟨hrep, fun e he => ?_, fun e he e' he' => ?_, ?_⟩
  · rw [hval]
    exact h.vals e (Finset.mem_of_mem_erase he)
  · exact h.distinct e (Finset.mem_of_mem_erase he) e' (Finset.mem_of_mem_erase he')
  · apply holds_update h.holds
    · intro v
      refine ⟨fun hv => absurd hv.symm (Option.some_ne_none v), ?_⟩
      rintro ⟨e, he, hslot⟩
      obtain ⟨hne, he⟩ := Finset.mem_erase.mp he
      exact absurd (h.distinct e he s hs (by rw [hslot])) hne
    · intro e he
      have hne : e ≠ s := fun heq => (or_self _).mp he (heq ▸ rfl)
      exact ⟨rfl, Finset.mem_erase.trans (and_iff_right hne)⟩

theorem Rep.insert {elm : ι} (k : K) (v : V) (hnew : elm ∉ live)
    (hfits : values k = none → live.card + 1 < maxBuckets) :
    ∃ q' L' live', Qhash.insert hash ⟨core, slot⟩ elm k v = some q' ∧
      Rep hash q'.core q'.slot L' live' (update values k (some v)) := by
  rcases h.getslot k with ⟨s, hs, hslot, rfl, -⟩ | ⟨hslot, hnone, hkeys⟩
  · refine ⟨⟨core, _⟩, L, live, ?_, h.assign hs v⟩
    rw [Qhash.insert, hslot]
    rfl
  · obtain ⟨core', L', hinsert, hrep, hval⟩ := h.rep.insertVal (hash k) hnew (hfits hnone)
    refine ⟨⟨core', _⟩, L', _, ?_, h.add v hrep hval hnew hkeys⟩
    rw [Qhash.insert, hslot]
    rw [hinsert]
    rfl

theorem Rep.remove (k : K) :
    ∃ q' L' live', Qhash.remove hash ⟨core, slot⟩ k = some q' ∧
      Rep hash q'.core q'.slot L' live' (update values k none) := by
  rcases h.getslot k with ⟨s, hs, hslot, rfl, -⟩ | ⟨hslot, hnone, -⟩
  · obtain ⟨l1, l2, hi⟩ := append_of_mem ((h.rep.mem _ s).mpr ⟨hs, rfl⟩)
    refine ⟨⟨core.remove s, slot⟩, _, _, ?_, h.drop hs (h.rep.remove hi) rfl⟩
    rw [Qhash.remove, hslot]
    rfl
  · refine ⟨⟨core, slot⟩, L, live, ?_, ?_⟩
    · rw [Qhash.remove, hslot]
      rfl
    · rwa [← hnone, update_eq_self]

end

omit [DecidableEq K] in
theorem rep_init (hash : K → UInt32) (core : Ihash ι) (slot : ι → K × V) :
    ∃ core', core.init = some core' ∧ Rep hash core' slot (fun _ => []) ∅ fun _ => none := by
  obtain ⟨core', hinit, hrep⟩ := Ihash.rep_init core
  refine ⟨core', hinit, hrep, fun e he => ?_, fun e he => ?_, fun k v => ?_⟩
  · exact absurd he (Finset.notMem_empty e)
  · exact absurd he (Finset.notMem_empty e)
  · simp

omit [DecidableEq K] in
theorem Rep.clear (h : Rep hash core slot L live values) :
    ∃ q' L' live', Qhash.clear ⟨core, slot⟩ = some q' ∧
      Rep hash q'.core q'.slot L' live' fun _ => none := by
  obtain ⟨t', -, htraverse, -, -⟩ := h.rep.traverse fun _ => true
  obtain ⟨core', hinit, hrep⟩ := rep_init hash t' slot
  refine ⟨⟨core', slot⟩, _, _, ?_, hrep⟩
  rw [Qhash.clear, htraverse, bind_some, hinit]
  rfl

variable (hash) in
/-- A map that is the finite map of the values: it finds the value of each key, and shows
each key and its value once. -/
structure Refines (q : Qhash ι K V) (values : K → Option V) : Prop where
  get : ∀ k, q.get hash k = some (values k)
  traverse : ∃ l, q.traverse = some l ∧ (l.map Prod.fst).Nodup ∧ q.core.entries = l.length ∧
    ∀ k v, (k, v) ∈ l ↔ values k = some v

theorem Rep.refines (h : Rep hash core slot L live values) :
    Refines hash ⟨core, slot⟩ values where
  get k := by
    rcases h.getslot k with ⟨s, -, hslot, -, hvalue⟩ | ⟨hslot, hnone, -⟩
    · rw [get, hslot, hvalue]
      rfl
    · rw [get, hslot, hnone]
      rfl
  traverse := by
    obtain ⟨t', -, htraverse, -, -⟩ := h.rep.traverse fun _ => false
    have hmem := h.rep.mem_elems
    have hnodup := h.rep.nodup_elems
    refine ⟨(core.elems L).map slot, by rw [traverse, htraverse]; rfl, ?_, ?_, fun k v => ?_⟩
    · rw [map_map]
      apply hnodup.map_on
      intro e he e' he'
      exact h.distinct e ((hmem e).mp he) e' ((hmem e').mp he')
    · have hlive : (core.elems L).toFinset = live := by
        ext e
        rw [mem_toFinset, hmem]
      rw [length_map, ← toFinset_card_of_nodup hnodup, hlive]
      exact h.rep.entries
    · rw [mem_map, h.holds]
      exact exists_congr fun e => and_congr_left' (hmem e)

/-- A new slot is made while the largest table has room. -/
def Fits (r : Run (Held ι K V) (Op ι K V) Unit) : Op ι K V → Prop
  | .insert _ k _ => r.state.values k = none →
      ∀ q ∈ r.state.table, q.core.entries + 1 < maxBuckets
  | .remove _ | .clear => True

variable (hash) in
def Inv (r : Run (Held ι K V) (Op ι K V) Unit) : Prop :=
  ∃ q L live, r.state.table = some q ∧ Rep hash q.core q.slot L live r.state.values

omit [DecidableEq K] in
theorem inv_start (q : Qhash ι K V) : Inv hash q.start := by
  obtain ⟨core, hinit, hrep⟩ := rep_init hash q.core q.slot
  refine ⟨⟨core, q.slot⟩, _, _, ?_, hrep⟩
  change q.core.init.map _ = _
  rw [hinit]
  rfl

theorem inv_next (r : Run (Held ι K V) (Op ι K V) Unit) (op : Op ι K V) (h : Inv hash r)
    (hop : Allowed r op ∧ Fits r op) : Inv hash (r.next (step hash) op) := by
  obtain ⟨q, L, live, htable, hrep⟩ := h
  have hstep : ∀ {f : Qhash ι K V → Option (Qhash ι K V)} {q'}, f q = some q' →
      r.state.table.bind f = some q' := by
    intro f q' hf
    rw [htable]
    exact hf
  cases op with
  | insert elm k v =>
    obtain ⟨hallowed, hfits⟩ := hop
    obtain ⟨t', -, htraverse, -, -⟩ := hrep.rep.traverse fun _ => false
    have hnew : elm ∉ live := by
      rw [← hrep.rep.mem_elems]
      exact hallowed q htable _ htraverse
    obtain ⟨q', L', live', hinsert, hrep'⟩ := hrep.insert k v hnew fun hnone =>
      hrep.rep.entries ▸ hfits hnone q htable
    exact ⟨q', L', live', hstep hinsert, hrep'⟩
  | remove k =>
    obtain ⟨q', L', live', hremove, hrep'⟩ := hrep.remove k
    exact ⟨q', L', live', hstep hremove, hrep'⟩
  | clear =>
    obtain ⟨q', L', live', hclear, hrep'⟩ := hrep.clear
    exact ⟨q', L', live', hstep hclear, hrep'⟩

end Qhash

/-- In every run in which insertions are made while the largest table has room, a hash table
is the set of the elements inserted and not removed, and a map built on it the finite map of
the values put there and not removed. -/
theorem hash_tables_hold (key : ι → K) (hash : K → UInt32) (t : Ihash ι) (q : Qhash ι K V)
    (ops : List (Ihash.Op ι)) (qops : List (Qhash.Op ι K V))
    (hops : Run.Guarded (step key hash) (fun r op => Ihash.Allowed r op ∧ Ihash.Fits r op)
      t.start ops)
    (hqops : Run.Guarded (step hash) (fun r op => Qhash.Allowed r op ∧ Qhash.Fits r op)
      q.start qops) :
    (∃ t', (t.start.take (step key hash) ops).state.table = some t' ∧
      t'.Refines key hash (t.start.take (step key hash) ops).state.live) ∧
    ∃ q', (q.start.take (step hash) qops).state.table = some q' ∧
      Qhash.Refines hash q' (q.start.take (step hash) qops).state.values := by
  constructor
  · exact refines_take t hops
  · obtain ⟨q', L, live, htable, hrep⟩ :=
      Run.invariant_take (inv_start q) inv_next hqops
    exact ⟨q', htable, hrep.refines⟩

def Ihash.blank : Ihash ℕ := ⟨0, 0, ⟨fun _ => none, fun _ => .tab 0⟩, fun _ => 0⟩

/-- An element inserted and removed, and a value put into a map. -/
theorem hash_tables_hold_small :
    (∃ t', (blank.start.take (step id fun _ => 0)
        [.insert 5, .insert 7, .remove 5]).state.table = some t' ∧
      t'.Refines id (fun _ => 0) (blank.start.take (step id fun _ => 0)
        [.insert 5, .insert 7, .remove 5]).state.live) ∧
    ∃ q', ((⟨blank, fun _ => (0, 0)⟩ : Qhash ℕ ℕ ℕ).start.take (step fun _ => 0)
        [.insert 5 1 2]).state.table = some q' ∧
      Qhash.Refines (fun _ => 0) q'
        ((⟨blank, fun _ => (0, 0)⟩ : Qhash ℕ ℕ ℕ).start.take (step fun _ => 0)
          [.insert 5 1 2]).state.values := by
  apply hash_tables_hold
  · refine ⟨⟨?_, ?_⟩, ⟨?_, ?_⟩, ⟨?_, trivial⟩, trivial⟩
    · exact Finset.notMem_empty 5
    · exact (by decide : 0 + 1 < maxBuckets)
    · exact (by decide : 7 ∉ (insert 5 ∅ : Finset ℕ))
    · exact (by decide : (insert 5 ∅ : Finset ℕ).card + 1 < maxBuckets)
    · exact (by decide : 5 ∈ (insert 7 (insert 5 ∅) : Finset ℕ))
  · refine ⟨⟨?_, fun _ => ?_⟩, trivial⟩
    · rintro q hq s hs
      obtain rfl := some.inj hq
      obtain rfl := some.inj hs
      exact not_mem_nil
    · rintro q hq
      obtain rfl := some.inj hq
      exact (by decide)

namespace Ihash

/-- The first elements, inserted one after the other. -/
def inserts (n : ℕ) : List (Op ℕ) := (range n).map .insert

theorem inserts_succ (n : ℕ) : inserts (n + 1) = inserts n ++ [.insert n] := by
  rw [inserts, range_succ, map_append]
  rfl

theorem live_inserts (t : Ihash ℕ) (hash : ℕ → UInt32) (n : ℕ) :
    (t.start.take (step id hash) (inserts n)).state.live = Finset.range n := by
  induction n with
  | zero => rfl
  | succ n ih =>
    rw [inserts_succ, Run.take_append, Finset.range_add_one, ← ih]
    rfl

theorem guarded_inserts (t : Ihash ℕ) (hash : ℕ → UInt32) {n : ℕ} (hn : n < maxBuckets) :
    Run.Guarded (step id hash) (fun r op => Allowed r op ∧ Fits r op) t.start (inserts n) := by
  induction n with
  | zero => trivial
  | succ n ih =>
    have hlive := live_inserts t hash n
    rw [inserts_succ, Run.guarded_append]
    refine ⟨ih (Nat.lt_of_succ_lt hn), ⟨?_, ?_⟩, trivial⟩
    · change n ∉ (t.start.take (step id hash) (inserts n)).state.live
      rw [hlive]
      exact Finset.notMem_range_self
    · change (t.start.take (step id hash) (inserts n)).state.live.card + 1 < maxBuckets
      rwa [hlive, Finset.card_range]

/-- A table of the largest size cannot grow. -/
theorem Rep.insertVal_eq_none {t : Ihash ι} {L : ℕ → List ι} {live : Finset ι} (h : t.Rep L live)
    (e : ι) (hval : UInt32) (hfull : live.card + 1 = maxBuckets) : t.insertVal e hval = none := by
  have hentries := h.entries
  have hroom := h.room
  have hhalf : 2 ^ 31 < maxBuckets := by decide
  have hsize : t.buckets = maxBuckets := h.size.resolve_left (by omega)
  have hgrow : ({ t with entries := t.entries + 1 } : Ihash ι).grow = none := by
    rw [grow, hsize]
    rfl
  change Option.map _ (if t.buckets ≤ t.entries + 1 then _ else _) = _
  rw [if_pos (by omega), hgrow]
  rfl

theorem table_inserts (t : Ihash ℕ) (hash : ℕ → UInt32) {n : ℕ} (hn : n + 1 = maxBuckets) :
    (t.start.take (step id hash) (inserts (n + 1))).state.table = none := by
  obtain ⟨t', L, htable, hrep, -⟩ :=
    Run.invariant_take (inv_start t) inv_next (guarded_inserts t hash (by omega : n < maxBuckets))
  rw [live_inserts] at hrep
  rw [inserts_succ, Run.take_append]
  change (t.start.take (step id hash) (inserts n)).state.table.bind _ = _
  rw [htable]
  exact hrep.insertVal_eq_none n (hash n) (by rwa [Finset.card_range])

end Ihash

/-- The insertion that fills the largest table looks for the next size past the end of the
list of primes. -/
theorem insertion_past_primes : ∃ ops,
    Run.Guarded (step id fun _ => 0) Ihash.Allowed blank.start ops ∧
      (blank.start.take (step id fun _ => 0) ops).state.table = none := by
  obtain ⟨n, hn⟩ : ∃ n, n + 1 = maxBuckets := ⟨0xfffffffa, rfl⟩
  refine ⟨inserts (n + 1), ?_, table_inserts _ _ hn⟩
  have hbefore := guarded_inserts blank (fun _ => 0) (by omega : n < maxBuckets)
  rw [inserts_succ, Run.guarded_append]
  refine ⟨hbefore.mono fun _ _ h => h.1, ?_, trivial⟩
  change n ∉ (blank.start.take (step id fun _ => 0) (inserts n)).state.live
  rw [live_inserts]
  exact Finset.notMem_range_self

end SelfCertifyingFS.Async
