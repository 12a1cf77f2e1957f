import Sfs.Async.Ihash

/-!
# What a hash table holds

The chains of a table hold the live elements, each in the chain of its hash value. Growth
links all of them into new chains. From this: what a lookup finds and how the search goes
on from it, what the walks over the table visit, and that a `qhash` is a finite map.
-/

namespace SelfCertifyingFS.Async

open Foundations List Function Nat Links
open Or (inl inr)

variable {ι K V : Type*}

namespace Ihash

/-- The chains of a table hold the live elements, each in the chain of its hash value. -/
structure Filed (t : Ihash ι) (L : ℕ → List ι) (live : Finset ι) : Prop where
  holds : t.links.Holds L
  mem : ∀ i e, e ∈ L i ↔ e ∈ live ∧ (t.val e).toNat % t.buckets = i

variable {t : Ihash ι} {L : ℕ → List ι} {live : Finset ι}

theorem holds_bzero (s : Links ι) : (bzero s).Holds fun _ => [] :=
  ⟨fun _ => rfl, fun _ => nodup_nil, fun _ _ _ => disjoint_nil_left _⟩

/-- The largest size; a table of this size cannot grow. -/
def maxBuckets : ℕ := 0xfffffffb

/-- A table that holds the live elements, with room for another one. -/
structure Rep (t : Ihash ι) (L : ℕ → List ι) (live : Finset ι) : Prop extends
    Filed t L live where
  entries : t.entries = live.card
  room : t.entries < t.buckets
  size : t.buckets ≤ 2 ^ 31 ∨ t.buckets = maxBuckets

section

variable (h : t.Rep L live)

include h

theorem Rep.steps_chain (i : ℕ) :
    Steps t.chainNext (t.links.cell (.tab i)) (L i) := (h.holds.linked i).steps

/-- The elements of a table in the order of its buckets. -/
def elems (t : Ihash ι) (L : ℕ → List ι) : List ι := (range t.buckets).flatMap L

theorem Rep.mem_elems (e : ι) : e ∈ t.elems L ↔ e ∈ live := by
  rw [elems, mem_flatMap]
  constructor
  · rintro ⟨i, -, he⟩
    exact ((h.mem i e).mp he).1
  · intro he
    have hlt := mod_lt (t.val e).toNat (zero_lt_of_lt h.room)
    exact ⟨_, mem_range.mpr hlt, (h.mem _ e).mpr ⟨he, rfl⟩⟩

theorem Rep.nodup_elems : (t.elems L).Nodup := by
  rw [elems, nodup_flatMap]
  exact ⟨fun i _ => h.holds.nodup i, nodup_range.imp fun hne => h.holds.apart _ _ hne⟩

/-- The walk from bucket `j` on. -/
theorem Rep.steps_next_from {k j : ℕ} (hk : j + k = t.buckets) :
    Steps (fun e => some (t.next e))
      (((range t.buckets).drop j).findSome? fun i => t.links.cell (.tab i))
      (((range t.buckets).drop j).flatMap L) := by
  induction k generalizing j with
  | zero =>
    rw [drop_eq_nil_of_le (by rw [length_range]; omega)]
    rfl
  | succ k ih =>
    have hj : j < (range t.buckets).length := by
      rw [length_range]
      omega
    have hrest := ih (by omega : j + 1 + k = t.buckets)
    rw [drop_eq_getElem_cons hj, getElem_range]
    have hfirst : ∀ is, ((j :: is).findSome? fun i => t.links.cell (.tab i)) =
        (t.links.cell (.tab j)).or (is.findSome? fun i => t.links.cell (.tab i)) := by
      intro is
      rw [findSome?_cons]
      cases t.links.cell (.tab j) <;> rfl
    rw [hfirst]
    apply (h.holds.linked j).steps_append _ hrest
    intro e he
    rw [next, ((h.mem j e).mp he).2]
    cases t.links.cell (.next e) <;> rfl

/-- `first` and `next` go through the elements of the table. -/
theorem Rep.steps_next : Steps (fun e => some (t.next e)) t.first (t.elems L) := by
  by_cases hzero : t.entries = 0
  · have hempty : t.elems L = [] := by
      apply eq_nil_iff_forall_not_mem.mpr
      intro e he
      have hcard := Finset.card_pos.mpr ⟨e, (h.mem_elems e).mp he⟩
      have hentries := h.entries
      omega
    rw [first, if_neg (not_not.mpr hzero), hempty]
    rfl
  · rw [first, if_pos hzero]
    exact h.steps_next_from (Nat.zero_add t.buckets)

end

variable [DecidableEq ι]

/-- The two orders of the writes come to the same, as the element is not the first one. -/
theorem relink_eq_push {s : Links ι} {ni : ℕ} {p : ι} (h : s.cell (.tab ni) ≠ some p) :
    relink s ni p = s.push ni p := by
  cases hfirst : s.cell (.tab ni) with
  | none => simp only [relink, Links.push, hfirst, Links.point]
  | some n =>
    have hne : n ≠ p := fun heq => h (hfirst.trans (congrArg some heq))
    simp only [relink, Links.push, hfirst, Links.point]
    rw [update_comm hne]

variable {n : ℕ} {val : ι → UInt32}

/-- Moving a chain puts each of its elements into the new chain of its hash value. -/
theorem moveChain_spec {s : Links ι} {p : Option ι} {l : List ι}
    {L : ℕ → List ι} {bound : ℕ} (hsteps : Steps (fun e => some (s.cell (.next e))) p l)
    (h : s.Holds L) (hnodup : l.Nodup) (hnew : ∀ e ∈ l, ∀ i, e ∉ L i)
    (hbound : l.length < bound) :
    ∃ s' L', moveChain n val bound p s = some s' ∧ s'.Holds L' ∧
      (∀ i e, e ∈ L' i ↔ e ∈ L i ∨ e ∈ l ∧ (val e).toNat % n = i) ∧
      ∀ x, x ∉ l → s'.cell (.next x) = s.cell (.next x) := by
  induction l generalizing p s L bound with
  | nil =>
    obtain ⟨bound, rfl⟩ := exists_eq_succ_of_ne_zero (Nat.ne_of_gt hbound)
    obtain rfl : p = none := hsteps
    exact ⟨s, L, rfl, h, fun i e => by simp, fun _ _ => rfl⟩
  | cons b l ih =>
    obtain ⟨bound, rfl⟩ := exists_eq_succ_of_ne_zero (Nat.ne_of_gt (zero_lt_of_lt hbound))
    obtain ⟨rfl, q, hq, hrest⟩ := hsteps
    obtain rfl := Option.some.inj hq
    obtain ⟨hb, hnodup⟩ := nodup_cons.mp hnodup
    have hnewb := hnew b mem_cons_self
    obtain ⟨i, hi⟩ : ∃ i, i = (val b).toNat % n := ⟨_, rfl⟩
    have hrelink : relink s i b = s.push i b := by
      apply relink_eq_push
      rw [(h.linked i).cell_eq]
      exact fun heq => hnewb i (mem_of_mem_head? heq)
    have hkeep : ∀ x, x ≠ b → (s.push i b).cell (.next x) = s.cell (.next x) := fun x hx =>
      cell_push_of_ne (Slot.next_ne_tab x i) fun heq => hx (Slot.next.inj heq)
    have hne : ∀ x ∈ l, x ≠ b := fun x hx heq => hb (heq ▸ hx)
    -- what is left of the chain is as it was, and in none of the new chains
    have hsteps' : Steps (fun e => some ((s.push i b).cell (.next e))) (s.cell (.next b)) l :=
      hrest.congr fun x hx => congrArg some (hkeep x (hne x hx))
    have hnew' : ∀ e ∈ l, ∀ j, e ∉ update L i (b :: L i) j := by
      intro e he j
      rw [mem_update_cons, not_or]
      exact ⟨fun heq => hne e he heq.1, hnew e (mem_cons_of_mem b he) j⟩
    obtain ⟨s', L', hmove, hholds, hmem, hcell⟩ :=
      ih hsteps' (h.push i hnewb) hnodup hnew' (lt_of_succ_lt_succ hbound)
    refine ⟨s', L', ?_, hholds, fun j e => ?_, fun x hx => ?_⟩
    · rw [moveChain, ← hi, hrelink]
      exact hmove
    · rw [hmem, mem_update_cons, mem_cons]
      constructor
      · rintro ((⟨rfl, rfl⟩ | he) | ⟨he, hval⟩)
        · exact inr ⟨inl rfl, hi.symm⟩
        · exact inl he
        · exact inr ⟨inr he, hval⟩
      · rintro (he | ⟨rfl | he, hval⟩)
        · exact inl (inr he)
        · exact inl (inl ⟨rfl, hval.symm.trans hi.symm⟩)
        · exact inr ⟨he, hval⟩
    · obtain ⟨hxb, hxl⟩ := ne_and_not_mem_of_not_mem_cons hx
      rw [hcell x hxl, hkeep x hxb]

theorem moveChains_spec {heads : ℕ → Option ι} {old : ℕ → List ι}
    {s : Links ι} {L : ℕ → List ι} {bound : ℕ} {is : List ℕ}
    (hsteps : ∀ i ∈ is, Steps (fun e => some (s.cell (.next e))) (heads i) (old i))
    (h : s.Holds L) (hnodup : ∀ i ∈ is, (old i).Nodup)
    (hapart : is.Pairwise fun i j => (old i).Disjoint (old j))
    (hnew : ∀ i ∈ is, ∀ e ∈ old i, ∀ j, e ∉ L j) (hbound : ∀ i ∈ is, (old i).length < bound) :
    ∃ s' L', is.foldlM (fun s i => moveChain n val bound (heads i) s) s = some s' ∧
      s'.Holds L' ∧
      ∀ i e, e ∈ L' i ↔ e ∈ L i ∨ (∃ j ∈ is, e ∈ old j) ∧ (val e).toNat % n = i := by
  induction is generalizing s L with
  | nil => exact ⟨s, L, rfl, h, fun i e => by simp⟩
  | cons i is ih =>
    obtain ⟨hi, hapart⟩ := pairwise_cons.mp hapart
    have hmem := @mem_cons_of_mem ℕ i
    obtain ⟨s1, L1, hmove, hholds, hmem1, hcell⟩ := moveChain_spec (hsteps i mem_cons_self)
      h (hnodup i mem_cons_self) (hnew i mem_cons_self) (hbound i mem_cons_self)
    have hsteps1 : ∀ j ∈ is, Steps (fun e => some (s1.cell (.next e))) (heads j) (old j) :=
      fun j hj => (hsteps j (hmem hj)).congr fun x hx =>
        congrArg some (hcell x fun hxi => hi j hj hxi hx)
    have hnew1 : ∀ j ∈ is, ∀ e ∈ old j, ∀ k, e ∉ L1 k := by
      intro j hj e he k
      rw [hmem1, not_or]
      exact ⟨hnew j (hmem hj) e he k, fun hei => hi j hj hei.1 he⟩
    obtain ⟨s', L', hmoves, hholds', hmem'⟩ := ih hsteps1 hholds (fun j hj => hnodup j (hmem hj))
      hapart hnew1 fun j hj => hbound j (hmem hj)
    refine ⟨s', L', ?_, hholds', fun k e => ?_⟩
    · rw [foldlM_cons, hmove]
      exact hmoves
    · rw [hmem', hmem1, or_assoc, ← or_and_right]
      simp only [mem_cons, exists_eq_or_imp]

theorem Filed.length_le (h : t.Filed L live) (i : ℕ) : (L i).length ≤ live.card := by
  rw [← toFinset_card_of_nodup (h.holds.nodup i)]
  apply Finset.card_le_card
  intro e he
  exact ((h.mem i e).mp (mem_toFinset.mp he)).1

theorem Filed.grow (h : t.Filed L live) (hpos : 0 < t.buckets) (hentries : live.card ≤ t.entries)
    {n : ℕ} (hsize : growSize t.buckets = some n) :
    ∃ s L', t.grow = some { t with buckets := n, links := s } ∧
      Filed { t with buckets := n, links := s } L' live := by
  obtain ⟨s, L', hmoves, hholds, hmem⟩ :=
    @moveChains_spec ι _ n t.val (fun i => t.links.cell (.tab i)) L (bzero t.links) (fun _ => [])
      (t.entries + 1) (range t.buckets) (fun i _ => (h.holds.linked i).steps)
      (holds_bzero t.links) (fun i _ => h.holds.nodup i)
      (nodup_range.imp fun hne => h.holds.apart _ _ hne)
      (fun _ _ _ _ _ => not_mem_nil)
      (fun i _ => lt_succ_of_le ((h.length_le i).trans hentries))
  refine ⟨s, L', ?_, hholds, fun i e => ?_⟩
  · rw [Ihash.grow, hsize, Option.bind_some, hmoves]
    rfl
  · have hlive : (∃ j ∈ range t.buckets, e ∈ L j) ↔ e ∈ live := by
      constructor
      · rintro ⟨j, -, he⟩
        exact ((h.mem j e).mp he).1
      · intro he
        have hlt := mod_lt (t.val e).toNat hpos
        exact ⟨_, mem_range.mpr hlt, (h.mem _ e).mpr ⟨he, rfl⟩⟩
    rw [hmem, hlive, or_iff_right not_mem_nil]

theorem exp2primes_bounds : ∀ i : Fin exp2primes.length, i.val ≠ 0 →
    2 ^ (i.val - 1) < exp2primes.get i ∧
      (exp2primes.get i ≤ 2 ^ 31 ∨ exp2primes.get i = maxBuckets) := by
  decide

theorem growSize_of_le {b : ℕ} (hpos : b ≠ 0) (hle : b ≤ 2 ^ 31) :
    ∃ n, growSize b = some n ∧ b < n ∧ (n ≤ 2 ^ 31 ∨ n = maxBuckets) := by
  have hlog : log2c b ≤ 31 := (log2c_le_iff hpos).mpr hle
  have hb : b ≤ 2 ^ log2c b := (log2c_le_iff hpos).mp le_rfl
  have hlt : log2c b + 1 < exp2primes.length := Nat.lt_of_le_of_lt (succ_le_succ hlog) (by decide)
  obtain ⟨hlower, hupper⟩ := exp2primes_bounds ⟨log2c b + 1, hlt⟩ (succ_ne_zero _)
  have hlarger : b < exp2primes[log2c b + 1] := hb.trans_lt hlower
  rw [growSize, mod_eq_of_lt (by omega), getElem?_eq_getElem hlt, Option.map_some]
  refine ⟨_, rfl, ?_, ?_⟩
  · split
    · omega
    · exact hlarger
  · split
    · exact inl (by decide)
    · exact hupper

theorem growSize_zero : growSize 0 = some 3 := by decide

theorem rep_init (t : Ihash ι) : ∃ t', t.init = some t' ∧ t'.Rep (fun _ => []) ∅ := by
  refine ⟨{ t with buckets := 3, entries := 0, links := bzero t.links }, ?_, ?_⟩
  · rw [init, grow, growSize_zero]
    rfl
  refine ⟨⟨holds_bzero t.links, fun i e => ?_⟩, rfl, zero_lt_succ 2, inl ?_⟩
  · simp
  · exact (by norm_num)

theorem Rep.room_insert (h : t.Rep L live) (hfits : live.card + 1 < maxBuckets) :
    ∃ t' L', (if t.buckets ≤ t.entries + 1 then { t with entries := t.entries + 1 }.grow
        else some { t with entries := t.entries + 1 }) = some t' ∧
      t'.Filed L' live ∧ t'.val = t.val ∧ t'.entries = live.card + 1 ∧
      t'.entries < t'.buckets ∧ (t'.buckets ≤ 2 ^ 31 ∨ t'.buckets = maxBuckets) := by
  have hentries := h.entries
  have hroom := h.room
  by_cases hfull : t.buckets ≤ t.entries + 1
  · have hle : t.buckets ≤ 2 ^ 31 := h.size.resolve_right (by omega)
    obtain ⟨n, hsize, hlarger, hn⟩ := growSize_of_le (by omega) hle
    have hfiled : Filed { t with entries := t.entries + 1 } L live := ⟨h.holds, h.mem⟩
    obtain ⟨s, L', hgrow, hfiled'⟩ := hfiled.grow (by omega : 0 < t.buckets)
      (by omega : live.card ≤ t.entries + 1) hsize
    refine ⟨_, L', (if_pos hfull).trans hgrow, hfiled', rfl, ?_, ?_, hn⟩
    · exact congrArg (· + 1) hentries
    · exact lt_of_le_of_lt (by omega : t.entries + 1 ≤ t.buckets) hlarger
  · refine ⟨_, L, if_neg hfull, ⟨h.holds, h.mem⟩, rfl, ?_, not_le.mp hfull, h.size⟩
    exact congrArg (· + 1) hentries

theorem Rep.insertVal (h : t.Rep L live) {e : ι} (hval : UInt32) (hnew : e ∉ live)
    (hfits : live.card + 1 < maxBuckets) :
    ∃ t' L', t.insertVal e hval = some t' ∧ t'.Rep L' (insert e live) ∧
      t'.val = update t.val e hval := by
  obtain ⟨t', L', hgrow, hfiled, hvals, hentries, hroom, hsize⟩ := h.room_insert hfits
  have hnone : ∀ j, e ∉ L' j := fun j he => hnew ((hfiled.mem j e).mp he).1
  refine ⟨{ t' with
      val := update t'.val e hval
      links := t'.links.push (hval.toNat % t'.buckets) e }, _, ?_,
    ⟨⟨hfiled.holds.push (hval.toNat % t'.buckets) hnone, fun i x => ?_⟩, ?_, hroom, hsize⟩,
    congrArg (update · e hval) hvals⟩
  · change Option.map _ (if t.buckets ≤ t.entries + 1 then _ else _) = _
    rw [hgrow]
    rfl
  · rw [mem_update_cons, hfiled.mem, Finset.mem_insert]
    by_cases hx : x = e
    · subst hx
      simp only [update_self, hnew, false_and, or_false, true_and]
      exact eq_comm
    · simp [hx, false_or]
  · exact hentries.trans (Finset.card_insert_of_notMem hnew).symm

theorem Rep.remove (h : t.Rep L live) {e : ι} {i : ℕ} {l1 l2 : List ι} (hi : L i = l1 ++ e :: l2) :
    (t.remove e).Rep (update L i (l1 ++ l2)) (live.erase e) := by
  have hnodup := hi ▸ h.holds.nodup i
  have hlive : e ∈ live := ((h.mem i e).mp (by rw [hi]; simp)).1
  have hentries := h.entries
  have hroom := h.room
  refine ⟨⟨h.holds.unlink hi, fun j x => ?_⟩, ?_, (sub_le _ _).trans_lt hroom, h.size⟩
  · have hmem := h.mem j x
    rw [Finset.mem_erase, and_assoc]
    change _ ↔ x ≠ e ∧ x ∈ live ∧ (t.val x).toNat % t.buckets = j
    rw [← hmem]
    by_cases hj : j = i
    · subst hj
      rw [update_self, hi]
      have hnot : e ∉ l1 ++ l2 := (nodup_middle.mp hnodup).notMem
      by_cases hx : x = e
      · subst hx
        simp [hnot, not_true_eq_false]
      · simp only [mem_append, mem_cons, hx, ne_eq, not_false_eq_true, true_and, false_or]
    · rw [update_of_ne hj]
      refine ⟨fun hx => ⟨fun heq => ?_, hx⟩, And.right⟩
      have hother : e ∈ L i := by
        rw [hi]
        exact mem_append_right l1 mem_cons_self
      exact h.holds.apart j i hj (heq ▸ hx) hother
  · change t.entries - 1 = _
    rw [Finset.card_erase_of_mem hlive, hentries]

section Lookup

section

variable (h : t.Rep L live)

include h

theorem Rep.length_lt (i : ℕ) : (L i).length < t.entries + 1 :=
  lt_succ_of_le ((h.length_le i).trans_eq h.entries.symm)

/-- A search by hash value goes through the elements of the chain that have it. -/
theorem Rep.lookupVal_eq (hval : UInt32) :
    t.lookupVal hval = some ((L (hval.toNat % t.buckets)).find? fun e => t.val e == hval) :=
  (h.steps_chain _).search_eq (h.length_lt _)

theorem Rep.steps_nextVal (hval : UInt32) :
    Steps t.nextVal ((L (hval.toNat % t.buckets)).find? fun e => t.val e == hval)
      ((L (hval.toNat % t.buckets)).filter fun e => t.val e == hval) := by
  apply (h.steps_chain _).filter (h.length_lt _).le
  intro e _ he
  rw [nextVal, eq_of_beq he]

/-- A lookup gives the first element with the key, and `nextkeq` the others from there. -/
theorem Rep.lookup_eq {key : ι → K} {hash : K → UInt32} [DecidableEq K]
    (hkeys : ∀ e ∈ live, t.val e = hash (key e)) (k : K) :
    ∃ l, t.lookup key hash k = some l.head? ∧ Steps (t.nextkeq key) l.head? l ∧ l.Nodup ∧
      ∀ e, e ∈ l ↔ e ∈ live ∧ key e = k := by
  obtain ⟨i, hi⟩ : ∃ i, i = (hash k).toNat % t.buckets := ⟨_, rfl⟩
  obtain ⟨chain, hchain⟩ : ∃ chain, chain = (L i).filter fun e => t.val e == hash k := ⟨_, rfl⟩
  have hlength : chain.length < t.entries + 1 := by
    rw [hchain]
    exact (length_filter_le _ _).trans_lt (h.length_lt i)
  have hvals := h.steps_nextVal (hash k)
  have hfirst := h.lookupVal_eq (hash k)
  rw [← hi] at hvals hfirst
  rw [← hchain] at hvals
  have hsteps : Steps (t.nextkeq key) (chain.find? fun v => decide (k = key v))
      (chain.filter fun v => decide (k = key v)) := by
    apply hvals.filter hlength.le
    intro e _ he
    rw [nextkeq, ← of_decide_eq_true he]
  refine ⟨chain.filter fun v => decide (k = key v), ?_, ?_, ?_, fun e => ?_⟩
  · rw [lookup, hfirst, Option.bind_some, hvals.search_eq hlength, hsteps.head]
  · rwa [← hsteps.head]
  · rw [hchain]
    exact ((h.holds.nodup i).filter _).filter _
  · rw [hchain, mem_filter, mem_filter, h.mem, decide_eq_true_iff, beq_iff_eq]
    constructor
    · rintro ⟨⟨⟨hlive, -⟩, -⟩, rfl⟩
      exact ⟨hlive, rfl⟩
    · rintro ⟨hlive, rfl⟩
      have hval := hkeys e hlive
      exact ⟨⟨⟨hlive, by rw [hi, hval]⟩, hval⟩, rfl⟩

end

end Lookup

section Traverse

variable (drop : ι → Bool)

/-- The inner loop, when the elements `kept` of the chain have been visited and kept. The
element after the one visited is read before the callback may remove that one. -/
theorem Rep.traverseChain (h : t.Rep L live) {i : ℕ} {kept l : List ι} (hi : L i = kept ++ l)
    {bound : ℕ} (hbound : l.length < bound) :
    ∃ t' live', traverseChain drop bound l.head? t = some (l, t') ∧
      t'.Rep (update L i (kept ++ l.filter fun e => !drop e)) live' ∧
      t'.val = t.val ∧ t'.buckets = t.buckets := by
  induction l generalizing t L live kept bound with
  | nil =>
    obtain ⟨bound, rfl⟩ := exists_eq_succ_of_ne_zero (Nat.ne_of_gt hbound)
    refine ⟨t, live, rfl, ?_, rfl, rfl⟩
    rw [filter_nil, ← hi, update_eq_self]
    exact h
  | cons n l ih =>
    obtain ⟨bound, rfl⟩ := exists_eq_succ_of_ne_zero (Nat.ne_of_gt (zero_lt_of_lt hbound))
    have hlinked := linked_append (hi ▸ h.holds.linked i)
    have hnext : t.links.cell (.next n) = l.head? := hlinked.2.2.cell_eq
    have hbound' := lt_of_succ_lt_succ hbound
    cases hdrop : drop n with
    | true =>
      obtain ⟨t', live', hloop, hrep, hval, hbuckets⟩ :=
        ih (h.remove hi) (update_self i (kept ++ l) L) hbound'
      refine ⟨t', live', ?_, ?_, hval, hbuckets⟩
      · rw [head?_cons, Ihash.traverseChain, hnext, if_pos hdrop, hloop]
        rfl
      · rw [filter_cons_of_neg (by rw [hdrop]; exact Bool.false_ne_true)]
        rwa [update_idem] at hrep
    | false =>
      have hi' : L i = (kept ++ [n]) ++ l := by rw [hi, append_assoc, singleton_append]
      obtain ⟨t', live', hloop, hrep, hval, hbuckets⟩ := ih h hi' hbound'
      refine ⟨t', live', ?_, ?_, hval, hbuckets⟩
      · rw [head?_cons, Ihash.traverseChain, hnext, hdrop, if_neg Bool.false_ne_true, hloop]
        rfl
      · rw [filter_cons_of_pos (by rw [hdrop]; rfl)]
        rwa [append_assoc] at hrep

theorem Rep.traverseFrom (h : t.Rep L live) {is : List ℕ} (hnodup : is.Nodup) :
    ∃ t' L' live', traverseFrom drop is t = some (is.flatMap L, t') ∧ t'.Rep L' live' ∧
      t'.val = t.val ∧ t'.buckets = t.buckets ∧
      ∀ i, L' i = if i ∈ is then (L i).filter fun e => !drop e else L i := by
  induction is generalizing t L live with
  | nil => exact ⟨t, L, live, rfl, h, rfl, rfl, fun i => rfl⟩
  | cons i is ih =>
    obtain ⟨hi, hnodup⟩ := nodup_cons.mp hnodup
    obtain ⟨t1, live1, hchain, hrep1, hval1, hbuckets1⟩ :=
      h.traverseChain drop (nil_append (L i)).symm (h.length_lt i)
    rw [nil_append] at hrep1
    obtain ⟨t', L', live', hloop, hrep', hval', hbuckets', hlists⟩ := ih hrep1 hnodup
    have hother : ∀ j ∈ is, update L i ((L i).filter fun e => !drop e) j = L j := by
      intro j hj
      have hne : j ≠ i := fun heq => hi (heq ▸ hj)
      exact update_of_ne hne _ _
    refine ⟨t', L', live', ?_, hrep', hval'.trans hval1, hbuckets'.trans hbuckets1, fun j => ?_⟩
    · rw [Ihash.traverseFrom, (h.holds.linked i).cell_eq, hchain, Option.bind_some, hloop,
        flatMap_congr hother]
      rfl
    · rw [hlists]
      by_cases hj : j = i
      · subst hj
        rw [if_neg hi, if_pos mem_cons_self, update_self]
      · simp [mem_cons, hj, false_or]

/-- A traversal visits the elements of the table, and leaves those that the callback has not
removed. -/
theorem Rep.traverse (h : t.Rep L live) :
    ∃ t' L', t.traverse drop = some (t.elems L, t') ∧
      t'.Rep L' (live.filter fun e => drop e = false) ∧ t'.val = t.val := by
  obtain ⟨t', L', live', hloop, hrep, hval, hbuckets, hlists⟩ :=
    h.traverseFrom drop (@nodup_range t.buckets)
  refine ⟨t', L', hloop, ?_, hval⟩
  have hlive : live' = live.filter fun e => drop e = false := by
    ext e
    obtain ⟨i, hi⟩ : ∃ i, i = (t.val e).toNat % t.buckets := ⟨_, rfl⟩
    have hlt : i < t.buckets := hi ▸ mod_lt _ (zero_lt_of_lt h.room)
    have hbefore := h.mem i e
    have hafter := hrep.mem i e
    rw [hval, hbuckets, ← hi, and_iff_left rfl, hlists, if_pos (mem_range.mpr hlt)] at hafter
    rw [← hi, and_iff_left rfl] at hbefore
    rw [← hafter, mem_filter, hbefore, Finset.mem_filter, Bool.not_eq_true']
  rwa [hlive] at hrep

end Traverse

section Runs

variable [DecidableEq K] (key : ι → K) (hash : K → UInt32)

/-- A table that is the set of the live elements: it counts them, finds those with a key and
walks through all of them, each once. -/
structure Refines (t : Ihash ι) (live : Finset ι) : Prop where
  size : t.entries = live.card
  found : ∀ k, ∃ r, t.lookup key hash k = some r ∧ (r.isSome ↔ ∃ e ∈ live, key e = k) ∧
    ∀ e, r = some e → e ∈ live ∧ key e = k
  lookup : ∀ k, ∃ l, t.lookup key hash k = some l.head? ∧ Steps (t.nextkeq key) l.head? l ∧
    l.Nodup ∧ ∀ e, e ∈ l ↔ e ∈ live ∧ key e = k
  walk : ∃ l, Steps (fun e => some (t.next e)) t.first l ∧ l.Nodup ∧ ∀ e, e ∈ l ↔ e ∈ live
  traverse : ∀ drop, ∃ l t', t.traverse drop = some (l, t') ∧ l.Nodup ∧ ∀ e, e ∈ l ↔ e ∈ live

variable {key hash}

theorem Rep.refines (h : t.Rep L live) (hkeys : ∀ e ∈ live, t.val e = hash (key e)) :
    t.Refines key hash live where
  size := h.entries
  found k := by
    obtain ⟨l, hlookup, -, -, hmem⟩ := h.lookup_eq hkeys k
    refine ⟨l.head?, hlookup, ?_, fun e he => (hmem e).mp (mem_of_mem_head? he)⟩
    rw [isSome_head?]
    constructor
    · intro hne
      obtain ⟨e, he⟩ := exists_mem_of_ne_nil l hne
      exact ⟨e, (hmem e).mp he⟩
    · rintro ⟨e, he⟩
      exact ne_nil_of_mem ((hmem e).mpr he)
  lookup k := h.lookup_eq hkeys k
  walk := ⟨t.elems L, h.steps_next, h.nodup_elems, h.mem_elems⟩
  traverse drop := by
    obtain ⟨t', -, htraverse, -, -⟩ := h.traverse drop
    exact ⟨t.elems L, t', htraverse, h.nodup_elems, h.mem_elems⟩

/-- An insertion is made while the largest table has room. -/
def Fits (r : Run (Held ι) (Op ι) Unit) : Op ι → Prop
  | .insert _ => r.state.live.card + 1 < maxBuckets
  | .remove _ | .traverse _ | .clear => True

variable (key hash) in
/-- No operation has failed, and the table holds the elements under the hashes of their
keys. -/
def Inv (r : Run (Held ι) (Op ι) Unit) : Prop :=
  ∃ t L, r.state.table = some t ∧ t.Rep L r.state.live ∧ ∀ e ∈ r.state.live, t.val e = hash (key e)

omit [DecidableEq K] in
theorem inv_start (t : Ihash ι) : Inv key hash t.start := by
  obtain ⟨t', hinit, hrep⟩ := rep_init t
  exact ⟨t', _, hinit, hrep, fun e he => absurd he (Finset.notMem_empty e)⟩

omit [DecidableEq K] in
theorem inv_next (r : Run (Held ι) (Op ι) Unit) (op : Op ι) (h : Inv key hash r)
    (hop : Allowed r op ∧ Fits r op) : Inv key hash (r.next (step key hash) op) := by
  obtain ⟨t, L, htable, hrep, hkeys⟩ := h
  cases op with
  | insert e =>
    obtain ⟨t', L', hinsert, hrep', hval⟩ := hrep.insertVal (hash (key e)) hop.1 hop.2
    refine ⟨t', L', ?_, hrep', fun x hx => ?_⟩
    · change r.state.table.bind _ = _
      rw [htable]
      exact hinsert
    · rw [hval]
      rcases Finset.mem_insert.mp hx with rfl | hx
      · exact update_self _ _ _
      · have hne : x ≠ e := fun heq => hop.1 (heq ▸ hx)
        rw [update_of_ne hne]
        exact hkeys x hx
  | remove e =>
    obtain ⟨l1, l2, hi⟩ := append_of_mem ((hrep.mem _ e).mpr ⟨hop.1, rfl⟩)
    refine ⟨t.remove e, _, ?_, hrep.remove hi, fun x hx => hkeys x (Finset.mem_of_mem_erase hx)⟩
    change r.state.table.map _ = _
    rw [htable]
    rfl
  | traverse drop =>
    obtain ⟨t', L', htraverse, hrep', hval⟩ := hrep.traverse drop
    refine ⟨t', L', ?_, hrep', fun x hx => ?_⟩
    · change r.state.table.bind _ = _
      rw [htable, Option.bind_some, htraverse]
      rfl
    · rw [hval]
      exact hkeys x (Finset.mem_of_mem_filter x hx)
  | clear =>
    obtain ⟨t', hinit, hrep'⟩ := rep_init t
    refine ⟨t', _, ?_, hrep', fun e he => absurd he (Finset.notMem_empty e)⟩
    change r.state.table.bind _ = _
    rw [htable]
    exact hinit

/-- In every run, no operation fails and the table is the set of the live elements. -/
theorem refines_take (t : Ihash ι) {ops : List (Op ι)}
    (h : Run.Guarded (step key hash) (fun r op => Allowed r op ∧ Fits r op)
      t.start ops) :
    ∃ t', (t.start.take (step key hash) ops).state.table = some t' ∧
      t'.Refines key hash (t.start.take (step key hash) ops).state.live := by
  obtain ⟨t', L, htable, hrep, hkeys⟩ := Run.invariant_take (inv_start t) inv_next h
  exact ⟨t', htable, hrep.refines hkeys⟩

end Runs

end Ihash

end SelfCertifyingFS.Async
