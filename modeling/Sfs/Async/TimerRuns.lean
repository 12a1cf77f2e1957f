import Sfs.Async.ItreeRuns
import Sfs.Async.Timers

/-!
# Checks of the timers

The tree holds the pending timers in the order of their due times. A callback changes
this list under the loop of `timecb_check`: the timers that were due at the beginning
and are still pending stay at or behind the timer that the loop goes on with.
-/

namespace SelfCertifyingFS.Async

open Foundations List Nat Timespec Timers

namespace Timespec

/-- Nanoseconds since the epoch. -/
def ns (t : Timespec) : ℤ := t.tvSec * 1000000000 + t.tvNsec

theorem ns_inj {a b : Timespec} (h : a.ns = b.ns) : a = b := by
  obtain ⟨as, an, ha⟩ := a
  obtain ⟨bs, bn, hb⟩ := b
  simp only [ns] at h
  simp only [mk.injEq]
  omega

end Timespec

variable (a b : Timespec)

theorem tscmp_neg_iff : tscmp a b < 0 ↔ a.ns < b.ns := by
  have ha := a.valid
  have hb := b.valid
  simp only [tscmp, ns]
  split_ifs <;> omega

theorem tscmp_nonpos_iff : tscmp a b ≤ 0 ↔ a.ns ≤ b.ns := by
  have ha := a.valid
  have hb := b.valid
  simp only [tscmp, ns]
  split_ifs <;> omega

theorem tsCompare_neg_iff : tsCompare a b < 0 ↔ a.ns < b.ns := by
  simp only [tsCompare, tscmp_neg_iff]
  split_ifs <;> omega

theorem tsCompare_nonpos_iff : tsCompare a b ≤ 0 ↔ a.ns ≤ b.ns := by
  simp only [tsCompare, tscmp_neg_iff]
  split_ifs <;> omega

theorem tsCompare_pos_iff : 0 < tsCompare a b ↔ b.ns < a.ns := by
  simp only [tsCompare, tscmp_neg_iff]
  split_ifs <;> omega

theorem tsCompare_eq_zero_iff : tsCompare a b = 0 ↔ a = b := by
  constructor
  · intro h
    apply ns_inj
    simp only [tsCompare, tscmp_neg_iff] at h
    split_ifs at h <;> omega
  · rintro rfl
    simp [tsCompare, tscmp_neg_iff]

namespace Timers

variable {ν : Type} {ts : ν → Timespec} {fuel : ℕ}

theorem comparison_order : Comparison (order ts) where
  flip a b := by
    simp only [order, tsCompare_neg_iff, tsCompare_pos_iff]
  trans a b c := by
    simp only [order, tsCompare_nonpos_iff]
    omega

section Tree

/-- The tree holds these timers, in this order. -/
def Pending (ts : ν → Timespec) (t : Itree ν) (l : List ν) : Prop :=
  ∃ T live, Itree.Inv (order ts) live t T ∧ T.toList = l

variable {t : Itree ν} {l : List ν} {z : ν}

namespace Pending

section

variable (h : Pending ts t l)

include h

theorem nodup : l.Nodup := by
  obtain ⟨T, live, hinv, rfl⟩ := h
  exact hinv.rep.nodup

theorem sorted : l.Pairwise fun a b => (ts a).ns ≤ (ts b).ns := by
  obtain ⟨T, live, hinv, rfl⟩ := h
  refine (hinv.sorted comparison_order).le.imp fun {a b} hab => ?_
  exact (tsCompare_nonpos_iff _ _).mp hab

theorem first (hfuel : l.length < fuel) : t.first fuel = some l.head? := by
  obtain ⟨T, live, hinv, rfl⟩ := h
  exact Itree.first_spec hinv.rep hfuel.le

theorem search (hfuel : l.length < fuel) (z : ν) :
    t.search (fun n => tsCompare (ts z) (ts n)) fuel = some (l.find? (fun n => ts z = ts n)) := by
  have hfalls : Itree.Falls (fun n => tsCompare (ts z) (ts n)) l := by
    refine h.sorted.imp fun {a b} hab => ?_
    simp only [tsCompare_pos_iff, tsCompare_neg_iff]
    omega
  obtain ⟨T, live, hinv, rfl⟩ := h
  rw [Itree.search_spec hinv.rep hfalls hfuel]
  simp only [tsCompare_eq_zero_iff]

end

variable [DecidableEq ν]

theorem next {before after : List ν} (h : Pending ts t (before ++ z :: after))
    (hfuel : (before ++ z :: after).length < fuel) : t.next fuel z = some after.head? := by
  obtain ⟨T, live, hinv, hlist⟩ := h
  exact Itree.next_spec hinv.rep (hlist ▸ hfuel) hlist

theorem insert (h : Pending ts t l) (hz : z ∉ l) (hfuel : l.length < fuel) :
    ∃ t' before after, l = before ++ after ∧ t.itreeInsert (order ts) fuel z = some t' ∧
      Pending ts t' (before ++ z :: after) := by
  obtain ⟨T, live, hinv, rfl⟩ := h
  obtain ⟨before, after, t', T', hsplit, hok, hlist, hinv', -⟩ := Itree.inv_insert hinv hz hfuel
  exact ⟨t', before, after, hsplit, hok, T', _, hinv', hlist⟩

theorem delete (h : Pending ts t l) (hz : z ∈ l) (hfuel : l.length < fuel) :
    ∃ t', t.itreeDelete fuel z = some t' ∧ Pending ts t' (l.erase z) := by
  obtain ⟨T, live, hinv, rfl⟩ := h
  obtain ⟨t', T', hok, hlist, hinv'⟩ := Itree.inv_remove hinv hz hfuel
  exact ⟨t', hok, T', _, hinv', hlist⟩

/-- The walk of `timecb_remove` ends: at the timer, if it is reached through timers that are
due at the same time, else with a panic. -/
theorem findNode {before after : List ν} {k : ℕ} (h : Pending ts t (before ++ after))
    (hfuel : (before ++ after).length < fuel) (hk : after.length < k) (z : ν) :
    (Timers.findNode ts fuel t z k after.head? = .ok () ∧ z ∈ after) ∨
      (Timers.findNode ts fuel t z k after.head? = .error .panic ∧
        ∀ l r, after = l ++ z :: r → ∃ x ∈ l, ts x ≠ ts z) := by
  induction after generalizing before k with
  | nil =>
    obtain ⟨k, rfl⟩ := exists_eq_succ_of_ne_zero (Nat.ne_of_gt hk)
    exact .inr ⟨rfl, fun l r hlr => by simp at hlr⟩
  | cons tp after ih =>
    obtain ⟨k, rfl⟩ := exists_eq_succ_of_ne_zero (Nat.ne_of_gt (zero_lt_of_lt hk))
    rw [head?_cons, Timers.findNode]
    by_cases heq : tp = z
    · rw [if_pos heq]
      exact .inl ⟨rfl, heq ▸ mem_cons_self⟩
    · rw [if_neg heq]
      by_cases hts : ts tp ≠ ts z
      · rw [if_pos hts]
        refine .inr ⟨rfl, fun l r hlr => ?_⟩
        cases l with
        | nil => exact absurd (cons.inj hlr).1 heq
        | cons x l => exact ⟨tp, (cons.inj hlr).1 ▸ mem_cons_self, hts⟩
      · have hassoc : before ++ tp :: after = (before ++ [tp]) ++ after := by simp
        rw [if_neg hts, h.next hfuel]
        rw [hassoc] at h hfuel
        rcases ih h hfuel (lt_of_succ_lt_succ hk) with ⟨hok, hmem⟩ | ⟨hpanic, hnot⟩
        · exact .inl ⟨hok, mem_cons_of_mem _ hmem⟩
        · refine .inr ⟨hpanic, fun l r hlr => ?_⟩
          cases l with
          | nil => exact absurd (cons.inj hlr).1 heq
          | cons y l =>
            obtain ⟨x, hx, hne⟩ := hnot l r (cons.inj hlr).2
            exact ⟨x, mem_cons_of_mem _ hx, hne⟩

theorem find_pending (h : Pending ts t l) (hfuel : l.length < fuel) (hz : z ∈ l) :
    Timers.findNode ts fuel t z fuel (l.find? fun n => ts z = ts n) = .ok () := by
  obtain ⟨e, he⟩ : ∃ e, l.find? (fun n => ts z = ts n) = some e := by
    rw [← Option.isSome_iff_exists, find?_isSome]
    exact ⟨z, hz, by simp⟩
  obtain ⟨hets, before, after, rfl, hbefore⟩ := find?_eq_some_iff_append.mp he
  have hets : ts z = ts e := by simpa using hets
  rw [he]
  have hwalk := h.findNode (k := fuel) hfuel (by simp at hfuel ⊢; omega) z
  rcases hwalk with ⟨hok, -⟩ | ⟨-, hnot⟩
  · exact hok
  · -- what lies between the first timer and this one is due at the same time
    have hmem : z ∈ e :: after := by
      rcases mem_append.mp hz with hz | hz
      · simpa using hbefore z hz
      · exact hz
    obtain ⟨l, r, hlr⟩ := append_of_mem hmem
    obtain ⟨x, hx, hne⟩ := hnot l r hlr
    have hsorted := (pairwise_append.mp h.sorted).2.1
    have hle : (ts e).ns ≤ (ts x).ns := by
      cases l with
      | nil => cases hx
      | cons y l =>
        obtain ⟨rfl, rfl⟩ := cons.inj hlr
        rcases mem_cons.mp hx with rfl | hx
        · exact le_rfl
        · exact rel_of_pairwise_cons hsorted (mem_append_left _ hx)
    have hge : (ts x).ns ≤ (ts z).ns := by
      rw [hlr] at hsorted
      exact (pairwise_append.mp hsorted).2.2 x hx z mem_cons_self
    exact absurd (ns_inj (le_antisymm hge (hets ▸ hle))) hne

end Pending

end Tree

/-- Between two calls: `l` are the pending timers, and nothing has happened to them. A timer
that has run or been removed does not run later. -/
structure Inv (ts : ν → Timespec) (s : Timers ν) (l : List ν) : Prop where
  pending : Pending ts s.timecbs l
  known : ∀ z ∈ l, z ∈ s.nodes
  alive : ∀ z ∈ l, z ∉ s.dead
  quiet : ∀ z ∈ l, .ran z ∉ s.log ∧ .removed z ∉ s.log
  logged : ∀ z, .ran z ∈ s.log ∨ .removed z ∈ s.log → z ∈ s.nodes
  gone : ∀ z ∈ s.dead, z ∈ s.nodes
  all : ∀ z ∈ s.nodes, z ∈ l ∨ .ran z ∈ s.log ∨ .removed z ∈ s.log
  once : s.log.Pairwise fun later earlier =>
    ∀ z, later = .ran z → earlier ≠ .ran z ∧ earlier ≠ .removed z

variable {s : Timers ν} {z : ν} {l before after : List ν}

theorem mem_middle {x : ν} : x ∈ before ++ z :: after ↔ x = z ∨ x ∈ before ++ after := by
  simp only [mem_append, mem_cons]
  tauto

theorem Inv.length_le (h : Inv ts s l) : l.length ≤ s.nodes.length :=
  (subperm_of_subset h.pending.nodup h.known).length_le

/-- The memory of a timer that is not pending is given back. -/
theorem Inv.free (h : Inv ts s l) (hz : z ∉ l) (hknown : z ∈ s.nodes) :
    Inv ts { s with dead := z :: s.dead } l := by
  refine { h with alive := fun x hx => ?_, gone := fun x hx => ?_ }
  · simp only [mem_cons, not_or]
    exact ⟨fun heq => hz (heq ▸ hx), h.alive x hx⟩
  · rcases mem_cons.mp hx with rfl | hx
    · exact hknown
    · exact h.gone x hx

/-- In a list without duplicates, what comes after an element is behind its only place. -/
theorem mem_of_pair_sublist {x : ν} (hnodup : (before ++ x :: after).Nodup)
    (h : [x, z].Sublist (before ++ x :: after)) :
    z ∈ after := by
  induction before with
  | nil =>
    cases h with
    | cons _ h => exact absurd (h.subset mem_cons_self) (nodup_cons.mp hnodup).1
    | cons_cons _ h => exact singleton_sublist.mp h
  | cons a before ih =>
    rw [cons_append, nodup_cons] at hnodup
    cases h with
    | cons _ h => exact ih hnodup.2 h
    | cons_cons _ h => exact absurd (mem_append_right before mem_cons_self) hnodup.1

theorem ahead_head (l : List ν) (hz : z ∈ l) :
    ∃ x, l.head? = some x ∧ (z = x ∨ [x, z].Sublist l) := by
  cases l with
  | nil => cases hz
  | cons x l =>
    refine ⟨x, rfl, ?_⟩
    rcases mem_cons.mp hz with rfl | hz
    · exact .inl rfl
    · exact .inr ((singleton_sublist.mpr hz).cons_cons x)

/-- The timers that wait: armed, and neither run nor removed. -/
def Waiting (s : Timers ν) (z : ν) : Prop := z ∈ s.nodes ∧ .ran z ∉ s.log ∧ .removed z ∉ s.log

theorem Inv.mem_iff (h : Inv ts s l) (z : ν) : z ∈ l ↔ s.Waiting z := by
  constructor
  · exact fun hz => ⟨h.known z hz, h.quiet z hz⟩
  · rintro ⟨hknown, hran, hremoved⟩
    rcases h.all z hknown with hz | hz | hz
    · exact hz
    · exact absurd hz hran
    · exact absurd hz hremoved

/-- The timeout is zero, or the time until the first timer rounded down. -/
theorem Inv.selwait (h : Inv ts s l) (hfuel : s.nodes.length < fuel) (clock : Timespec)
    (sigdocheck : Bool) :
    ∃ sec usec, s.selwait ts fuel clock sigdocheck = .ok (sec, usec) ∧
      ∀ z ∈ l, (sec = 0 ∧ usec = 0) ∨ sec * 1000000000 + usec * 1000 ≤ (ts z).ns - clock.ns := by
  unfold Timers.selwait
  cases sigdocheck with
  | true => exact ⟨0, 0, rfl, fun z _ => .inl ⟨rfl, rfl⟩⟩
  | false =>
    rw [h.pending.first (h.length_le.trans_lt hfuel)]
    have hsorted := h.pending.sorted
    cases l with
    | nil => exact ⟨86400, 0, rfl, by simp⟩
    | cons tp l =>
      have hfirst : ∀ z ∈ tp :: l, (ts tp).ns ≤ (ts z).ns := by
        intro z hz
        rcases mem_cons.mp hz with rfl | hz
        · exact le_rfl
        · exact rel_of_pairwise_cons hsorted hz
      simp only [head?_cons, need, bind, Except.bind]
      by_cases hlate : tscmp (ts tp) clock < 0
      · exact ⟨0, 0, by simp [hlate]; rfl, fun z _ => .inl ⟨rfl, rfl⟩⟩
      · by_cases hnsec : (ts tp).tvNsec ≥ clock.tvNsec
        · refine ⟨_, _, by simp only [if_neg hlate, if_pos hnsec]; rfl, fun z hz => .inr ?_⟩
          have := hfirst z hz
          simp only [ns] at this ⊢
          omega
        · refine ⟨_, _, by simp only [if_neg hlate, if_neg hnsec]; rfl, fun z hz => .inr ?_⟩
          have := hfirst z hz
          simp only [ns] at this ⊢
          omega

variable [DecidableEq ν]

/-- What calls do to the pending timers: new ones come, some are removed, the others keep
their order. Without a removal nothing is lost. -/
structure Grows (s : Timers ν) (l : List ν) (s' : Timers ν) (l' : List ν) : Prop where
  nodes : ∀ z ∈ s.nodes, z ∈ s'.nodes
  dead : ∀ z ∈ s'.dead, z ∈ s.dead ∨ z ∈ l ∨ z ∉ s.nodes
  keep : ∀ z ∈ l, z ∈ l' ∨ .removed z ∈ s'.log
  order : (l'.filter (· ∈ s.nodes)).Sublist l
  quiet : s'.altered = false → s.altered = false ∧ l.Sublist l'
  log : ∃ new, s'.log = new ++ s.log ∧ ∀ e ∈ new, ∃ z, e = .removed z

/-- A wrong handle, or that of the timer that is running, ends the program. -/
def Refused {α : Type} (r : Except TimerHalt α) : Prop :=
  r = .error .misuse ∨ r = .error .panic

theorem Refused.bind {α β : Type} {r : Except TimerHalt α} (h : Refused r)
    (f : α → Except TimerHalt β) : Refused (r >>= f) := by
  rcases h with rfl | rfl
  · exact .inl rfl
  · exact .inr rfl

theorem Refused.ne_ok {α : Type} {r : Except TimerHalt α} (h : Refused r) (a : α) : r ≠ .ok a := by
  rcases h with rfl | rfl <;> rintro ⟨⟩

theorem filter_filter_of_subset {due known : List ν} (h : ∀ z ∈ due, z ∈ known) (l : List ν) :
    l.filter (· ∈ due) = (l.filter (· ∈ known)).filter (· ∈ due) := by
  rw [filter_filter]
  apply filter_congr
  intro z _
  by_cases hz : z ∈ due
  · simp [h z hz]
  · simp [hz]

namespace Grows

variable {s s1 s' : Timers ν} {l l1 l' : List ν}

theorem old (h : Grows s l s' l') {z : ν} (hz : z ∈ l') (hknown : z ∈ s.nodes) : z ∈ l :=
  h.order.subset (mem_filter.mpr ⟨hz, by simpa using hknown⟩)

theorem refl (s : Timers ν) (l : List ν) : Grows s l s l where
  nodes _ := id
  dead _ := .inl
  keep _ := .inl
  order := filter_sublist
  quiet h := ⟨h, .refl l⟩
  log := ⟨[], rfl, by simp⟩

theorem trans (h : Grows s l s1 l1) (h' : Grows s1 l1 s' l') : Grows s l s' l' where
  nodes z hz := h'.nodes z (h.nodes z hz)
  dead z hz := by
    rcases h'.dead z hz with hz | hz | hz
    · exact h.dead z hz
    · by_cases hknown : z ∈ s.nodes
      · exact .inr (.inl (h.old hz hknown))
      · exact .inr (.inr hknown)
    · exact .inr (.inr fun hknown => hz (h.nodes z hknown))
  keep z hz := by
    obtain ⟨new, hnew, -⟩ := h'.log
    rcases h.keep z hz with hz | hz
    · exact h'.keep z hz
    · exact .inr (hnew ▸ mem_append_right _ hz)
  order := by
    rw [filter_filter_of_subset h.nodes]
    exact (h'.order.filter _).trans h.order
  quiet halt := by
    obtain ⟨halt1, hsub'⟩ := h'.quiet halt
    obtain ⟨halt0, hsub⟩ := h.quiet halt1
    exact ⟨halt0, hsub.trans hsub'⟩
  log := by
    obtain ⟨new, hnew, hremoved⟩ := h.log
    obtain ⟨new', hnew', hremoved'⟩ := h'.log
    refine ⟨new' ++ new, by rw [hnew', hnew, append_assoc], fun e he => ?_⟩
    rcases mem_append.mp he with he | he
    · exact hremoved' e he
    · exact hremoved e he

end Grows

section

variable (h : Inv ts s l)

include h

theorem Inv.timecb (hfuel : s.nodes.length < fuel) (hz : z ∉ s.nodes) :
    ∃ s' l', s.timecb ts fuel z = .ok s' ∧ Inv ts s' l' ∧ Grows s l s' l' ∧
      s'.nodes = z :: s.nodes := by
  have hnew : z ∉ l := fun hmem => hz (h.known z hmem)
  obtain ⟨t, before, after, rfl, hok, hpending⟩ :=
    h.pending.insert hnew (h.length_le.trans_lt hfuel)
  refine ⟨{ s with timecbs := t, nodes := z :: s.nodes }, before ++ z :: after, ?_,
    ⟨hpending, ?_, ?_, ?_, ?_, ?_, ?_, h.once⟩,
    ⟨?_, fun _ => .inl, ?_, ?_, ?_, ⟨[], rfl, by simp⟩⟩, rfl⟩
  · rw [timecb, if_neg hz, hok]
    rfl
  · intro x hx
    rcases mem_middle.mp hx with rfl | hx
    · exact mem_cons_self
    · exact mem_cons_of_mem _ (h.known x hx)
  · intro x hx
    rcases mem_middle.mp hx with rfl | hx
    · exact fun hdead => hz (h.gone x hdead)
    · exact h.alive x hx
  · intro x hx
    rcases mem_middle.mp hx with rfl | hx
    · exact ⟨fun hran => hz (h.logged x (.inl hran)), fun hrem => hz (h.logged x (.inr hrem))⟩
    · exact h.quiet x hx
  · exact fun x hx => mem_cons_of_mem _ (h.logged x hx)
  · exact fun x hx => mem_cons_of_mem _ (h.gone x hx)
  · intro x hx
    rcases mem_cons.mp hx with rfl | hx
    · exact .inl (mem_middle.mpr (.inl rfl))
    · exact (h.all x hx).imp_left fun hmem => mem_middle.mpr (.inr hmem)
  · exact fun x hx => mem_cons_of_mem _ hx
  · exact fun x hx => .inl (mem_middle.mpr (.inr hx))
  · rw [filter_append, filter_cons_of_neg (by simpa using hz), ← filter_append]
    exact filter_sublist
  · exact fun halt => ⟨halt, (sublist_cons_self z after).append_left before⟩

/-- A pending timer runs or is removed. -/
theorem Inv.event (hz : z ∈ l) {e : TimerEvent ν} (he : e = .ran z ∨ e = .removed z) {t : Itree ν}
    (ht : Pending ts t (l.erase z)) (altered : Bool) :
    Inv ts { s with timecbs := t, altered, log := e :: s.log } (l.erase z) := by
  have hold : ∀ x ∈ l.erase z, x ≠ z ∧ x ∈ l := fun x hx => h.pending.nodup.mem_erase_iff.mp hx
  have hother : ∀ x, x ≠ z → (.ran x ∈ e :: s.log ↔ .ran x ∈ s.log) ∧
      (.removed x ∈ e :: s.log ↔ .removed x ∈ s.log) := by
    rcases he with rfl | rfl <;> simp +contextual
  refine ⟨ht, fun x hx => h.known x (hold x hx).2, fun x hx => h.alive x (hold x hx).2, ?_, ?_,
    h.gone, ?_, ?_⟩
  · intro x hx
    obtain ⟨hne, hl⟩ := hold x hx
    rw [(hother x hne).1, (hother x hne).2]
    exact h.quiet x hl
  · intro x hx
    by_cases hxz : x = z
    · exact hxz ▸ h.known z hz
    · rw [(hother x hxz).1, (hother x hxz).2] at hx
      exact h.logged x hx
  · intro x hx
    by_cases hxz : x = z
    · subst hxz
      rcases he with rfl | rfl
      · exact .inr (.inl mem_cons_self)
      · exact .inr (.inr mem_cons_self)
    · rw [mem_erase_of_ne hxz, (hother x hxz).1, (hother x hxz).2]
      exact h.all x hx
  · refine h.once.cons fun e' he' x hran => ?_
    rcases he with rfl | rfl
    · obtain rfl := TimerEvent.ran.inj hran
      exact ⟨fun heq => (h.quiet z hz).1 (heq ▸ he'), fun heq => (h.quiet z hz).2 (heq ▸ he')⟩
    · cases hran

/-- A pending timer can be removed; the attempt to remove another one ends the program. -/
theorem Inv.timecbRemove (hfuel : s.nodes.length < fuel) (z : ν) :
    (z ∉ l ∧ Refused (s.timecbRemove ts fuel (some z))) ∨
      z ∈ l ∧ ∃ s', s.timecbRemove ts fuel (some z) = .ok s' ∧ Inv ts s' (l.erase z) ∧
        Grows s l s' (l.erase z) ∧ s'.nodes = s.nodes := by
  have hlen : l.length < fuel := h.length_le.trans_lt hfuel
  rw [Timers.timecbRemove]
  by_cases hmisuse : z ∉ s.nodes ∨ z ∈ s.dead
  · rw [if_pos hmisuse]
    refine .inl ⟨fun hmem => ?_, .inl rfl⟩
    rcases hmisuse with hknown | hdead
    · exact hknown (h.known z hmem)
    · exact h.alive z hmem hdead
  rw [if_neg hmisuse, h.pending.search hlen]
  by_cases hmem : z ∈ l
  · right
    obtain ⟨t, hok, hpending⟩ := h.pending.delete hmem hlen
    have hgone : z ∉ l.erase z := h.pending.nodup.not_mem_erase
    refine ⟨hmem, { s with
        timecbs := t, altered := true, dead := z :: s.dead, log := .removed z :: s.log }, ?_,
      (h.event hmem (.inr rfl) hpending true).free hgone (h.known z hmem),
      ⟨fun _ => id, ?_, ?_, filter_sublist.trans erase_sublist, nofun, [.removed z], rfl, by simp⟩,
      rfl⟩
    · simp only [need, bind, Except.bind, h.pending.find_pending hlen hmem, hok]
      rfl
    · intro x hx
      rcases mem_cons.mp hx with rfl | hx
      · exact .inr (.inl hmem)
      · exact .inl hx
    · intro x hx
      by_cases hxz : x = z
      · exact .inr (hxz ▸ mem_cons_self)
      · exact .inl ((mem_erase_of_ne hxz).mpr hx)
  · left
    -- the walk goes through pending timers only
    have hpanic : findNode ts fuel s.timecbs z fuel (l.find? fun n => ts z = ts n) =
        .error .panic := by
      cases hfind : l.find? (fun n => ts z = ts n) with
      | none =>
        obtain ⟨k, hk⟩ := exists_eq_succ_of_ne_zero (Nat.ne_of_gt (zero_lt_of_lt hfuel))
        rw [hk]
        rfl
      | some e =>
        obtain ⟨-, before, after, rfl, -⟩ := find?_eq_some_iff_append.mp hfind
        have hk : (e :: after).length < fuel := by
          rw [length_append] at hlen
          omega
        rcases h.pending.findNode hlen hk z with ⟨-, hafter⟩ | ⟨hpanic, -⟩
        · exact absurd (mem_append_right before hafter) hmem
        · exact hpanic
    refine ⟨hmem, .inr ?_⟩
    simp only [need, bind, Except.bind, hpanic]

theorem Inv.perform (hfuel : s.nodes.length < fuel) (op : TimerOp ν) :
    Refused (s.perform ts fuel op) ∨
      ∃ s' l', s.perform ts fuel op = .ok s' ∧ Inv ts s' l' ∧ Grows s l s' l' ∧
        s'.nodes.length ≤ s.nodes.length + 1 := by
  cases op with
  | timecb z =>
    by_cases hz : z ∈ s.nodes
    · exact .inl (.inl (if_pos hz))
    · obtain ⟨s', l', hok, hinv, hgrows, hnodes⟩ := h.timecb hfuel hz
      exact .inr ⟨s', l', hok, hinv, hgrows, by rw [hnodes, length_cons]⟩
  | remove tp =>
    cases tp with
    | none => exact .inr ⟨s, l, rfl, h, .refl s l, le_succ _⟩
    | some z =>
      rcases h.timecbRemove hfuel z with ⟨-, hrefused⟩ | ⟨-, s', hok, hinv, hgrows, hnodes⟩
      · exact .inl hrefused
      · exact .inr ⟨s', _, hok, hinv, hgrows, by rw [hnodes]; exact le_succ _⟩

theorem Inv.performAll (cb : List (TimerOp ν)) (hfuel : s.nodes.length + cb.length ≤ fuel) :
    Refused (cb.foldlM (Timers.perform ts fuel) s) ∨
      ∃ s' l', cb.foldlM (Timers.perform ts fuel) s = .ok s' ∧ Inv ts s' l' ∧ Grows s l s' l' ∧
        s'.nodes.length ≤ s.nodes.length + cb.length := by
  induction cb generalizing s l with
  | nil => exact .inr ⟨s, l, rfl, h, .refl s l, le_rfl⟩
  | cons op cb ih =>
    rw [length_cons] at hfuel ⊢
    rw [foldlM_cons]
    have hroom : s.nodes.length < fuel := by omega
    rcases h.perform hroom op with hrefused | ⟨s1, l1, hok, h1, hgrows, hlen⟩
    · exact .inl (hrefused.bind _)
    · rw [hok]
      rcases ih h1 (by omega) with hrefused | ⟨s', l', hok', h', hgrows', hlen'⟩
      · exact .inl hrefused
      · exact .inr ⟨s', l', hok', h', hgrows.trans hgrows', by omega⟩

end

def ranOf : TimerEvent ν → Option ν
  | .ran z => some z
  | .removed _ => none

/-- The loop of a check that began with the timers `due`, after the events `new`, goes on
with `tp`: those of `due` that are pending are not before it. -/
structure Walk (ts : ν → Timespec) (now : Timespec) (old : List (TimerEvent ν)) (due : List ν)
    (new : List (TimerEvent ν)) (s : Timers ν) (l : List ν) (tp : Option ν) : Prop where
  inv : Inv ts s l
  known : ∀ z ∈ due, z ∈ s.nodes
  log : s.log = new ++ old
  early : ∀ z, .ran z ∈ new → (ts z).ns ≤ now.ns
  accounted : ∀ z ∈ due, z ∈ l ∨ .ran z ∈ new ∨ .removed z ∈ new
  order : ((new.reverse.filterMap ranOf).filter (· ∈ due) ++ l.filter (· ∈ due)).Sublist due
  next : ∀ x, tp = some x → x ∈ l
  ahead : ∀ z ∈ due, z ∈ l → ∃ x, tp = some x ∧ (z = x ∨ [x, z].Sublist l)

section Loop

variable {now : Timespec} {old new : List (TimerEvent ν)} {due : List ν} {tp : ν}
  {before after l : List ν}

section

variable (h : Walk ts now old due new s (before ++ tp :: after) (some tp))

include h

theorem Walk.not_before (hz : z ∈ due) : z ∉ before := by
  intro hbefore
  have hnodup := h.inv.pending.nodup
  obtain ⟨x, hx, hcase⟩ := h.ahead z hz (mem_append_left _ hbefore)
  obtain rfl := Option.some.inj hx
  have hdisj := disjoint_of_nodup_append hnodup
  rcases hcase with rfl | hsub
  · exact hdisj hbefore mem_cons_self
  · exact hdisj hbefore (mem_cons_of_mem _ (mem_of_pair_sublist hnodup hsub))

theorem Walk.after_callback {l' : List ν} {s' : Timers ν} {tp' : Option ν}
    (hdue : (ts tp).ns ≤ now.ns) {t : Itree ν} (hinv : Inv ts s' l')
    (hgrows : Grows { s with timecbs := t, altered := false, log := .ran tp :: s.log }
      (before ++ after) s' l')
    (hnext : ∀ x, tp' = some x → x ∈ l')
    (hahead : ∀ z ∈ due, z ∈ l' → ∃ x, tp' = some x ∧ (z = x ∨ [x, z].Sublist l')) :
    ∃ new', Walk ts now old due new' s' l' tp' := by
  obtain ⟨removed, hlog, hremoved⟩ := hgrows.log
  have hnone : removed.reverse.filterMap ranOf = [] := by
    rw [filterMap_eq_nil_iff]
    intro e he
    obtain ⟨z, rfl⟩ := hremoved e (mem_reverse.mp he)
    rfl
  refine ⟨removed ++ .ran tp :: new, hinv, fun z hz => hgrows.nodes z (h.known z hz), ?_, ?_, ?_,
    ?_, hnext, hahead⟩
  · rw [hlog, h.log]
    simp
  · intro z hz
    rcases mem_append.mp hz with hz | hz
    · obtain ⟨x, hx⟩ := hremoved _ hz
      cases hx
    · rcases mem_cons.mp hz with heq | hz
      · obtain rfl := TimerEvent.ran.inj heq
        exact hdue
      · exact h.early z hz
  · intro z hz
    simp only [mem_append, mem_cons, TimerEvent.ran.injEq]
    rcases h.accounted z hz with hl | hran | hrem
    · rcases mem_middle.mp hl with htp | hrest
      · exact .inr (.inl (.inr (.inl htp)))
      · rcases hgrows.keep z hrest with hl' | hrem
        · exact .inl hl'
        · -- it was not removed before the callback
          rw [hlog] at hrem
          rcases mem_append.mp hrem with hrem | hrem
          · exact .inr (.inr (.inl hrem))
          · rcases mem_cons.mp hrem with heq | hrem
            · cases heq
            · exact absurd hrem (h.inv.quiet z hl).2
    · exact .inr (.inl (.inr (.inr hran)))
    · exact .inr (.inr (.inr (.inr hrem)))
  · have hbefore : before.filter (· ∈ due) = [] := by
      rw [filter_eq_nil_iff]
      intro z hz hdz
      exact h.not_before (by simpa using hdz) hz
    have hsub : (l'.filter (· ∈ due)).Sublist (after.filter (· ∈ due)) := by
      have horder := hgrows.order.filter (· ∈ due)
      rw [filter_append, hbefore] at horder
      rw [filter_filter_of_subset h.known]
      exact horder
    have hold := h.order
    rw [filter_append, hbefore, ← singleton_append, filter_append] at hold
    rw [reverse_append, reverse_cons, filterMap_append,
      filterMap_append, hnone, append_nil, filter_append, append_assoc]
    exact (((hsub.append_left _).append_left _)).trans hold

end

theorem Walk.runTimer (h : Walk ts now old due new s l (some tp)) (hdue : (ts tp).ns ≤ now.ns)
    (cb : List (TimerOp ν)) (hfuel : s.nodes.length + cb.length < fuel) :
    Refused (s.runTimer ts fuel cb tp) ∨
      ∃ tp' s' l' new', s.runTimer ts fuel cb tp = .ok (tp', s') ∧
        Walk ts now old due new' s' l' tp' ∧ s'.nodes.length ≤ s.nodes.length + cb.length := by
  have hlen : l.length < fuel := by
    have := h.inv.length_le
    omega
  have hnodup := h.inv.pending.nodup
  have hself : tp ∈ l := h.next tp rfl
  obtain ⟨before, after, rfl⟩ := append_of_mem hself
  obtain ⟨t, hdelete, ht⟩ := h.inv.pending.delete hself hlen
  have hcons : (tp :: (before ++ after)).Nodup := nodup_middle.mp hnodup
  have herase : (before ++ tp :: after).erase tp = before ++ after := by
    have hnot : tp ∉ before := fun hmem =>
      (nodup_cons.mp hcons).1 (mem_append_left _ hmem)
    rw [erase_append_right _ hnot, erase_cons_head]
  have htaken := h.inv.event hself (.inl rfl) ht false
  rw [herase] at htaken
  have hrun : s.runTimer ts fuel cb tp = (do
      let s' ← cb.foldlM (Timers.perform ts fuel)
        { s with timecbs := t, altered := false, log := .ran tp :: s.log }
      if tp ∈ s'.dead then .error .dangling
      else
        let s' := { s' with dead := tp :: s'.dead }
        if s'.altered then return (← need (s'.timecbs.first fuel), s')
        else return (after.head?, s')) := by
    simp only [runTimer, h.inv.pending.next hlen, hdelete, need]
    rfl
  rw [hrun]
  rcases htaken.performAll cb hfuel.le with hrefused | ⟨s', l', hok, hinv, hgrows, hlen'⟩
  · exact .inl (hrefused.bind _)
  · right
    have htp : tp ∉ before ++ after := (nodup_cons.mp hcons).1
    have hknown : tp ∈ s.nodes := h.inv.known tp hself
    have halive : tp ∉ s'.dead := by
      intro hdead
      rcases hgrows.dead tp hdead with hdead | hmem | hnew
      · exact h.inv.alive tp hself hdead
      · exact htp hmem
      · exact hnew hknown
    have hgone : tp ∉ l' := fun hmem => htp (hgrows.old hmem hknown)
    have hinv' := hinv.free hgone (hgrows.nodes tp hknown)
    rw [hok]
    simp only [bind, Except.bind, if_neg halive]
    have hroom : l'.length < fuel := by
      have := hinv.length_le
      simp only at hlen'
      omega
    by_cases haltered : s'.altered = true
    · -- the loop starts again with the first timer
      obtain ⟨new', hwalk⟩ := h.after_callback hdue hinv hgrows
        (fun x hx => mem_of_mem_head? hx) (fun z _ hz => ahead_head l' hz)
      refine ⟨l'.head?, _, l', new', ?_, { hwalk with inv := hinv' }, hlen'⟩
      simp only [if_pos haltered, hinv.pending.first hroom, need]
      rfl
    · -- nothing was removed, so the next timer is still there
      obtain ⟨-, hsub⟩ := hgrows.quiet (Bool.not_eq_true _ ▸ haltered)
      have hafter : after.Sublist l' := (sublist_append_right before after).trans hsub
      have hnext : ∀ x, after.head? = some x → x ∈ l' := fun x hx =>
        hafter.subset (mem_of_mem_head? hx)
      have hahead : ∀ z ∈ due, z ∈ l' →
          ∃ x, after.head? = some x ∧ (z = x ∨ [x, z].Sublist l') := by
        intro z hz hz'
        rcases mem_append.mp (hgrows.old hz' (h.known z hz)) with hbefore | hmem
        · exact absurd hbefore (h.not_before hz)
        · obtain ⟨x, hx, hcase⟩ := ahead_head after hmem
          exact ⟨x, hx, hcase.imp_right fun hpair => hpair.trans hafter⟩
      obtain ⟨new', hwalk⟩ := h.after_callback hdue hinv hgrows hnext hahead
      refine ⟨after.head?, _, l', new', ?_, { hwalk with inv := hinv' }, hlen'⟩
      rw [if_neg haltered]
      rfl

section

variable {tp : Option ν} (h : Walk ts now old due new s l tp)

include h

theorem Walk.due_cases :
    (∃ x, tp = some x ∧ Timers.due ts now s tp = .ok (some x) ∧ (ts x).ns ≤ now.ns) ∨
      (Timers.due ts now s tp = .ok none ∧ ∀ x, tp = some x → now.ns < (ts x).ns) := by
  cases tp with
  | none => exact .inr ⟨rfl, by simp⟩
  | some x =>
    have halive : x ∉ s.dead := h.inv.alive x (h.next x rfl)
    rw [Timers.due, if_neg halive]
    by_cases hx : tscmp (ts x) now ≤ 0
    · exact .inl ⟨x, rfl, by rw [if_pos hx], (tscmp_nonpos_iff _ _).mp hx⟩
    · refine .inr ⟨by rw [if_neg hx], ?_⟩
      rintro _ ⟨⟩
      rwa [tscmp_nonpos_iff, not_le] at hx

/-- Where the loop ends, none of the timers that were due is pending. -/
theorem Walk.finished (hdue : ∀ z ∈ due, (ts z).ns ≤ now.ns)
    (htp : ∀ x, tp = some x → now.ns < (ts x).ns) :
    ∀ z ∈ due, .ran z ∈ new ∨ .removed z ∈ new := by
  intro z hz
  rcases h.accounted z hz with hl | hdone
  · obtain ⟨x, hx, hcase⟩ := h.ahead z hz hl
    have hlate := htp x hx
    have hearly := hdue z hz
    rcases hcase with rfl | hsub
    · omega
    · have hpair := pairwise_pair.mp (h.inv.pending.sorted.sublist hsub)
      omega
  · exact hdone

theorem Walk.checkLoop (script : List (List (TimerOp ν)))
    (hfuel : s.nodes.length + (script.map length).sum < fuel) :
    Refused (Timers.checkLoop ts fuel now script tp s) ∨
      (∃ s' l' x new', Timers.checkLoop ts fuel now script tp s = .ok (.running s' x) ∧
        Walk ts now old due new' s' l' (some x) ∧ s'.nodes.length < fuel) ∨
      ∃ s' l' tp' new', Timers.checkLoop ts fuel now script tp s = .ok (.done s') ∧
        Walk ts now old due new' s' l' tp' ∧ (∀ x, tp' = some x → now.ns < (ts x).ns) ∧
        s'.nodes.length < fuel ∧
        s'.nodes.length ≤ s.nodes.length + (script.map length).sum := by
  induction script generalizing s l tp new with
  | nil =>
    right
    rw [Timers.checkLoop]
    rcases h.due_cases with ⟨x, rfl, hok, -⟩ | ⟨hok, hlate⟩
    · exact .inl ⟨s, l, x, new, by rw [hok]; rfl, h, hfuel⟩
    · exact .inr ⟨s, l, tp, new, by rw [hok]; rfl, h, hlate, hfuel, le_rfl⟩
  | cons cb script ih =>
    rw [map_cons, sum_cons] at hfuel ⊢
    rw [Timers.checkLoop]
    rcases h.due_cases with ⟨x, rfl, hok, hdue⟩ | ⟨hok, hlate⟩
    · have hround : s.nodes.length + cb.length < fuel := by omega
      rw [hok]
      rcases h.runTimer hdue cb hround with hrefused | ⟨tp', s', l', new', hrun, h', hlen⟩
      · exact .inl (hrefused.bind _)
      · simp only [bind, Except.bind, hrun]
        rcases ih h' (by omega) with hrefused | hrunning |
          ⟨s'', l'', tp'', new'', hdone, h'', hlate, hlt, hle⟩
        · exact .inl hrefused
        · exact .inr (.inl hrunning)
        · exact .inr (.inr ⟨s'', l'', tp'', new'', hdone, h'', hlate, hlt, by omega⟩)
    · exact .inr (.inr ⟨s, l, tp, new, by rw [hok]; rfl, h, hlate, by omega, Nat.le_add_right _ _⟩)

end

theorem Inv.walk (h : Inv ts s l) (now : Timespec) :
    Walk ts now s.log (l.filter fun z => tscmp (ts z) now ≤ 0) [] s l l.head? where
  inv := h
  known z hz := h.known z (mem_of_mem_filter hz)
  log := rfl
  early z hz := by cases hz
  accounted z hz := .inl (mem_of_mem_filter hz)
  order := by
    have heq : l.filter (· ∈ l.filter fun z => tscmp (ts z) now ≤ 0) =
        l.filter fun z => tscmp (ts z) now ≤ 0 := by
      apply filter_congr
      intro z hz
      simp [hz]
    rw [heq]
    exact .refl _
  next x hx := mem_of_mem_head? hx
  ahead z _ hz := ahead_head l hz

end Loop

/-- What a check, begun in `s0` with the timers `due`, has done when it reaches `s`. -/
structure CheckSound (ts : ν → Timespec) (fuel : ℕ) (now : Timespec) (due : List ν)
    (s0 s : Timers ν) (new : List (TimerEvent ν)) : Prop where
  log : s.log = new ++ s0.log
  /-- No timer runs twice, or after it was removed. -/
  once : s.log.Pairwise fun later earlier =>
    ∀ z, later = .ran z → earlier ≠ .ran z ∧ earlier ≠ .removed z
  early : ∀ z, .ran z ∈ new → tscmp (ts z) now ≤ 0
  /-- Those that were due at the beginning run in their order. -/
  order : ((new.reverse.filterMap ranOf).filter (· ∈ due)).Sublist due
  removable : ∀ z, s.Waiting z → ∃ s', s.timecbRemove ts fuel (some z) = .ok s'

/-- What it has done when it ends, and the timeout that is computed then. -/
structure CheckEnds (ts : ν → Timespec) (fuel : ℕ) (due : List ν) (s : Timers ν)
    (new : List (TimerEvent ν)) : Prop where
  complete : ∀ z ∈ due, .ran z ∈ new ∨ .removed z ∈ new
  timeout : ∀ clock sigdocheck, ∃ sec usec,
    s.selwait ts fuel clock sigdocheck = .ok (sec, usec) ∧ ∀ z, s.Waiting z →
      (sec = 0 ∧ usec = 0) ∨ sec * 1000000000 + usec * 1000 ≤ (ts z).ns - clock.ns

theorem Walk.sound {now : Timespec} {s0 : Timers ν} {new : List (TimerEvent ν)} {due : List ν}
    {tp : Option ν} (h : Walk ts now s0.log due new s l tp) (hfuel : s.nodes.length < fuel) :
    CheckSound ts fuel now due s0 s new where
  log := h.log
  once := h.inv.once
  early z hz := (tscmp_nonpos_iff _ _).mpr (h.early z hz)
  order := (sublist_append_left _ _).trans h.order
  removable z hz := by
    rcases h.inv.timecbRemove hfuel z with ⟨hnot, -⟩ | ⟨-, s', hok, -⟩
    · exact absurd ((h.inv.mem_iff z).mpr hz) hnot
    · exact ⟨s', hok⟩

theorem Walk.ends {now : Timespec} {old new : List (TimerEvent ν)} {due : List ν} {tp : Option ν}
    (h : Walk ts now old due new s l tp) (hfuel : s.nodes.length < fuel)
    (hdue : ∀ z ∈ due, (ts z).ns ≤ now.ns) (htp : ∀ x, tp = some x → now.ns < (ts x).ns) :
    CheckEnds ts fuel due s new where
  complete := h.finished hdue htp
  timeout clock sigdocheck := by
    obtain ⟨sec, usec, hok, hle⟩ := h.inv.selwait hfuel clock sigdocheck
    exact ⟨sec, usec, hok, fun z hz => hle z ((h.inv.mem_iff z).mpr hz)⟩

theorem Inv.timecbCheck (h : Inv ts s l) (now : Timespec) (script : List (List (TimerOp ν)))
    (hfuel : s.nodes.length + (script.map length).sum < fuel) :
    Refused (s.timecbCheck ts fuel now script) ∨
      (∃ s' x new, s.timecbCheck ts fuel now script = .ok (.running s' x) ∧
        CheckSound ts fuel now (l.filter fun z => tscmp (ts z) now ≤ 0) s s' new) ∨
      ∃ s' l' new, s.timecbCheck ts fuel now script = .ok (.done s') ∧ Inv ts s' l' ∧
        s'.nodes.length ≤ s.nodes.length + (script.map length).sum ∧
        CheckSound ts fuel now (l.filter fun z => tscmp (ts z) now ≤ 0) s s' new ∧
        CheckEnds ts fuel (l.filter fun z => tscmp (ts z) now ≤ 0) s' new := by
  have hlen : l.length < fuel := by
    have := h.length_le
    omega
  have hdue : ∀ z ∈ l.filter (fun z => tscmp (ts z) now ≤ 0), (ts z).ns ≤ now.ns := by
    intro z hz
    have hz := (mem_filter.mp hz).2
    exact (tscmp_nonpos_iff _ _).mp (by simpa using hz)
  rw [Timers.timecbCheck, h.pending.first hlen]
  rcases (h.walk now).checkLoop script hfuel with hrefused |
    ⟨s', l', x, new, hok, hwalk, hlt⟩ | ⟨s', l', tp, new, hok, hwalk, hlate, hlt, hle⟩
  · exact .inl hrefused
  · exact .inr (.inl ⟨s', x, new, hok, hwalk.sound hlt⟩)
  · exact .inr (.inr ⟨s', l', new, hok, hwalk.inv, hle, hwalk.sound hlt, hwalk.ends hlt hdue hlate⟩)

/-- The number of calls in a step of the program. -/
def calls : TimerStep ν → ℕ
  | .call _ => 1
  | .check _ script => (script.map length).sum

theorem Inv.run (h : Inv ts s l) (steps : List (TimerStep ν))
    (hfuel : s.nodes.length + (steps.map calls).sum < fuel) {s' : Timers ν}
    (hrun : s.run ts fuel steps = .ok s') :
    ∃ l', Inv ts s' l' ∧ s'.nodes.length ≤ s.nodes.length + (steps.map calls).sum := by
  induction steps generalizing s l with
  | nil =>
    obtain rfl := Except.ok.inj hrun
    exact ⟨l, h, le_rfl⟩
  | cons step steps ih =>
    rw [map_cons, sum_cons] at hfuel ⊢
    have hstep : ∃ s1 l1, s.step ts fuel step = .ok s1 ∧ Inv ts s1 l1 ∧
        s1.nodes.length ≤ s.nodes.length + calls step := by
      rw [run, foldlM_cons] at hrun
      cases step with
      | call op =>
        have hroom : s.nodes.length < fuel := by omega
        rcases h.perform hroom op with hrefused | ⟨s1, l1, hok, h1, -, hlen⟩
        · exact absurd hrun ((hrefused.bind _).ne_ok _)
        · exact ⟨s1, l1, hok, h1, hlen⟩
      | check now script =>
        simp only [calls] at hfuel
        have hroom : s.nodes.length + (script.map length).sum < fuel := by omega
        rcases h.timecbCheck now script hroom with hrefused | ⟨s1, x, new, hok, -⟩ |
          ⟨s1, l1, new, hok, h1, hlen, -⟩
        · exact absurd hrun (((hrefused.bind _).bind _).ne_ok _)
        · simp only [step, hok] at hrun
          cases hrun
        · exact ⟨s1, l1, by simp only [step, hok]; rfl, h1, hlen⟩
    obtain ⟨s1, l1, hok, h1, hlen⟩ := hstep
    rw [run, foldlM_cons, hok] at hrun
    obtain ⟨l', h', hlen'⟩ := ih h1 (by omega) hrun
    exact ⟨l', h', by omega⟩

/-- After any steps of a program a check is refused by a callback that names a timer that is
not waiting, or it runs the timers soundly; when it ends, all that were due have run or been
removed, and `select` waits no longer than until the next timer. -/
theorem timers_run (ts : ν → Timespec) (e : ν → ItreeEntry ν) (steps : List (TimerStep ν))
    (now : Timespec) (script : List (List (TimerOp ν))) (fuel : ℕ)
    (hfuel : (steps.map calls).sum + (script.map length).sum < fuel) (s0 : Timers ν)
    (hrun : (start e).run ts fuel steps = .ok s0) :
    ∃ waiting : List ν, (∀ z, z ∈ waiting ↔ s0.Waiting z) ∧ waiting.Nodup ∧
      (waiting.Pairwise fun a b => tscmp (ts a) (ts b) ≤ 0) ∧
      (s0.timecbCheck ts fuel now script = .error .misuse ∨
        s0.timecbCheck ts fuel now script = .error .panic ∨
        (∃ s x new, s0.timecbCheck ts fuel now script = .ok (.running s x) ∧
          CheckSound ts fuel now (waiting.filter fun z => tscmp (ts z) now ≤ 0) s0 s new) ∨
        ∃ s new, s0.timecbCheck ts fuel now script = .ok (.done s) ∧
          CheckSound ts fuel now (waiting.filter fun z => tscmp (ts z) now ≤ 0) s0 s new ∧
          CheckEnds ts fuel (waiting.filter fun z => tscmp (ts z) now ≤ 0) s new) := by
  have hstart : Inv ts (start e) [] := by
    refine ⟨⟨.leaf, [], ⟨⟨rfl, trivial, nodup_nil⟩, ⟨rfl, 0, .leaf⟩, .nil, fun _ =>
      ⟨.nil, .nil⟩⟩, rfl⟩, ?_, ?_, ?_, ?_, ?_, ?_, .nil⟩ <;> simp [start]
  have hlen0 : (start e).nodes.length = 0 := rfl
  obtain ⟨l, h, hlen⟩ := hstart.run steps (by omega) hrun
  refine ⟨l, h.mem_iff, h.pending.nodup,
    h.pending.sorted.imp fun {a b} hab => (tscmp_nonpos_iff _ _).mpr hab, ?_⟩
  have hroom : s0.nodes.length + (script.map length).sum < fuel := by omega
  rcases h.timecbCheck now script hroom with (he | he) | ⟨s, x, new, hok, hsound⟩ |
    ⟨s, l', new, hok, -, -, hsound, hends⟩
  · exact .inl he
  · exact .inr (.inl he)
  · exact .inr (.inr (.inl ⟨s, x, new, hok, hsound⟩))
  · exact .inr (.inr (.inr ⟨s, new, hok, hsound, hends⟩))

/-- Timer `n` is due after `n / 10` seconds. -/
def dueTens (n : ℕ) : Timespec := ⟨n / 10, 0, by decide⟩

/-- The callback of the first of three due timers cancels the second and arms another one that
is due; the callback of that one arms a timer for later. -/
theorem timers_run_cancel :
    ∃ (s0 : Timers ℕ) (waiting : List ℕ) (s : Timers ℕ) (new : List (TimerEvent ℕ)),
      (start fun _ => ⟨none, none, none, .black⟩).run dueTens 9
        [.call (.timecb 20), .call (.timecb 10), .call (.timecb 25), .call (.timecb 90)] = .ok s0 ∧
      s0.timecbCheck dueTens 9 (dueTens 20) [[.remove (some 20), .timecb 11], [.timecb 80], []] =
        .ok (.done s) ∧
      CheckSound dueTens 9 (dueTens 20)
        (waiting.filter fun z => tscmp (dueTens z) (dueTens 20) ≤ 0) s0 s new ∧
      CheckEnds dueTens 9 (waiting.filter fun z => tscmp (dueTens z) (dueTens 20) ≤ 0) s new := by
  obtain ⟨s0, hrun, s, hcheck⟩ : ∃ s0,
      (start fun _ => ⟨none, none, none, .black⟩).run dueTens 9
        [.call (.timecb 20), .call (.timecb 10), .call (.timecb 25), .call (.timecb 90)] =
          .ok s0 ∧ ∃ s, s0.timecbCheck dueTens 9 (dueTens 20)
            [[.remove (some 20), .timecb 11], [.timecb 80], []] = .ok (.done s) :=
    ⟨_, rfl, _, rfl⟩
  obtain ⟨waiting, -, -, -, he | he | ⟨s', x, new, hok, -⟩ | ⟨s', new, hok, hsound, hends⟩⟩ :=
    timers_run dueTens _ _ (dueTens 20) [[.remove (some 20), .timecb 11], [.timecb 80], []] 9
      (by decide) s0 hrun
  · cases hcheck.symm.trans he
  · cases hcheck.symm.trans he
  · cases hcheck.symm.trans hok
  · cases hcheck.symm.trans hok
    exact ⟨s0, waiting, s, new, hrun, hcheck, hsound, hends⟩

end Timers

end SelfCertifyingFS.Async
