import Sfs.Async.Cbuf

/-!
# A circular buffer as a bounded queue

The contents are read around the circle from `start`; the bytes removed last lie before
them. Each operation does to them what it does to a queue, if it leaves the flag and the
end right: `clear` and a resize of an empty buffer do not, and after other resizes `find`
and the removal of the last byte may not.
-/

namespace SelfCertifyingFS.Async

open Foundations List Option Memory Nat
open Bool hiding decide_eq_true not_or

namespace Cbuf

/-- The numbers of a buffer that holds `k` bytes. The end may be the length of the memory,
and the flag be set, while the contents have not wrapped around. -/
structure Placed (c : Cbuf) (k : ℕ) : Prop where
  start : c.start < c.buflen ∨ c.buflen = 0 ∧ c.start = 0
  count : k ≤ c.buflen
  stop : c.stop = c.start + k ∧ c.stop ≤ c.buflen ∨ c.stop + c.buflen = c.start + k
  drained : k = 0 → c.buflen ≠ 0 → c.empty = true
  flag : c.empty = true → c.start + k = c.stop

variable {c : Cbuf} {k n : ℕ}

section

variable (h : c.Placed k)

include h

theorem Placed.straight (hbranch : (c.empty || decide (c.start < c.stop)) = true) :
    c.stop = c.start + k := by
  rcases or_eq_true_iff.mp hbranch with hempty | hlt
  · exact (h.flag hempty).symm
  · have hlt := of_decide_eq_true hlt
    have hcount := h.count
    rcases h.stop with hstop | hstop <;> omega

theorem Placed.wrapped (hbranch : ¬ (c.empty || decide (c.start < c.stop)) = true) :
    c.stop + c.buflen = c.start + k := by
  rw [or_eq_true_iff, not_or, decide_eq_true_iff] at hbranch
  rcases h.stop with hstop | hstop
  · have hzero : k = 0 := by omega
    have hbuflen : c.buflen = 0 := by
      by_contra hne
      exact hbranch.1 (h.drained hzero hne)
    omega
  · exact hstop

theorem Placed.size_eq : c.size = k := by
  rw [size]
  split
  · have hstop := h.straight ‹_›
    omega
  · have hstop := h.wrapped ‹_›
    omega

theorem Placed.space_eq : c.space = c.buflen - k := by
  rw [space]
  split
  · have hstop := h.straight ‹_›
    omega
  · have hstop := h.wrapped ‹_›
    omega

theorem Placed.stop_modEq : c.start + k ≡ c.stop [MOD c.buflen] := by
  rcases h.stop with hstop | hstop
  · rw [hstop.1]
  · rw [← hstop]
    exact Nat.add_modEq_right

theorem Placed.around_straight {j : ℕ} (hj : j ≤ k)
    (hbranch : (c.empty || decide (c.start < c.stop)) = true) :
    c.buf.around c.buflen c.start j = c.buf.readBytes c.start j := by
  have hstop := h.straight hbranch
  apply around_eq_readBytes
  have hstart := h.start
  have hcount := h.count
  rcases h.stop with hle | hle <;> omega

theorem Placed.around_wrapped (hbranch : ¬ (c.empty || decide (c.start < c.stop)) = true) :
    c.buf.around c.buflen c.start k =
      c.buf.readBytes c.start (c.buflen - c.start) ++ c.buf.readBytes 0 c.stop := by
  have hstop := h.wrapped hbranch
  have hstart := h.start
  have hcount := h.count
  have hrest : c.start + k - c.buflen = c.stop := by omega
  rw [around_eq_readBytes_append c.buf (by omega) (by omega) (by omega), hrest]

/-- The two regions of `iniov` take the bytes around the circle. -/
theorem Placed.write_eq {bs : Bytes} (hspace : k + bs.length ≤ c.buflen) :
    c.write bs = { c with buf := c.buf.writeAround c.buflen c.stop bs }.addbytes bs.length := by
  have hstart := h.start
  rw [write, iniov, Memory.writeAround]
  split
  · have hstop := h.straight ‹_›
    have hrest : (bs.drop (c.buflen - c.stop)).length ≤ c.start := by
      rw [length_drop]
      omega
    rw [take_of_length_le hrest]
  · have hstop := h.wrapped ‹_›
    rw [take_of_length_le (by omega : bs.length ≤ c.start - c.stop),
      take_of_length_le (by omega : bs.length ≤ c.buflen - c.stop),
      drop_of_length_le (by omega : bs.length ≤ c.start - c.stop),
      drop_of_length_le (by omega), List.take_nil]

theorem Placed.addbytes (hspace : k + n ≤ c.buflen) :
    ∃ c', c.addbytes n = some c' ∧ c'.Placed (k + n) ∧ c'.buf = c.buf ∧
      c'.buflen = c.buflen ∧ c'.start = c.start := by
  rw [Cbuf.addbytes]
  by_cases hzero : n = 0
  · subst hzero
    exact ⟨c, if_neg (not_not.mpr rfl), h, rfl, rfl, rfl⟩
  · rw [if_pos hzero, if_pos (by rw [h.space_eq]; omega)]
    refine ⟨_, rfl, ⟨h.start, hspace, ?_, fun hk => absurd hk (by omega), ?_⟩, rfl, rfl, rfl⟩
    · have hstart := h.start
      dsimp only
      rcases h.stop with hstop | hstop <;> split <;> omega
    · intro hfalse
      exact absurd hfalse false_ne_true

theorem Placed.rembytes (hn : n ≤ k) (hzero : n ≠ 0)
    (hsound : c.stop = c.buflen → n ≠ k) :
    Placed { c with
      start := (c.start + n) % c.buflen
      empty := decide ((c.start + n) % c.buflen = c.stop) } (k - n) := by
  have hstart := h.start
  have hcount := h.count
  rw [add_mod_circle (by omega)]
  obtain ⟨start, hplace⟩ : ∃ start, start =
      if c.start + n < c.buflen then c.start + n else c.start + n - c.buflen := ⟨_, rfl⟩
  rw [← hplace]
  have hstart' : start < c.buflen := by
    split at hplace <;> omega
  have hstop : c.stop = start + (k - n) ∧ c.stop ≤ c.buflen ∨
      c.stop + c.buflen = start + (k - n) := by
    rcases h.stop with hstop | hstop <;> split at hplace <;> omega
  refine ⟨Or.inl hstart', (sub_le k n).trans hcount, hstop, fun hk _ => ?_, fun hflag => ?_⟩
  · apply decide_eq_true
    omega
  · have heq : start = c.stop := of_decide_eq_true hflag
    change start + (k - n) = c.stop
    omega

theorem Placed.unrembytes (hn : k + n ≤ c.buflen) (hzero : n ≠ 0) :
    Placed { c with
      start := (if n ≤ c.start then 0 else c.buflen) + c.start - n
      empty := false } (n + k) := by
  have hstart := h.start
  obtain ⟨start, hplace⟩ : ∃ start, start =
      (if n ≤ c.start then 0 else c.buflen) + c.start - n := ⟨_, rfl⟩
  rw [← hplace]
  refine ⟨?_, (add_comm n k).trans_le hn, ?_, fun hk => absurd hk (by omega), fun hflag => ?_⟩
  · dsimp only
    split at hplace <;> omega
  · dsimp only
    rcases h.stop with hstop | hstop <;> split at hplace <;> omega
  · exact absurd hflag false_ne_true

theorem Placed.rembytes_isSome (hn : n ≤ k) : ∃ c', c.rembytes n = some c' := by
  by_cases hzero : n = 0
  · exact ⟨c, if_neg (not_not.mpr hzero)⟩
  · exact ⟨_, (if_pos hzero).trans (if_pos (by rwa [h.size_eq]))⟩

end

/-- A buffer that holds the contents of a queue and the bytes removed from it. -/
structure Rep (c : Cbuf) (q : ByteQueue) : Prop where
  placed : c.Placed q.contents.length
  capacity : c.buflen = q.capacity
  room : q.removed.length + q.contents.length ≤ c.buflen
  bytes : c.buf.around c.buflen (c.start + c.buflen - q.removed.length)
    (q.removed.length + q.contents.length) = q.removed ++ q.contents

variable {q : ByteQueue}

theorem rep_of_contents (hplaced : c.Placed q.contents.length) (hcapacity : c.buflen = q.capacity)
    (hremoved : q.removed = [])
    (hcontents : c.buf.around c.buflen c.start q.contents.length = q.contents) : c.Rep q := by
  refine ⟨hplaced, hcapacity, ?_, ?_⟩
  · rw [hremoved, length_nil, Nat.zero_add]
    exact hplaced.count
  · rw [hremoved, length_nil, Nat.zero_add, Nat.sub_zero,
      around_congr_mod c.buf Nat.add_modEq_right]
    exact hcontents

theorem rep_new (buf : Memory) (n : ℕ) : (new buf n).Rep ⟨n, [], []⟩ := by
  apply rep_of_contents _ rfl rfl rfl
  refine ⟨?_, Nat.zero_le n, Or.inl ⟨rfl, Nat.zero_le n⟩, fun _ _ => rfl, fun _ => rfl⟩
  rcases Nat.eq_zero_or_pos n with hn | hn
  · exact Or.inr ⟨hn, rfl⟩
  · exact Or.inl hn

theorem intOf_of_lt (h : n < 2 ^ 31) : intOf n = n := by
  apply Int.bmod_eq_of_le
  · have hhalf : -(((2 ^ 32) : ℤ) / 2) ≤ 0 := by norm_num
    exact hhalf.trans (Int.natCast_nonneg n)
  · omega

theorem sizeOfInt_natCast (h : n < 2 ^ 31) : sizeOfInt n = n := by
  have hlt : (n : ℤ) < 2 ^ 64 := by
    omega
  rw [sizeOfInt, Int.emod_eq_of_lt (Int.natCast_nonneg n) hlt, Int.toNat_natCast]

theorem find_wrapped (xs ys : Bytes) (b : UInt8) :
    ((xs ++ ys).idxOf? b).elim (-1) intOf =
      (xs.idxOf? b).elim ((ys.idxOf? b).elim (-1) fun p => intOf (p + xs.length)) intOf := by
  have happend : (xs ++ ys).idxOf? b = (xs.idxOf? b).or ((ys.idxOf? b).map (· + xs.length)) :=
    List.findIdx?_append
  rw [happend]
  cases xs.idxOf? b with
  | some p => rw [some_or, elim_some, elim_some]
  | none => rw [none_or, elim_none, elim_map, Function.comp_def]

/-- A buffer that is read as the contents of a queue. -/
structure View (c : Cbuf) (q : ByteQueue) : Prop where
  size : c.size = q.contents.length
  capacity : c.size + c.space = q.capacity
  regions : c.buf.readBytes c.outiov.1.base c.outiov.1.size ++
    c.buf.readBytes c.outiov.2.base c.outiov.2.size = q.contents
  bytes : ∀ n < q.contents.length, c.byteAt n = some (q.contents.getD n 0)

section

variable (h : c.Rep q)

include h

theorem Rep.around_contents : c.buf.around c.buflen c.start q.contents.length = q.contents := by
  have hbytes := h.bytes
  have hroom := h.room
  rw [around_add] at hbytes
  obtain ⟨-, hcontents⟩ := append_inj hbytes (length_around _ _ _ _)
  have hback : c.start + c.buflen - q.removed.length + q.removed.length = c.start + c.buflen := by
    omega
  rwa [hback, around_congr_mod c.buf Nat.add_modEq_right] at hcontents

theorem Rep.write {bs : Bytes} (hspace : q.contents.length + bs.length ≤ q.capacity) :
    ∃ c', c.write bs = some c' ∧ c'.Rep { q with removed := [], contents := q.contents ++ bs } := by
  have hplaced := h.placed
  rw [← h.capacity] at hspace
  rw [hplaced.write_eq hspace]
  have hplaced' : Placed { c with buf := c.buf.writeAround c.buflen c.stop bs }
      q.contents.length :=
    ⟨hplaced.start, hplaced.count, hplaced.stop, hplaced.drained, hplaced.flag⟩
  obtain ⟨c', hadd, hplaced', hbuf, hbuflen, hstart⟩ := hplaced'.addbytes hspace
  have hstop : c.stop ≤ c.buflen := by
    have hstart := hplaced.start
    rcases hplaced.stop with hstop | hstop <;> omega
  refine ⟨c', hadd, rep_of_contents ?_ (hbuflen.trans h.capacity) rfl ?_⟩
  · rwa [length_append]
  · rw [hbuf, hbuflen, hstart, length_append, around_add,
      around_congr_mod _ hplaced.stop_modEq, around_writeAround _ hstop (by omega),
      around_writeAround_before _ hplaced.stop_modEq hstop hspace, h.around_contents]

/-- Bytes removed lie before the contents. The end of the buffer must not be the end of the
memory when the last of them is removed. -/
theorem Rep.rembytes (hn : n ≤ q.contents.length)
    (hsound : c.stop = c.buflen → n = q.contents.length → n = 0) :
    ∃ c', c.rembytes n = some c' ∧ c'.Rep { q with
      removed := q.removed ++ q.contents.take n, contents := q.contents.drop n } := by
  have hplaced := h.placed
  have hroom := h.room
  have hremoved : (q.removed ++ q.contents.take n).length = q.removed.length + n := by
    rw [length_append, length_take_of_le hn]
  rw [Cbuf.rembytes]
  by_cases hzero : n = 0
  · subst hzero
    refine ⟨c, if_neg (not_not.mpr rfl), ?_⟩
    rwa [take_zero, append_nil]
  rw [if_pos hzero, if_pos (by rwa [hplaced.size_eq])]
  refine ⟨_, rfl, ?_, h.capacity, ?_, ?_⟩
  · rw [length_drop]
    exact hplaced.rembytes hn hzero fun hstop heq => hzero (hsound hstop heq)
  · rw [length_drop]
    dsimp only
    omega
  · rw [hremoved, length_drop, append_assoc, take_append_drop, ← h.bytes]
    have hcount : q.removed.length + n + (q.contents.length - n) =
        q.removed.length + q.contents.length := by omega
    rw [hcount]
    apply around_congr_mod
    apply Nat.ModEq.add_right_cancel' (q.removed.length + n)
    have hleft : (c.start + n) % c.buflen + c.buflen - (q.removed.length + n) +
        (q.removed.length + n) = (c.start + n) % c.buflen + c.buflen := by omega
    have hright : c.start + c.buflen - q.removed.length + (q.removed.length + n) =
        c.start + n + c.buflen := by omega
    rw [hleft, hright]
    exact (mod_modEq _ _).add_right _

theorem Rep.unrembytes (hn : n ≤ q.removed.length) :
    ∃ c', c.unrembytes n = some c' ∧ c'.Rep { q with
      removed := q.removed.take (q.removed.length - n)
      contents := q.removed.drop (q.removed.length - n) ++ q.contents } := by
  have hplaced := h.placed
  have hroom := h.room
  have hremoved : (q.removed.take (q.removed.length - n)).length = q.removed.length - n :=
    length_take_of_le (sub_le _ _)
  have hcontents : (q.removed.drop (q.removed.length - n) ++ q.contents).length =
      n + q.contents.length := by
    rw [length_append, length_drop]
    omega
  rw [Cbuf.unrembytes]
  by_cases hzero : n = 0
  · subst hzero
    refine ⟨c, if_neg (not_not.mpr rfl), ?_⟩
    rwa [Nat.sub_zero, take_length, drop_length]
  rw [if_pos hzero, if_pos (by rw [hplaced.space_eq]; omega)]
  refine ⟨_, rfl, ?_, h.capacity, ?_, ?_⟩
  · rw [hcontents]
    exact hplaced.unrembytes (by omega) hzero
  · dsimp only
    omega
  · rw [hremoved, hcontents, ← append_assoc, take_append_drop, ← h.bytes]
    have hcount : q.removed.length - n + (n + q.contents.length) =
        q.removed.length + q.contents.length := by omega
    rw [hcount]
    apply around_congr_mod
    split
    · have hplace : 0 + c.start - n + c.buflen - (q.removed.length - n) =
          c.start + c.buflen - q.removed.length := by omega
      rw [hplace]
    · have hplace : c.buflen + c.start - n + c.buflen - (q.removed.length - n) =
          c.start + c.buflen - q.removed.length + c.buflen := by omega
      rw [hplace]
      exact Nat.add_modEq_right

theorem Rep.copyout_eq {len : ℕ} (hlen : len ≤ q.contents.length) :
    c.copyout len = (c.rembytes len).map fun c => (q.contents.take len, c) := by
  have hplaced := h.placed
  have hbytes : c.buf.around c.buflen c.start len = q.contents.take len := by
    have hcontents := h.around_contents
    have hsplit : q.contents.length = len + (q.contents.length - len) := by omega
    rw [hsplit, around_add] at hcontents
    rw [← hcontents, take_left' (length_around _ _ _ _)]
  rw [Cbuf.copyout, if_pos (by rwa [hplaced.size_eq]), ← hbytes]
  dsimp only
  congr 1
  funext c'
  congr 1
  have hstart := hplaced.start
  have hcount := hplaced.count
  split
  · have hstop := hplaced.straight ‹_›
    rw [hplaced.around_straight hlen ‹_›, min_eq_left (by omega)]
  · split
    · rw [around_eq_readBytes_append c.buf (by omega) (by omega) (by omega),
        min_eq_right (by omega)]
      congr 2
      omega
    · rw [around_eq_readBytes c.buf (by omega), min_eq_left (by omega), append_nil]

theorem Rep.copyout {len : ℕ} (hlen : len ≤ q.contents.length)
    (hsound : c.stop = c.buflen → len = q.contents.length → len = 0) :
    ∃ c', c.copyout len = some (q.contents.take len, c') ∧ c'.Rep { q with
      removed := q.removed ++ q.contents.take len, contents := q.contents.drop len } := by
  obtain ⟨c', hrem, hrep⟩ := h.rembytes hlen hsound
  exact ⟨c', by rw [h.copyout_eq hlen, hrem]; rfl, hrep⟩

theorem Rep.resize (nbuf : Memory) (hn : q.contents.length ≤ n)
    (hsome : q.contents.length ≠ 0 ∨ n = 0) (hint : q.contents.length < 2 ^ 31) :
    ∃ c', c.resize nbuf n = some c' ∧ c'.Rep ⟨n, [], q.contents⟩ := by
  obtain ⟨c', hrem⟩ := h.placed.rembytes_isSome le_rfl
  have hcopy := h.copyout_eq le_rfl
  rw [hrem, take_length] at hcopy
  refine ⟨⟨nbuf.writeBytes 0 q.contents, n, decide ((q.contents.length : ℤ) ≠ 0), 0,
    q.contents.length⟩, ?_, ?_⟩
  · rw [Cbuf.resize, h.placed.size_eq, intOf_of_lt hint, sizeOfInt_natCast hint, hcopy]
    rfl
  apply rep_of_contents _ rfl rfl
  · rw [around_eq_readBytes _ ((Nat.zero_add _).trans_le hn)]
    exact readBytes_writeBytes nbuf 0 q.contents
  · refine ⟨?_, hn, Or.inl ⟨(Nat.zero_add _).symm, hn⟩, fun hzero hne => ?_,
      fun _ => Nat.zero_add _⟩
    · dsimp only
      omega
    · exact absurd (hsome.resolve_left (not_not.mpr hzero)) hne

theorem Rep.byteAt (hn : n < q.contents.length) : c.byteAt n = some (q.contents.getD n 0) := by
  have hcontents := h.around_contents
  rw [Cbuf.byteAt, if_pos (by rwa [h.placed.size_eq]), getD_eq_getElem _ _ hn]
  have hget : q.contents[n] = c.buf ((c.start + n) % c.buflen) := by
    rw [getElem_of_eq hcontents.symm hn]
    exact getElem_around _
  rw [hget, add_comm]

theorem Rep.find_eq (hempty : c.empty = false) (b : UInt8) :
    c.find b = (q.contents.idxOf? b).elim (-1) intOf := by
  have hcontents := h.around_contents
  have hplaced := h.placed
  have hnot : ¬ c.empty = true := by
    rw [hempty]
    exact false_ne_true
  rw [Cbuf.find, if_neg hnot]
  by_cases hlt : c.start < c.stop
  · have hbranch : (c.empty || decide (c.start < c.stop)) = true :=
      or_eq_true_iff.mpr (Or.inr (decide_eq_true hlt))
    have hstop := hplaced.straight hbranch
    rw [hplaced.around_straight le_rfl hbranch] at hcontents
    have hcount : c.stop - c.start = q.contents.length := by omega
    rw [if_pos hlt, memchr, hcount, hcontents]
  · have hbranch : ¬ (c.empty || decide (c.start < c.stop)) = true := by
      rw [or_eq_true_iff, decide_eq_true_iff]
      exact not_or.mpr ⟨hnot, hlt⟩
    rw [hplaced.around_wrapped hbranch] at hcontents
    have hstart := hplaced.start
    have hsub : ∀ p, p + c.buflen - c.start = p + (c.buflen - c.start) := by
      intro p
      omega
    rw [if_neg hlt, ← hcontents, find_wrapped, length_readBytes, memchr, memchr]
    simp only [hsub]

/-- The place found is right if it is an `int`, and if the flag is. -/
theorem Rep.find {b : UInt8}
    (hsound : ∀ i, q.contents.idxOf? b = some i → c.empty = false ∧ i < 2 ^ 31) :
    c.find b = (q.contents.idxOf? b).elim (-1 : ℤ) fun i => (i : ℤ) := by
  by_cases hempty : c.empty = true
  · rw [Cbuf.find, if_pos hempty]
    cases hfound : q.contents.idxOf? b with
    | none => rw [elim_none]
    | some i =>
      rw [(hsound i hfound).1] at hempty
      exact absurd hempty false_ne_true
  · rw [h.find_eq (eq_false_iff.mpr hempty)]
    cases hfound : q.contents.idxOf? b with
    | none => rw [elim_none, elim_none]
    | some i => rw [elim_some, elim_some, intOf_of_lt (hsound i hfound).2]

theorem Rep.view : c.View q where
  size := h.placed.size_eq
  capacity := by
    rw [h.placed.size_eq, h.placed.space_eq, ← h.capacity]
    exact Nat.add_sub_cancel' h.placed.count
  regions := by
    have hcontents := h.around_contents
    by_cases hbranch : (c.empty || decide (c.start < c.stop)) = true
    · have hstop := h.placed.straight hbranch
      rw [h.placed.around_straight le_rfl hbranch] at hcontents
      have hout : ¬ (c.stop ≤ c.start ∧ c.empty = false) := by
        rw [or_eq_true_iff, decide_eq_true_iff] at hbranch
        rintro ⟨hle, hempty⟩
        rcases hbranch with htrue | hlt
        · exact absurd (hempty.symm.trans htrue) false_ne_true
        · omega
      have hcount : c.stop - c.start = q.contents.length := by omega
      rw [outiov, if_neg hout, hcount, hcontents]
      exact append_nil _
    · rw [h.placed.around_wrapped hbranch] at hcontents
      rw [or_eq_true_iff, decide_eq_true_iff, not_or, not_lt] at hbranch
      rw [outiov, if_pos ⟨hbranch.2, eq_false_iff.mpr hbranch.1⟩]
      exact hcontents
  bytes _ hn := h.byteAt hn

end

/-- When an operation does what it should. The flag is wrong after `clear`, and after a resize
of an empty buffer; after another resize it is wrong for `find` only. A resize to the size of
the contents leaves the end where the last removal cannot be told from a full buffer. The
number of bytes a resize moves and the place that `find` gives are an `int`. -/
def Sound (c : Cbuf) (q : ByteQueue) : Op → Prop
  | .resize _ n => (q.contents.length ≠ 0 ∨ n = 0) ∧ q.contents.length < 2 ^ 31
  | .clear => c.buflen = 0
  | .write _ => True
  | .rembytes n => c.stop = c.buflen → n = q.contents.length → n = 0
  | .unrembytes _ => True
  | .find b => ∀ i, q.contents.idxOf? b = some i → c.empty = false ∧ i < 2 ^ 31
  | .byteAt _ => True
  | .copyout len => c.stop = c.buflen → len = q.contents.length → len = 0

theorem Rep.exec (h : c.Rep q) {op : Op} (hallowed : q.Allowed op) (hsound : c.Sound q op) :
    ∃ c', c.exec op = some (c', (q.exec op).2) ∧ c'.Rep (q.exec op).1 := by
  cases op with
  | resize nbuf n =>
    obtain ⟨c', hresize, hrep⟩ := h.resize nbuf hallowed hsound.1 hsound.2
    exact ⟨c', by rw [Cbuf.exec, hresize]; rfl, hrep⟩
  | clear =>
    have hzero : c.buflen = 0 := hsound
    refine ⟨c.clear, rfl, rep_of_contents ?_ h.capacity rfl rfl⟩
    exact ⟨Or.inr ⟨hzero, rfl⟩, Nat.zero_le _, Or.inl ⟨rfl, Nat.zero_le _⟩,
      fun _ hne => absurd hzero hne, fun _ => rfl⟩
  | write bs =>
    obtain ⟨c', hwrite, hrep⟩ := h.write hallowed
    exact ⟨c', by rw [Cbuf.exec, hwrite]; rfl, hrep⟩
  | rembytes n =>
    obtain ⟨c', hrem, hrep⟩ := h.rembytes hallowed hsound
    exact ⟨c', by rw [Cbuf.exec, hrem]; rfl, hrep⟩
  | unrembytes n =>
    obtain ⟨c', hunrem, hrep⟩ := h.unrembytes hallowed
    exact ⟨c', by rw [Cbuf.exec, hunrem]; rfl, hrep⟩
  | find b => exact ⟨c, by rw [Cbuf.exec, h.find hsound]; rfl, h⟩
  | byteAt n => exact ⟨c, by rw [Cbuf.exec, h.byteAt hallowed]; rfl, h⟩
  | copyout len =>
    obtain ⟨c', hcopy, hrep⟩ := h.copyout hallowed hsound
    exact ⟨c', by rw [Cbuf.exec, hcopy]; rfl, hrep⟩

/-- A buffer, if no assertion has failed, beside the queue it should be. -/
structure Beside where
  cbuf : Option Cbuf
  queue : ByteQueue

/-- An operation on both, and what each gives. -/
def step (s : Beside) (op : Op) : Beside × (Out × Out) :=
  let r := s.cbuf.bind fun c => c.exec op
  (⟨r.map Prod.fst, (s.queue.exec op).1⟩, (r.elim .aborted Prod.snd, (s.queue.exec op).2))

def fresh (buf : Memory) (n : ℕ) : Run Beside Op (Out × Out) :=
  Run.start ⟨some (new buf n), ⟨n, [], []⟩⟩

variable (r : Run Beside Op (Out × Out))

def Allowed (op : Op) : Prop := r.state.queue.Allowed op

def Inv : Prop :=
  ∃ c, r.state.cbuf = some c ∧ c.Rep r.state.queue ∧ ∀ x ∈ r.past, x.2.1 = x.2.2

theorem inv_next (op : Op) (h : Inv r)
    (hop : Allowed r op ∧ ∀ c ∈ r.state.cbuf, c.Sound r.state.queue op) : Inv (r.next step op) := by
  obtain ⟨c, hcbuf, hrep, hpast⟩ := h
  obtain ⟨c', hexec, hrep'⟩ := hrep.exec hop.1 (hop.2 c hcbuf)
  have hbind : r.state.cbuf.bind (fun c => c.exec op) = some (c', (r.state.queue.exec op).2) := by
    rw [hcbuf]
    exact hexec
  refine ⟨c', ?_, hrep', fun x hx => ?_⟩
  · change (r.state.cbuf.bind fun c => c.exec op).map Prod.fst = some c'
    rw [hbind]
    rfl
  · rcases List.mem_cons.mp hx with rfl | hx
    · change (r.state.cbuf.bind fun c => c.exec op).elim Out.aborted Prod.snd = _
      rw [hbind]
      rfl
    · exact hpast x hx

/-- In every run of operations that do what they should, a buffer is the bounded queue of its
bytes, and gives what the queue gives. -/
theorem cbuf_refines_queue (buf : Memory) (n : ℕ) (ops : List Op) (h : Run.Guarded step
      (fun r op => Allowed r op ∧ ∀ c ∈ r.state.cbuf, c.Sound r.state.queue op)
      (fresh buf n) ops) :
    ∃ c, ((fresh buf n).take step ops).state.cbuf = some c ∧
      c.View ((fresh buf n).take step ops).state.queue ∧
      ∀ x ∈ ((fresh buf n).take step ops).past, x.2.1 = x.2.2 := by
  have hstart : Inv (fresh buf n) := ⟨new buf n, rfl, rep_new buf n, fun x hx => by cases hx⟩
  obtain ⟨c, hcbuf, hrep, hpast⟩ := Run.invariant_take hstart inv_next h
  exact ⟨c, hcbuf, hrep.view, hpast⟩

/-- Bytes put in, taken out and taken back. -/
theorem cbuf_refines_queue_small :
    ∃ c, ((fresh (fun _ => 0) 4).take step
        [.write [1, 2], .rembytes 1, .unrembytes 1]).state.cbuf = some c ∧
      c.View ((fresh (fun _ => 0) 4).take step
        [.write [1, 2], .rembytes 1, .unrembytes 1]).state.queue ∧
      ∀ x ∈ ((fresh (fun _ => 0) 4).take step
        [.write [1, 2], .rembytes 1, .unrembytes 1]).past, x.2.1 = x.2.2 := by
  apply cbuf_refines_queue
  refine ⟨⟨?_, fun _ _ => trivial⟩, ⟨?_, fun c hc => ?_⟩, ⟨?_, fun _ _ => trivial⟩, trivial⟩
  · exact (by decide : 0 + 2 ≤ 4)
  · exact (by decide : 1 ≤ 2)
  · obtain rfl := some.inj hc
    intro hstop
    exact absurd (hstop : 2 = 4) (by decide)
  · exact (by decide : 1 ≤ 1)

/-- A buffer cleared is full, and so is an empty one that is resized; a byte that is there is
not found after a resize, and a buffer resized to its contents is full when all of them have
been removed. -/
theorem cbuf_not_empty :
    (Run.Guarded step Allowed (fresh (fun _ => 0) 4) [.write [7], .clear] ∧
      ((fresh (fun _ => 0) 4).take step [.write [7], .clear]).state.queue.contents = [] ∧
      ((fresh (fun _ => 0) 4).take step [.write [7], .clear]).state.cbuf.map size = some 4) ∧
    (Run.Guarded step Allowed (fresh (fun _ => 0) 4) [.resize (fun _ => 0) 8] ∧
      ((fresh (fun _ => 0) 4).take step [.resize (fun _ => 0) 8]).state.cbuf.map size = some 8) ∧
    (Run.Guarded step Allowed (fresh (fun _ => 0) 4)
        [.write [7], .resize (fun _ => 0) 8, .find 7] ∧
      (((fresh (fun _ => 0) 4).take step
        [.write [7], .resize (fun _ => 0) 8, .find 7]).past.map Prod.snd).head? =
          some (.index (-1), .index 0)) ∧
    Run.Guarded step Allowed (fresh (fun _ => 0) 4)
        [.write [7, 8], .resize (fun _ => 0) 2, .rembytes 2] ∧
      ((fresh (fun _ => 0) 4).take step
        [.write [7, 8], .resize (fun _ => 0) 2, .rembytes 2]).state.cbuf.map size = some 2 := by
  refine ⟨⟨⟨?_, trivial, trivial⟩, rfl, ?_⟩, ⟨⟨?_, trivial⟩, ?_⟩,
    ⟨⟨?_, ?_, trivial, trivial⟩, ?_⟩, ⟨?_, ?_, ?_, trivial⟩, ?_⟩
  · exact (by decide : 0 + 1 ≤ 4)
  · decide
  · exact (by decide : 0 ≤ 8)
  · decide
  · exact (by decide : 0 + 1 ≤ 4)
  · exact (by decide : 1 ≤ 8)
  · decide
  · exact (by decide : 0 + 2 ≤ 4)
  · exact (by decide : 2 ≤ 2)
  · exact (by decide : 2 ≤ 2)
  · decide

end Cbuf

end SelfCertifyingFS.Async
