import Sfs.Async.CbufRuns
import Sfs.Authd.FileCursorRuns

/-!
# Line reads

`aios` reads a descriptor into a circular buffer while a read is pending, and gives the
callback of a line read the next line of the buffer without its end. The bytes that the
descriptor will give are part of the state. Whatever the reads give at a time, the lines
delivered are those of the input in order, up to the first that does not fit into the buffer.
A carriage return before the end of a line is left out unless it is all of the line;
`suio_getline` leaves it out there too.
-/

namespace SelfCertifyingFS.Async

section

open Foundations Authd

namespace Cbuf

/-- How many of the regions of `iniov` are used. -/
def iniovcnt (c : Cbuf) : ℕ :=
  if c.empty || decide (c.start < c.stop) then 1 + if c.start ≠ 0 then 1 else 0
  else if c.start ≠ c.stop then 1 else 0

/-- How many bytes a read into these regions may give. -/
def offered (c : Cbuf) : ℕ := ([c.iniov.1.size, c.iniov.2.size].take c.iniovcnt).sum

end Cbuf

/-- Line input: the buffer, whether a line read is pending, the end of the input and its
error, the lines delivered, and the bytes still to be read. -/
structure Aios where
  inb : Cbuf
  pending : Bool
  eof : Bool
  err : ℕ
  delivered : List Bytes
  rest : Bytes

/-- What an attempt to read finds: up to so many bytes and one more, or nothing yet. -/
inductive Arrival
  | bytes (k : ℕ)
  | eagain

namespace Aios

/-- The error number of a line that is too long. -/
def efbig : ℕ := 27

/-- A new stream with a buffer of `n` bytes. -/
def new (buf : Memory) (n : ℕ) (input : Bytes) : Aios := ⟨.new buf n, false, false, 0, [], input⟩

def fail (s : Aios) (e : ℕ) : Aios :=
  { s with eof := true, err := if e ≠ 0 then e else s.err, pending := false }

variable (again : List Bytes → Bool)

/-- The line goes to the callback, which may set up the next read. -/
def mkrcb (s : Aios) (line : Bytes) : Aios :=
  { s with
    delivered := s.delivered ++ [line]
    pending := again (s.delivered ++ [line]) && !s.eof && decide (s.err = 0) }

def rline (s : Aios) : Option (Bool × Aios) :=
  let lfp := s.inb.find newline
  if lfp < 0 then some (false, if s.inb.space = 0 then s.fail efbig else s)
  else
    (s.inb.copyout (sizeOfInt (lfp + 1))).map fun r =>
      let m := r.1
      let len := if 1 < lfp ∧ m[lfp.toNat - 1]? = some carriageReturn then lfp.toNat - 1
        else lfp.toNat
      (true, { s with inb := r.2 }.mkrcb again (m.take len))

/-- The function that looks for what the pending read wants; without one it finds nothing. -/
def infn (s : Aios) : Option (Bool × Aios) := if s.pending then s.rline again else some (false, s)

/-- The loop of `input`. -/
def inputLoop : ℕ → Aios → Option Aios
  | 0, _ => none
  | bound + 1, s => (s.infn again).bind fun r => if r.1 then inputLoop bound r.2 else some r.2

/-- What `readv` gives, and the buffer with it. -/
def doinput (s : Aios) (k : ℕ) : Option (ℕ × Aios) :=
  let got := s.rest.take (min (k + 1) s.inb.offered)
  if 0 < got.length then
    (s.inb.write got).map fun inb =>
      (got.length, { s with inb := inb, rest := s.rest.drop got.length })
  else some (0, s)

def input (s : Aios) : Arrival → Option Aios
  | .eagain => inputLoop again (s.inb.size + 1) s
  | .bytes k => (s.doinput k).bind fun r =>
    if r.1 = 0 then
      (r.2.infn again).bind fun i =>
        if i.1 then inputLoop again (i.2.inb.size + 1) i.2 else some (i.2.fail 0)
    else inputLoop again (r.2.inb.size + 1) r.2

/-- What a program and the descriptor do: a line read is asked for, or there is input. -/
inductive Op
  | readline (a : Arrival)
  | ready (a : Arrival)

/-- A read is refused while another one is pending. Input is looked for while a read is. -/
def exec (s : Aios) : Op → Option Aios
  | .readline a =>
    if s.pending then none
    else if s.eof || decide (s.err ≠ 0) then some s
    else { s with pending := true }.input again a
  | .ready a => if s.pending then s.input again a else some s

end Aios

end

open Foundations Authd List Option
open Bool hiding not_or
open Or (inl inr)

namespace Cbuf

variable {c : Cbuf} {q : ByteQueue}

/-- A buffer that has not been resized or cleared: its flag is right, and its end is a place
of the memory. -/
structure Kept (c : Cbuf) (q : ByteQueue) : Prop where
  rep : c.Rep q
  flag : c.empty = true → q.contents.length = 0
  stop : c.stop < c.buflen ∨ c.buflen = 0

theorem kept_new (buf : Memory) (n : ℕ) : (new buf n).Kept ⟨n, [], []⟩ :=
  ⟨rep_new buf n, fun _ => rfl, (Nat.eq_zero_or_pos n).symm⟩

theorem Kept.write (h : c.Kept q) {bs : Bytes}
    (hspace : q.contents.length + bs.length ≤ q.capacity) :
    ∃ c', c.write bs = some c' ∧
      c'.Kept { q with removed := [], contents := q.contents ++ bs } := by
  obtain ⟨c', hwrite, hrep⟩ := h.rep.write hspace
  suffices hkept : (c'.empty = true → (q.contents ++ bs).length = 0) ∧
      (c'.stop < c'.buflen ∨ c'.buflen = 0) from ⟨c', hwrite, hrep, hkept.1, hkept.2⟩
  rw [← h.rep.capacity] at hspace
  rw [h.rep.placed.write_eq hspace, addbytes] at hwrite
  by_cases hzero : bs.length = 0
  · rw [if_neg (not_not.mpr hzero)] at hwrite
    obtain rfl := some.inj hwrite
    refine ⟨fun hempty => ?_, h.stop⟩
    rw [length_append, hzero, h.flag hempty]
  · have hfits : bs.length ≤ { c with buf := c.buf.writeAround c.buflen c.stop bs }.space := by
      change bs.length ≤ c.space
      rw [h.rep.placed.space_eq]
      omega
    rw [if_pos hzero, if_pos hfits] at hwrite
    obtain rfl := some.inj hwrite
    have hstop := h.stop
    refine ⟨fun hempty => absurd hempty false_ne_true, ?_⟩
    dsimp only
    split <;> omega

theorem Kept.copyout (h : c.Kept q) {len : ℕ} (hlen : len ≤ q.contents.length) :
    ∃ c', c.copyout len = some (q.contents.take len, c') ∧ c'.Kept { q with
      removed := q.removed ++ q.contents.take len, contents := q.contents.drop len } := by
  have hplaced := h.rep.placed
  have hsound : c.stop = c.buflen → len = q.contents.length → len = 0 := by
    have hstop := h.stop
    have hcount := hplaced.count
    omega
  obtain ⟨c', hrem, hrep⟩ := h.rep.rembytes hlen hsound
  suffices hkept : (c'.empty = true → (q.contents.drop len).length = 0) ∧
      (c'.stop < c'.buflen ∨ c'.buflen = 0) from
    ⟨c', by rw [h.rep.copyout_eq hlen, hrem]; rfl, hrep, hkept.1, hkept.2⟩
  rw [rembytes] at hrem
  by_cases hzero : len = 0
  · rw [if_neg (not_not.mpr hzero)] at hrem
    obtain rfl := some.inj hrem
    refine ⟨fun hempty => ?_, h.stop⟩
    rw [length_drop, h.flag hempty, Nat.zero_sub]
  · rw [if_pos hzero, if_pos (by rwa [hplaced.size_eq])] at hrem
    obtain rfl := some.inj hrem
    refine ⟨fun hempty => ?_, h.stop⟩
    -- the flag is set when the start has come to the end
    have hflag :=
      (hplaced.rembytes hlen hzero fun hstop heq => hzero (hsound hstop heq)).flag hempty
    have heq : (c.start + len) % c.buflen = c.stop := of_decide_eq_true hempty
    rw [length_drop]
    dsimp only at hflag
    omega

/-- The first such byte is found, in a buffer whose places are an `int`. -/
theorem Kept.find (h : c.Kept q) (hint : q.capacity < 2 ^ 31) (b : UInt8) :
    c.find b = (q.contents.idxOf? b).elim (-1 : ℤ) fun i => (i : ℤ) := by
  apply h.rep.find
  intro i hi
  obtain ⟨hlt, -⟩ := idxOf?_eq_some_iff.mp hi
  have hcount := h.rep.placed.count
  rw [h.rep.capacity] at hcount
  refine ⟨eq_false_iff.mpr fun hempty => ?_, by omega⟩
  have hzero := h.flag hempty
  omega

theorem Placed.offered_eq {k : ℕ} (h : c.Placed k) : c.offered = c.space := by
  have hstart := h.start
  rw [h.space_eq, offered, iniovcnt, iniov]
  split
  · have hstop := h.straight ‹_›
    rcases h.stop with hle | hle <;> split <;> simp <;> omega
  · have hstop := h.wrapped ‹_›
    split <;> simp <;> omega

end Cbuf

/-- A line as `rline` delivers it. -/
def strip (l : Bytes) : Bytes :=
  if 1 < l.length ∧ l.getLast? = some carriageReturn then l.dropLast else l

/-- The lines that a buffer of `n` bytes has room for, up to the first that it has not. -/
def fitting (n : ℕ) (X : Bytes) : List Bytes :=
  (linesOf X).takeWhile fun l => decide (l.length < n)

def framed (ls : List Bytes) : Bytes := ls.flatMap fun l => l ++ [newline]

theorem linesOf_framed {ls : List Bytes} (h : ∀ l ∈ ls, newline ∉ l) (Y : Bytes) :
    linesOf (framed ls ++ Y) = ls ++ linesOf Y := by
  induction ls with
  | nil => rfl
  | cons l ls ih =>
    have hl := h l mem_cons_self
    have hframed : framed (l :: ls) ++ Y = l ++ newline :: (framed ls ++ Y) := by
      simp [framed]
    rw [hframed, (linesOf_append hl _).1, ih fun l' hl' => h l' (mem_cons_of_mem l hl')]
    rfl

/-- Nothing fits of a text that starts with `n` bytes of a line. -/
theorem fitting_eq_nil {n : ℕ} {Y : Bytes} (hY : newline ∉ Y) (hlength : n ≤ Y.length)
    (rest : Bytes) : fitting n (Y ++ rest) = [] := by
  by_cases hmem : newline ∈ rest
  · obtain ⟨l, rest, hl, rfl⟩ := exists_eq_append_sep hmem
    have hnot : newline ∉ Y ++ l := by
      rw [mem_append, not_or]
      exact ⟨hY, hl⟩
    rw [fitting, ← append_assoc, (linesOf_append hnot rest).1]
    apply takeWhile_cons_of_neg
    rw [decide_eq_true_iff, length_append]
    omega
  · have hnot : newline ∉ Y ++ rest := by
      rw [mem_append, not_or]
      exact ⟨hY, hmem⟩
    rw [fitting, (linesOf_of_notMem hnot).1]
    rfl

theorem fitting_framed {n : ℕ} {ls : List Bytes} (h : ∀ l ∈ ls, newline ∉ l ∧ l.length < n)
    (Y : Bytes) : fitting n (framed ls ++ Y) = ls ++ fitting n Y := by
  rw [fitting, linesOf_framed (fun l hl => (h l hl).1), takeWhile_append_of_pos, fitting]
  intro l hl
  exact decide_eq_true (h l hl).2

/-- The lines that `suio_getline` takes from a text one after the other. -/
def getlines : ℕ → Bytes → List Bytes
  | 0, _ => []
  | bound + 1, buf => (suioGetline buf).elim [] fun r => r.1 :: getlines bound r.2

theorem getlines_eq {bound : ℕ} {X : Bytes} (h : X.length ≤ bound) :
    getlines bound X = (linesOf X).map chomp := by
  induction bound generalizing X with
  | zero =>
    obtain rfl := eq_nil_of_length_eq_zero (Nat.le_zero.mp h)
    rfl
  | succ bound ih =>
    rcases suioGetline_cases X with ⟨hnone, hnot⟩ | ⟨l, rest, hl, rfl, hline⟩
    · rw [getlines, hnone, (linesOf_of_notMem hnot).1]
      rfl
    · rw [length_append, length_cons] at h
      rw [getlines, hline, (linesOf_append hl rest).1, elim_some,
        ih (by omega : rest.length ≤ bound)]
      rfl

/-- The two ways to leave out a carriage return differ on a line that is nothing else. -/
theorem strip_eq_chomp_iff (l : Bytes) : strip l = chomp l ↔ l ≠ [carriageReturn] := by
  rw [strip, chomp]
  by_cases hcr : l.getLast? = some carriageReturn
  · rw [if_pos hcr]
    by_cases hlong : 1 < l.length
    · rw [if_pos ⟨hlong, hcr⟩]
      refine iff_of_true rfl fun heq => ?_
      rw [heq] at hlong
      exact absurd hlong (lt_irrefl 1)
    · have hone : l = [carriageReturn] := by
        cases l with
        | nil => cases hcr
        | cons b l =>
          obtain rfl := eq_nil_of_length_eq_zero (by simpa using hlong : l.length = 0)
          exact congrArg (· :: []) (some.inj hcr)
      refine iff_of_false (fun heq => ?_) (not_not.mpr hone)
      rw [hone] at heq
      cases heq
  · rw [if_neg hcr, if_neg fun h => hcr h.2]
    refine iff_of_true rfl fun heq => hcr ?_
    rw [heq]
    rfl

/-- When the lines delivered are those that `suio_getline` takes. -/
theorem map_strip_fitting_iff (n : ℕ) (X : Bytes) :
    (fitting n X).map strip = getlines X.length X ↔
      ∀ l ∈ linesOf X, l ≠ [carriageReturn] ∧ l.length < n := by
  rw [getlines_eq le_rfl]
  constructor
  · intro h
    have hwhole : fitting n X = linesOf X := by
      apply (List.takeWhile_prefix _).eq_of_length
      have hlength := congrArg length h
      rwa [length_map, length_map] at hlength
    intro l hl
    rw [hwhole] at h
    refine ⟨(strip_eq_chomp_iff l).mp (map_inj_left.mp h l hl), ?_⟩
    exact of_decide_eq_true (takeWhile_eq_self_iff.mp hwhole l hl)
  · intro h
    have hwhole : fitting n X = linesOf X :=
      takeWhile_eq_self_iff.mpr fun l hl => decide_eq_true (h l hl).2
    rw [hwhole]
    exact map_congr_left fun l hl => (strip_eq_chomp_iff l).mpr (h l hl).1

namespace Aios

variable {again : List Bytes → Bool} {n : ℕ} {X : Bytes} {s : Aios} {ls : List Bytes}
  {q : ByteQueue}

/-- Line input in the middle of a text: the lines `ls` have been delivered, what is in the
buffer comes next, and then what is still to be read. At the end no other line fits. -/
structure Reading (n : ℕ) (X : Bytes) (s : Aios) (ls : List Bytes) (q : ByteQueue) : Prop where
  kept : s.inb.Kept q
  capacity : q.capacity = n
  lines : ∀ l ∈ ls, newline ∉ l ∧ l.length < n
  text : X = framed ls ++ (q.contents ++ s.rest)
  delivered : s.delivered = ls.map strip
  ended : s.eof = true → fitting n (q.contents ++ s.rest) = []
  pending : s.pending = true → s.eof = false
  err : s.eof = false → s.err = 0

theorem reading_new (buf : Memory) (n : ℕ) (X : Bytes) : Reading n X (new buf n X) [] ⟨n, [], []⟩ :=
  ⟨Cbuf.kept_new buf n, rfl, fun _ hl => absurd hl not_mem_nil, rfl, rfl,
    fun heof => absurd heof false_ne_true, fun _ => rfl, fun _ => rfl⟩

section

variable (h : Reading n X s ls q)

include h

theorem Reading.fail (e : ℕ) (hended : fitting n (q.contents ++ s.rest) = []) :
    Reading n X (s.fail e) ls q :=
  ⟨h.kept, h.capacity, h.lines, h.text, h.delivered, fun _ => hended,
    fun hpending => absurd hpending false_ne_true, fun heof => absurd heof.symm
      false_ne_true⟩

/-- Without the end of a line, none is delivered; a buffer that is full then ends the input. -/
theorem Reading.rline_of_notMem (hn : n < 2 ^ 31) (hnot : newline ∉ q.contents) :
    s.rline again = some (false, if s.inb.space = 0 then s.fail efbig else s) := by
  have hfind : s.inb.find newline = -1 := by
    rw [h.kept.find (h.capacity ▸ hn), idxOf?_eq_none_iff.mpr hnot, elim_none]
  rw [rline, hfind]
  rfl

theorem Reading.full (hnot : newline ∉ q.contents) (hspace : s.inb.space = 0) :
    fitting n (q.contents ++ s.rest) = [] := by
  apply fitting_eq_nil hnot
  rw [h.kept.rep.placed.space_eq, h.kept.rep.capacity, h.capacity] at hspace
  omega

end

theorem idxOf?_append_sep {l : Bytes} (hl : newline ∉ l) (more : Bytes) :
    (l ++ newline :: more).idxOf? newline = some l.length := by
  have hfirst : (newline :: more).idxOf? newline = some 0 :=
    idxOf?_eq_some_iff.mpr
      ⟨Nat.zero_lt_succ _, rfl, fun j hj => absurd hj (Nat.not_lt_zero j)⟩
  have happend : (l ++ newline :: more).idxOf? newline = (l.idxOf? newline).or
      (((newline :: more).idxOf? newline).map (· + l.length)) := findIdx?_append
  rw [happend, idxOf?_eq_none_iff.mpr hl, hfirst, none_or, map_some, Nat.zero_add]

/-- The end of a line as `rline` cuts it off. -/
theorem take_line (l : Bytes) :
    (l ++ [newline]).take (if 1 < (l.length : ℤ) ∧
      (l ++ [newline])[(l.length : ℤ).toNat - 1]? = some carriageReturn
        then (l.length : ℤ).toNat - 1 else (l.length : ℤ).toNat) = strip l := by
  rw [Int.toNat_natCast, strip]
  by_cases hlong : 1 < l.length
  · have hlast : (l ++ [newline])[l.length - 1]? = l.getLast? := by
      rw [getElem?_append_left (by omega), getLast?_eq_getElem?]
    rw [hlast]
    by_cases hcr : l.getLast? = some carriageReturn
    · rw [if_pos ⟨by omega, hcr⟩, if_pos ⟨hlong, hcr⟩,
        take_append_of_le_length (Nat.sub_le _ _), dropLast_eq_take]
    · rw [if_neg fun h => hcr h.2, if_neg fun h => hcr h.2, take_left]
  · rw [if_neg fun h => hlong (by omega), if_neg fun h => hlong h.1, take_left]

section

variable (h : Reading n X s ls q) (hn : n < 2 ^ 31)

include h hn

theorem Reading.rline_line {l more : Bytes} (hl : newline ∉ l)
    (hq : q.contents = l ++ newline :: more) (heof : s.eof = false) :
    ∃ inb q', s.rline again = some (true, { s with inb := inb }.mkrcb again (strip l)) ∧
      q'.contents = more ∧
      Reading n X ({ s with inb := inb }.mkrcb again (strip l)) (ls ++ [l]) q' := by
  have hlength : q.contents.length = l.length + 1 + more.length := by
    rw [hq, length_append, length_cons]
    omega
  have hcount := h.kept.rep.placed.count
  rw [h.kept.rep.capacity, h.capacity] at hcount
  have hfind : s.inb.find newline = l.length := by
    rw [h.kept.find (h.capacity ▸ hn), hq, idxOf?_append_sep hl, elim_some]
  have hsize : sizeOfInt (l.length + 1) = l.length + 1 :=
    Cbuf.sizeOfInt_natCast (by omega : l.length + 1 < 2 ^ 31)
  obtain ⟨inb, hcopy, hkept⟩ := h.kept.copyout (by omega : l.length + 1 ≤ q.contents.length)
  have happend : q.contents = (l ++ [newline]) ++ more := by
    rw [hq, append_assoc, singleton_append]
  have hlen : (l ++ [newline]).length = l.length + 1 := length_append
  have htake : q.contents.take (l.length + 1) = l ++ [newline] := by
    rw [happend, take_left' hlen]
  have hdrop : q.contents.drop (l.length + 1) = more := by
    rw [happend, drop_left' hlen]
  refine ⟨inb, _, ?_, hdrop, hkept, h.capacity, ?_, ?_, ?_, ?_, ?_, ?_⟩
  · rw [rline, hfind, if_neg (by omega), hsize, hcopy, htake, map_some]
    dsimp only
    rw [take_line]
  · intro l' hl'
    rcases mem_append.mp hl' with hold | hnew
    · exact h.lines l' hold
    · obtain rfl := mem_singleton.mp hnew
      exact ⟨hl, by omega⟩
  · have hframed : framed (ls ++ [l]) = framed ls ++ (l ++ [newline]) := by
      simp [framed]
    rw [h.text, hframed, hdrop, happend]
    simp only [append_assoc]
    rfl
  · rw [h.delivered, map_append]
    rfl
  · intro htrue
    exact absurd (heof.symm.trans htrue) false_ne_true
  · exact fun _ => heof
  · exact h.err

/-- A client that always asks for the next line has a read pending until the input ends. -/
def Active (again : List Bytes → Bool) (s : Aios) : Prop :=
  (∀ ls, again ls = true) → s.pending = true ∨ s.eof = true

/-- What one turn of the loop does: it delivers the first line of the buffer, or finds none
that is wanted. -/
theorem Reading.infn_cases :
    (∃ s' ls' q', s.infn again = some (true, s') ∧ Reading n X s' ls' q' ∧ s'.rest = s.rest ∧
      q'.contents.length < q.contents.length ∧ newline ∈ q.contents ∧ Active again s') ∨
    ∃ s', s.infn again = some (false, s') ∧ Reading n X s' ls q ∧ s'.rest = s.rest ∧
      (s'.pending = true → newline ∉ q.contents) ∧
      (s.pending = true ∨ s.eof = true → s'.pending = true ∨ s'.eof = true) ∧
      (s.pending = true → newline ∉ q.contents) := by
  rw [infn]
  by_cases hpending : s.pending = true
  · rw [if_pos hpending]
    have heof := h.pending hpending
    by_cases hmem : newline ∈ q.contents
    · obtain ⟨l, more, hl, hq⟩ := exists_eq_append_sep hmem
      obtain ⟨inb, q', hline, hmore, hreading⟩ := h.rline_line hn hl hq heof
      refine inl ⟨_, _, q', hline, hreading, rfl, ?_, hmem, fun hagain => inl ?_⟩
      · rw [hmore, hq, length_append, length_cons]
        omega
      · change (again _ && !s.eof && decide (s.err = 0)) = true
        rw [hagain, heof, h.err heof]
        rfl
    · refine inr ⟨_, h.rline_of_notMem hn hmem, ?_⟩
      by_cases hspace : s.inb.space = 0
      · rw [if_pos hspace]
        exact ⟨h.fail efbig (h.full hmem hspace), rfl, fun _ => hmem, fun _ => inr rfl,
          fun _ => hmem⟩
      · rw [if_neg hspace]
        exact ⟨h, rfl, fun _ => hmem, id, fun _ => hmem⟩
  · rw [if_neg hpending]
    exact inr ⟨s, rfl, h, rfl, fun htrue => absurd htrue hpending, id,
      fun htrue => absurd htrue hpending⟩

theorem Reading.inputLoop {bound : ℕ} (hbound : q.contents.length < bound)
    (hactive : Active again s) :
    ∃ s' ls' q', inputLoop again bound s = some s' ∧ Reading n X s' ls' q' ∧ s'.rest = s.rest ∧
      (s'.pending = true → newline ∉ q'.contents) ∧ Active again s' := by
  induction bound generalizing s ls q with
  | zero => exact absurd hbound (Nat.not_lt_zero _)
  | succ bound ih =>
    rw [Aios.inputLoop]
    rcases h.infn_cases hn with
      ⟨s', ls', q', hinfn, hreading, hrest, hless, -, hactive'⟩ |
      ⟨s', hinfn, hreading, hrest, hsettled, hactive', -⟩
    · obtain ⟨s'', ls'', q'', hloop, hreading', hrest', hsettled, hactive''⟩ :=
        ih hreading (by omega) hactive'
      refine ⟨s'', ls'', q'', ?_, hreading', hrest'.trans hrest, hsettled, hactive''⟩
      rw [hinfn]
      exact hloop
    · refine ⟨s', ls, q, ?_, hreading, hrest, hsettled, fun hagain => hactive' (hactive hagain)⟩
      rw [hinfn]
      rfl

omit hn in
/-- What `readv` gives comes behind what is in the buffer. Nothing is given only when the
buffer is full or everything has been read. -/
theorem Reading.doinput (k : ℕ) :
    (∃ s' q' m, s.doinput k = some (m, s') ∧ m ≠ 0 ∧ Reading n X s' ls q' ∧
      s'.rest.length < s.rest.length ∧ s'.pending = s.pending ∧ s'.eof = s.eof) ∨
    s.doinput k = some (0, s) ∧ (s.inb.space = 0 ∨ s.rest = []) := by
  have hplaced := h.kept.rep.placed
  have hspace := hplaced.space_eq
  have hcapacity := h.kept.rep.capacity
  rw [Aios.doinput]
  obtain ⟨got, hgot⟩ : ∃ got, got = s.rest.take (min (k + 1) s.inb.offered) := ⟨_, rfl⟩
  have hlength : got.length = min (min (k + 1) s.inb.space) s.rest.length := by
    rw [hgot, hplaced.offered_eq, length_take]
  rw [← hgot]
  by_cases hpos : 0 < got.length
  · rw [if_pos hpos]
    obtain ⟨inb, hwrite, hkept⟩ := h.kept.write (by omega :
      q.contents.length + got.length ≤ q.capacity)
    rw [hwrite]
    have htake : got = s.rest.take got.length := by
      apply prefix_iff_eq_take.mp
      rw [hgot]
      exact take_prefix _ _
    have hrest : (q.contents ++ got) ++ s.rest.drop got.length = q.contents ++ s.rest := by
      conv_lhs => rw [htake]
      rw [append_assoc, ← htake]
      conv_rhs => rw [← take_append_drop got.length s.rest, ← htake]
    refine inl ⟨_, _, _, rfl, hpos.ne', ⟨hkept, h.capacity, h.lines, ?_, h.delivered, ?_,
      h.pending, h.err⟩, ?_, rfl, rfl⟩
    · rw [hrest]
      exact h.text
    · rw [hrest]
      exact h.ended
    · rw [length_drop]
      omega
  · rw [if_neg hpos]
    refine inr ⟨rfl, ?_⟩
    have hzero : s.inb.space = 0 ∨ s.rest.length = 0 := by omega
    exact hzero.imp_right eq_nil_of_length_eq_zero

/-- Input while a read is pending. When no line is in the buffer and a read is tried, some bytes
are read or the input ends. -/
theorem Reading.input (a : Arrival) (hpending : s.pending = true) :
    ∃ s' ls' q', s.input again a = some s' ∧ Reading n X s' ls' q' ∧
      (s'.pending = true → newline ∉ q'.contents) ∧ Active again s' ∧
      (∀ k, a = .bytes k → newline ∉ q.contents →
        s'.eof = true ∨ s'.rest.length < s.rest.length) := by
  have hactive : Active again s := fun _ => inl hpending
  cases a with
  | eagain =>
    obtain ⟨s', ls', q', hloop, hreading, -, hsettled, hactive'⟩ :=
      h.inputLoop hn (Nat.lt_succ_of_le h.kept.rep.placed.size_eq.ge) hactive
    exact ⟨s', ls', q', hloop, hreading, hsettled, hactive', fun k hk => by cases hk⟩
  | bytes k =>
    rw [Aios.input]
    rcases h.doinput k with ⟨s1, q1, m, hdo, hm, hreading1, hrest1, hpending1, heof1⟩ | ⟨hdo, hnone⟩
    · have hactive1 : Active again s1 := fun hagain => by
        rw [hpending1, heof1]
        exact hactive hagain
      obtain ⟨s', ls', q', hloop, hreading, hrest, hsettled, hactive'⟩ :=
        hreading1.inputLoop hn (Nat.lt_succ_of_le hreading1.kept.rep.placed.size_eq.ge) hactive1
      refine ⟨s', ls', q', ?_, hreading, hsettled, hactive', fun _ _ _ => inr ?_⟩
      · rw [hdo, bind_some, if_neg hm]
        exact hloop
      · rwa [hrest]
    · rw [hdo, bind_some]
      rcases h.infn_cases hn with
        ⟨s1, ls1, q1, hinfn, hreading1, hrest1, -, hmem, hactive1⟩ |
        ⟨s1, hinfn, hreading1, hrest1, -, -, hnot⟩
      · obtain ⟨s', ls', q', hloop, hreading, hrest, hsettled, hactive'⟩ :=
          hreading1.inputLoop hn (Nat.lt_succ_of_le hreading1.kept.rep.placed.size_eq.ge) hactive1
        refine ⟨s', ls', q', ?_, hreading, hsettled, hactive', fun _ _ hno => absurd hmem hno⟩
        rw [hinfn]
        exact hloop
      · have hended : fitting n (q.contents ++ s1.rest) = [] := by
          rw [hrest1]
          rcases hnone with hspace | hrest
          · exact h.full (hnot hpending) hspace
          · rw [hrest, append_nil, fitting, (linesOf_of_notMem (hnot hpending)).1]
            rfl
        refine ⟨s1.fail 0, ls, q, ?_, hreading1.fail 0 hended, ?_, fun _ => inr rfl,
          fun _ _ _ => inl rfl⟩
        · rw [hinfn]
          rfl
        · exact fun htrue => absurd htrue false_ne_true

/-- Line input, if no read was refused, after some operations. -/
def run (again : List Bytes → Bool) (s : Aios) (ops : List Op) : Option Aios :=
  ops.foldlM (fun s op => s.exec again op) s

/-- An operation keeps the input in the middle of the text. A read is asked for when none is
pending. -/
theorem Reading.exec {op : Op} {s' : Aios} (hexec : s.exec again op = some s') :
    ∃ ls' q', Reading n X s' ls' q' := by
  cases op with
  | readline a =>
    rw [Aios.exec] at hexec
    split at hexec
    · cases hexec
    · split at hexec
      · obtain rfl := some.inj hexec
        exact ⟨ls, q, h⟩
      · rename_i hnot hend
        rw [or_eq_true_iff, not_or] at hend
        have hstart : Reading n X { s with pending := true } ls q :=
          ⟨h.kept, h.capacity, h.lines, h.text, h.delivered, h.ended,
            fun _ => eq_false_iff.mpr hend.1, h.err⟩
        obtain ⟨s1, ls', q', hinput, hreading, -, -, -⟩ := hstart.input hn a rfl
        obtain rfl := some.inj (hinput.symm.trans hexec)
        exact ⟨ls', q', hreading⟩
  | ready a =>
    rw [Aios.exec] at hexec
    split at hexec
    · obtain ⟨s1, ls', q', hinput, hreading, -, -, -⟩ := h.input hn a ‹_›
      obtain rfl := some.inj (hinput.symm.trans hexec)
      exact ⟨ls', q', hreading⟩
    · obtain rfl := some.inj hexec
      exact ⟨ls, q, h⟩

theorem Reading.run {ops : List Op} {s' : Aios}
    (hrun : run again s ops = some s') : ∃ ls' q', Reading n X s' ls' q' := by
  induction ops generalizing s ls q with
  | nil =>
    obtain rfl := some.inj hrun
    exact ⟨ls, q, h⟩
  | cons op ops ih =>
    obtain ⟨s1, hexec, hrest⟩ := bind_eq_some_iff.mp hrun
    obtain ⟨ls1, q1, hreading⟩ := h.exec hn hexec
    exact ih hreading hrest

omit hn in
theorem Reading.delivered_eq : s.delivered <+: (fitting n X).map strip ∧
    (s.eof = true → s.delivered = (fitting n X).map strip) := by
  rw [h.text, fitting_framed h.lines, map_append, h.delivered]
  refine ⟨prefix_append _ _, fun heof => ?_⟩
  rw [h.ended heof, map_nil, append_nil]

/-- The reads of a client that asks for lines all the time. -/
def reads : List ℕ → List Op
  | [] => []
  | k :: ks => .readline (.bytes k) :: ks.map fun k => .ready (.bytes k)

theorem Reading.run_ready {ks : List ℕ}
    (hsettled : s.pending = true → newline ∉ q.contents) (hactive : s.pending = true ∨ s.eof = true)
    (hlength : s.eof = true ∨ s.rest.length < ks.length) :
    ∃ s', Aios.run (fun _ => true) s (ks.map fun k => .ready (.bytes k)) = some s' ∧
      s'.eof = true := by
  induction ks generalizing s ls q with
  | nil => exact ⟨s, rfl, hlength.resolve_right (Nat.not_lt_zero _)⟩
  | cons k ks ih =>
    rw [map_cons, Aios.run, foldlM_cons]
    by_cases hpending : s.pending = true
    · obtain ⟨s1, ls1, q1, hinput, hreading, hsettled1, hactive1, hprogress⟩ :=
        h.input hn (.bytes k) hpending
      have hexec : s.exec (fun _ => true) (.ready (.bytes k)) = some s1 :=
        (if_pos hpending).trans hinput
      obtain ⟨s', hrun, heof⟩ := ih hreading hsettled1 (hactive1 fun _ => rfl) (by
        rcases hprogress k rfl (hsettled hpending) with heof | hless
        · exact inl heof
        · rw [length_cons] at hlength
          have hnot := h.pending hpending
          rcases hlength with heof | hlt
          · exact absurd (hnot.symm.trans heof) false_ne_true
          · omega)
      refine ⟨s', ?_, heof⟩
      rw [hexec]
      exact hrun
    · have hexec : s.exec (fun _ => true) (.ready (.bytes k)) = some s := if_neg hpending
      have heof := hactive.resolve_left hpending
      obtain ⟨s', hrun, heof'⟩ := ih h hsettled hactive (inl heof)
      refine ⟨s', ?_, heof'⟩
      rw [hexec]
      exact hrun

end

theorem run_reads (buf : Memory) (hn : n < 2 ^ 31) {ks : List ℕ} (hks : X.length < ks.length) :
    ∃ s, Aios.run (fun _ => true) (new buf n X) (reads ks) = some s ∧ s.eof = true := by
  cases ks with
  | nil => exact absurd hks (Nat.not_lt_zero _)
  | cons k ks =>
    have hnew := reading_new buf n X
    have hstart : Reading n X { new buf n X with pending := true } [] ⟨n, [], []⟩ :=
      ⟨hnew.kept, hnew.capacity, hnew.lines, hnew.text, hnew.delivered, hnew.ended,
        fun _ => rfl, hnew.err⟩
    obtain ⟨s1, ls1, q1, hinput, hreading, hsettled, hactive, hprogress⟩ :=
      @Reading.input (fun _ => true) _ _ _ _ _ hstart hn (.bytes k) rfl
    have hlength : s1.eof = true ∨ s1.rest.length < ks.length := by
      rcases hprogress k rfl not_mem_nil with heof | hless
      · exact inl heof
      · have hrest : s1.rest.length < X.length := hless
        rw [length_cons] at hks
        exact inr (by omega)
    obtain ⟨s', hrun, heof⟩ := hreading.run_ready hn hsettled (hactive fun _ => rfl) hlength
    refine ⟨s', ?_, heof⟩
    rw [reads, Aios.run, foldlM_cons]
    have hexec : (new buf n X).exec (fun _ => true) (.readline (.bytes k)) = some s1 := hinput
    rw [hexec]
    exact hrun

/-- The lines delivered depend on the input alone, whatever the reads give at a time and
whenever the program asks for lines. They are those that `suio_getline` takes exactly when
no line is a carriage return alone and every line is shorter than the buffer. -/
theorem lines_eq_getlines_iff (buf : Memory) (n : ℕ) (X : Bytes) (hn : n < 2 ^ 31) :
    (∃ lines, ∀ again ops s, Aios.run again (new buf n X) ops = some s →
      s.delivered <+: lines ∧ (s.eof = true → s.delivered = lines)) ∧
    ((∀ ks : List ℕ, X.length < ks.length →
        ∃ s, Aios.run (fun _ => true) (new buf n X) (reads ks) = some s ∧
          s.delivered = getlines X.length X) ↔
      ∀ l ∈ linesOf X, l ≠ [carriageReturn] ∧ l.length < n) := by
  constructor
  · refine ⟨(fitting n X).map strip, fun again ops s hrun => ?_⟩
    obtain ⟨ls, q, hreading⟩ := (reading_new buf n X).run hn hrun
    exact hreading.delivered_eq
  · rw [← map_strip_fitting_iff]
    have hall : ∀ ks, X.length < ks.length →
        ∃ s, Aios.run (fun _ => true) (new buf n X) (reads ks) = some s ∧
          s.delivered = (fitting n X).map strip := by
      intro ks hks
      obtain ⟨s, hrun, heof⟩ := run_reads buf hn hks
      obtain ⟨ls, q, hreading⟩ := (reading_new buf n X).run hn hrun
      exact ⟨s, hrun, hreading.delivered_eq.2 heof⟩
    constructor
    · intro h
      have hlength : X.length < (replicate (X.length + 1) 0).length := by
        rw [length_replicate]
        exact Nat.lt_succ_self _
      obtain ⟨s, hrun, hs⟩ := h _ hlength
      obtain ⟨s', hrun', hs'⟩ := hall _ hlength
      obtain rfl := some.inj (hrun.symm.trans hrun')
      exact hs'.symm.trans hs
    · intro h ks hks
      rw [← h]
      exact hall ks hks

/-- The default buffer and a line with a carriage return before its end. -/
theorem lines_eq_getlines_short :
    (∃ lines, ∀ again ops s,
      Aios.run again (new (fun _ => 0) 0x2000 [0x61, 0x0d, 0x0a]) ops = some s →
        s.delivered <+: lines ∧ (s.eof = true → s.delivered = lines)) ∧
    ((∀ ks : List ℕ, [0x61, 0x0d, 0x0a].length < ks.length →
        ∃ s, Aios.run (fun _ => true) (new (fun _ => 0) 0x2000 [0x61, 0x0d, 0x0a]) (reads ks) =
          some s ∧ s.delivered = getlines [0x61, 0x0d, 0x0a].length [0x61, 0x0d, 0x0a]) ↔
      ∀ l ∈ linesOf [0x61, 0x0d, 0x0a], l ≠ [carriageReturn] ∧ l.length < 0x2000) :=
  lines_eq_getlines_iff _ 0x2000 _ (by decide)

/-- An empty line that ends in a carriage return and a newline is delivered as the carriage
return. -/
theorem empty_line_not_stripped :
    ((Aios.run (fun _ => true) (new (fun _ => 0) 8 [0x0d, 0x0a]) (reads [1, 0, 0])).map
      Aios.delivered = some [[carriageReturn]]) ∧
    getlines [0x0d, 0x0a].length [0x0d, 0x0a] = [[]] := by
  constructor
  · decide
  · decide

end Aios

end SelfCertifyingFS.Async
