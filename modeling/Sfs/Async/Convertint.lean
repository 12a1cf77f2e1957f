import Sfs.Foundations.Scanner

/-!
# Numbers in text

`strtoi64` of `async/convertint.C` reads a number in the syntax of C into a signed word of 64
bits, and stops at the largest such word. `convertint` stores it in an integer of any width.
-/

namespace SelfCertifyingFS.Async

open Foundations List
open UInt8 (ofNat)

def isSpace (c : UInt8) : Bool := c = 0x20 || (0x09 ≤ c && c ≤ 0x0d)

def digitValue (c : UInt8) : Option ℕ :=
  if isDigit c then some (c.toNat - 0x30)
  else if isUpper c then some (c.toNat - 0x41 + 10)
  else if isLower c then some (c.toNat - 0x61 + 10)
  else none

def int64Max : ℤ := 0x7fffffffffffffff

/-- What the loop has found: a digit at all, or too many of them. -/
inductive StrtoAny
  | none
  | digits
  | overflow
  deriving DecidableEq

/-- The limit of the accumulator and of the digit behind it, as the code computes them with
the division of C. -/
def cutoff (neg : Bool) (base : ℕ) : ℤ × ℤ :=
  if neg then ((-int64Max - 1).tdiv base, -(-int64Max - 1).tmod base)
  else (int64Max.tdiv base, int64Max.tmod base)

def strtoLoop (neg : Bool) (base : ℕ) : Bytes → ℤ → StrtoAny → ℤ × StrtoAny × Bytes
  | [], acc, any => (acc, any, [])
  | c :: s, acc, any =>
    match digitValue c with
    | none => (acc, any, c :: s)
    | some d =>
      if d ≥ base then (acc, any, c :: s)
      else if any = .overflow then strtoLoop neg base s acc any
      else if neg then
        if acc < (cutoff neg base).1 ∨ (acc = (cutoff neg base).1 ∧ d > (cutoff neg base).2) then
          strtoLoop neg base s (-int64Max - 1) .overflow
        else strtoLoop neg base s (acc * base - d) .digits
      else
        if acc > (cutoff neg base).1 ∨ (acc = (cutoff neg base).1 ∧ d > (cutoff neg base).2) then
          strtoLoop neg base s int64Max .overflow
        else strtoLoop neg base s (acc * base + d) .digits

def strtoSign : Bytes → Bool × Bytes
  | 0x2d :: s => (true, s)
  | 0x2b :: s | s => (false, s)

/-- The base that a number asks for if none is given. -/
def strtoBase (base : ℕ) (s : Bytes) : ℕ × Bytes :=
  if (base = 0 ∨ base = 16) ∧ (s.take 2 = ascii "0x" ∨ s.take 2 = ascii "0X") then (16, s.drop 2)
  else if base = 0 then (if s.head? = some 0x30 then 8 else 10, s)
  else (base, s)

/-- The value, and where the number ends in the string. -/
def strtoi64 (nptr : Bytes) (base : ℕ) : ℤ × Bytes :=
  let (neg, s) := strtoSign (nptr.dropWhile isSpace)
  let (base, s) := strtoBase base s
  let (acc, any, stop) := strtoLoop neg base s 0 .none
  (acc, if any = .none then nptr else stop)

/-- `convertint` into an unsigned integer of `w` bits; a string of C ends at its first zero. -/
def convertint (w : ℕ) (s : Bytes) : Option ℕ :=
  let cp := s.takeWhile (· ≠ 0)
  if cp = [] then none
  else
    let (res, stop) := strtoi64 cp 0
    if stop ≠ [] then none else some (res % 2 ^ w).toNat

/-- The conversion `%u`. -/
def decimal (n : ℕ) : Bytes :=
  if n = 0 then [0x30] else (Nat.digits 10 n).reverse.map fun d => ofNat (0x30 + d)

section Decimal

theorem digit_facts : ∀ d < 10, digitValue (ofNat (0x30 + d)) = some d ∧
    isDigit (ofNat (0x30 + d)) = true ∧ isSpace (ofNat (0x30 + d)) = false ∧
    ofNat (0x30 + d) ≠ 0 ∧ ofNat (0x30 + d) ≠ 0x2d ∧
    ofNat (0x30 + d) ≠ 0x2b ∧ (ofNat (0x30 + d) = 0x30 → d = 0) := by decide

variable {n : ℕ}

theorem mem_decimal {b : UInt8} (h : b ∈ decimal n) : ∃ d < 10, b = ofNat (0x30 + d) := by
  unfold decimal at h
  split_ifs at h with hn
  · exact ⟨0, by decide, mem_singleton.mp h⟩
  · obtain ⟨d, hd, rfl⟩ := mem_map.mp h
    exact ⟨d, Nat.digits_lt_base (by decide) (mem_reverse.mp hd), rfl⟩

theorem isDigit_of_mem_decimal {b : UInt8} (h : b ∈ decimal n) : isDigit b = true := by
  obtain ⟨d, hd, rfl⟩ := mem_decimal h
  exact (digit_facts d hd).2.1

theorem decimal_ne_nil (n : ℕ) : decimal n ≠ [] := by
  unfold decimal
  split_ifs with hn
  · exact cons_ne_nil _ _
  · simpa [Nat.digits_eq_nil_iff_eq_zero] using hn

def digitChars (ds : List ℕ) : Bytes := ds.map fun d => ofNat (0x30 + d)

def digitsValue (ds : List ℕ) : ℕ := ds.foldl (fun n d => n * 10 + d) 0

theorem isDigit_of_mem_digitChars {ds : List ℕ} (hds : ∀ d ∈ ds, d < 10) {c : UInt8}
    (h : c ∈ digitChars ds) : isDigit c = true := by
  obtain ⟨d, hd, rfl⟩ := mem_map.mp h
  exact (digit_facts d (hds d hd)).2.1

theorem strtoLoop_stop {neg : Bool} {rest : Bytes} {acc : ℤ} {any : StrtoAny}
    (hrest : ∀ c ∈ rest.head?, isDigit c = false) :
    strtoLoop neg 10 rest acc any = (acc, any, rest) := by
  cases rest with
  | nil => rfl
  | cons c rest =>
    have hc : isDigit c = false := hrest c rfl
    have hvalue : ∀ d, digitValue c = some d → 10 ≤ d := by
      intro d hd
      rw [digitValue, hc] at hd
      simp only [Bool.false_eq_true, if_false] at hd
      split_ifs at hd
      all_goals
        simp only [Option.some.injEq] at hd
        omega
    rw [strtoLoop]
    cases hd : digitValue c with
    | none => rfl
    | some d =>
      dsimp only
      rw [if_pos (hvalue d hd)]

/-- The loop on decimal digits finds their value, or the largest word. -/
theorem strtoLoop_digits (ds : List ℕ) (hds : ∀ d ∈ ds, d < 10) (v : ℕ) (acc : ℤ) (any : StrtoAny)
    (hacc : acc = min (v : ℤ) int64Max) (hany : any = .overflow ↔ (v : ℤ) > int64Max)
    (hne : ds = [] → any ≠ .none) (rest : Bytes) (hrest : ∀ c ∈ rest.head?, isDigit c = false) :
    ∃ any' : StrtoAny, any' ≠ .none ∧
      strtoLoop false 10 (digitChars ds ++ rest) acc any =
        (min ((ds.foldl (fun n d => n * 10 + d) v : ℕ) : ℤ) int64Max, any', rest) := by
  induction ds generalizing v acc any with
  | nil => exact ⟨any, hne rfl, by rw [hacc]; exact strtoLoop_stop hrest⟩
  | cons d ds ih =>
    have hd : d < 10 := hds d mem_cons_self
    have hds' : ∀ d ∈ ds, d < 10 := fun x hx => hds x (mem_cons_of_mem _ hx)
    have hcut : cutoff false 10 = (922337203685477580, 7) := by decide
    rw [digitChars, map_cons, cons_append, strtoLoop, (digit_facts d hd).1]
    simp only [Nat.not_le_of_lt hd, hcut]
    simp only [int64Max] at hacc hany
    by_cases hover : any = .overflow
    · rw [if_pos hover]
      refine ih hds' (v * 10 + d) acc any ?_ ?_ (by simp [hover])
      · have := hany.mp hover
        simp only [int64Max]
        omega
      · have := hany.mp hover
        simp only [hover, int64Max, true_iff]
        omega
    · rw [if_neg hover]
      by_cases hmore : acc > 922337203685477580 ∨ (acc = 922337203685477580 ∧ (d : ℤ) > 7)
      · rw [if_pos hmore]
        refine ih hds' (v * 10 + d) int64Max .overflow ?_ ?_ (by simp)
        · simp only [int64Max]
          omega
        · simp only [int64Max, true_iff]
          omega
      · rw [if_neg hmore]
        refine ih hds' (v * 10 + d) (acc * 10 + d) .digits ?_ ?_ (by simp)
        · simp only [int64Max]
          omega
        · simp only [int64Max, reduceCtorEq, false_iff]
          omega

/-- The digits of a number in the order in which they are printed have its value. -/
theorem foldl_digits (n : ℕ) : (Nat.digits 10 n).reverse.foldl (fun n d => n * 10 + d) 0 = n := by
  rw [foldl_reverse]
  induction n using Nat.strong_induction_on with
  | h n ih =>
    rcases Nat.eq_zero_or_pos n with rfl | hpos
    · rfl
    · rw [Nat.digits_def' (by decide) hpos, foldr_cons, ih (n / 10) (by omega)]
      omega

theorem head?_decimal_ne (hpos : 0 < n) : (decimal n).head? ≠ some 0x30 := by
  have hne : Nat.digits 10 n ≠ [] := Nat.digits_ne_nil_iff_ne_zero.mpr hpos.ne'
  rw [decimal, if_neg hpos.ne', head?_map, head?_reverse, getLast?_eq_some_getLast hne]
  intro h
  have hlast : (Nat.digits 10 n).getLast hne < 10 :=
    Nat.digits_lt_base (by decide) (getLast_mem hne)
  exact Nat.getLast_digit_ne_zero 10 hpos.ne'
    ((digit_facts _ hlast).2.2.2.2.2.2 (Option.some.inj h))

theorem strto_decimal (n : ℕ) :
    (decimal n).takeWhile (· ≠ 0) = decimal n ∧ (decimal n).dropWhile isSpace = decimal n ∧
      strtoSign (decimal n) = (false, decimal n) := by
  obtain ⟨b, s, hs⟩ := exists_cons_of_ne_nil (decimal_ne_nil n)
  have hmem : b ∈ decimal n := by simp [hs]
  obtain ⟨d, hd, hb⟩ := mem_decimal hmem
  have hfacts := digit_facts d hd
  rw [← hb] at hfacts
  refine ⟨?_, ?_, ?_⟩
  · have hnonzero : ∀ c ∈ decimal n, c ≠ 0 := by
      intro c hc
      obtain ⟨e, he, rfl⟩ := mem_decimal hc
      exact (digit_facts e he).2.2.2.1
    exact takeWhile_eq_self_iff.mpr fun c hc => by simpa using hnonzero c hc
  · rw [hs, dropWhile_cons_of_neg (by simp [hfacts.2.2.1])]
  · rw [hs]
    unfold strtoSign
    split
    · exact absurd (cons.inj ‹_›).1 hfacts.2.2.2.2.1
    · exact absurd (cons.inj ‹_›).1 hfacts.2.2.2.2.2.1
    · rfl

theorem strtoi64_decimal (n : ℕ) : strtoi64 (decimal n) 0 = (min (n : ℤ) int64Max, []) := by
  obtain ⟨-, hspace, hsign⟩ := strto_decimal n
  rcases Nat.eq_zero_or_pos n with rfl | hpos
  · decide
  · have hhead := head?_decimal_ne hpos
    have hbase : strtoBase 0 (decimal n) = (10, decimal n) := by
      have hhex : ∀ c, (decimal n).take 2 ≠ [0x30, c] := by
        intro c h
        have hfirst := congrArg head? h
        rw [head?_take] at hfirst
        exact hhead (by simpa using hfirst)
      unfold strtoBase
      rw [if_neg (by rintro ⟨-, h | h⟩ <;> exact hhex _ h), if_pos rfl, if_neg hhead]
    obtain ⟨any, hany, hloop⟩ := strtoLoop_digits (Nat.digits 10 n).reverse
      (fun d hd => Nat.digits_lt_base (by decide) (mem_reverse.mp hd)) 0 0 .none
      (by decide) (by decide)
      (fun h => absurd (reverse_eq_nil_iff.mp h)
        (Nat.digits_ne_nil_iff_ne_zero.mpr hpos.ne')) [] (by simp)
    have hdecimal : digitChars (Nat.digits 10 n).reverse = decimal n := (if_neg hpos.ne').symm
    rw [foldl_digits, hdecimal, append_nil] at hloop
    rw [strtoi64, hspace, hsign]
    simp only [hbase, hloop, if_neg hany]

/-- A printed number is read back, unless it is larger than the largest signed word. -/
theorem convertint_decimal (w n : ℕ) :
    convertint w (decimal n) = some (min n (2 ^ 63 - 1) % 2 ^ w) := by
  rw [convertint, (strto_decimal n).1]
  simp only [decimal_ne_nil n, strtoi64_decimal]
  have hmin : min (n : ℤ) int64Max = ((min n (2 ^ 63 - 1) : ℕ) : ℤ) := by
    simp only [int64Max]
    omega
  rw [hmin]
  norm_cast

end Decimal

section BaseTen

theorem exists_digit {c : UInt8} (h : isDigit c = true) : ∃ d < 10, c = ofNat (0x30 + d) := by
  simp only [isDigit, Bool.and_eq_true, decide_eq_true_eq, UInt8.le_iff_toNat_le,
    UInt8.reduceToNat] at h
  refine ⟨c.toNat - 0x30, by omega, ?_⟩
  rw [Nat.add_sub_cancel' h.1, UInt8.ofNat_toNat]

variable {s : Bytes} {ds : List ℕ}

theorem exists_digitChars (h : ∀ c ∈ s, isDigit c = true) :
    ∃ ds : List ℕ, (∀ d ∈ ds, d < 10) ∧ digitChars ds = s := by
  induction s with
  | nil => exact ⟨[], fun d hd => absurd hd not_mem_nil, rfl⟩
  | cons c s ih =>
    obtain ⟨ds, hds, rfl⟩ := ih fun x hx => h x (mem_cons_of_mem c hx)
    obtain ⟨d, hd, rfl⟩ := exists_digit (h c mem_cons_self)
    refine ⟨d :: ds, ?_, rfl⟩
    rintro x (_ | ⟨_, hx⟩)
    · exact hd
    · exact hds x hx

/-- A text is the digits at its head, and a rest that starts with none. -/
theorem exists_digits_append (s : Bytes) :
    ∃ (ds : List ℕ) (rest : Bytes), s = digitChars ds ++ rest ∧ (∀ d ∈ ds, d < 10) ∧
      ∀ c ∈ rest.head?, isDigit c = false := by
  obtain ⟨ds, hds, heq⟩ := exists_digitChars fun c (hc : c ∈ (run isDigit s).1) => mem_run hc
  refine ⟨ds, s.dropWhile isDigit, ?_, hds, ?_⟩
  · rw [heq]
    exact (run_append isDigit s).symm
  · intro c hc
    exact head?_dropWhile_not hc

/-- Digits up to the end of the number, behind white space and a sign. -/
theorem strtoi64_ten {rest : Bytes} (hne : ds ≠ []) (hds : ∀ d ∈ ds, d < 10)
    (hrest : ∀ c ∈ rest.head?, isDigit c = false)
    (hsign : strtoSign (s.dropWhile isSpace) = (false, digitChars ds ++ rest)) :
    strtoi64 s 10 = (min (digitsValue ds : ℤ) int64Max, rest) := by
  obtain ⟨any, hany, hloop⟩ := strtoLoop_digits ds hds 0 0 .none (by decide) (by decide)
    (fun h => absurd h hne) rest hrest
  have hbase : ∀ t, strtoBase 10 t = (10, t) := fun t => rfl
  rw [strtoi64, hsign]
  simp only [hbase, hloop, if_neg hany]
  rfl

/-- A number with the sign `-` is not positive. -/
theorem strtoLoop_neg {base : ℕ} {acc : ℤ} {any : StrtoAny} (hacc : acc ≤ 0) :
    (strtoLoop true base s acc any).1 ≤ 0 := by
  induction s generalizing acc any with
  | nil => exact hacc
  | cons c s ih =>
    rw [strtoLoop]
    cases digitValue c with
    | none => exact hacc
    | some d =>
      dsimp only
      split_ifs
      · exact hacc
      · exact ih hacc
      · apply ih
        decide
      · apply ih
        have hmul : acc * base ≤ 0 := Int.mul_nonpos_of_nonpos_of_nonneg hacc (by omega)
        omega
      · simp_all
      · simp_all

/-- A positive number is white space, at most a sign `+`, and digits. -/
theorem strtoi64_ten_pos (h : 0 < (strtoi64 s 10).1) :
    ∃ ds rest, ds ≠ [] ∧ (∀ d ∈ ds, d < 10) ∧ (∀ c ∈ rest.head?, isDigit c = false) ∧
      strtoSign (s.dropWhile isSpace) = (false, digitChars ds ++ rest) ∧
      strtoi64 s 10 = (min (digitsValue ds : ℤ) int64Max, rest) := by
  obtain ⟨ds, rest, hs, hds, hrest⟩ := exists_digits_append (strtoSign (s.dropWhile isSpace)).2
  have hpair : strtoSign (s.dropWhile isSpace) =
      ((strtoSign (s.dropWhile isSpace)).1, digitChars ds ++ rest) := by rw [← hs]
  have hbase : ∀ t, strtoBase 10 t = (10, t) := fun t => rfl
  cases hneg : (strtoSign (s.dropWhile isSpace)).1 with
  | true =>
    rw [hneg] at hpair
    rw [strtoi64, hpair] at h
    exact absurd h (not_lt.mpr (strtoLoop_neg le_rfl))
  | false =>
    rw [hneg] at hpair
    have hne : ds ≠ [] := by
      rintro rfl
      rw [strtoi64, hpair] at h
      simp only [hbase, digitChars, map_nil, nil_append, strtoLoop_stop hrest] at h
      exact lt_irrefl 0 h
    exact ⟨ds, rest, hne, hds, hrest, hpair, strtoi64_ten hne hds hrest hpair⟩

theorem digitsValue_eq_ofDigits (ds : List ℕ) : digitsValue ds = Nat.ofDigits 10 ds.reverse := by
  rw [Nat.ofDigits_eq_foldr, foldr_reverse, digitsValue]
  simp only [Nat.cast_id, Nat.mul_comm, Nat.add_comm]

/-- A number is printed without the zeros at the head of its digits. -/
theorem decimal_digitsValue (hds : ∀ d ∈ ds, d < 10) (hpos : 0 < digitsValue ds) :
    decimal (digitsValue ds) = (digitChars ds).dropWhile (· = 0x30) := by
  induction ds with
  | nil => exact absurd hpos (lt_irrefl 0)
  | cons d ds ih =>
    have hd : d < 10 := hds d mem_cons_self
    by_cases hzero : d = 0
    · subst hzero
      exact ih (fun x hx => hds x (mem_cons_of_mem 0 hx)) hpos
    · have hdigits : Nat.digits 10 (digitsValue (d :: ds)) = (d :: ds).reverse := by
        rw [digitsValue_eq_ofDigits]
        apply Nat.digits_ofDigits 10 (by decide)
        · intro x hx
          exact hds x (mem_reverse.mp hx)
        · intro hne
          rw [getLast_reverse]
          exact hzero
      have hhead : ¬ofNat (0x30 + d) = 0x30 := fun h =>
        hzero ((digit_facts d hd).2.2.2.2.2.2 h)
      rw [decimal, if_neg hpos.ne', hdigits, reverse_reverse, digitChars, map_cons,
        dropWhile_cons_of_neg (by simpa using hhead)]

theorem exists_decimal_digits {n : ℕ} (hpos : 0 < n) :
    ∃ ds : List ℕ, ds ≠ [] ∧ (∀ d ∈ ds, d < 10) ∧ decimal n = digitChars ds ∧
      digitsValue ds = n := by
  refine ⟨(Nat.digits 10 n).reverse, ?_, ?_, if_neg hpos.ne', foldl_digits n⟩
  · exact fun h => absurd (reverse_eq_nil_iff.mp h)
      (Nat.digits_ne_nil_iff_ne_zero.mpr hpos.ne')
  · exact fun d hd => Nat.digits_lt_base (by decide) (mem_reverse.mp hd)

/-- Digits at the head of a text are read without white space and a sign. -/
theorem strtoSign_digitChars (hne : ds ≠ []) (hds : ∀ d ∈ ds, d < 10) (rest : Bytes) :
    strtoSign ((digitChars ds ++ rest).dropWhile isSpace) = (false, digitChars ds ++ rest) := by
  obtain ⟨d, ds, rfl⟩ := exists_cons_of_ne_nil hne
  have hfacts := digit_facts d (hds d mem_cons_self)
  rw [digitChars, map_cons, cons_append, dropWhile_cons_of_neg (Bool.eq_false_iff.mp hfacts.2.2.1)]
  unfold strtoSign
  split
  · exact absurd (cons.inj ‹_›).1 hfacts.2.2.2.2.1
  · exact absurd (cons.inj ‹_›).1 hfacts.2.2.2.2.2.1
  · rfl

/-- A printed number is read back in front of anything that does not start with a digit. -/
theorem strtoi64_ten_decimal {n : ℕ} (hpos : 0 < n) (hmax : (n : ℤ) ≤ int64Max) {rest : Bytes}
    (hrest : ∀ c ∈ rest.head?, isDigit c = false) :
    strtoi64 (decimal n ++ rest) 10 = ((n : ℤ), rest) := by
  obtain ⟨ds, hne, hds, hdecimal, hvalue⟩ := exists_decimal_digits hpos
  rw [hdecimal, strtoi64_ten hne hds hrest (strtoSign_digitChars hne hds rest), hvalue,
    min_eq_left hmax]

end BaseTen

end SelfCertifyingFS.Async
