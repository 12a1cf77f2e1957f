import Sfs.Foundations.Scanner

/-!
# Fields of a line

`split` of `async/rxx.C` cuts a string at the matches of a pattern. A pattern is given by what
it finds in a string: where its first match starts and ends. The base-16 code of
`async/serial.h` stands here as well.
-/

namespace SelfCertifyingFS.Async

open Foundations List

/-- At most `lim` fields, the last of which takes what is left. -/
def split (pat : Bytes → Option (ℕ × ℕ)) (emptylast : Bool) : ℕ → Bytes → List Bytes
  | 0, _ => []
  | 1, p => if p ≠ [] ∨ emptylast then [p] else []
  | lim + 2, p =>
    match pat p with
    | none => if p ≠ [] ∨ emptylast then [p] else []
    | some (start, stop) =>
      p.take start :: split pat emptylast (lim + 1) (p.drop (max stop 1))

/-- The default limit is not reached: every field but the last ends before a separator. -/
def splitAll (pat : Bytes → Option (ℕ × ℕ)) (s : Bytes) : List Bytes :=
  split pat false (s.length + 2) s

variable (c : UInt8) (p : Bytes)

def charrx : Option (ℕ × ℕ) :=
  let start := (p.takeWhile (· ≠ c)).length
  if start < p.length then some (start, start + 1) else none

/-- The pattern of a character that may be repeated. -/
def pluscharrx : Option (ℕ × ℕ) :=
  let start := (p.takeWhile (· ≠ c)).length
  if start < p.length then some (start, start + ((p.drop start).takeWhile (· = c)).length)
  else none

section Split

variable {c : UInt8} {x : Bytes} {items : List Bytes}

theorem takeWhile_append_sep (hx : c ∉ x) (rest : Bytes) :
    (x ++ c :: rest).takeWhile (· ≠ c) = x := by
  rw [takeWhile_append_of_pos (by
    intro b hb
    simpa using ne_of_mem_of_not_mem hb hx), takeWhile_cons_of_neg (by simp), append_nil]

theorem takeWhile_eq_self_of_notMem (hx : c ∉ x) : x.takeWhile (· ≠ c) = x :=
  List.takeWhile_eq_self_iff.mpr fun b hb => by
    simpa using ne_of_mem_of_not_mem hb hx

theorem split_char_cons (hx : c ∉ x) (lim : ℕ) (rest : Bytes) :
    split (charrx c) true (lim + 2) (x ++ c :: rest) =
      x :: split (charrx c) true (lim + 1) rest := by
  have hrx : charrx c (x ++ c :: rest) = some (x.length, x.length + 1) := by
    simp only [charrx, takeWhile_append_sep hx]
    simp
  rw [split, hrx]
  simp

theorem split_char_last (hx : c ∉ x) (lim : ℕ) : split (charrx c) true (lim + 1) x = [x] := by
  have hrx : charrx c x = none := by
    simp only [charrx, takeWhile_eq_self_of_notMem hx, lt_irrefl, if_false]
  cases lim with
  | zero => simp [split]
  | succ lim => simp [split, hrx]

theorem exists_eq_append_sep {s : Bytes} (h : c ∈ s) : ∃ x rest, c ∉ x ∧ s = x ++ c :: rest := by
  obtain ⟨x, rest, hs, hx⟩ := eq_append_cons_of_mem h
  exact ⟨x, rest, hx, hs⟩

theorem length_split_char (lim : ℕ) (s : Bytes) :
    (split (charrx c) true (lim + 1) s).length = min (lim + 1) (s.count c + 1) := by
  induction lim generalizing s with
  | zero => simp [split]
  | succ lim ih =>
    by_cases hmem : c ∈ s
    · obtain ⟨x, rest, hx, rfl⟩ := exists_eq_append_sep hmem
      rw [split_char_cons hx, length_cons, ih, count_append, count_cons_self,
        count_eq_zero_of_not_mem hx]
      omega
    · rw [split_char_last hmem, count_eq_zero_of_not_mem hmem]
      simp

/-- The items of a list with a separator between each two of them. -/
def joinSep (c : UInt8) : List Bytes → Bytes
  | [] => []
  | [x] => x
  | x :: y :: rest => x ++ c :: joinSep c (y :: rest)

theorem mem_joinSep {b : UInt8} (h : b ∈ joinSep c items) : b = c ∨ ∃ x ∈ items, b ∈ x := by
  induction items using joinSep.induct with
  | case1 => simp [joinSep] at h
  | case2 x => exact .inr ⟨x, by simp, h⟩
  | case3 x y rest ih =>
    rw [joinSep, mem_append, mem_cons] at h
    rcases h with h | h | h
    · exact .inr ⟨x, by simp, h⟩
    · exact .inl h
    · rcases ih h with h | ⟨z, hz, h⟩
      · exact .inl h
      · exact .inr ⟨z, by simp [mem_cons.mp hz], h⟩

section

variable (hne : ∀ x ∈ items, x ≠ [])

include hne

theorem length_le_length_joinSep : items.length ≤ (joinSep c items).length := by
  induction items using joinSep.induct with
  | case1 => simp
  | case2 x => exact length_pos_iff.mpr (hne x (by simp))
  | case3 x y rest ih =>
    have hrest := ih fun z hz => hne z (mem_cons_of_mem _ hz)
    simp only [joinSep, length_append, length_cons] at hrest ⊢
    omega

theorem split_joinSep (hsep : ∀ x ∈ items, c ∉ x) (lim : ℕ) (hlim : items.length < lim) :
    split (pluscharrx c) false lim (joinSep c items) = items := by
  induction items using joinSep.induct generalizing lim with
  | case1 =>
    obtain ⟨lim, rfl⟩ := Nat.exists_eq_succ_of_ne_zero (by omega : lim ≠ 0)
    cases lim <;> simp [joinSep, split, pluscharrx]
  | case2 x =>
    obtain ⟨lim, rfl⟩ := Nat.exists_eq_add_of_lt hlim
    have hrx : pluscharrx c x = none := by
      simp only [pluscharrx, takeWhile_eq_self_of_notMem (hsep x (by simp)), lt_irrefl, if_false]
    have hx := hne x (by simp)
    rw [joinSep, length_singleton, show 1 + lim + 1 = lim + 2 by omega, split, hrx]
    simp [hx]
  | case3 x y rest ih =>
    have hrest : ∃ b t, joinSep c (y :: rest) = b :: t ∧ b ≠ c := by
      have hy := hne y (by simp)
      have hysep := hsep y (by simp)
      obtain ⟨b, t, rfl⟩ := exists_cons_of_ne_nil hy
      have hb : b ≠ c := fun h => hysep (h ▸ mem_cons_self)
      cases rest with
      | nil => exact ⟨b, t, rfl, hb⟩
      | cons z rest => exact ⟨b, _, rfl, hb⟩
    obtain ⟨b, t, hjoin, hb⟩ := hrest
    have hx := hsep x (by simp)
    have hrx : pluscharrx c (x ++ c :: joinSep c (y :: rest)) = some (x.length, x.length + 1) := by
      simp only [pluscharrx, takeWhile_append_sep hx]
      simp [hjoin, hb]
    obtain ⟨lim, rfl⟩ := Nat.exists_eq_add_of_le (by simp at hlim; omega : 2 ≤ lim)
    rw [joinSep, Nat.add_comm 2 lim, split, hrx]
    have hih := ih (fun z hz => hne z (mem_cons_of_mem _ hz))
      (fun z hz => hsep z (mem_cons_of_mem _ hz)) (lim + 1) (by simp at hlim ⊢; omega)
    simp [hih]

theorem splitAll_joinSep (hsep : ∀ x ∈ items, c ∉ x) :
    splitAll (pluscharrx c) (joinSep c items) = items := by
  apply split_joinSep hne hsep
  have := length_le_length_joinSep (c := c) hne
  omega

end

end Split

/-- `%02x`. -/
def hexDigit (n : ℕ) : UInt8 := UInt8.ofNat (if n < 10 then 0x30 + n else 0x57 + n)

def hexdump (buf : Bytes) : Bytes :=
  buf.flatMap fun b => [hexDigit (b.toNat / 16), hexDigit (b.toNat % 16)]

def hexconv (c : UInt8) : Option ℕ :=
  if isDigit c then some (c.toNat - 0x30)
  else if 0x61 ≤ c ∧ c ≤ 0x66 then some (c.toNat - 0x61 + 10)
  else if 0x41 ≤ c ∧ c ≤ 0x46 then some (c.toNat - 0x41 + 10)
  else none

def hex2bytes : Bytes → Option Bytes
  | [] => some []
  | [_] => none
  | a :: b :: s => do
    let h ← hexconv a
    let l ← hexconv b
    return UInt8.ofNat (16 * h + l) :: (← hex2bytes s)

theorem hexDigit_facts : ∀ n < 16, hexconv (hexDigit n) = some n ∧ hexDigit n ≠ 0x3a ∧
    hexDigit n ≠ 0x0a := by decide

@[simp] theorem length_hexdump (buf : Bytes) : (hexdump buf).length = 2 * buf.length := by
  induction buf with
  | nil => rfl
  | cons b buf ih =>
    simp only [hexdump, flatMap_cons, length_append, length_cons, length_nil] at ih ⊢
    omega

theorem mem_hexdump {buf : Bytes} {c : UInt8} (h : c ∈ hexdump buf) : ∃ n < 16, c = hexDigit n := by
  obtain ⟨b, -, hc⟩ := mem_flatMap.mp h
  have hb := b.toNat_lt
  rcases mem_cons.mp hc with rfl | hc
  · exact ⟨b.toNat / 16, by omega, rfl⟩
  · exact ⟨b.toNat % 16, by omega, mem_singleton.mp hc⟩

theorem hex2bytes_hexdump (buf : Bytes) : hex2bytes (hexdump buf) = some buf := by
  induction buf with
  | nil => rfl
  | cons b buf ih =>
    have hb := b.toNat_lt
    have hhigh := (hexDigit_facts (b.toNat / 16) (by omega)).1
    have hlow := (hexDigit_facts (b.toNat % 16) (by omega)).1
    have hbyte : UInt8.ofNat (16 * (b.toNat / 16) + b.toNat % 16) = b := by
      rw [Nat.div_add_mod]
      exact UInt8.ofNat_toNat
    rw [hexdump] at ih
    rw [hexdump, flatMap_cons, cons_append, cons_append, nil_append, hex2bytes, hhigh, hlow, ih]
    simp only [Option.bind_eq_bind, Option.bind_some, hbyte]
    rfl

end SelfCertifyingFS.Async
