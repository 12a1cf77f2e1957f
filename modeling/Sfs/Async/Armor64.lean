import Sfs.Async.Armor
import Sfs.Foundations.Regions

/-!
# Text armor with digits of six bits

`armor64` and `armor64A` of `async/armor.C` write three bytes as four characters. The
second is for file names: it has another last digit, and nothing at the end that only
fills up a group. One decoder serves both; it finds the end of such a text by the
character behind it.
-/

namespace SelfCertifyingFS.Async

open Foundations List Nat
open BitVec (ofNat)

/-- The two tables of a code: the characters of the digits, and the digits of the characters,
`none` for the entries that are negative. -/
structure Alphabet64 where
  b2a : Bytes
  a2b : UInt8 → Option ℕ
  read : ∀ n < 64, a2b (b2a.getD n 0) = some n
  noPad : a2b 0x3d = none
  noZero : a2b 0 = none

/-- The digits that the codes have in common, with the last one as an argument. -/
def sixBits (last : UInt8) (c : UInt8) : Option ℕ :=
  if 0x41 ≤ c ∧ c ≤ 0x5a then some (c.toNat - 0x41)
  else if 0x61 ≤ c ∧ c ≤ 0x7a then some (c.toNat - 0x61 + 26)
  else if 0x30 ≤ c ∧ c ≤ 0x39 then some (c.toNat - 0x30 + 52)
  else if c = 0x2b then some 62
  else if c = last then some 63
  else none

def b2a64 : Bytes := ascii "ABCDEFGHIJKLMNOPQRSTUVWXYZabcdefghijklmnopqrstuvwxyz0123456789+/"

def a2b64 : UInt8 → Option ℕ := sixBits 0x2f

def b2a64A : Bytes := ascii "ABCDEFGHIJKLMNOPQRSTUVWXYZabcdefghijklmnopqrstuvwxyz0123456789+-"

def a2b64A : UInt8 → Option ℕ := sixBits 0x2d

theorem a2b64_b2a64 : ∀ n < 64, a2b64 (b2a64.getD n 0) = some n := by decide +kernel

theorem a2b64A_b2a64A : ∀ n < 64, a2b64A (b2a64A.getD n 0) = some n := by decide +kernel

def alphabet64 : Alphabet64 := ⟨b2a64, a2b64, a2b64_b2a64, rfl, rfl⟩

def alphabet64A : Alphabet64 := ⟨b2a64A, a2b64A, a2b64A_b2a64A, rfl, rfl⟩

section Code

variable (al : Alphabet64)

def Alphabet64.char (n : ℕ) : UInt8 := al.b2a.getD n 0

/-- The groups of `_armor64`; the last one is filled up. -/
def armor64Groups : Bytes → Bytes
  | p0 :: p1 :: p2 :: p =>
      [al.char (p0.toNat >>> 2), al.char ((p0.toNat &&& 0x3) <<< 4 ||| p1.toNat >>> 4),
        al.char ((p1.toNat &&& 0xf) <<< 2 ||| p2.toNat >>> 6), al.char (p2.toNat &&& 0x3f)] ++
        armor64Groups p
  | [p0, p1] =>
      [al.char (p0.toNat >>> 2), al.char ((p0.toNat &&& 0x3) <<< 4 ||| p1.toNat >>> 4),
        al.char ((p1.toNat &&& 0xf) <<< 2), 0x3d]
  | [p0] => [al.char (p0.toNat >>> 2), al.char ((p0.toNat &&& 0x3) <<< 4), 0x3d, 0x3d]
  | [] => []

/-- `_armor64`. -/
def armor64With (endpad : Bool) (bs : Bytes) : Bytes :=
  let res := armor64Groups al bs
  let rem := bs.length % 3
  if endpad = false ∧ rem ≠ 0 then res.take (res.length + rem - 3) else res

/-- A digit as an `int`. -/
def digitWord (d : Option ℕ) : BitVec 32 := d.elim (-1) (ofNat 32)

def byte0 (c0 c1 : BitVec 32) : UInt8 :=
  UInt8.ofBitVec ((c0 <<< 2 ||| c1.sshiftRight 4).setWidth 8)

def byte1 (c1 c2 : BitVec 32) : UInt8 :=
  UInt8.ofBitVec ((c1 <<< 4 ||| c2.sshiftRight 2).setWidth 8)

def byte2 (c2 c3 : BitVec 32) : UInt8 := UInt8.ofBitVec ((c2 <<< 6 ||| c3).setWidth 8)

/-- The loop of `_dearmor64` from the character `i` on: the bytes, and where the last group
starts. -/
def dearmor64Loop (s : Memory) (len : ℕ) : ℕ → ℕ → Bytes × ℕ
  | 0, i => ([], i)
  | fuel + 1, i =>
      if i + 4 < len then
        let c0 := digitWord (al.a2b (s i))
        let c1 := digitWord (al.a2b (s (i + 1)))
        let c2 := digitWord (al.a2b (s (i + 2)))
        let c3 := digitWord (al.a2b (s (i + 3)))
        let r := dearmor64Loop s len fuel (i + 4)
        ([byte0 c0 c1, byte1 c1 c2, byte2 c2 c3] ++ r.1, r.2)
      else ([], i)

def dearmor64Third (c2 : BitVec 32) (d3 : Option ℕ) : Bytes :=
  if d3.isSome then [byte2 c2 (digitWord d3)] else []

/-- The last group: it ends before the first character that is no digit. -/
def dearmor64Tail (s : Memory) (i : ℕ) : Bytes :=
  let c0 := digitWord (al.a2b (s i))
  let c1 := digitWord (al.a2b (s (i + 1)))
  let d2 := al.a2b (s (i + 2))
  byte0 c0 c1 :: if d2.isSome then
    byte1 c1 (digitWord d2) :: dearmor64Third (digitWord d2) (al.a2b (s (i + 3)))
  else []

/-- `_dearmor64` of the characters at `s`. -/
def dearmor64With (s : Memory) (len : ℕ) : Bytes :=
  if len = 0 then []
  else
    let r := dearmor64Loop al s len len 0
    r.1 ++ dearmor64Tail al s r.2

end Code

def armor64 : Bytes → Bytes := armor64With alphabet64 true

def armor64A : Bytes → Bytes := armor64With alphabet64A false

/-- A string with the zero behind it, and what lies behind that. -/
def cstr (asc : Bytes) (beyond : Memory) : Memory := fun i =>
  if i < asc.length then asc.getD i 0 else if i = asc.length then 0 else beyond i

/-- `armor64len` of a string that ends with a zero. -/
def armor64len (s : Bytes) : ℕ :=
  let n := (s.takeWhile fun c => (a2b64 c).isSome).length
  let n := if s.getD n 0 = 0x3d then n + 1 else n
  if s.getD n 0 = 0x3d then n + 1 else n

def armor64Alen (s : Bytes) : ℕ := (s.takeWhile fun c => (a2b64A c).isSome).length

variable (s : Memory) (len : ℕ)

/-- `dearmor64` of characters whose number is given. -/
def dearmor64Chars : Option Bytes :=
  if len % 4 ≠ 0 then none else some (dearmor64With alphabet64 s len)

/-- `dearmor64A` of characters whose number is given. -/
def dearmor64AChars : Bytes := dearmor64With alphabet64A s len

variable (beyond : Memory) (asc : Bytes)

/-- `dearmor64` of a string. -/
def dearmor64 : Option Bytes :=
  if armor64len asc ≠ asc.length then none else dearmor64Chars (cstr asc beyond) asc.length

/-- `dearmor64A` of a string. -/
def dearmor64A : Option Bytes :=
  if armor64Alen asc ≠ asc.length then none
  else some (dearmor64AChars (cstr asc beyond) asc.length)

theorem byte0_table : ∀ (b : Fin 256) (n : Fin 16),
    byte0 (ofNat 32 (b.val >>> 2)) (ofNat 32 ((b.val &&& 0x3) <<< 4 ||| n.val)) =
      UInt8.ofNat b.val := by
  decide +kernel

theorem byte1_table : ∀ (b : Fin 256) (h n : Fin 4),
    byte1 (ofNat 32 (h.val <<< 4 ||| b.val >>> 4))
      (ofNat 32 ((b.val &&& 0xf) <<< 2 ||| n.val)) = UInt8.ofNat b.val := by
  decide +kernel

theorem byte2_table : ∀ (b : Fin 256) (h : Fin 16),
    byte2 (ofNat 32 (h.val <<< 2 ||| b.val >>> 6)) (ofNat 32 (b.val &&& 0x3f)) =
      UInt8.ofNat b.val := by
  decide +kernel

theorem shift_lt (b : UInt8) : b.toNat >>> 2 < 64 ∧ b.toNat >>> 4 < 16 ∧ b.toNat >>> 6 < 4 := by
  have hb := b.toNat_lt
  omega

theorem mask_lt (n : ℕ) : n &&& 0x3 < 4 ∧ n &&& 0xf < 16 ∧ n &&& 0x3f < 64 :=
  ⟨and_lt_two_pow n (by decide : 0x3 < 2 ^ 2), and_lt_two_pow n (by decide : 0xf < 2 ^ 4),
    and_lt_two_pow n (by decide : 0x3f < 2 ^ 6)⟩

theorem decode_group (b0 b1 b2 : UInt8) :
    byte0 (ofNat 32 (b0.toNat >>> 2))
        (ofNat 32 ((b0.toNat &&& 0x3) <<< 4 ||| b1.toNat >>> 4)) = b0 ∧
      byte1 (ofNat 32 ((b0.toNat &&& 0x3) <<< 4 ||| b1.toNat >>> 4))
        (ofNat 32 ((b1.toNat &&& 0xf) <<< 2 ||| b2.toNat >>> 6)) = b1 ∧
      byte2 (ofNat 32 ((b1.toNat &&& 0xf) <<< 2 ||| b2.toNat >>> 6))
        (ofNat 32 (b2.toNat &&& 0x3f)) = b2 := by
  have h0 := byte0_table ⟨b0.toNat, b0.toNat_lt⟩ ⟨b1.toNat >>> 4, (shift_lt b1).2.1⟩
  have h1 := byte1_table ⟨b1.toNat, b1.toNat_lt⟩ ⟨b0.toNat &&& 0x3, (mask_lt _).1⟩
    ⟨b2.toNat >>> 6, (shift_lt b2).2.2⟩
  have h2 := byte2_table ⟨b2.toNat, b2.toNat_lt⟩ ⟨b1.toNat &&& 0xf, (mask_lt _).2.1⟩
  rw [UInt8.ofNat_toNat] at h0 h1 h2
  exact ⟨h0, h1, h2⟩

theorem digits_lt (b0 b1 b2 : UInt8) :
    b0.toNat >>> 2 < 64 ∧ (b0.toNat &&& 0x3) <<< 4 ||| b1.toNat >>> 4 < 64 ∧
      (b1.toNat &&& 0xf) <<< 2 ||| b2.toNat >>> 6 < 64 ∧ b2.toNat &&& 0x3f < 64 := by
  have hone := (mask_lt b0.toNat).1
  have htwo := (mask_lt b1.toNat).2.1
  have h1 := (shift_lt b1).2.1
  have h2 := (shift_lt b2).2.2
  refine ⟨(shift_lt b0).1, ?_, ?_, (mask_lt _).2.2⟩
  · apply @Nat.or_lt_two_pow _ _ 6
    · omega
    · omega
  · apply @Nat.or_lt_two_pow _ _ 6
    · omega
    · omega

section Texts

variable {al : Alphabet64}

/-- The digits of a text, without the characters that fill up its last group. -/
def digits64 (al : Alphabet64) : Bytes → Bytes
  | p0 :: p1 :: p2 :: p =>
      [al.char (p0.toNat >>> 2), al.char ((p0.toNat &&& 0x3) <<< 4 ||| p1.toNat >>> 4),
        al.char ((p1.toNat &&& 0xf) <<< 2 ||| p2.toNat >>> 6), al.char (p2.toNat &&& 0x3f)] ++
        digits64 al p
  | [p0, p1] =>
      [al.char (p0.toNat >>> 2), al.char ((p0.toNat &&& 0x3) <<< 4 ||| p1.toNat >>> 4),
        al.char ((p1.toNat &&& 0xf) <<< 2)]
  | [p0] => [al.char (p0.toNat >>> 2), al.char ((p0.toNat &&& 0x3) <<< 4)]
  | [] => []

variable (bs : Bytes)

theorem length_digits64 : (digits64 al bs).length = bs.length + (bs.length + 2) / 3 := by
  induction bs using digits64.induct with
  | case1 p0 p1 p2 p ih =>
    rw [digits64, length_append]
    simp only [length_cons, length_nil]
    omega
  | case2 p0 p1 | case3 p0 => simp [digits64]
  | case4 => rfl

theorem armor64Groups_eq :
    armor64Groups al bs = digits64 al bs ++ replicate ((3 - bs.length % 3) % 3) 0x3d := by
  induction bs using digits64.induct with
  | case1 p0 p1 p2 p ih =>
    have hmod : (p0 :: p1 :: p2 :: p).length % 3 = p.length % 3 := add_mod_right p.length 3
    rw [armor64Groups, digits64, ih, hmod, append_assoc]
  | case2 p0 p1 | case3 p0 | case4 => rfl

theorem armor64_eq :
    armor64 bs = digits64 alphabet64 bs ++ replicate ((3 - bs.length % 3) % 3) 0x3d := by
  rw [armor64, armor64With, armor64Groups_eq]
  exact if_neg fun h => Bool.false_ne_true h.1.symm

theorem armor64A_eq : armor64A bs = digits64 alphabet64A bs := by
  rw [armor64A, armor64With, armor64Groups_eq, length_append, length_replicate]
  split_ifs with h
  · apply take_left'
    omega
  · have hzero : bs.length % 3 = 0 := by simpa using h
    rw [hzero]
    exact append_nil _

theorem isSome_of_mem_digits64 {bs : Bytes} {c : UInt8} (h : c ∈ digits64 al bs) :
    (al.a2b c).isSome = true := by
  have hchar : ∀ n < 64, (al.a2b (al.char n)).isSome = true := by
    intro n hn
    rw [Alphabet64.char, al.read n hn, Option.isSome_some]
  induction bs using digits64.induct with
  | case1 p0 p1 p2 p ih =>
    obtain ⟨h0, h1, h2, h3⟩ := digits_lt p0 p1 p2
    rcases mem_append.mp h with h | h
    · simp only [mem_cons, not_mem_nil, or_false] at h
      rcases h with rfl | rfl | rfl | rfl
      · exact hchar _ h0
      · exact hchar _ h1
      · exact hchar _ h2
      · exact hchar _ h3
    · exact ih h
  | case2 p0 p1 =>
    obtain ⟨h0, h1, h2, -⟩ := digits_lt p0 p1 0
    simp only [digits64, mem_cons, not_mem_nil, or_false] at h
    rcases h with rfl | rfl | rfl
    · exact hchar _ h0
    · exact hchar _ h1
    · exact hchar _ (by simpa using h2)
  | case3 p0 =>
    obtain ⟨h0, h1, -, -⟩ := digits_lt p0 0 0
    simp only [digits64, mem_cons, not_mem_nil, or_false] at h
    rcases h with rfl | rfl
    · exact hchar _ h0
    · exact hchar _ (by simpa using h1)
  | case4 => exact absurd h not_mem_nil

/-- The characters stand in memory from `i` on. -/
def Holds (m : Memory) : ℕ → Bytes → Prop
  | _, [] => True
  | i, c :: t => m i = c ∧ Holds m (i + 1) t

theorem a2b_char {n : ℕ} (hn : n < 64) : al.a2b (al.char n) = some n := al.read n hn

variable {m : Memory}

theorem dearmor64Loop_stop {len fuel i : ℕ} (h : len ≤ i + 4) :
    dearmor64Loop al m len fuel i = ([], i) := by
  cases fuel with
  | zero => rfl
  | succ fuel => rw [dearmor64Loop, if_neg (not_lt.mpr h)]

/-- A text is decoded to its bytes, if no digit follows a last group that is short. The length
that the decoder is given may count the characters that fill up the group. -/
theorem dearmor64_digits64 {len fuel i : ℕ} {bs : Bytes} (hne : bs ≠ [])
    (h : Holds m i (digits64 al bs)) (hend : al.a2b (m (i + (digits64 al bs).length)) = none)
    (hlow : i + (digits64 al bs).length ≤ len) (hhigh : len ≤ i + 4 * ((bs.length + 2) / 3))
    (hfuel : bs.length ≤ 3 * (fuel + 1)) :
    (dearmor64Loop al m len fuel i).1 ++
      dearmor64Tail al m (dearmor64Loop al m len fuel i).2 = bs := by
  induction bs using digits64.induct generalizing fuel i with
  | case1 b0 b1 b2 bs ih =>
    obtain ⟨h0, h1, h2, h3⟩ := digits_lt b0 b1 b2
    obtain ⟨hb0, hb1, hb2⟩ := decode_group b0 b1 b2
    obtain ⟨hm0, hm1, hm2, hm3, hrest⟩ := h
    rw [digits64, length_append] at hend hlow
    simp only [length_cons] at hend hlow hhigh hfuel
    by_cases hnil : bs = []
    · subst hnil
      rw [dearmor64Loop_stop (by simpa using hhigh), dearmor64Tail, hm0, hm1, hm2, hm3,
        a2b_char h0, a2b_char h1, a2b_char h2, a2b_char h3]
      exact cons_eq_cons.mpr ⟨hb0, cons_eq_cons.mpr ⟨hb1, congrArg (fun b => [b]) hb2⟩⟩
    · have hpos : 0 < bs.length := length_pos_iff.mpr hnil
      have hlen := @length_digits64 al bs
      obtain ⟨fuel, rfl⟩ : ∃ n, fuel = n + 1 := exists_eq_succ_of_ne_zero (by omega)
      have htail := @ih fuel (i + 4) hnil hrest (by rwa [Nat.add_assoc]) (by omega) (by omega)
        (by omega)
      have hloop : dearmor64Loop al m len (fuel + 1) i =
          ([b0, b1, b2] ++ (dearmor64Loop al m len fuel (i + 4)).1,
            (dearmor64Loop al m len fuel (i + 4)).2) := by
        rw [dearmor64Loop, if_pos (by omega), hm0, hm1, hm2, hm3, a2b_char h0, a2b_char h1,
          a2b_char h2, a2b_char h3]
        dsimp only [digitWord, Option.elim]
        rw [hb0, hb1, hb2]
      rw [hloop]
      rw [append_assoc, htail]
      rfl
  | case2 b0 b1 =>
    obtain ⟨h0, h1, h2, -⟩ := digits_lt b0 b1 0
    obtain ⟨hb0, hb1, -⟩ := decode_group b0 b1 0
    obtain ⟨hm0, hm1, hm2, -⟩ := h
    have hzero : (b1.toNat &&& 0xf) <<< 2 ||| (0 : UInt8).toNat >>> 6 =
        (b1.toNat &&& 0xf) <<< 2 := or_zero _
    rw [hzero] at h2 hb1
    have hlast : al.a2b (m (i + 3)) = none := hend
    rw [dearmor64Loop_stop (by simpa using hhigh), dearmor64Tail, hm0, hm1, hm2,
      a2b_char h0, a2b_char h1, a2b_char h2, hlast]
    exact cons_eq_cons.mpr ⟨hb0, congrArg (fun b => [b]) hb1⟩
  | case3 b0 =>
    obtain ⟨h0, h1, -, -⟩ := digits_lt b0 0 0
    obtain ⟨hb0, -, -⟩ := decode_group b0 0 0
    obtain ⟨hm0, hm1, -⟩ := h
    have hzero : (b0.toNat &&& 0x3) <<< 4 ||| (0 : UInt8).toNat >>> 4 =
        (b0.toNat &&& 0x3) <<< 4 := or_zero _
    rw [hzero] at h1 hb0
    have hlast : al.a2b (m (i + 2)) = none := hend
    rw [dearmor64Loop_stop (by simpa using hhigh), dearmor64Tail, hm0, hm1,
      a2b_char h0, a2b_char h1, hlast]
    exact congrArg (fun b => [b]) hb0
  | case4 => exact absurd rfl hne

end Texts

section RoundTrip

variable {al : Alphabet64}

theorem holds_of_forall {m : Memory} {i : ℕ} {t : Bytes}
    (h : ∀ j < t.length, m (i + j) = t.getD j 0) : Holds m i t := by
  induction t generalizing i with
  | nil => exact True.intro
  | cons c t ih =>
    refine ⟨h 0 (succ_pos _), ih fun j hj => ?_⟩
    rw [Nat.add_assoc, Nat.add_comm 1 j]
    exact h (j + 1) (succ_lt_succ hj)

/-- The digits of a text, and the characters behind them, as `cstr` lays them out. -/
theorem holds_cstr (t rest : Bytes) (beyond : Memory) : Holds (cstr (t ++ rest) beyond) 0 t := by
  apply holds_of_forall
  intro j hj
  have hlt : j < (t ++ rest).length := by
    rw [length_append]
    omega
  rw [Nat.zero_add, cstr, if_pos hlt, getD_append _ _ _ _ hj]

variable (bs : Bytes)

/-- The decoder reads a text back from a string that has its digits and what fills them up. -/
theorem dearmor64With_digits64 (beyond : Memory) {k : ℕ}
    (hk : k = 0 ∨ k = (3 - bs.length % 3) % 3) :
    dearmor64With al (cstr (digits64 al bs ++ replicate k 0x3d) beyond)
      (digits64 al bs ++ replicate k 0x3d).length = bs := by
  have hlen := @length_digits64 al bs
  rw [length_append, length_replicate, dearmor64With]
  by_cases hnil : bs = []
  · subst hnil
    rw [if_pos (by rcases hk with rfl | rfl <;> rfl)]
  · have hpos : 0 < bs.length := length_pos_iff.mpr hnil
    rw [if_neg (by omega)]
    apply dearmor64_digits64 hnil (holds_cstr _ _ beyond)
    · -- What follows the digits is a filling character or the zero.
      rw [Nat.zero_add, cstr, length_append, length_replicate]
      split_ifs with hlt hend
      · rw [getD_append_right _ _ _ _ le_rfl, getD_replicate _ (by omega)]
        exact al.noPad
      · exact al.noZero
      · omega
    · omega
    · omega
    · omega

theorem takeWhile_digits64 {rest : Bytes}
    (hrest : ∀ c ∈ rest.head?, (al.a2b c).isSome = false) :
    (digits64 al bs ++ rest).takeWhile (fun c => (al.a2b c).isSome) = digits64 al bs := by
  rw [takeWhile_append_of_pos fun c hc => isSome_of_mem_digits64 hc]
  cases rest with
  | nil => exact append_nil _
  | cons c rest =>
    rw [takeWhile_cons_of_neg (by rw [hrest c rfl]; exact Bool.false_ne_true)]
    exact append_nil _

theorem armor64Alen_armor64A : armor64Alen (armor64A bs) = (armor64A bs).length := by
  have htake := @takeWhile_digits64 alphabet64A bs [] (by simp)
  rw [append_nil] at htake
  rw [armor64A_eq]
  exact congrArg length htake

/-- The scanner takes up to two filling characters behind the digits. -/
theorem armor64len_eq {s : Bytes} {n : ℕ}
    (h : (s.takeWhile fun c => (a2b64 c).isSome).length = n) :
    armor64len s = if s.getD n 0 = 0x3d then
      if s.getD (n + 1) 0 = 0x3d then n + 2 else n + 1 else n := by
  unfold armor64len
  rw [h]
  dsimp only
  split_ifs <;> rfl

theorem armor64len_armor64 (bs : Bytes) : armor64len (armor64 bs) = (armor64 bs).length := by
  obtain ⟨k, hk, harmor⟩ : ∃ k < 3, armor64 bs = digits64 alphabet64 bs ++ replicate k 0x3d :=
    ⟨_, mod_lt _ (by decide), armor64_eq bs⟩
  have hhead : ∀ c ∈ (replicate k 0x3d).head?, (a2b64 c).isSome = false := by
    intro c hc
    rw [eq_of_mem_replicate (List.mem_of_mem_head? hc)]
    rfl
  have hnum : ((armor64 bs).takeWhile fun c => (a2b64 c).isSome).length =
      (digits64 alphabet64 bs).length := by
    rw [harmor]
    exact congrArg length (@takeWhile_digits64 alphabet64 bs _ hhead)
  have hget : ∀ j, (armor64 bs).getD ((digits64 alphabet64 bs).length + j) 0 =
      (replicate k 0x3d).getD j 0 := by
    intro j
    rw [harmor, getD_append_right _ _ _ _ (Nat.le_add_right _ _), Nat.add_sub_cancel_left]
  have hzero := hget 0
  rw [Nat.add_zero] at hzero
  rw [armor64len_eq hnum, hzero, hget 1, harmor, length_append]
  interval_cases k <;> rfl

/-- Each of the three codes reads back what it writes, and its scanner finds the end of it. -/
theorem armor_round_trips (bs : Bytes) (beyond : Memory) :
    (dearmor32 (armor32 bs) = some bs ∧ armor32len (armor32 bs) = (armor32 bs).length) ∧
      (dearmor64 beyond (armor64 bs) = some bs ∧ armor64len (armor64 bs) = (armor64 bs).length) ∧
      dearmor64A beyond (armor64A bs) = some bs ∧
        armor64Alen (armor64A bs) = (armor64A bs).length := by
  refine ⟨⟨dearmor32_armor32 bs, armor32len_armor32 bs⟩, ⟨?_, armor64len_armor64 bs⟩, ?_,
    armor64Alen_armor64A bs⟩
  · have hmod : (armor64 bs).length % 4 = 0 := by
      rw [armor64_eq, length_append, length_digits64, length_replicate]
      omega
    rw [dearmor64, if_neg (not_not.mpr (armor64len_armor64 bs)), dearmor64Chars,
      if_neg (not_not.mpr hmod), armor64_eq, dearmor64With_digits64 bs beyond (.inr rfl)]
  · have hback := @dearmor64With_digits64 alphabet64A bs beyond 0 (.inl rfl)
    rw [replicate_zero, append_nil] at hback
    rw [dearmor64A, if_neg (not_not.mpr (armor64Alen_armor64A bs)), armor64A_eq, dearmor64AChars,
      hback]

end RoundTrip

section Confinement

variable {al : Alphabet64} {s s' : Memory} {len : ℕ}

theorem dearmor64Loop_pos {fuel i : ℕ} (hi : i < len) (hfuel : len ≤ i + 4 * (fuel + 1)) :
    (dearmor64Loop al s len fuel i).2 = i + 4 * ((len - 1 - i) / 4) := by
  induction fuel generalizing i with
  | zero =>
    rw [dearmor64Loop_stop hfuel]
    omega
  | succ fuel ih =>
    by_cases hlt : i + 4 < len
    · rw [dearmor64Loop, if_pos hlt]
      rw [ih hlt (by omega)]
      omega
    · rw [dearmor64Loop_stop (not_lt.mp hlt)]
      omega

theorem dearmor64Loop_congr {fuel i : ℕ} (h : ∀ j < len, s' j = s j) :
    dearmor64Loop al s' len fuel i = dearmor64Loop al s len fuel i := by
  induction fuel generalizing i with
  | zero => rfl
  | succ fuel ih =>
    by_cases hlt : i + 4 < len
    · rw [dearmor64Loop, dearmor64Loop, if_pos hlt, if_pos hlt, h i (by omega),
        h (i + 1) (by omega), h (i + 2) (by omega), h (i + 3) (by omega), ih]
    · rw [dearmor64Loop_stop (not_lt.mp hlt), dearmor64Loop_stop (not_lt.mp hlt)]

/-- Two buffers with the same text are decoded alike if their last groups are. -/
theorem dearmor64With_congr_iff (hlen : len ≠ 0) (h : ∀ j < len, s' j = s j) :
    dearmor64With al s' len = dearmor64With al s len ↔
      dearmor64Tail al s' (4 * ((len - 1) / 4)) = dearmor64Tail al s (4 * ((len - 1) / 4)) := by
  have hpos := @dearmor64Loop_pos al s len len 0 (Nat.pos_of_ne_zero hlen) (by omega)
  rw [Nat.zero_add, Nat.sub_zero] at hpos
  rw [dearmor64With, dearmor64With, if_neg hlen, if_neg hlen, dearmor64Loop_congr h]
  dsimp only
  rw [hpos, append_cancel_left_eq]

/-- A buffer with another character at one place. -/
def patch (s : Memory) (i : ℕ) (c : UInt8) : Memory := fun j => if j = i then c else s j

theorem patch_of_lt (c : UInt8) {i j : ℕ} (h : j < i) : patch s i c j = s j := if_neg h.ne

theorem patch_self (i : ℕ) (c : UInt8) : patch s i c i = c := if_pos rfl

/-- The first byte of a last group of one character depends on the character behind it. -/
theorem byte0_zero_ne (c : BitVec 32) : byte0 c (ofNat 32 0) ≠ byte0 c (ofNat 32 16) := by
  intro h
  have hbit := congrArg (fun b : UInt8 => b.toBitVec.getLsbD 0) h
  simp [byte0] at hbit

theorem length_dearmor64Tail (i : ℕ) :
    (dearmor64Tail al s i).length = if (al.a2b (s (i + 2))).isSome then
      if (al.a2b (s (i + 3))).isSome then 3 else 2 else 1 := by
  unfold dearmor64Tail dearmor64Third
  dsimp only
  split_ifs <;> rfl

/-- Decoding does not depend on what is behind the text. -/
def Confined (s : Memory) (len : ℕ) : Prop :=
  ∀ s' : Memory, (∀ j < len, s' j = s j) → dearmor64AChars s' len = dearmor64AChars s len

/-- Then the last group is decoded alike with any character behind the text. -/
theorem Confined.tail_eq (h : Confined s len) (hlen : len ≠ 0) (c d : UInt8) :
    dearmor64Tail alphabet64A (patch s len c) (4 * ((len - 1) / 4)) =
      dearmor64Tail alphabet64A (patch s len d) (4 * ((len - 1) / 4)) := by
  have hpatch : ∀ c, dearmor64Tail alphabet64A (patch s len c) (4 * ((len - 1) / 4)) =
      dearmor64Tail alphabet64A s (4 * ((len - 1) / 4)) := by
    intro c
    have hsame : ∀ j < len, patch s len c j = s j := fun j hj => patch_of_lt c hj
    exact (dearmor64With_congr_iff hlen hsame).mp (h _ hsame)
  rw [hpatch c, hpatch d]

theorem Confined.mod_four (h : Confined s len) :
    len % 4 = 0 ∨ len % 4 = 3 ∧ a2b64A (s (len - 1)) = none := by
  by_cases hlen : len = 0
  · left
    rw [hlen]
  have hmod : len % 4 = 0 ∨ len % 4 = 1 ∨ len % 4 = 2 ∨ len % 4 = 3 := by omega
  rcases hmod with hmod | hmod | hmod | hmod
  · exact .inl hmod
  · -- The only character of the last group is combined with the next one.
    have hpos : 4 * ((len - 1) / 4) + 1 = len := by omega
    have htail := h.tail_eq hlen 0x41 0x51
    have hhead := (List.cons.inj htail).1
    rw [hpos, patch_self, patch_self, patch_of_lt _ (by omega), patch_of_lt _ (by omega)] at hhead
    exact absurd hhead (byte0_zero_ne _)
  · have hpos : 4 * ((len - 1) / 4) + 2 = len := by omega
    have htail := congrArg length (h.tail_eq hlen 0 0x41)
    rw [length_dearmor64Tail, length_dearmor64Tail, hpos, patch_self, patch_self,
      if_neg (by decide), if_pos (by decide)] at htail
    split_ifs at htail <;> omega
  · refine .inr ⟨hmod, ?_⟩
    have hpos : 4 * ((len - 1) / 4) + 3 = len := by omega
    have hlast : 4 * ((len - 1) / 4) + 2 = len - 1 := by omega
    have htail := congrArg length (h.tail_eq hlen 0 0x41)
    rw [length_dearmor64Tail, length_dearmor64Tail, hpos, hlast, patch_self, patch_self,
      patch_of_lt _ (by omega), patch_of_lt _ (by omega)] at htail
    by_contra hsome
    rw [← ne_eq, Option.ne_none_iff_isSome] at hsome
    have hdigit : (alphabet64A.a2b (s (len - 1))).isSome = true := hsome
    rw [if_pos hdigit, if_pos hdigit] at htail
    exact absurd htail (by decide)

end Confinement

end SelfCertifyingFS.Async
