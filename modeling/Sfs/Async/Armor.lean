import Mathlib.Data.Nat.Bitwise
import Sfs.Foundations.Scanner

/-!
# Text armor

`armor32` of `async/armor.C` writes five bytes as eight characters of five bits each, and
`dearmor32` reads them back. Lower case letters and digits that look alike are left out.
-/

namespace SelfCertifyingFS.Async

open Foundations List Option Nat UInt8

/-- `b2a32`: the characters of the digits. -/
def b2a32 : Bytes := ascii "abcdefghijkmnpqrstuvwxyz23456789"

def armorChar (n : ℕ) : UInt8 := b2a32.getD n 0

/-- `a2b32`: the digit of a character; `none` stands for the entries that are negative. -/
def a2b32 (c : UInt8) : Option ℕ :=
  if 0x32 ≤ c ∧ c ≤ 0x39 then some (c.toNat - 0x32 + 24)
  else if 0x61 ≤ c ∧ c ≤ 0x6b then some (c.toNat - 0x61)
  else if 0x6d ≤ c ∧ c ≤ 0x6e then some (c.toNat - 0x6d + 11)
  else if 0x70 ≤ c ∧ c ≤ 0x7a then some (c.toNat - 0x70 + 13)
  else none

theorem a2b32_armorChar : ∀ n < 32, a2b32 (armorChar n) = some n := by decide

theorem armorChar_a2b32 {c : UInt8} {n : ℕ} (h : a2b32 c = some n) : n < 32 ∧ armorChar n = c := by
  have hall : ∀ c, ∀ n ∈ a2b32 c, n < 32 ∧ armorChar n = c := forall_byte (by decide +kernel)
  exact hall c n h

def armorGroup (p0 p1 p2 p3 p4 : ℕ) : List ℕ :=
  [p0 >>> 3, (p0 &&& 0x7) <<< 2 ||| p1 >>> 6, p1 >>> 1 &&& 0x1f, (p1 &&& 0x1) <<< 4 ||| p2 >>> 4,
    (p2 &&& 0xf) <<< 1 ||| p3 >>> 7, p3 >>> 2 &&& 0x1f, (p3 &&& 0x3) <<< 3 ||| p4 >>> 5,
    p4 &&& 0x1f]

def dearmorGroup (c0 c1 c2 c3 c4 c5 c6 c7 : ℕ) : Bytes :=
  [c0 <<< 3 ||| c1 >>> 2, c1 <<< 6 ||| c2 <<< 1 ||| c3 >>> 4, c3 <<< 4 ||| c4 >>> 1,
    c4 <<< 7 ||| c5 <<< 2 ||| c6 >>> 3, c6 <<< 5 ||| c7].map ofNat

/-- The digits that `armor32` writes. The bytes behind the last group are written as if zeros
followed, without the digits that only depend on these. -/
def armorDigits : List ℕ → List ℕ
  | p0 :: p1 :: p2 :: p3 :: p4 :: p => armorGroup p0 p1 p2 p3 p4 ++ armorDigits p
  | [p0, p1, p2, p3] => (armorGroup p0 p1 p2 p3 0).take 7
  | [p0, p1, p2] => (armorGroup p0 p1 p2 0 0).take 5
  | [p0, p1] => (armorGroup p0 p1 0 0 0).take 4
  | [p0] => (armorGroup p0 0 0 0 0).take 2
  | [] => []

def armor32 (bs : Bytes) : Bytes := (armorDigits (bs.map toNat)).map armorChar

/-- The bytes that `dearmor32` reads; some lengths are not those of any armor. -/
def dearmorDigits : List ℕ → Option Bytes
  | c0 :: c1 :: c2 :: c3 :: c4 :: c5 :: c6 :: c7 :: s =>
      (dearmorDigits s).map (dearmorGroup c0 c1 c2 c3 c4 c5 c6 c7 ++ ·)
  | [c0, c1, c2, c3, c4, c5, c6] => some ((dearmorGroup c0 c1 c2 c3 c4 c5 c6 0).take 4)
  | [c0, c1, c2, c3, c4] => some ((dearmorGroup c0 c1 c2 c3 c4 0 0 0).take 3)
  | [c0, c1, c2, c3] => some ((dearmorGroup c0 c1 c2 c3 0 0 0 0).take 2)
  | [c0, c1] => some ((dearmorGroup c0 c1 0 0 0 0 0 0).take 1)
  | [] => some []
  | _ => none

/-- `armor32len`: the characters before the first that is no digit. -/
def armor32len (s : Bytes) : ℕ := (s.takeWhile fun c => (a2b32 c).isSome).length

/-- `dearmor32` of a string, which must have digits only. -/
def dearmor32 (asc : Bytes) : Option Bytes := (asc.mapM a2b32).bind dearmorDigits

theorem shiftLeft_or {a b k : ℕ} (h : b < 2 ^ k) : a <<< k ||| b = a * 2 ^ k + b := by
  rw [← shiftLeft_add_eq_or_of_lt h, shiftLeft_eq]

theorem armorGroup_eq {p0 p1 p2 p3 p4 : ℕ} (h1 : p1 < 256) (h2 : p2 < 256) (h3 : p3 < 256)
    (h4 : p4 < 256) :
    armorGroup p0 p1 p2 p3 p4 =
      [p0 / 8, p0 % 8 * 4 + p1 / 64, p1 / 2 % 32, p1 % 2 * 16 + p2 / 16, p2 % 16 * 2 + p3 / 128,
        p3 / 4 % 32, p3 % 4 * 8 + p4 / 32, p4 % 32] := by
  have hmask : ∀ n, n &&& 0x7 = n % 8 ∧ n &&& 0x1f = n % 32 ∧ n &&& 0x1 = n % 2 ∧
      n &&& 0xf = n % 16 ∧ n &&& 0x3 = n % 4 := fun n =>
    ⟨and_two_pow_sub_one_eq_mod n 3, and_two_pow_sub_one_eq_mod n 5,
      and_two_pow_sub_one_eq_mod n 1, and_two_pow_sub_one_eq_mod n 4,
      and_two_pow_sub_one_eq_mod n 2⟩
  simp only [armorGroup, (hmask _).1, (hmask _).2.1, (hmask _).2.2.1, (hmask _).2.2.2.1,
    (hmask _).2.2.2.2, shiftRight_eq_div_pow]
  rw [shiftLeft_or (by omega), shiftLeft_or (by omega), shiftLeft_or (by omega),
    shiftLeft_or (by omega)]
  rfl

theorem dearmorGroup_eq {c0 c1 c2 c3 c4 c5 c6 c7 : ℕ} (h1 : c1 < 32) (h2 : c2 < 32) (h3 : c3 < 32)
    (h4 : c4 < 32) (h5 : c5 < 32) (h6 : c6 < 32) (h7 : c7 < 32) :
    dearmorGroup c0 c1 c2 c3 c4 c5 c6 c7 =
      [c0 * 8 + c1 / 4, c1 * 64 + (c2 * 2 + c3 / 16), c3 * 16 + c4 / 2,
        c4 * 128 + (c5 * 4 + c6 / 8), c6 * 32 + c7].map ofNat := by
  simp only [dearmorGroup, shiftRight_eq_div_pow, Nat.or_assoc]
  rw [shiftLeft_or (by omega), shiftLeft_or (k := 1) (by omega), shiftLeft_or (by omega),
    shiftLeft_or (by omega), shiftLeft_or (k := 2) (by omega), shiftLeft_or (by omega),
    shiftLeft_or (by omega)]
  rfl

theorem dearmorGroup_armorGroup (b0 b1 b2 b3 b4 : UInt8) :
    ∃ c0 c1 c2 c3 c4 c5 c6 c7, armorGroup b0.toNat b1.toNat b2.toNat b3.toNat b4.toNat =
        [c0, c1, c2, c3, c4, c5, c6, c7] ∧
      (∀ c ∈ [c0, c1, c2, c3, c4, c5, c6, c7], c < 32) ∧
      dearmorGroup c0 c1 c2 c3 c4 c5 c6 c7 = [b0, b1, b2, b3, b4] := by
  have h0 := b0.toNat_lt
  have h1 := b1.toNat_lt
  have h2 := b2.toNat_lt
  have h3 := b3.toNat_lt
  have h4 := b4.toNat_lt
  refine ⟨_, _, _, _, _, _, _, _, armorGroup_eq h1 h2 h3 h4, ?_, ?_⟩
  · simp only [mem_cons, not_mem_nil, or_false]
    omega
  · rw [dearmorGroup_eq (by omega) (by omega) (by omega) (by omega) (by omega) (by omega)
      (by omega)]
    simp only [map_cons, map_nil, List.cons.injEq, ← UInt8.toNat_inj, UInt8.toNat_ofNat', and_true]
    omega

theorem armorGroup_dearmorGroup {c0 c1 c2 c3 c4 c5 c6 c7 : ℕ}
    (h : ∀ c ∈ [c0, c1, c2, c3, c4, c5, c6, c7], c < 32) :
    ∃ b0 b1 b2 b3 b4, dearmorGroup c0 c1 c2 c3 c4 c5 c6 c7 = [b0, b1, b2, b3, b4] ∧
      armorGroup b0.toNat b1.toNat b2.toNat b3.toNat b4.toNat =
        [c0, c1, c2, c3, c4, c5, c6, c7] := by
  simp only [mem_cons, not_mem_nil, or_false, forall_eq_or_imp, forall_eq] at h
  obtain ⟨h0, h1, h2, h3, h4, h5, h6, h7⟩ := h
  refine ⟨_, _, _, _, _, dearmorGroup_eq h1 h2 h3 h4 h5 h6 h7, ?_⟩
  rw [armorGroup_eq (toNat_lt _) (toNat_lt _) (toNat_lt _) (toNat_lt _)]
  simp only [UInt8.toNat_ofNat', List.cons.injEq, and_true]
  omega

section RoundTrip

theorem armorGroup_lt (b0 b1 b2 b3 b4 : UInt8) :
    ∀ c ∈ armorGroup b0.toNat b1.toNat b2.toNat b3.toNat b4.toNat, c < 32 := by
  obtain ⟨c0, c1, c2, c3, c4, c5, c6, c7, hgroup, hlt, -⟩ := dearmorGroup_armorGroup b0 b1 b2 b3 b4
  rw [hgroup]
  exact hlt

theorem armorDigits_lt (bs : Bytes) : ∀ c ∈ armorDigits (bs.map toNat), c < 32 := by
  intro c hc
  match bs with
  | b0 :: b1 :: b2 :: b3 :: b4 :: bs =>
    rcases mem_append.mp hc with hc | hc
    · exact armorGroup_lt b0 b1 b2 b3 b4 c hc
    · exact armorDigits_lt bs c hc
  | [b0, b1, b2, b3] => exact armorGroup_lt b0 b1 b2 b3 0 c (mem_of_mem_take hc)
  | [b0, b1, b2] => exact armorGroup_lt b0 b1 b2 0 0 c (mem_of_mem_take hc)
  | [b0, b1] => exact armorGroup_lt b0 b1 0 0 0 c (mem_of_mem_take hc)
  | [b0] => exact armorGroup_lt b0 0 0 0 0 c (mem_of_mem_take hc)

/-- The first digits of a group have its first bytes, whatever follows. -/
theorem dearmorDigits_take (b0 b1 b2 b3 b4 : UInt8) :
    let group := armorGroup b0.toNat b1.toNat b2.toNat b3.toNat b4.toNat
    dearmorDigits (group.take 7) = some [b0, b1, b2, b3] ∧
      dearmorDigits (group.take 5) = some [b0, b1, b2] ∧
      dearmorDigits (group.take 4) = some [b0, b1] ∧ dearmorDigits (group.take 2) = some [b0] := by
  obtain ⟨c0, c1, c2, c3, c4, c5, c6, c7, hgroup, -, hback⟩ :=
    dearmorGroup_armorGroup b0 b1 b2 b3 b4
  have htake : ∀ k, (dearmorGroup c0 c1 c2 c3 c4 c5 c6 c7).take k = [b0, b1, b2, b3, b4].take k :=
    fun k => by rw [hback]
  rw [hgroup]
  exact ⟨congrArg some (htake 4), congrArg some (htake 3), congrArg some (htake 2),
    congrArg some (htake 1)⟩

theorem dearmorDigits_armorDigits (bs : Bytes) :
    dearmorDigits (armorDigits (bs.map toNat)) = some bs := by
  match bs with
  | b0 :: b1 :: b2 :: b3 :: b4 :: bs =>
    obtain ⟨c0, c1, c2, c3, c4, c5, c6, c7, hgroup, -, hback⟩ :=
      dearmorGroup_armorGroup b0 b1 b2 b3 b4
    simp only [map_cons]
    rw [armorDigits, hgroup]
    simp only [cons_append, nil_append]
    rw [dearmorDigits, dearmorDigits_armorDigits bs, hback]
    rfl
  | [b0, b1, b2, b3] => exact (dearmorDigits_take b0 b1 b2 b3 0).1
  | [b0, b1, b2] => exact (dearmorDigits_take b0 b1 b2 0 0).2.1
  | [b0, b1] => exact (dearmorDigits_take b0 b1 0 0 0).2.2.1
  | [b0] => exact (dearmorDigits_take b0 0 0 0 0).2.2.2
  | [] => rfl

theorem mapM_a2b32 {ds : List ℕ} (h : ∀ d ∈ ds, d < 32) :
    (ds.map armorChar).mapM a2b32 = some ds := by
  induction ds with
  | nil => rfl
  | cons d ds ih =>
    rw [map_cons, mapM_cons, a2b32_armorChar d (h d mem_cons_self),
      ih fun x hx => h x (mem_cons_of_mem d hx)]
    rfl

/-- What `armor32` writes, `dearmor32` reads back. -/
theorem dearmor32_armor32 (bs : Bytes) : dearmor32 (armor32 bs) = some bs := by
  rw [dearmor32, armor32, mapM_a2b32 (armorDigits_lt bs), bind_some, dearmorDigits_armorDigits]

theorem a2b32_isSome_of_mem_armor32 {bs : Bytes} {c : UInt8} (h : c ∈ armor32 bs) :
    (a2b32 c).isSome = true := by
  obtain ⟨d, hd, rfl⟩ := List.mem_map.mp h
  rw [a2b32_armorChar d (armorDigits_lt bs d hd), isSome_some]

theorem armor32len_armor32 (bs : Bytes) : armor32len (armor32 bs) = (armor32 bs).length := by
  rw [armor32len, List.takeWhile_eq_self_iff.mpr fun c hc => a2b32_isSome_of_mem_armor32 hc]

variable {k : ℕ}

/-- Whole groups are read in one way only. -/
theorem armorDigits_dearmorDigits {ds : List ℕ} (hlt : ∀ d ∈ ds, d < 32)
    (hlen : ds.length = 8 * k) :
    ∃ bs, dearmorDigits ds = some bs ∧ bs.length = 5 * k ∧ armorDigits (bs.map toNat) = ds := by
  induction k generalizing ds with
  | zero =>
    obtain rfl := eq_nil_of_length_eq_zero hlen
    exact ⟨[], rfl, rfl, rfl⟩
  | succ k ih =>
    match ds, hlen with
    | c0 :: c1 :: c2 :: c3 :: c4 :: c5 :: c6 :: c7 :: ds, hlen =>
      simp only [length_cons] at hlen
      have hrest : ∀ d ∈ ds, d < 32 := fun d hd => hlt d (by simp only [mem_cons, hd, or_true])
      obtain ⟨bs, hbs, hbslen, hback⟩ := ih hrest (by omega)
      obtain ⟨b0, b1, b2, b3, b4, hgroup, hdigits⟩ := armorGroup_dearmorGroup
        fun d hd => hlt d (mem_append_left ds hd)
      refine ⟨b0 :: b1 :: b2 :: b3 :: b4 :: bs, ?_, ?_, ?_⟩
      · rw [dearmorDigits, hbs, hgroup]
        rfl
      · simp only [length_cons]
        omega
      · simp only [map_cons]
        rw [armorDigits, hdigits, hback]
        rfl

theorem armorChar_of_mapM {s : Bytes} (h : ∀ c ∈ s, (a2b32 c).isSome = true) :
    ∃ ds, s.mapM a2b32 = some ds ∧ (∀ d ∈ ds, d < 32) ∧ ds.map armorChar = s := by
  induction s with
  | nil => exact ⟨[], rfl, fun d hd => absurd hd not_mem_nil, rfl⟩
  | cons c s ih =>
    obtain ⟨ds, hds, hlt, hback⟩ := ih fun x hx => h x (mem_cons_of_mem c hx)
    obtain ⟨d, hd⟩ := isSome_iff_exists.mp (h c mem_cons_self)
    obtain ⟨hdlt, hdc⟩ := armorChar_a2b32 hd
    refine ⟨d :: ds, ?_, ?_, ?_⟩
    · rw [mapM_cons, hd, hds]
      rfl
    · rintro x (_ | ⟨_, hx⟩)
      · exact hdlt
      · exact hlt x hx
    · rw [map_cons, hdc, hback]

/-- A string of whole groups of digits is the armor of one string of bytes. -/
theorem exists_armor32_eq {s : Bytes} (h : ∀ c ∈ s, (a2b32 c).isSome = true)
    (hlen : s.length = 8 * k) :
    ∃ bs, dearmor32 s = some bs ∧ bs.length = 5 * k ∧ armor32 bs = s := by
  obtain ⟨ds, hds, hlt, hback⟩ := armorChar_of_mapM h
  have hdslen : ds.length = 8 * k := by rw [← hlen, ← hback, length_map]
  obtain ⟨bs, hbs, hbslen, hdigits⟩ := armorDigits_dearmorDigits hlt hdslen
  refine ⟨bs, ?_, hbslen, ?_⟩
  · rw [dearmor32, hds, bind_some, hbs]
  · rw [armor32, hdigits, hback]

theorem length_armorDigits {ps : List ℕ} (h : ps.length = 5 * k) :
    (armorDigits ps).length = 8 * k := by
  induction k generalizing ps with
  | zero =>
    obtain rfl := eq_nil_of_length_eq_zero h
    rfl
  | succ k ih =>
    match ps, h with
    | p0 :: p1 :: p2 :: p3 :: p4 :: ps, h =>
      simp only [length_cons] at h
      rw [armorDigits, length_append, ih (by omega)]
      simp only [armorGroup, length_cons, length_nil]
      omega

theorem length_armor32 {bs : Bytes} (h : bs.length = 5 * k) : (armor32 bs).length = 8 * k := by
  rw [armor32, length_map, length_armorDigits]
  rwa [length_map]

end RoundTrip

end SelfCertifyingFS.Async
