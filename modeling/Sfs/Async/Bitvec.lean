import Mathlib.Tactic

/-!
# Bit vectors

The words of a `bitvec` (`async/bitvec.h`) and the search for set bits in a word
(`async/msb.h`). Words have 64 bits.
-/

namespace SelfCertifyingFS.Async

open Nat Function Bool BitVec
open BitVec (allOnes getLsbD_and getLsbD_not)

abbrev MapT := BitVec 64

/-- Position of the most significant bit, counted from 1; the table `bytemsb` holds it
for each byte. -/
def fls (v : ℕ) : ℕ := if v = 0 then 0 else v.log2 + 1

/-- Ceiling of the binary logarithm, stored in a `u_int`; that of zero is `-1`. -/
def log2c (v : ℕ) : ℕ := if v = 0 then 2 ^ 32 - 1 else fls (v - 1)

/-- `ffs64`. It searches the lower half of the word first, but within a half it takes
the most significant bit. -/
def ffs (v : ℕ) : ℕ :=
  if v % 2 ^ 32 ≠ 0 then fls (v % 2 ^ 32)
  else if v >>> 32 % 2 ^ 32 ≠ 0 then 32 + fls (v >>> 32 % 2 ^ 32)
  else 0

theorem log2c_two_pow (k : ℕ) : log2c (2 ^ k) = k := by
  rw [log2c, if_neg (Nat.two_pow_pos k).ne', fls]
  cases k with
  | zero => rfl
  | succ k =>
    have hpos : 2 ≤ 2 ^ (k + 1) := le_pow (succ_pos k)
    rw [if_neg (by omega), Nat.add_right_cancel_iff, log2_eq_iff (by omega)]
    omega

variable {v k : ℕ}

theorem log2c_le_iff (hv : v ≠ 0) : log2c v ≤ k ↔ v ≤ 2 ^ k := by
  rw [log2c, if_neg hv, fls]
  split_ifs with h
  · have := Nat.two_pow_pos k
    omega
  · rw [succ_le_iff, log2_lt h]
    omega

theorem testBit_fls (hv : v ≠ 0) : v.testBit (fls v - 1) = true := by
  rw [fls, if_neg hv]
  exact testBit_log2 hv

theorem fls_bounds (hv : v ≠ 0) (hlt : v < 2 ^ k) : 0 < fls v ∧ fls v ≤ k := by
  rw [fls, if_neg hv]
  have := (log2_lt hv).mpr hlt
  omega

/-- Of a multiple of `2 ^ k` no lower bit is found, as little as of zero. -/
theorem le_ffs_sub_one {o : ℕ} (hk : k < 31) (ho : 2 ^ k ∣ o) :
    k ≤ (ffs o + 2 ^ 32 - 1) % 2 ^ 32 := by
  have hbounds : ∀ v, v % 2 ^ 32 ≠ 0 → 0 < fls (v % 2 ^ 32) ∧ fls (v % 2 ^ 32) ≤ 32 :=
    fun v hv => fls_bounds hv (mod_lt _ (Nat.two_pow_pos 32))
  unfold ffs
  split_ifs with hlow hhigh
  · have hdvd : 2 ^ k ∣ o % 2 ^ 32 := (dvd_mod_iff (pow_dvd_pow 2 (by omega))).mpr ho
    have hle : 2 ^ k ≤ o % 2 ^ 32 := le_of_dvd (Nat.pos_of_ne_zero hlow) hdvd
    have hlog : k ≤ (o % 2 ^ 32).log2 := (le_log2 hlow).mpr hle
    have hfls : fls (o % 2 ^ 32) = (o % 2 ^ 32).log2 + 1 := if_neg hlow
    have := hbounds o hlow
    omega
  · have := hbounds _ hhigh
    omega
  · omega

theorem getLsbD_ffs {v : MapT} (hv : v ≠ 0) :
    v.getLsbD (ffs v.toNat - 1) = true ∧ 0 < ffs v.toNat ∧ ffs v.toNat ≤ 64 := by
  have hne : v.toNat ≠ 0 := fun h => hv (eq_of_toNat_eq h)
  simp only [ffs]
  by_cases hlow : v.toNat % 2 ^ 32 ≠ 0
  · rw [if_pos hlow]
    obtain ⟨hpos, hle⟩ := fls_bounds hlow (mod_lt _ (Nat.two_pow_pos 32))
    have hbit := testBit_fls hlow
    rw [testBit_mod_two_pow, and_eq_true] at hbit
    exact ⟨hbit.2, hpos, by omega⟩
  · have hhigh : v.toNat >>> 32 % 2 ^ 32 ≠ 0 := by
      omega
    rw [if_neg hlow, if_pos hhigh]
    obtain ⟨hpos, hle⟩ := fls_bounds hhigh (mod_lt _ (Nat.two_pow_pos 32))
    have hbit := testBit_fls hhigh
    rw [testBit_mod_two_pow, and_eq_true, testBit_shiftRight] at hbit
    refine ⟨?_, by omega, by omega⟩
    rw [Nat.add_sub_assoc hpos]
    exact hbit.2

def bitAt (map : ℕ → MapT) (pos : ℕ) : Bool := (map (pos / 64)).getLsbD (pos % 64)

def rangeClr (map : ℕ → MapT) (s e : ℕ) : ℕ → MapT :=
  let sp := s / 64
  let ep := e / 64
  let sb := s % 64
  let eb := e % 64
  let ones : MapT := allOnes 64
  if sp = ep then
    if eb ≠ 0 then update map sp (map sp &&& (~~~(ones <<< sb) ||| (ones <<< eb)))
    else map
  else
    let map := update map sp (map sp &&& ~~~(ones <<< sb))
    let map := if eb ≠ 0 then update map ep (map ep &&& (ones <<< eb)) else map
    fun i => if sp < i ∧ i < ep then 0 else map i

theorem getLsbD_mask {j : ℕ} (hj : j < 64) : (1#64 <<< k).getLsbD j = decide (j = k) := by
  rw [getLsbD_shiftLeft, getLsbD_one, Bool.eq_iff_iff]
  simp only [and_eq_true, not_eq_true', decide_eq_true_eq, decide_eq_false_iff_not]
  omega

theorem getLsbD_zero_word (j : ℕ) : (0 : MapT).getLsbD j = false := getLsbD_zero

theorem and_mask_eq_zero {v : MapT} (hk : k < 64) : v &&& 1#64 <<< k = 0 ↔ v.getLsbD k = false := by
  constructor
  · intro h
    have hbit := congrArg (fun w : MapT => w.getLsbD k) h
    simpa [getLsbD_mask hk] using hbit
  · intro h
    apply eq_of_getLsbD_eq
    intro j hj
    rw [getLsbD_and, getLsbD_mask hj, getLsbD_zero_word]
    by_cases hjk : j = k
    · rw [hjk, h, Bool.false_and]
    · rw [decide_eq_false hjk, Bool.and_false]

theorem getLsbD_ones {j : ℕ} (hj : j < 64) : (allOnes 64 <<< k).getLsbD j = decide (k ≤ j) := by
  rw [getLsbD_shiftLeft, getLsbD_allOnes, Bool.eq_iff_iff]
  simp only [and_eq_true, not_eq_true', decide_eq_true_eq, decide_eq_false_iff_not]
  omega

variable (map : ℕ → MapT)

theorem bitAt_update (i : ℕ) (v : MapT) (pos : ℕ) :
    bitAt (update map i v) pos = if pos / 64 = i then v.getLsbD (pos % 64) else bitAt map pos := by
  rw [bitAt, Function.update_apply, apply_ite (fun w : MapT => w.getLsbD (pos % 64))]
  rfl

theorem bitAt_ite (p : ℕ → Prop) [DecidablePred p] (pos : ℕ) :
    bitAt (fun i => if p i then 0 else map i) pos = (bitAt map pos && !decide (p (pos / 64))) := by
  by_cases h : p (pos / 64)
  · simp [bitAt, h]
  · simp [bitAt, h]

/-- Of the range nothing stays, of the rest everything. -/
theorem bitAt_rangeClr {s e : ℕ} (hse : s ≤ e) (pos : ℕ) :
    bitAt (rangeClr map s e) pos = (bitAt map pos && !decide (s ≤ pos ∧ pos < e)) := by
  have hj : pos % 64 < 64 := mod_lt pos (by decide)
  have hword : ∀ i, pos / 64 = i → (map i).getLsbD (pos % 64) = bitAt map pos := by
    rintro i rfl
    rfl
  simp only [rangeClr]
  split_ifs with hp hb hb
  · rw [bitAt_update]
    split_ifs with hi
    · simp only [getLsbD_and, getLsbD_or, getLsbD_not, getLsbD_ones hj,
        hword _ hi, hj, decide_true, Bool.true_and]
      congr 1
      rw [Bool.eq_iff_iff]
      simp only [Bool.or_eq_true, not_eq_true', decide_eq_true_eq, decide_eq_false_iff_not]
      omega
    · have hout : ¬(s ≤ pos ∧ pos < e) := by omega
      simp [hout]
  · have hout : ¬(s ≤ pos ∧ pos < e) := by omega
    simp [hout]
  · -- the first word, the last one and those between them
    rw [bitAt_ite, bitAt_update, bitAt_update, Function.update_of_ne (Ne.symm hp)]
    split_ifs with he hs
    · simp only [getLsbD_and, getLsbD_ones hj, hword _ he, Bool.and_assoc]
      congr 1
      rw [Bool.eq_iff_iff]
      simp only [and_eq_true, not_eq_true', decide_eq_true_eq, decide_eq_false_iff_not]
      omega
    · simp only [getLsbD_and, getLsbD_not, getLsbD_ones hj, hword _ hs, hj,
        decide_true, Bool.true_and, Bool.and_assoc]
      congr 1
      rw [Bool.eq_iff_iff]
      simp only [and_eq_true, not_eq_true', decide_eq_false_iff_not]
      omega
    · congr 2
      rw [decide_eq_decide]
      omega
  · rw [bitAt_ite, bitAt_update]
    split_ifs with hs
    · simp only [getLsbD_and, getLsbD_not, getLsbD_ones hj, hword _ hs, hj,
        decide_true, Bool.true_and, Bool.and_assoc]
      congr 1
      rw [Bool.eq_iff_iff]
      simp only [and_eq_true, not_eq_true', decide_eq_false_iff_not]
      omega
    · congr 2
      rw [decide_eq_decide]
      omega

theorem bitAt_eq_false_iff (pos : ℕ) :
    map (pos / 64) &&& 1#64 <<< (pos % 64) = 0 ↔ bitAt map pos = false :=
  and_mask_eq_zero (mod_lt pos (by decide))

theorem bitAt_update_or (pos pos' : ℕ) :
    bitAt (update map (pos / 64) (map (pos / 64) ||| 1#64 <<< (pos % 64))) pos' =
      (bitAt map pos' || decide (pos' = pos)) := by
  have hj : pos' % 64 < 64 := mod_lt pos' (by decide)
  rw [bitAt_update]
  split_ifs with hi
  · have hpos : (pos' % 64 = pos % 64) ↔ pos' = pos := by omega
    simp only [getLsbD_or, getLsbD_mask hj, hpos, bitAt, hi]
  · have hne : pos' ≠ pos := fun h => hi (by rw [h])
    simp [hne]

theorem bitAt_update_and (pos pos' : ℕ) :
    bitAt (update map (pos / 64) (map (pos / 64) &&& ~~~(1#64 <<< (pos % 64)))) pos' =
      (bitAt map pos' && !decide (pos' = pos)) := by
  have hj : pos' % 64 < 64 := mod_lt pos' (by decide)
  rw [bitAt_update]
  split_ifs with hi
  · have hpos : (pos' % 64 = pos % 64) ↔ pos' = pos := by omega
    simp only [getLsbD_and, getLsbD_not, getLsbD_mask hj, hpos, bitAt, hi, hj,
      decide_true, Bool.true_and]
  · have hne : pos' ≠ pos := fun h => hi (by rw [h])
    simp [hne]

end SelfCertifyingFS.Async
