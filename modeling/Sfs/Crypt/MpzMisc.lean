import Mathlib.Data.Int.Bitwise
import Sfs.Crypt.MpzRoundTrip

/-!
# Bits and squares of large integers

`mpz_getbit` of `crypt/mpz_misc.C` and `mpz_square`. The memory for a square is told by the
number that its limbs stand for, and the functions of the library by what they do to it.
-/

namespace SelfCertifyingFS.Crypt

open Foundations List Nat

section Limbs

variable (B : ℕ)

/-- A number added to the `n` limbs from `o` on, and the carry out of them. -/
def addAt (r o n y : ℕ) : ℕ × ℕ :=
  let t := r / B ^ o % B ^ n + y
  (r % B ^ o + B ^ o * (t % B ^ n + B ^ n * (r / B ^ (o + n))), t / B ^ n)

def addmul1 (r o n s v : ℕ) : ℕ × ℕ := addAt B r o n (s * v)

def add1 (r o n c : ℕ) : ℕ := (addAt B r o n c).1

def setLimb (r o c : ℕ) : ℕ := r % B ^ o + B ^ o * (c + B * (r / B ^ (o + 1)))

/-- The low `n` limbs of a number. -/
def toLimbs [NeZero B] : ℕ → ℕ → List (Fin B)
  | 0, _ => []
  | n + 1, v => Fin.ofNat B v :: toLimbs n (v / B)

variable {B}

/-- Each limb is multiplied with those above it. -/
def crossLoop : ℕ → List (Fin B) → ℕ → ℕ
  | o, v :: w :: ap, r =>
      let p := addmul1 B r o (w :: ap).length (mag (w :: ap)) v
      crossLoop (o + 2) (w :: ap) (setLimb B p.1 (o + (w :: ap).length) p.2)
  | _, _, r => r

def squaresLoop (rsize : ℕ) : ℕ → List (Fin B) → ℕ → ℕ
  | rpos, v :: ap, r =>
      let p := addmul1 B r rpos 1 v v
      squaresLoop rsize (rpos + 2) ap (add1 B p.1 (rpos + 1) (rsize - rpos - 1) p.2)
  | _, [], r => r

end Limbs

namespace MpInt

variable {L : ℕ}

instance : NeZero (256 ^ L) := inferInstance

def getbit (z : MpInt L) (bit : ℕ) : Bool :=
  let limb := bit / (8 * L)
  let e := z.limbs.getD limb 0
  if z.neg then
    let carry := if (z.limbs.take limb).all (·.val == 0) then 1 else 0
    if z.limbs.length ≤ limb then true else (e.rev + carry).val.testBit (bit % (8 * L))
  else if z.limbs.length ≤ limb then false else e.val.testBit (bit % (8 * L))

def square (z : MpInt L) : MpInt L :=
  let rsize := 2 * z.limbs.length
  ofLimbs (toLimbs _ rsize (if z.limbs.length < 24 then mag z.limbs * mag z.limbs
    else squaresLoop rsize 0 z.limbs (crossLoop 1 z.limbs 0 <<< 1 % (256 ^ L) ^ rsize)))

end MpInt

section Bits

variable {B : ℕ} [NeZero B]

theorem mag_toLimbs (n v : ℕ) : mag (toLimbs B n v) = v % B ^ n := by
  induction n generalizing v with
  | zero => simp [toLimbs, mod_one]
  | succ n ih => rw [toLimbs, mag_cons, ih, pow_succ', mod_mul, Fin.val_ofNat]

theorem getD_val (ds : List (Fin B)) (k : ℕ) : (ds.getD k 0).val = mag ds / B ^ k % B := by
  induction ds generalizing k with
  | nil => simp
  | cons d ds ih =>
    cases k with
    | zero => simp [mod_eq_of_lt d.isLt]
    | succ k =>
      rw [getD_cons_succ, ih, mag_cons, pow_succ', ← Nat.div_div_eq_div_mul,
        add_mul_div_left _ _ (pos_of_neZero B), div_eq_of_lt d.isLt, Nat.zero_add]

theorem mag_eq_zero_iff (ds : List (Fin B)) : mag ds = 0 ↔ ds.all (·.val == 0) = true := by
  induction ds with
  | nil => simp
  | cons d ds ih => simp [← ih, NeZero.ne B]

/-- The complement of a limb is that of the number below, with a carry if all lower limbs are
zero. -/
theorem rev_add_carry {ds : List (Fin B)} {m : ℕ} (h : mag ds = m + 1) (k : ℕ) :
    (ds.getD k 0).rev + (if (ds.take k).all (·.val == 0) then 1 else 0) =
      (Fin.ofNat B (m / B ^ k)).rev := by
  have hlimb : ds.getD k 0 = Fin.ofNat B (m / B ^ k) +
      if (ds.take k).all (·.val == 0) then 1 else 0 := by
    apply Fin.ext
    rw [getD_val, h, Nat.succ_div, Fin.val_add]
    simp only [← mag_eq_zero_iff, mag_take, h, dvd_iff_mod_eq_zero]
    split_ifs <;> simp
  rw [← Fin.rev_sub, hlimb, add_sub_cancel_right]

end Bits

namespace MpInt

variable {L : ℕ}

theorem testBit_limb (hL : 0 < L) (x i : ℕ) :
    x.testBit i = (x / (256 ^ L) ^ (i / (8 * L)) % 256 ^ L).testBit (i % (8 * L)) := by
  have hB : 256 ^ L = 2 ^ (8 * L) := (pow_mul 2 8 L).symm
  rw [hB, ← pow_mul, testBit_mod_two_pow, testBit_div_two_pow, mod_add_div,
    decide_eq_true (mod_lt i (by omega)), Bool.true_and]

theorem testBit_rev (d : Limb L) {j : ℕ} (hj : j < 8 * L) :
    d.rev.val.testBit j = !d.val.testBit j := by
  have hB : 256 ^ L = 2 ^ (8 * L) := (pow_mul 2 8 L).symm
  have hd := d.isLt
  rw [Fin.val_rev]
  generalize d.val = v at hd ⊢
  rw [hB] at hd ⊢
  rw [testBit_two_pow_sub_succ hd, decide_eq_true hj, Bool.true_and]

theorem getbit_eq (hL : 0 < L) (z : MpInt L) (i : ℕ) : z.getbit i = z.val.testBit i := by
  cases hneg : z.neg with
  | false =>
    have hbit : (mag z.limbs : ℤ).testBit i = (mag z.limbs).testBit i := rfl
    rw [val_of_not_neg hneg, hbit, testBit_limb hL (mag _), ← getD_val]
    simp only [getbit, hneg, Bool.false_eq_true, if_false]
    split_ifs with hlen
    · simp [getElem?_eq_none hlen]
    · rfl
  | true =>
    have hne : mag z.limbs ≠ 0 := by
      intro hzero
      have hlimbs : z.limbs ≠ [] := fun h => Bool.false_ne_true ((z.sign h).symm.trans hneg)
      have hall := all_eq_true.mp ((mag_eq_zero_iff _).mp hzero) _ (getLast_mem hlimbs)
      exact z.normal hlimbs (by simpa using hall)
    obtain ⟨m, hm⟩ := exists_eq_add_one_of_ne_zero hne
    have hbit : (-(mag z.limbs : ℤ)).testBit i = !m.testBit i := by
      rw [hm]
      rfl
    have hj : i % (8 * L) < 8 * L := mod_lt i (by omega)
    rw [val_of_neg hneg, hbit, testBit_limb hL m]
    simp only [getbit, rev_add_carry hm, testBit_rev _ hj]
    split_ifs with hlen
    · have hlt : mag z.limbs < (256 ^ L) ^ (i / (8 * L)) :=
        (mag_lt _).trans_le (Nat.pow_le_pow_right (by positivity) hlen)
      rw [div_eq_of_lt (by omega)]
      simp
    · rfl

end MpInt

section Squares

variable {B r o n : ℕ}

theorem addAt_eq (B r o n y : ℕ) :
    (addAt B r o n y).1 + B ^ (o + n) * (addAt B r o n y).2 = r + B ^ o * y := by
  have hlow := mod_add_div r (B ^ o)
  have hmid := mod_add_div (r / B ^ o) (B ^ n)
  have hsum := mod_add_div (r / B ^ o % B ^ n + y) (B ^ n)
  rw [Nat.div_div_eq_div_mul, ← pow_add] at hmid
  simp only [addAt]
  linear_combination hlow + B ^ o * hmid + B ^ o * hsum

theorem addAt_lt (h : r < B ^ (o + n)) (y : ℕ) : (addAt B r o n y).1 < B ^ (o + n) := by
  have hpos := pow_add B o n ▸ zero_lt_of_lt h
  have hlow := mod_lt r (Nat.pos_of_mul_pos_right hpos)
  have hhigh := Nat.mul_le_mul_left (B ^ o)
    (mod_lt (r / B ^ o % B ^ n + y) (Nat.pos_of_mul_pos_left hpos))
  rw [Nat.mul_succ, ← pow_add] at hhigh
  simp only [addAt, div_eq_of_lt h, Nat.mul_zero, Nat.add_zero]
  omega

/-- The carry is a new limb. -/
theorem addmul1_setLimb (h : r < B ^ (o + n)) (s v : ℕ) :
    setLimb B (addmul1 B r o n s v).1 (o + n) (addmul1 B r o n s v).2 = r + B ^ o * (s * v) := by
  have hlt := addAt_lt h (s * v)
  rw [← addAt_eq B r o n, setLimb, pow_succ, ← Nat.div_div_eq_div_mul, addmul1, mod_eq_of_lt hlt,
    div_eq_of_lt hlt, Nat.zero_div, Nat.mul_zero, Nat.add_zero]

/-- The carry is added to the limbs above, which have room for it. -/
theorem addmul1_add1 {v : ℕ} (h : r + B ^ o * (v * v) < B ^ (o + 1 + n)) :
    add1 B (addmul1 B r o 1 v v).1 (o + 1) n (addmul1 B r o 1 v v).2 = r + B ^ o * (v * v) := by
  have hsum := (addAt_eq B (addmul1 B r o 1 v v).1 (o + 1) n (addmul1 B r o 1 v v).2).trans
    (addAt_eq B r o 1 (v * v))
  have hcarry : (addAt B (addmul1 B r o 1 v v).1 (o + 1) n (addmul1 B r o 1 v v).2).2 = 0 := by
    by_contra hne
    have hle := Nat.le_mul_of_pos_right (B ^ (o + 1 + n)) (pos_of_ne_zero hne)
    omega
  rwa [hcarry] at hsum

/-- The squares of the limbs, each in its place. -/
def squares : List (Fin B) → ℕ
  | [] => 0
  | v :: ap => v * v + B ^ 2 * squares ap

variable (o : ℕ) (ds : List (Fin B))

theorem crossLoop_eq (h : r < B ^ (o + ds.length)) :
    2 * crossLoop (o + 1) ds r + B ^ o * squares ds = 2 * r + B ^ o * mag ds ^ 2 := by
  induction ds generalizing o r with
  | nil => rfl
  | cons v ap ih =>
    cases ap with
    | nil => simp [crossLoop, squares, sq]
    | cons w ap =>
      rw [length_cons, Nat.add_comm _ 1, ← Nat.add_assoc] at h
      have hlt : r + B ^ (o + 1) * (mag (w :: ap) * v) < B ^ (o + 2 + (w :: ap).length) := by
        have hle := Nat.mul_le_mul (mag_lt (w :: ap)).le (le_refl v.val)
        calc r + B ^ (o + 1) * (mag (w :: ap) * v)
            < B ^ (o + 1 + (w :: ap).length) + B ^ (o + 1) * (B ^ (w :: ap).length * v) :=
              Nat.add_lt_add_of_lt_of_le h (Nat.mul_le_mul_left _ hle)
          _ = B ^ (o + 1 + (w :: ap).length) * (v.val + 1) := by ring
          _ ≤ B ^ (o + 1 + (w :: ap).length) * B := Nat.mul_le_mul_left _ v.isLt
          _ = B ^ (o + 2 + (w :: ap).length) := by ring
      rw [crossLoop, addmul1_setLimb h, squares, mag_cons v]
      linear_combination ih (o + 2) hlt

theorem squaresLoop_eq (h : r + B ^ o * squares ds < B ^ (o + 2 * ds.length)) :
    squaresLoop (o + 2 * ds.length) o ds r = r + B ^ o * squares ds := by
  induction ds generalizing o r with
  | nil => rfl
  | cons v ap ih =>
    have hplace : o + 2 * (v :: ap).length = o + 2 + 2 * ap.length := by
      rw [length_cons]
      omega
    have hcount : o + 2 + 2 * ap.length - o - 1 = 2 * ap.length + 1 := by omega
    have hsum : r + B ^ o * squares (v :: ap) = r + B ^ o * (v * v) + B ^ (o + 2) * squares ap := by
      rw [squares]
      ring
    rw [hplace, hsum] at h ⊢
    have hroom : r + B ^ o * (v.val * v) < B ^ (o + 1 + (2 * ap.length + 1)) := by
      refine (Nat.le_add_right _ _).trans_lt (h.trans_eq ?_)
      ring
    rw [squaresLoop, hcount, addmul1_add1 hroom, ih (o + 2) h]

end Squares

namespace MpInt

variable {L : ℕ}

theorem val_square (z : MpInt L) : z.square.val = z.val * z.val := by
  have hlt := Nat.mul_lt_mul'' (mag_lt z.limbs) (mag_lt z.limbs)
  rw [← pow_add, ← two_mul] at hlt
  rw [square, val_ofLimbs, mag_toLimbs, ← Int.natAbs_mul_self, natAbs_val]
  split_ifs
  · rw [mod_eq_of_lt hlt]
  · have hcross := crossLoop_eq 0 z.limbs (by positivity)
    have hsquares := squaresLoop_eq 0 z.limbs (r := 2 * crossLoop 1 z.limbs 0)
    simp only [pow_zero, Nat.one_mul, Nat.mul_zero, Nat.zero_add, sq] at hcross hsquares
    have hshift : crossLoop 1 z.limbs 0 <<< 1 % (256 ^ L) ^ (2 * z.limbs.length) =
        2 * crossLoop 1 z.limbs 0 := by
      rw [shiftLeft_eq, Nat.mul_comm _ 2, mod_eq_of_lt (by omega)]
    rw [hshift, hsquares (by rwa [hcross]), hcross, mod_eq_of_lt hlt]

/-- What `mpz_umod_2exp`, `mpz_getbit` and `mpz_square` compute, for either sign. -/
theorem mpz_misc_correct (hL : 0 < L) (z : MpInt L) (b i : ℕ) :
    (z.umod2exp b).val = z.val % 2 ^ b ∧ z.getbit i = z.val.testBit i ∧
      z.square.val = z.val * z.val :=
  ⟨val_umod2exp hL z b, getbit_eq hL z i, val_square z⟩

theorem mpz_misc_correct_three : (ofLimbs [3] : MpInt 1).square.val = 9 :=
  (mpz_misc_correct Nat.one_pos (ofLimbs [3]) 0 0).2.2

end MpInt

end SelfCertifyingFS.Crypt
