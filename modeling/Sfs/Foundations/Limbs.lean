import Mathlib.Data.List.DropRight
import Sfs.Foundations.XorBytes

/-!
# Numbers as lists of limbs

A natural number in a base, low limb first: leading zeros, the complement with respect
to a power of the base as a loop over the limbs computes it, and the bytes of a number
low byte first, limb by limb.
-/

namespace SelfCertifyingFS.Foundations

open List Nat

section Magnitude

variable {B : ℕ}

/-- The number that the limbs stand for. -/
def mag (ds : List (Fin B)) : ℕ := Nat.ofDigits B (ds.map Fin.val)

@[simp] theorem mag_nil : mag ([] : List (Fin B)) = 0 := rfl

@[simp] theorem mag_cons (d : Fin B) (ds : List (Fin B)) : mag (d :: ds) = d.val + B * mag ds := by
  simp [mag, ofDigits_cons]

theorem mag_append (ds es : List (Fin B)) : mag (ds ++ es) = mag ds + B ^ ds.length * mag es := by
  simp [mag, ofDigits_append]

variable (ds : List (Fin B))

theorem mag_lt : mag ds < B ^ ds.length := by
  induction ds with
  | nil => exact Nat.one_pos
  | cons d ds ih =>
    calc mag (d :: ds) = d.val + B * mag ds := mag_cons d ds
      _ < B + B * mag ds := by omega
      _ = B * (mag ds + 1) := by rw [mul_succ, Nat.add_comm]
      _ ≤ B * B ^ ds.length := Nat.mul_le_mul_left B ih
      _ = B ^ (d :: ds).length := by rw [length_cons, pow_succ, Nat.mul_comm]

theorem mag_take (n : ℕ) : mag (ds.take n) = mag ds % B ^ n := by
  rcases le_or_gt n ds.length with h | h
  · have hsplit := mag_append (ds.take n) (ds.drop n)
    rw [take_append_drop, length_take_of_le h] at hsplit
    have hlt := mag_lt (ds.take n)
    rw [length_take_of_le h] at hlt
    rw [hsplit, add_mul_mod_self_left, mod_eq_of_lt hlt]
  · rw [take_of_length_le h.le]
    rcases Nat.eq_zero_or_pos B with rfl | hB
    · cases ds with
      | nil => exact (zero_mod _).symm
      | cons d ds => exact d.elim0
    · exact (mod_eq_of_lt ((mag_lt ds).trans_le (Nat.pow_le_pow_right hB h.le))).symm

/-- The limbs without leading zeros. -/
def trim : List (Fin B) := ds.rdropWhile fun d => d.val == 0

theorem mag_trim : mag (trim ds) = mag ds := by
  induction ds using List.reverseRecOn with
  | nil => rfl
  | append_singleton ds d ih =>
    unfold trim at ih ⊢
    rw [rdropWhile_concat]
    split_ifs with h
    · have hd : d.val = 0 := by simpa using h
      rw [ih, mag_append, mag_cons, hd, mag_nil, Nat.mul_zero, Nat.mul_zero, Nat.add_zero]
    · rfl

theorem trim_getLast (h : trim ds ≠ []) : ((trim ds).getLast h).val ≠ 0 := by
  have hlast := rdropWhile_last_not _ _ h
  intro hzero
  exact hlast (beq_iff_eq.mpr hzero)

end Magnitude

section Complement

variable {B : ℕ}

theorem neg_val_eq_zero_iff (d : Fin B) : (-d).val = 0 ↔ d.val = 0 := by
  rw [Fin.val_neg']
  constructor
  · intro h
    by_contra hne
    rw [mod_eq_of_lt (by omega)] at h
    omega
  · intro h
    rw [h, Nat.sub_zero, mod_self]

theorem neg_val_add {d : Fin B} (h : d.val ≠ 0) : (-d).val + d.val = B := by
  rw [Fin.val_neg', mod_eq_of_lt (by omega)]
  omega

variable [NeZero B]

/-- The limb of ones. -/
def ones : Fin B := Fin.rev 0

/-- So many limbs inverted bit by bit, with zeros behind the ones that are given. -/
def invert : ℕ → List (Fin B) → List (Fin B)
  | 0, _ => []
  | n + 1, [] => ones :: invert n []
  | n + 1, d :: ds => d.rev :: invert n ds

/-- So many limbs negated: the low zeros stay, the next limb is negated, and the others are
inverted. There is no result if all are zero. -/
def negate : ℕ → List (Fin B) → Option (List (Fin B))
  | n + 1, d :: ds =>
      if (-d).val ≠ 0 then some (-d :: invert n ds) else (negate n ds).map ((-d) :: ·)
  | _, _ => none

theorem ones_val : (ones : Fin B).val = B - 1 := by
  rw [ones, Fin.val_rev, Fin.val_zero]

variable (n : ℕ) (ds : List (Fin B))

theorem length_invert : (invert n ds).length = n := by
  induction n, ds using invert.induct with
  | case1 => rfl
  | case2 n ih | case3 n d ds ih => rw [invert, length_cons, ih]

theorem mag_invert : mag (invert n ds) + mag (ds.take n) + 1 = B ^ n := by
  have hB : 0 < B := NeZero.pos B
  induction n, ds using invert.induct with
  | case1 ds => simp [invert]
  | case2 n ih =>
    rw [invert, mag_cons, ones_val, List.take_nil, pow_succ, ← ih, List.take_nil, mag_nil]
    ring_nf
    omega
  | case3 n d ds ih =>
    rw [pow_succ, ← ih]
    have hrev : B - (d.val + 1) + d.val + 1 = B := by omega
    calc B - (d.val + 1) + B * mag (invert n ds) + (d.val + B * mag (ds.take n)) + 1
        = (B - (d.val + 1) + d.val + 1) + B * mag (invert n ds) + B * mag (ds.take n) := by ring
      _ = (mag (invert n ds) + mag (ds.take n) + 1) * B := by rw [hrev]; ring

/-- Negation is the complement of the low limbs, if they are not all zero. -/
theorem negate_spec :
    (negate n ds = none → mag (ds.take n) = 0) ∧
      ∀ es, negate n ds = some es →
        es.length = n ∧ mag es + mag (ds.take n) = B ^ n ∧ mag (ds.take n) ≠ 0 := by
  induction n generalizing ds with
  | zero => simp [negate]
  | succ n ih =>
    cases ds with
    | nil => simp [negate]
    | cons d ds =>
      rw [negate, take_succ_cons, mag_cons]
      split_ifs with h
      · -- The carry stops here.
        have hd : d.val ≠ 0 := fun hzero => h ((neg_val_eq_zero_iff d).mpr hzero)
        refine ⟨fun hnone => by simp at hnone, fun es hes => ?_⟩
        obtain rfl := Option.some.inj hes
        have hneg := neg_val_add hd
        have hinv := mag_invert n ds
        refine ⟨by rw [length_cons, length_invert], ?_, by omega⟩
        rw [pow_succ, ← hinv]
        calc (-d).val + B * mag (invert n ds) + (d.val + B * mag (ds.take n))
            = ((-d).val + d.val) + B * mag (invert n ds) + B * mag (ds.take n) := by ring
          _ = (mag (invert n ds) + mag (ds.take n) + 1) * B := by rw [hneg]; ring
      · have hneg : (-d).val = 0 := by simpa using h
        have hd : d.val = 0 := (neg_val_eq_zero_iff d).mp hneg
        obtain ⟨hnone, hsome⟩ := ih ds
        rw [hd, Nat.zero_add]
        refine ⟨fun hmap => ?_, fun es hes => ?_⟩
        · rw [hnone (Option.map_eq_none_iff.mp hmap), Nat.mul_zero]
        · obtain ⟨es', hes', rfl⟩ := Option.map_eq_some_iff.mp hes
          obtain ⟨hlen, hsum, hne⟩ := hsome es' hes'
          refine ⟨by rw [length_cons, hlen], ?_, ?_⟩
          · rw [mag_cons, hneg, Nat.zero_add, ← Nat.mul_add, hsum, pow_succ, Nat.mul_comm]
          · exact Nat.mul_ne_zero (NeZero.ne B) hne

end Complement

section Mask

theorem mul_div_round_up {n : ℕ} (hn : 0 < n) (b : ℕ) :
    n * ((b + (n - 1)) / n) = b + (n - b % n) % n := by
  obtain ⟨q, r, rfl, hr⟩ : ∃ q r, b = n * q + r ∧ r < n :=
    ⟨b / n, b % n, (div_add_mod b n).symm, mod_lt b hn⟩
  rw [mul_add_mod, mod_eq_of_lt hr]
  rcases Nat.eq_zero_or_pos r with rfl | hpos
  · have hone : (n - 1) / n = 0 := div_eq_of_lt (sub_lt hn Nat.one_pos)
    rw [Nat.add_zero, mul_add_div hn, hone, Nat.sub_zero, mod_self]
    rfl
  · have hsum : n * q + r + (n - 1) = n * (q + 1) + (r - 1) := by
      rw [mul_succ]
      omega
    have hzero : (r - 1) / n = 0 := div_eq_of_lt (by omega)
    have hmod : (n - r) % n = n - r := mod_eq_of_lt (sub_lt hn hpos)
    rw [hsum, mul_add_div hn, hzero, mul_succ]
    omega

theorem ones_shiftRight {n s : ℕ} (h : s ≤ n) : (2 ^ n - 1) >>> s = 2 ^ (n - s) - 1 := by
  have hpow : 2 ^ n = 2 ^ s * 2 ^ (n - s) := by rw [← pow_add, Nat.add_sub_cancel' h]
  have hs := Nat.two_pow_pos s
  obtain ⟨m, hm⟩ : ∃ m, 2 ^ (n - s) = m + 1 :=
    ⟨2 ^ (n - s) - 1, (Nat.sub_add_cancel (Nat.two_pow_pos _)).symm⟩
  have hsplit : 2 ^ s * (m + 1) - 1 = 2 ^ s * m + (2 ^ s - 1) := by
    rw [mul_succ]
    omega
  have hzero : (2 ^ s - 1) / 2 ^ s = 0 := div_eq_of_lt (sub_lt hs Nat.one_pos)
  rw [shiftRight_eq_div_pow, hpow, hm, hsplit, mul_add_div hs, hzero]
  rfl

variable {B : ℕ}

theorem and_lt (d : Fin B) (m : ℕ) : d.val &&& m < B := Nat.and_le_left.trans_lt d.isLt

/-- The highest limb masked. -/
def maskTop (m : ℕ) : List (Fin B) → List (Fin B)
  | [] => []
  | [d] => [⟨d.val &&& m, and_lt d m⟩]
  | d :: e :: ds => d :: maskTop m (e :: ds)

theorem mag_maskTop (w : ℕ) {ds : List (Fin B)} (h : ds ≠ []) :
    mag (maskTop (2 ^ w - 1) ds) = mag ds % (B ^ (ds.length - 1) * 2 ^ w) := by
  induction ds using maskTop.induct with
  | case1 => exact absurd rfl h
  | case2 d =>
    have hand : d.val &&& (2 ^ w - 1) = d.val % 2 ^ w := and_two_pow_sub_one_eq_mod _ _
    rw [maskTop, mag_cons, mag_cons, mag_nil, Nat.mul_zero]
    change d.val &&& (2 ^ w - 1) = _
    rw [hand, Nat.add_zero, length_singleton, pow_zero, Nat.one_mul]
  | case3 d e ds ih =>
    have hd := d.isLt
    have hlen : (d :: e :: ds).length - 1 = (e :: ds).length - 1 + 1 := by simp
    rw [maskTop, mag_cons, ih (cons_ne_nil _ _), hlen, pow_succ, mag_cons d]
    generalize B ^ ((e :: ds).length - 1) = b, mag (e :: ds) = m
    calc d.val + B * (m % (b * 2 ^ w))
        = (d.val + B * m) % B + B * ((d.val + B * m) / B % (b * 2 ^ w)) := by
          rw [add_mul_mod_self_left, mod_eq_of_lt hd,
            add_mul_div_left _ _ (zero_lt_of_lt hd), div_eq_of_lt hd, Nat.zero_add]
      _ = (d.val + B * m) % (b * B * 2 ^ w) := by
          rw [← mod_mul, Nat.mul_comm b B, Nat.mul_assoc]

end Mask

theorem leBytes_zero_left (n : ℕ) : leBytes 0 n = [] := rfl

theorem leBytes_succ (k n : ℕ) :
    leBytes (k + 1) n = UInt8.ofNat (n % 256) :: leBytes k (n / 256) := by
  simp [leBytes, beBytes]

theorem leBytes_add (j k n : ℕ) : leBytes (j + k) n = leBytes j n ++ leBytes k (n / 256 ^ j) := by
  induction j generalizing n with
  | zero => simp [leBytes_zero_left]
  | succ j ih =>
    rw [succ_add, leBytes_succ, leBytes_succ, ih, Nat.div_div_eq_div_mul, pow_succ,
      Nat.mul_comm 256, cons_append]

theorem leBytes_add_mul (k n m : ℕ) : leBytes k (n + 256 ^ k * m) = leBytes k n := by
  induction k generalizing n m with
  | zero => rfl
  | succ k ih =>
    have hmul : n + 256 ^ (k + 1) * m = n + 256 * (256 ^ k * m) := by ring
    rw [leBytes_succ, leBytes_succ, hmul, add_mul_mod_self_left,
      add_mul_div_left _ _ (by decide), ih]

theorem leBytes_zero (k : ℕ) : leBytes k 0 = replicate k 0 := by
  induction k with
  | zero => rfl
  | succ k ih => rw [leBytes_succ, ih]; rfl

theorem leBytes_limb (j k v m : ℕ) (hv : v < 256 ^ j) :
    leBytes (j + k) (v + 256 ^ j * m) = leBytes j v ++ leBytes k m := by
  rw [leBytes_add, leBytes_add_mul, add_mul_div_left _ _ (Nat.pow_pos (by decide)),
    div_eq_of_lt hv, Nat.zero_add]

theorem leNat_append (bs cs : Bytes) :
    leNat (bs ++ cs) = leNat bs + 256 ^ bs.length * leNat cs := by
  induction bs with
  | nil => simp [leNat]
  | cons b bs ih =>
    rw [cons_append, leNat_cons, leNat_cons, ih, length_cons]
    ring

end SelfCertifyingFS.Foundations
