import Sfs.Foundations.ByteNumbers

/-!
# Exclusive or on bytes

Byte strings of the same length are added bit by bit; a short string may be added to
the front of a longer one. The last byte of a string can be masked, which bounds the
number that the string stands for with its low byte first.
-/

namespace SelfCertifyingFS.Foundations

open List

/-- Byte strings of the same length, added bit by bit. -/
def xorBytes (a b : Bytes) : Bytes := List.zipWith (· ^^^ ·) a b

/-- A byte string added to the front of another one. -/
def xorInto : Bytes → Bytes → Bytes
  | dst, [] => dst
  | [], _ => []
  | d :: dst, s :: src => (d ^^^ s) :: xorInto dst src

@[simp] theorem length_xorBytes (a b : Bytes) : (xorBytes a b).length = min a.length b.length :=
  length_zipWith

@[simp] theorem xorBytes_cons (x y : UInt8) (a b : Bytes) :
    xorBytes (x :: a) (y :: b) = (x ^^^ y) :: xorBytes a b := rfl

@[simp] theorem length_xorInto (dst src : Bytes) : (xorInto dst src).length = dst.length := by
  induction dst generalizing src with
  | nil => cases src <;> rfl
  | cons d dst ih =>
    cases src with
    | nil => rfl
    | cons s src => simp [xorInto, ih]

theorem xorBytes_comm (a b : Bytes) : xorBytes a b = xorBytes b a :=
  zipWith_comm_of_comm UInt8.xor_comm

theorem xorBytes_assoc (a b c : Bytes) : xorBytes (xorBytes a b) c = xorBytes a (xorBytes b c) := by
  induction a generalizing b c with
  | nil => rfl
  | cons x a ih =>
    cases b with
    | nil => rfl
    | cons y b =>
      cases c with
      | nil => rfl
      | cons z c => simp [ih, UInt8.xor_assoc]

theorem xorBytes_cancel {a b : Bytes} (h : a.length ≤ b.length) :
    xorBytes (xorBytes a b) b = a := by
  induction a generalizing b with
  | nil => rfl
  | cons x a ih =>
    cases b with
    | nil => simp at h
    | cons y b =>
      rw [xorBytes_cons, xorBytes_cons, ih (by simpa using h), UInt8.xor_assoc, UInt8.xor_self,
        UInt8.xor_zero]

theorem xorBytes_xorInto {dst src : Bytes} (h : src.length ≤ dst.length) :
    xorBytes (xorInto dst src) dst = src ++ replicate (dst.length - src.length) 0 := by
  induction dst generalizing src with
  | nil =>
    obtain rfl := length_eq_zero_iff.mp (Nat.le_zero.mp h)
    rfl
  | cons d dst ih =>
    cases src with
    | nil =>
      have hrest := ih (by simp : ([]).length ≤ dst.length)
      rw [xorInto] at hrest ⊢
      rw [xorBytes_cons, hrest, UInt8.xor_self]
      rfl
    | cons s src =>
      have hcancel : d ^^^ s ^^^ d = s := by
        rw [UInt8.xor_comm d s, UInt8.xor_assoc, UInt8.xor_self, UInt8.xor_zero]
      rw [xorInto, xorBytes_cons, ih (by simpa using h), hcancel]
      simp

theorem drop_xorInto (dst src : Bytes) {k : ℕ} (h : src.length ≤ k) :
    (xorInto dst src).drop k = dst.drop k := by
  induction dst generalizing src k with
  | nil => cases src <;> rfl
  | cons d dst ih =>
    cases src with
    | nil => rfl
    | cons s src =>
      obtain ⟨k, rfl⟩ := Nat.exists_eq_add_of_lt (Nat.lt_of_lt_of_le (Nat.succ_pos _) h)
      exact ih src (by simpa using h)

theorem xorInto_append (dst s t : Bytes) (h : s.length ≤ dst.length) :
    xorInto dst (s ++ t) =
      (xorInto dst s).take s.length ++ xorInto ((xorInto dst s).drop s.length) t := by
  induction dst generalizing s with
  | nil =>
    obtain rfl := length_eq_zero_iff.mp (Nat.le_zero.mp h)
    rfl
  | cons d dst ih =>
    cases s with
    | nil => rfl
    | cons x s => simp [xorInto, ih s (by simpa using h)]

/-- The last byte masked. -/
def maskLast (m : UInt8) : Bytes → Bytes
  | [] => []
  | [b] => [b &&& m]
  | b :: c :: bs => b :: maskLast m (c :: bs)

@[simp] theorem length_maskLast (m : UInt8) (bs : Bytes) : (maskLast m bs).length = bs.length := by
  induction bs using maskLast.induct with
  | case1 | case2 b => rfl
  | case3 b c bs ih => simp [maskLast, ih]

theorem maskLast_append (m : UInt8) (a : Bytes) {b : Bytes} (hb : b ≠ []) :
    maskLast m (a ++ b) = a ++ maskLast m b := by
  induction a with
  | nil => rfl
  | cons x a ih =>
    obtain ⟨y, ys, hy⟩ := exists_cons_of_ne_nil (append_ne_nil_of_right_ne_nil a hb)
    rw [cons_append, cons_append, ← ih, hy, maskLast]

theorem maskLast_maskLast (m : UInt8) (bs : Bytes) :
    maskLast m (maskLast m bs) = maskLast m bs := by
  induction bs using maskLast.induct with
  | case1 => rfl
  | case2 b => simp [maskLast, UInt8.and_assoc]
  | case3 b c bs ih =>
    obtain ⟨x, xs, hx⟩ : ∃ x xs, maskLast m (c :: bs) = x :: xs := by
      cases bs with
      | nil | cons d bs => exact ⟨_, _, rfl⟩
    rw [maskLast, hx, maskLast, ← hx, ih]

theorem and_xor_and (a b m : UInt8) : ((a &&& m) ^^^ b) &&& m = (a ^^^ b) &&& m := by
  apply UInt8.toBitVec_inj.mp
  ext i hi
  simp only [UInt8.toBitVec_and, UInt8.toBitVec_xor, BitVec.getElem_and, BitVec.getElem_xor]
  cases a.toBitVec[i] <;> cases b.toBitVec[i] <;> cases m.toBitVec[i] <;> rfl

theorem maskLast_xorBytes (m : UInt8) {a b : Bytes} (h : a.length = b.length) :
    maskLast m (xorBytes (maskLast m a) b) = maskLast m (xorBytes a b) := by
  induction a using maskLast.induct generalizing b with
  | case1 => rfl
  | case2 x =>
    obtain ⟨y, rfl⟩ := List.length_eq_one_iff.mp h.symm
    simp [maskLast, xorBytes, and_xor_and]
  | case3 x y a ih =>
    match b, h with
    | u :: v :: b, h =>
      have hrest := ih (b := v :: b) (by simpa using h)
      obtain ⟨z, zs, hz⟩ : ∃ z zs, maskLast m (y :: a) = z :: zs := by
        cases a with
        | nil | cons d a => exact ⟨_, _, rfl⟩
      rw [hz, xorBytes_cons, xorBytes_cons] at hrest
      rw [maskLast, hz, xorBytes_cons, xorBytes_cons, xorBytes_cons, xorBytes_cons, maskLast,
        maskLast, hrest]

theorem maskLast_xorInto (m : UInt8) {dst src : Bytes} (h : src.length < dst.length) :
    xorInto (maskLast m dst) src = maskLast m (xorInto dst src) := by
  induction dst using maskLast.induct generalizing src with
  | case1 => simp at h
  | case2 b =>
    obtain rfl : src = [] := length_eq_zero_iff.mp (by simpa using h)
    rfl
  | case3 b c bs ih =>
    cases src with
    | nil => rfl
    | cons s src =>
      have hrest : xorInto (maskLast m (c :: bs)) src = maskLast m (xorInto (c :: bs) src) :=
        ih (by simpa using h)
      obtain ⟨z, zs, hz⟩ : ∃ z zs, xorInto (c :: bs) src = z :: zs := by
        cases src with
        | nil | cons t src => exact ⟨_, _, rfl⟩
      rw [maskLast, xorInto, hrest, xorInto, hz, maskLast]

/-- The value of a byte string read least significant byte first. -/
def leNat (bs : Bytes) : ℕ := beNat bs.reverse

/-- The `k` low base-256 digits of a number, least significant first. -/
def leBytes (k n : ℕ) : Bytes := (beBytes k n).reverse

@[simp] theorem length_leBytes (k n : ℕ) : (leBytes k n).length = k := by
  rw [leBytes, length_reverse, length_beBytes]

theorem leBytes_leNat (bs : Bytes) : leBytes bs.length (leNat bs) = bs := by
  rw [leBytes, leNat, ← length_reverse, beBytes_beNat, reverse_reverse]

theorem leNat_lt (bs : Bytes) : leNat bs < 256 ^ bs.length := by
  have h := beNat_lt bs.reverse
  rwa [length_reverse] at h

@[simp] theorem leNat_cons (b : UInt8) (bs : Bytes) :
    leNat (b :: bs) = leNat bs * 256 + b.toNat := by
  rw [leNat, reverse_cons, beNat_append_singleton]
  rfl

theorem leNat_maskLast_lt {m : UInt8} {w : ℕ} (hm : m.toNat < 2 ^ w) {bs : Bytes} (h : bs ≠ []) :
    leNat (maskLast m bs) < 2 ^ (8 * (bs.length - 1) + w) := by
  induction bs using maskLast.induct with
  | case1 => exact absurd rfl h
  | case2 b =>
    have hle : (b &&& m).toNat ≤ m.toNat := UInt8.le_iff_toNat_le.mp UInt8.and_le_right
    have hval : leNat (maskLast m [b]) = (b &&& m).toNat := by
      exact Nat.zero_add _
    rw [hval]
    simpa using hle.trans_lt hm
  | case3 b c bs ih =>
    have hrest := ih (cons_ne_nil _ _)
    have hb : b.toNat < 256 := b.toNat_lt
    have hexp : 8 * ((b :: c :: bs).length - 1) + w = 8 * ((c :: bs).length - 1) + w + 8 := by
      simp only [length_cons]
      omega
    rw [maskLast, leNat_cons, hexp, pow_add]
    omega

end SelfCertifyingFS.Foundations
