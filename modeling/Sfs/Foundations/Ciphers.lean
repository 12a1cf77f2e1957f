import Mathlib.Tactic
import Sfs.Foundations.ByteNumbers

/-!
# Chaining and keystreams

A permutation of blocks is chained: each block is mixed with the previous output first, and
mixing undoes itself. A generator hands out one byte at a time; two generators in the same state
undo each other, and stay in the same state while they are asked for the same number of bytes.
-/

namespace SelfCertifyingFS.Foundations

section

variable {β : Type*} (mix : β → β → β) (π : Equiv.Perm β)

/-- Chained encryption from an initial block. -/
def chainEncipher : β → List β → List β
  | _, [] => []
  | iv, x :: xs => π (mix iv x) :: chainEncipher (π (mix iv x)) xs

/-- Chained decryption from an initial block. -/
def chainDecipher : β → List β → List β
  | _, [] => []
  | iv, c :: cs => mix (π.symm c) iv :: chainDecipher c cs

@[simp] theorem length_chainEncipher (iv : β) (xs : List β) :
    (chainEncipher mix π iv xs).length = xs.length := by
  induction xs generalizing iv with
  | nil => rfl
  | cons x xs ih => simp [chainEncipher, ih]

@[simp] theorem length_chainDecipher (iv : β) (cs : List β) :
    (chainDecipher mix π iv cs).length = cs.length := by
  induction cs generalizing iv with
  | nil => rfl
  | cons c cs ih => simp [chainDecipher, ih]

variable {mix}

theorem chainDecipher_chainEncipher (hmix : ∀ a b, mix (mix a b) a = b) (iv : β)
    (xs : List β) : chainDecipher mix π iv (chainEncipher mix π iv xs) = xs := by
  induction xs generalizing iv with
  | nil => rfl
  | cons x xs ih => simp [chainEncipher, chainDecipher, hmix, ih]

theorem chainEncipher_chainDecipher (hmix : ∀ a b, mix a (mix b a) = b) (iv : β)
    (cs : List β) : chainEncipher mix π iv (chainDecipher mix π iv cs) = cs := by
  induction cs generalizing iv with
  | nil => rfl
  | cons c cs ih => simp [chainEncipher, chainDecipher, hmix, ih]

end

open Nat

/-- A generator of bytes on states of type `κ`. -/
structure Keystream (κ : Type*) where
  getbyte : κ → UInt8 × κ

namespace Keystream

variable {κ : Type*} (K : Keystream κ)

/-- The next bytes, and the state behind them. -/
def draw : ℕ → κ → Bytes × κ
  | 0, c => ([], c)
  | n + 1, c =>
      let (b, c) := K.getbyte c
      let (bs, c) := draw n c
      (b :: bs, c)

/-- A text with the next bytes added to it. -/
def mask : Bytes → κ → Bytes × κ
  | [], c => ([], c)
  | b :: bs, c =>
      let (a, c) := K.getbyte c
      let (bs, c) := mask bs c
      ((b ^^^ a) :: bs, c)

@[simp] theorem length_draw (n : ℕ) (c : κ) : (K.draw n c).1.length = n := by
  induction n generalizing c with
  | zero => rfl
  | succ n ih => simp [draw, ih]

@[simp] theorem length_mask (bs : Bytes) (c : κ) : (K.mask bs c).1.length = bs.length := by
  induction bs generalizing c with
  | nil => rfl
  | cons b bs ih => simp [mask, ih]

theorem mask_eq (bs : Bytes) (c : κ) :
    K.mask bs c = (List.zipWith (· ^^^ ·) bs (K.draw bs.length c).1, (K.draw bs.length c).2) := by
  induction bs generalizing c with
  | nil => rfl
  | cons b bs ih => simp [mask, draw, ih]

theorem mask_append (bs cs : Bytes) (c : κ) :
    K.mask (bs ++ cs) c =
      ((K.mask bs c).1 ++ (K.mask cs (K.mask bs c).2).1, (K.mask cs (K.mask bs c).2).2) := by
  induction bs generalizing c with
  | nil => rfl
  | cons b bs ih => simp [mask, ih]

theorem mask_mask (bs : Bytes) (c : κ) : K.mask (K.mask bs c).1 c = (bs, (K.mask bs c).2) := by
  induction bs generalizing c with
  | nil => rfl
  | cons b bs ih => simp [mask, ih, UInt8.xor_assoc]

end Keystream

theorem mul_add_xor_mul_add (m n : ℕ) (a b : UInt8) :
    (m * 256 + a.toNat) ^^^ (n * 256 + b.toNat) = (m ^^^ n) * 256 + (a ^^^ b).toNat := by
  have hlow : ∀ k (c : UInt8), k * 256 + c.toNat = 2 ^ 8 * k + c.toNat := by
    intro k c
    rw [mul_comm]
    rfl
  rw [hlow, hlow, hlow, UInt8.toNat_xor]
  apply eq_of_testBit_eq
  intro i
  rw [testBit_xor, testBit_two_pow_mul_add _ a.toNat_lt, testBit_two_pow_mul_add _
    b.toNat_lt, testBit_two_pow_mul_add _ (xor_lt_two_pow a.toNat_lt b.toNat_lt)]
  split <;> rw [testBit_xor]

theorem beNat_zipWith_xor {bs cs : Bytes} (h : bs.length = cs.length) :
    beNat (List.zipWith (· ^^^ ·) bs cs) = beNat bs ^^^ beNat cs := by
  induction bs using List.reverseRecOn generalizing cs with
  | nil => simp [List.length_eq_zero_iff.mp h.symm]
  | append_singleton bs b ih =>
    rcases List.eq_nil_or_concat' cs with rfl | ⟨cs, c, rfl⟩
    · simp at h
    · have hlen : bs.length = cs.length := by simpa using h
      rw [List.zipWith_append hlen, beNat_append_singleton, beNat_append_singleton,
        mul_add_xor_mul_add, ← ih hlen]
      simp

theorem Keystream.beNat_mask_xor {κ : Type*} (K : Keystream κ) (bs : Bytes) (c : κ) :
    beNat (K.mask bs c).1 ^^^ beNat (K.draw bs.length c).1 = beNat bs := by
  rw [K.mask_eq, beNat_zipWith_xor (by simp), Nat.xor_assoc, Nat.xor_self, xor_zero]

end SelfCertifyingFS.Foundations
