import Mathlib.Tactic

/-!
# Numbers as byte strings

Base-256 digits, most significant first, of a natural number in a given width,
and the two's complement reading of a byte string. All wire formats are built
from these two codes, and so are the 32-bit words that a block cipher reads
out of a buffer in the byte order of the host.
-/

namespace SelfCertifyingFS.Foundations

open List

abbrev Bytes := List UInt8

instance Bytes.lawfulBEq : LawfulBEq Bytes := inferInstance

/-- The value of a byte string read most significant byte first. -/
def beNat (bs : Bytes) : ℕ := bs.foldl (fun n b => n * 256 + b.toNat) 0

/-- The `k` low base-256 digits of a number, most significant first. -/
def beBytes : ℕ → ℕ → Bytes
  | 0, _ => []
  | k + 1, n => beBytes k (n / 256) ++ [UInt8.ofNat (n % 256)]

@[simp] theorem beNat_nil : beNat [] = 0 := rfl

@[simp] theorem beNat_append_singleton (bs : Bytes) (b : UInt8) :
    beNat (bs ++ [b]) = beNat bs * 256 + b.toNat := by
  simp [beNat]

@[simp] theorem length_beBytes (k n : ℕ) : (beBytes k n).length = k := by
  induction k generalizing n with
  | zero => rfl
  | succ k ih => simp [beBytes, ih]

theorem beNat_lt (bs : Bytes) : beNat bs < 256 ^ bs.length := by
  induction bs using List.reverseRecOn with
  | nil => simp
  | append_singleton bs b ih =>
    have hb : b.toNat < 256 := b.toNat_lt
    simp only [beNat_append_singleton, length_append, length_singleton]
    omega

theorem beNat_beBytes {k n : ℕ} (h : n < 256 ^ k) : beNat (beBytes k n) = n := by
  induction k generalizing n with
  | zero => simp_all [beBytes]
  | succ k ih =>
    have hdiv : n / 256 < 256 ^ k := by
      rw [Nat.div_lt_iff_lt_mul (by norm_num)]
      simpa [pow_succ] using h
    have hdigit : (UInt8.ofNat (n % 256)).toNat = n % 256 :=
      UInt8.toNat_ofNat_of_lt' (Nat.mod_lt _ (by norm_num))
    rw [beBytes, beNat_append_singleton, ih hdiv]
    omega

theorem beBytes_beNat (bs : Bytes) : beBytes bs.length (beNat bs) = bs := by
  induction bs using List.reverseRecOn with
  | nil => rfl
  | append_singleton bs b ih =>
    have hb : b.toNat < 256 := b.toNat_lt
    have hdiv : (beNat bs * 256 + b.toNat) / 256 = beNat bs := by omega
    simp [beBytes, hdiv, ih]

/-- Two's complement, as a signed integer in `8 * bs.length` bits. -/
def twosInt (bs : Bytes) : ℤ :=
  if 2 * beNat bs < 256 ^ bs.length then (beNat bs : ℤ) else beNat bs - 256 ^ bs.length

/-- The low `8 * k` bits of an integer, as `k` bytes. -/
def twosBytes (k : ℕ) (z : ℤ) : Bytes := beBytes k (z % 256 ^ k).toNat

@[simp] theorem length_twosBytes (k : ℕ) (z : ℤ) : (twosBytes k z).length = k := by
  simp [twosBytes]

/-- Two's complement loses nothing on integers that fit with their sign bit. -/
theorem twosInt_twosBytes {k : ℕ} {z : ℤ} (hlo : -(256 ^ k : ℤ) ≤ 2 * z)
    (hhi : 2 * z < 256 ^ k) : twosInt (twosBytes k z) = z := by
  have hpos : (0 : ℤ) < 256 ^ k := by positivity
  have hmod : 0 ≤ z % 256 ^ k := Int.emod_nonneg _ hpos.ne'
  have hnat : ((z % 256 ^ k).toNat : ℤ) = z % 256 ^ k := Int.toNat_of_nonneg hmod
  have hfit : (z % 256 ^ k).toNat < 256 ^ k := by zify; omega
  unfold twosInt twosBytes
  rw [beNat_beBytes hfit, length_beBytes]
  rcases lt_or_ge z 0 with hneg | hnonneg
  · -- A negative number is stored as its complement, whose top bit is set.
    have hval : z % 256 ^ k = z + 256 ^ k := by
      rw [← Int.add_emod_right, Int.emod_eq_of_lt (by omega) (by omega)]
    rw [if_neg (by zify; omega)]
    omega
  · have hval : z % 256 ^ k = z := Int.emod_eq_of_lt hnonneg (by omega)
    rw [if_pos (by zify; omega), hnat, hval]

/-- The two orders in which a host lays the bytes of a word out in memory. -/
inductive ByteOrder
  | big
  | little
  deriving DecidableEq, Repr

/-- The four bytes of a 32-bit word as they stand in the host's memory. -/
def wordBytes (order : ByteOrder) (w : UInt32) : Bytes :=
  match order with
  | .big => beBytes 4 w.toNat
  | .little => (beBytes 4 w.toNat).reverse

/-- The word that the host reads from four bytes of memory. -/
def bytesWord (order : ByteOrder) (bs : Bytes) : UInt32 :=
  match order with
  | .big => UInt32.ofNat (beNat bs)
  | .little => UInt32.ofNat (beNat bs.reverse)

variable (order : ByteOrder)

@[simp] theorem length_wordBytes (w : UInt32) : (wordBytes order w).length = 4 := by
  cases order <;> simp [wordBytes]

@[simp] theorem bytesWord_wordBytes (w : UInt32) : bytesWord order (wordBytes order w) = w := by
  have hw : w.toNat < 256 ^ 4 := by have := w.toNat_lt; omega
  cases order <;> simp [bytesWord, wordBytes, beNat_beBytes hw]

theorem wordBytes_bytesWord {bs : Bytes} (h : bs.length = 4) :
    wordBytes order (bytesWord order bs) = bs := by
  have hword : ∀ cs, cs.length = 4 → beBytes 4 (UInt32.ofNat (beNat cs)).toNat = cs := by
    intro cs hcs
    have hlt : beNat cs < 2 ^ 32 := by
      have := beNat_lt cs
      rw [hcs] at this
      omega
    rw [UInt32.toNat_ofNat_of_lt' hlt, ← hcs, beBytes_beNat]
  cases order with
  | big => exact hword bs h
  | little =>
    have hrev := hword bs.reverse (by simpa using h)
    simp only [wordBytes, bytesWord, hrev, reverse_reverse]

/-- A buffer read as a sequence of host words; a ragged end is not read. -/
def bytesWords (order : ByteOrder) : Bytes → List UInt32
  | b0 :: b1 :: b2 :: b3 :: bs => bytesWord order [b0, b1, b2, b3] :: bytesWords order bs
  | _ => []

/-- The memory image of a sequence of host words. -/
def wordsBytes (order : ByteOrder) (ws : List UInt32) : Bytes :=
  ws.flatMap (wordBytes order)

@[simp] theorem length_wordsBytes (ws : List UInt32) :
    (wordsBytes order ws).length = 4 * ws.length := by
  induction ws with
  | nil => rfl
  | cons w ws ih =>
    simp only [wordsBytes, flatMap_cons, length_append, length_wordBytes, length_cons] at *
    omega

theorem bytesWords_wordBytes_append (w : UInt32) (bs : Bytes) :
    bytesWords order (wordBytes order w ++ bs) = w :: bytesWords order bs := by
  obtain ⟨b0, b1, b2, b3, hw⟩ := List.length_eq_four.mp (length_wordBytes order w)
  have hword := bytesWord_wordBytes order w
  rw [hw] at hword ⊢
  simp only [cons_append, nil_append, bytesWords, hword]

@[simp] theorem bytesWords_wordsBytes (ws : List UInt32) :
    bytesWords order (wordsBytes order ws) = ws := by
  induction ws with
  | nil => rfl
  | cons w ws ih =>
    change bytesWords order (wordBytes order w ++ wordsBytes order ws) = _
    rw [bytesWords_wordBytes_append, ih]

theorem wordsBytes_bytesWords : ∀ bs : Bytes, 4 ∣ bs.length →
    wordsBytes order (bytesWords order bs) = bs
  | [], _ => rfl
  | [_], h | [_, _], h | [_, _, _], h => by simp at h
  | b0 :: b1 :: b2 :: b3 :: bs, h => by
      have htail : 4 ∣ bs.length := by simpa [Nat.dvd_add_self_right, add_assoc] using h
      have ih := wordsBytes_bytesWords bs htail
      have hword : wordBytes order (bytesWord order [b0, b1, b2, b3]) = [b0, b1, b2, b3] :=
        wordBytes_bytesWord order rfl
      simp only [wordsBytes, bytesWords, flatMap_cons, hword] at *
      rw [ih]
      rfl

@[simp] theorem length_bytesWords : ∀ bs : Bytes,
    (bytesWords order bs).length = bs.length / 4
  | [] | [_] | [_, _] | [_, _, _] => by simp [bytesWords]
  | _ :: _ :: _ :: _ :: bs => by
      have ih := length_bytesWords bs
      simp only [bytesWords, length_cons, ih]
      omega

end SelfCertifyingFS.Foundations
