import Mathlib.Data.List.TakeWhile
import Sfs.Foundations.ByteNumbers

/-!
# Reading from the front

A wire format writes a value as bytes and reads one back from the front of its input. It
carries a value when reading undoes writing whatever bytes follow. Anchored patterns whose
parts are told apart by their next byte are scanned from left to right: a literal, or the
longest run of bytes of a class.
-/

namespace SelfCertifyingFS.Foundations

structure Wire (α : Type*) where
  put : α → Bytes
  get : Bytes → Option (α × Bytes)

namespace Wire

variable {α β γ : Type*} (w : Wire α)

/-- Reading what was written gives the value and leaves the rest. -/
def Carries (a : α) : Prop := ∀ rest, w.get (w.put a ++ rest) = some (a, rest)

/-- One format after the other. -/
def pair (w' : Wire β) : Wire (α × β) where
  put p := w.put p.1 ++ w'.put p.2
  get bs := (w.get bs).bind fun p => (w'.get p.2).map fun p' => ((p.1, p'.1), p'.2)

/-- The same bytes for another type. -/
def map (f : α → β) (g : β → α) : Wire β where
  put b := w.put (g b)
  get bs := (w.get bs).map fun p => (f p.1, p.2)

theorem Carries.pair {w : Wire α} {w' : Wire β} {p : α × β} (h : w.Carries p.1)
    (h' : w'.Carries p.2) : (w.pair w').Carries p := by
  intro rest
  simp only [Wire.pair, List.append_assoc]
  rw [h, Option.bind_some, h', Option.map_some]

/-- The first `n` bytes, if there are that many. -/
def takeBytes (n : ℕ) (bs : Bytes) : Option (Bytes × Bytes) :=
  if n ≤ bs.length then some (bs.take n, bs.drop n) else none

theorem takeBytes_append {n : ℕ} {bs : Bytes} (h : bs.length = n) (rest : Bytes) :
    takeBytes n (bs ++ rest) = some (bs, rest) := by
  subst h
  rw [takeBytes, if_pos (by simp), List.take_left, List.drop_left]

end Wire

open List

/-- The bytes of a text. -/
def ascii (s : String) : Bytes := s.toList.map fun c => UInt8.ofNat c.toNat

theorem forall_byte {P : UInt8 → Prop} (h : ∀ n < 256, P (UInt8.ofNat n)) (b : UInt8) : P b := by
  have hb := h b.toNat b.toNat_lt
  rwa [UInt8.ofNat_toNat] at hb

/-- Consume a literal. -/
def lit (p s : Bytes) : Option Bytes := if p.isPrefixOf s then some (s.drop p.length) else none

variable {s r : Bytes} {cls : UInt8 → Bool} {b : UInt8}

theorem eq_append_of_lit {p : Bytes} (h : lit p s = some r) : s = p ++ r := by
  unfold lit at h
  split_ifs at h with hp
  obtain ⟨t, rfl⟩ := List.isPrefixOf_iff_prefix.mp hp
  rw [drop_left, Option.some.injEq] at h
  rw [h]

/-- Consume the longest run of a class. -/
def run (cls : UInt8 → Bool) (s : Bytes) : Bytes × Bytes := (s.takeWhile cls, s.dropWhile cls)

theorem run_append (cls : UInt8 → Bool) (s : Bytes) : (run cls s).1 ++ (run cls s).2 = s :=
  takeWhile_append_dropWhile

theorem mem_run (h : b ∈ (run cls s).1) : cls b = true := all_eq_true.mp all_takeWhile b h

theorem head?_dropWhile_not (h : b ∈ (s.dropWhile cls).head?) : cls b = false := by
  rw [← List.find?_not_eq_head?_dropWhile] at h
  simpa using List.find?_some h

/-- Consume the longest run, which must not be empty. -/
def run1 (cls : UInt8 → Bool) (s : Bytes) : Option (Bytes × Bytes) :=
  if (run cls s).1 = [] then none else some (run cls s)

theorem eq_append_of_run1 {t : Bytes} (h : run1 cls s = some (t, r)) :
    s = t ++ r ∧ ∀ b ∈ t, cls b = true := by
  unfold run1 at h
  split_ifs at h with hne
  have hrun : run cls s = (t, r) := Option.some.inj h
  constructor
  · rw [← run_append cls s, hrun]
  · intro b hb
    refine mem_run (s := s) ?_
    rw [hrun]
    exact hb

theorem run1_append_of_all {t : Bytes} (hne : t ≠ []) (ht : ∀ b ∈ t, cls b = true)
    (hr : ∀ b ∈ r.head?, cls b = false) : run1 cls (t ++ r) = some (t, r) := by
  have hrun : run cls (t ++ r) = (t, r) := by
    rw [run, takeWhile_append_of_pos ht, dropWhile_append_of_pos ht]
    cases r with
    | nil => simp
    | cons b r =>
      have hb : ¬cls b = true := by simp [hr b rfl]
      rw [takeWhile_cons_of_neg hb, dropWhile_cons_of_neg hb, append_nil]
  rw [run1, hrun, if_neg hne]

/-- Consume a run of at most `n` bytes. -/
def runMax (n : ℕ) (cls : UInt8 → Bool) (s : Bytes) : Bytes × Bytes :=
  let t := (s.take n).takeWhile cls
  (t, s.drop t.length)

theorem runMax_append (n : ℕ) (cls : UInt8 → Bool) (s : Bytes) :
    (runMax n cls s).1 ++ (runMax n cls s).2 = s := by
  have hpre : (s.take n).takeWhile cls <+: s :=
    (List.takeWhile_prefix _).trans (List.take_prefix n s)
  exact (List.prefix_iff_eq_append.mp hpre).symm ▸ rfl

theorem mem_runMax {n : ℕ} (h : b ∈ (runMax n cls s).1) : cls b = true :=
  all_eq_true.mp all_takeWhile b h

def isDigit (b : UInt8) : Bool := 0x30 ≤ b && b ≤ 0x39

def isLower (b : UInt8) : Bool := 0x61 ≤ b && b ≤ 0x7a

def isUpper (b : UInt8) : Bool := 0x41 ≤ b && b ≤ 0x5a

/-- Digits and `a` to `f`. -/
def isXdigit (b : UInt8) : Bool := isDigit b || (0x61 ≤ b && b ≤ 0x66)

def xdigitValue (b : UInt8) : ℕ := if isDigit b then b.toNat - 0x30 else b.toNat - 0x57

/-- The number that a string of hexadecimal digits denotes. -/
def hexValue (ds : Bytes) : ℕ := ds.foldl (fun n d => 16 * n + xdigitValue d) 0

theorem xdigitValue_lt (h : isXdigit b = true) : xdigitValue b < 16 := by
  simp only [isXdigit, isDigit, Bool.or_eq_true, Bool.and_eq_true, decide_eq_true_eq,
    UInt8.le_iff_toNat_le, UInt8.reduceToNat] at h
  simp only [xdigitValue, isDigit, Bool.and_eq_true, decide_eq_true_eq, UInt8.le_iff_toNat_le,
    UInt8.reduceToNat]
  split_ifs <;> omega

theorem hexValue_lt {ds : Bytes} (h : ∀ b ∈ ds, isXdigit b = true) :
    hexValue ds < 16 ^ ds.length := by
  induction ds using List.reverseRecOn with
  | nil => decide
  | append_singleton ds d ih =>
    have hd := xdigitValue_lt (h d (by simp))
    have hds := ih fun b hb => h b (by simp [hb])
    have hstep : hexValue (ds ++ [d]) = 16 * hexValue ds + xdigitValue d := by
      simp [hexValue]
    rw [length_append, length_singleton]
    omega

end SelfCertifyingFS.Foundations
