import Mathlib.Data.List.GetD
import Sfs.Foundations.ByteNumbers

/-!
# Regions of memory

Memory is a function from addresses to bytes, and a region is a run of addresses. A
write changes the bytes of one region; lists of addresses outside of it read as before.
Blocks of memory that are held at the same time are pairwise apart. The first places of a
memory also are a circle, on which strings are read and written.
-/

namespace SelfCertifyingFS.Foundations

open List

abbrev Memory := ℕ → UInt8

structure Region where
  base : ℕ
  size : ℕ
  deriving DecidableEq, Repr

namespace Region

instance : Membership ℕ Region := ⟨fun r x => r.base ≤ x ∧ x < r.base + r.size⟩

variable {x : ℕ}

theorem mem_iff {r : Region} : x ∈ r ↔ r.base ≤ x ∧ x < r.base + r.size := Iff.rfl

instance decidableMem (x : ℕ) (r : Region) : Decidable (x ∈ r) :=
  inferInstanceAs (Decidable (_ ∧ _))

/-- One region ends before the other one begins. -/
def Apart (r s : Region) : Prop := r.base + r.size ≤ s.base ∨ s.base + s.size ≤ r.base

instance (r s : Region) : Decidable (Apart r s) := inferInstanceAs (Decidable (_ ∨ _))

variable {r s : Region}

theorem Apart.symm (h : Apart r s) : Apart s r := Or.symm h

theorem Apart.notMem (h : Apart r s) (hx : x ∈ r) : x ∉ s := by
  rw [mem_iff] at hx ⊢
  rcases h with h | h <;> omega

theorem Apart.ne (h : Apart r s) (hr : 0 < r.size) : r ≠ s := by
  rintro rfl
  rcases h with h | h <;> omega

/-- The addresses of a region, in order. -/
def addrs (r : Region) : List ℕ := range' r.base r.size

@[simp] theorem mem_addrs : x ∈ r.addrs ↔ x ∈ r := by
  simp [addrs, mem_iff]

@[simp] theorem length_addrs (r : Region) : r.addrs.length = r.size := by simp [addrs]

theorem addrs_append (base m n : ℕ) :
    addrs ⟨base, m + n⟩ = addrs ⟨base, m⟩ ++ addrs ⟨base + m, n⟩ := by
  rw [addrs, addrs, addrs, List.range'_append_1]

theorem drop_addrs {n : ℕ} (r : Region) (h : n ≤ r.size) :
    r.addrs.drop n = addrs ⟨r.base + n, r.size - n⟩ := by
  have happend := addrs_append r.base n (r.size - n)
  rw [Nat.add_sub_cancel' h] at happend
  rw [happend, drop_left' (by simp)]

end Region

/-- Bytes to be written: how many, and which. -/
structure Chunk where
  size : ℕ
  byte : ℕ → UInt8

namespace Chunk

def bytes (d : Chunk) : Bytes := (range d.size).map d.byte

/-- The bytes of a list. -/
def ofBytes (bs : Bytes) : Chunk := ⟨bs.length, fun k => bs.getD k 0⟩

variable (d : Chunk)

def take (n : ℕ) : Chunk := ⟨min n d.size, d.byte⟩

def drop (n : ℕ) : Chunk := ⟨d.size - n, fun k => d.byte (n + k)⟩

@[simp] theorem length_bytes : d.bytes.length = d.size := by simp [bytes]

@[simp] theorem bytes_ofBytes (bs : Bytes) : (ofBytes bs).bytes = bs := by
  apply ext_getElem
  · simp [ofBytes]
  · intro n h1 h2
    simp [bytes, ofBytes, h2]

theorem bytes_take_append_bytes_drop {d : Chunk} {n : ℕ} (h : n ≤ d.size) :
    (d.take n).bytes ++ (d.drop n).bytes = d.bytes := by
  have hrange : range d.size = range n ++ (range (d.size - n)).map (n + ·) := by
    rw [← range_add, Nat.add_sub_cancel' h]
  simp [bytes, take, drop, Nat.min_eq_left h, hrange]

end Chunk

namespace Memory

variable (m : Memory)

/-- The bytes at some addresses. -/
def read (xs : List ℕ) : Bytes := xs.map m

/-- A chunk written from an address on. -/
def write (p : ℕ) (d : Chunk) : Memory := fun x =>
  if x ∈ Region.mk p d.size then d.byte (x - p) else m x

/-- The bytes of a region exchanged for others. -/
def scribble (r : Region) (junk : Memory) : Memory := fun x =>
  if x ∈ r then junk x else m x

@[simp] theorem read_append (xs ys : List ℕ) : m.read (xs ++ ys) = m.read xs ++ m.read ys :=
  map_append

variable {m : Memory}

theorem read_congr {m' : Memory} {xs : List ℕ} (h : ∀ x ∈ xs, m' x = m x) :
    m'.read xs = m.read xs :=
  map_congr_left h

theorem write_of_notMem {p x : ℕ} {d : Chunk} (h : x ∉ Region.mk p d.size) : m.write p d x = m x :=
  if_neg h

theorem read_write (m : Memory) (p : ℕ) (d : Chunk) :
    (m.write p d).read (Region.addrs ⟨p, d.size⟩) = d.bytes := by
  rw [read, Region.addrs, List.range'_eq_map_range, map_map]
  apply map_congr_left
  intro k hk
  have hmem : p + k ∈ Region.mk p d.size := by
    rw [mem_range] at hk
    exact ⟨Nat.le_add_right _ _, Nat.add_lt_add_left hk _⟩
  simp [write, hmem]

section Strings

/-- A byte string written from an address on. -/
def writeBytes (m : Memory) (p : ℕ) (bs : Bytes) : Memory := m.write p (.ofBytes bs)

/-- The bytes of a region. -/
def readBytes (m : Memory) (p n : ℕ) : Bytes := m.read (Region.addrs ⟨p, n⟩)

variable (m : Memory) (p : ℕ)

@[simp] theorem length_readBytes (n : ℕ) : (m.readBytes p n).length = n := by
  simp [readBytes, read]

theorem readBytes_add (n k : ℕ) :
    m.readBytes p (n + k) = m.readBytes p n ++ m.readBytes (p + n) k := by
  rw [readBytes, Region.addrs_append, read_append]
  rfl

theorem readBytes_writeBytes (bs : Bytes) : (m.writeBytes p bs).readBytes p bs.length = bs := by
  have h := read_write m p (.ofBytes bs)
  rwa [Chunk.bytes_ofBytes] at h

@[simp] theorem writeBytes_nil : m.writeBytes p [] = m := by
  funext x
  apply write_of_notMem
  rw [Region.mem_iff]
  simp [Chunk.ofBytes]

variable {m p} {bs : Bytes}

theorem writeBytes_outside {x : ℕ} (h : ¬ (p ≤ x ∧ x < p + bs.length)) :
    m.writeBytes p bs x = m x :=
  write_of_notMem h

theorem writeBytes_add {k : ℕ} (h : k < bs.length) : m.writeBytes p bs (p + k) = bs.getD k 0 := by
  have hmem : p + k ∈ Region.mk p (Chunk.ofBytes bs).size :=
    ⟨Nat.le_add_right _ _, Nat.add_lt_add_left h _⟩
  rw [writeBytes, write, if_pos hmem, Nat.add_sub_cancel_left]
  rfl

theorem writeBytes_append (as bs : Bytes) :
    (m.writeBytes p as).writeBytes (p + as.length) bs = m.writeBytes p (as ++ bs) := by
  funext x
  by_cases hx : p ≤ x ∧ x < p + (as ++ bs).length
  · obtain ⟨k, rfl⟩ := Nat.exists_eq_add_of_le hx.1
    have hk : k < (as ++ bs).length := Nat.lt_of_add_lt_add_left hx.2
    rw [writeBytes_add hk]
    rcases lt_or_ge k as.length with hlt | hge
    · rw [writeBytes_outside (by omega), writeBytes_add hlt, getD_eq_getElem?_getD,
        getD_eq_getElem?_getD, List.getElem?_append_left hlt]
    · obtain ⟨j, rfl⟩ := Nat.exists_eq_add_of_le hge
      rw [length_append] at hk
      rw [← Nat.add_assoc, writeBytes_add (by omega), getD_eq_getElem?_getD,
        getD_eq_getElem?_getD, List.getElem?_append_right hge, Nat.add_sub_cancel_left]
  · rw [writeBytes_outside hx]
    rw [length_append] at hx
    rw [writeBytes_outside (by omega), writeBytes_outside (by omega)]

theorem readBytes_writeBytes_of_apart {q n : ℕ} (h : q + n ≤ p ∨ p + bs.length ≤ q) :
    (m.writeBytes p bs).readBytes q n = m.readBytes q n := by
  apply read_congr
  intro x hx
  rw [Region.mem_addrs] at hx
  have hlo : q ≤ x := hx.1
  have hhi : x < q + n := hx.2
  exact writeBytes_outside (by omega)

end Strings

end Memory

open List

namespace Memory

variable {m m' : Memory} {n p p' k : ℕ}

/-- The bytes from a place on, around a circle of `n` places. -/
def around (m : Memory) (n p k : ℕ) : Bytes := (range k).map fun i => m ((p + i) % n)

@[simp] theorem length_around (m : Memory) (n p k : ℕ) : (m.around n p k).length = k := by
  simp [around]

theorem around_add (m : Memory) (n p j k : ℕ) :
    m.around n p (j + k) = m.around n p j ++ m.around n (p + j) k := by
  rw [around, range_add, map_append, map_map]
  simp only [around, Function.comp_def, Nat.add_assoc]

theorem around_congr_mod (m : Memory) (h : p ≡ p' [MOD n]) (k : ℕ) :
    m.around n p k = m.around n p' k := by
  apply map_congr_left
  intro i _
  exact congrArg m (Nat.ModEq.add_right i h)

theorem around_congr (h : ∀ i < k, m' ((p + i) % n) = m ((p + i) % n)) :
    m'.around n p k = m.around n p k := by
  apply map_congr_left
  intro i hi
  exact h i (List.mem_range.mp hi)

theorem readBytes_eq_map (m : Memory) (p k : ℕ) :
    m.readBytes p k = (range k).map fun i => m (p + i) := by
  rw [readBytes, read, Region.addrs, List.range'_eq_map_range, map_map]
  rfl

theorem around_eq_readBytes (m : Memory) (h : p + k ≤ n) : m.around n p k = m.readBytes p k := by
  rw [readBytes_eq_map]
  apply map_congr_left
  intro i hi
  have hlt := List.mem_range.mp hi
  rw [Nat.mod_eq_of_lt (by omega)]

theorem around_eq_readBytes_append (m : Memory) (hp : p ≤ n) (hk : n ≤ p + k)
    (hround : p + k ≤ n + n) :
    m.around n p k = m.readBytes p (n - p) ++ m.readBytes 0 (p + k - n) := by
  have hsplit : k = (n - p) + (p + k - n) := by omega
  have hback : p + (n - p) ≡ 0 [MOD n] := by
    rw [Nat.add_sub_cancel' hp]
    exact Nat.modEq_zero_iff_dvd.mpr dvd_rfl
  conv_lhs => rw [hsplit]
  rw [around_add, around_eq_readBytes m (by omega), around_congr_mod m hback,
    around_eq_readBytes m (by omega)]

variable {i : ℕ}

theorem getElem_around (hi : i < (m.around n p k).length) :
    (m.around n p k)[i] = m ((p + i) % n) := by
  simp only [around, getElem_map, getElem_range]

/-- A string written from a place on, in two pieces. -/
def writeAround (m : Memory) (n p : ℕ) (bs : Bytes) : Memory :=
  (m.writeBytes p (bs.take (n - p))).writeBytes 0 (bs.drop (n - p))

variable {bs : Bytes}

/-- The place that is `i` places on. -/
theorem add_mod_circle (h : p + i < n + n) :
    (p + i) % n = if p + i < n then p + i else p + i - n := by
  split
  · exact Nat.mod_eq_of_lt ‹_›
  · rw [Nat.mod_eq_sub_mod (by omega), Nat.mod_eq_of_lt (by omega)]

theorem writeAround_of_lt (m : Memory) (hp : p ≤ n) (hlen : bs.length ≤ n) (hi : i < bs.length) :
    m.writeAround n p bs ((p + i) % n) = bs.getD i 0 := by
  rw [add_mod_circle (by omega), writeAround]
  split
  · rw [writeBytes_outside (by rw [length_drop]; omega),
      writeBytes_add (by rw [length_take]; omega), getD_eq_getElem?_getD,
      List.getElem?_take_of_lt (by omega), getD_eq_getElem?_getD]
  · have hplace : p + i - n = 0 + (p + i - n) := (Nat.zero_add _).symm
    rw [hplace, writeBytes_add (by rw [length_drop]; omega), getD_eq_getElem?_getD,
      List.getElem?_drop]
    congr 2
    omega

theorem writeAround_of_le (m : Memory) (hp : p ≤ n) (hlo : bs.length ≤ i) (hi : i < n) :
    m.writeAround n p bs ((p + i) % n) = m ((p + i) % n) := by
  rw [add_mod_circle (by omega), writeAround]
  split <;>
    rw [writeBytes_outside (by rw [length_drop]; omega),
      writeBytes_outside (by rw [length_take]; omega)]

theorem around_writeAround (m : Memory) (hp : p ≤ n) (hlen : bs.length ≤ n) :
    (m.writeAround n p bs).around n p bs.length = bs := by
  apply ext_getElem (length_around _ _ _ _)
  intro i hi hi'
  rw [getElem_around, writeAround_of_lt m hp hlen hi', getD_eq_getElem _ _ hi']

/-- The bytes that come before the place written, up to it and around the circle, are as
they were. -/
theorem around_writeAround_before (m : Memory) (hp : p' + k ≡ p [MOD n]) (hpn : p ≤ n)
    (hlen : k + bs.length ≤ n) : (m.writeAround n p bs).around n p' k = m.around n p' k := by
  apply around_congr
  intro i hi
  have hplace : p' + i ≡ p + (n - k + i) [MOD n] := by
    have hback : p' + k + (n - k + i) = p' + i + n := by omega
    calc p' + i ≡ p' + i + n [MOD n] := (Nat.add_modEq_right).symm
      _ = p' + k + (n - k + i) := hback.symm
      _ ≡ p + (n - k + i) [MOD n] := hp.add_right _
  rw [hplace]
  exact writeAround_of_le m hpn (by omega) (by omega)

end Memory

end SelfCertifyingFS.Foundations
