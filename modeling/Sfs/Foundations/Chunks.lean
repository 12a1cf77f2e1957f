import Mathlib.Tactic

/-!
# Lists in chunks

A list is cut into chunks of one size; what is left over at its end is shorter than a
chunk. A part of a list can be overwritten in place.
-/

namespace SelfCertifyingFS.Foundations

open List

variable {α : Type*}

/-- A list of a given length. -/
abbrev Sized (α : Type*) (n : ℕ) := {l : List α // l.length = n}

section Cutting

variable {n : ℕ}

theorem length_take_chunk {l : List α} (h : n ≤ l.length) : (l.take n).length = n :=
  length_take_of_le h

def firstChunk (l : List α) (h : n ≤ l.length) : Sized α n := ⟨l.take n, length_take_chunk h⟩

/-- The chunks of a list, without what is left over. -/
def chunks (n : ℕ) [NeZero n] (l : List α) : List (Sized α n) :=
  if h : n ≤ l.length then firstChunk l h :: chunks n (l.drop n) else []
termination_by l.length
decreasing_by
  have := NeZero.pos n
  rw [List.length_drop]
  omega

/-- The elements of chunks, in order. -/
def joined (cs : List (Sized α n)) : List α := (cs.map Subtype.val).flatten

@[simp] theorem joined_nil : joined ([] : List (Sized α n)) = [] := rfl

@[simp] theorem joined_cons (c : Sized α n) (cs : List (Sized α n)) :
    joined (c :: cs) = c.1 ++ joined cs := rfl

@[simp] theorem joined_append (cs ds : List (Sized α n)) :
    joined (cs ++ ds) = joined cs ++ joined ds := by
  simp [joined]

@[simp] theorem length_joined (cs : List (Sized α n)) : (joined cs).length = n * cs.length := by
  induction cs with
  | nil => rfl
  | cons c cs ih =>
    rw [joined_cons, length_append, c.2, ih, length_cons, Nat.mul_succ, Nat.add_comm]

/-- A list that is made of chunks, and of less than a chunk behind them. -/
theorem chunks_joined_append [NeZero n] (cs : List (Sized α n)) {rest : List α}
    (h : rest.length < n) : chunks n (joined cs ++ rest) = cs := by
  induction cs with
  | nil => rw [chunks, dif_neg (by simpa using h)]
  | cons c cs ih =>
    have hlen : n ≤ (joined (c :: cs) ++ rest).length := by
      rw [joined_cons, append_assoc, length_append, c.2]
      exact Nat.le_add_right _ _
    have hfirst : firstChunk (joined (c :: cs) ++ rest) hlen = c := by
      apply Subtype.ext
      change (joined (c :: cs) ++ rest).take n = c.1
      rw [joined_cons, append_assoc, take_left' c.2]
    have hdrop : (joined (c :: cs) ++ rest).drop n = joined cs ++ rest := by
      rw [joined_cons, append_assoc, drop_left' c.2]
    rw [chunks, dif_pos hlen, hfirst, hdrop, ih]

theorem chunks_joined [NeZero n] (cs : List (Sized α n)) : chunks n (joined cs) = cs := by
  have hnil : ([] : List α).length < n := NeZero.pos n
  have h := chunks_joined_append cs hnil
  rwa [append_nil] at h

end Cutting

/-- A list over a part of another one, from an index on. What would not fit is left out. -/
def overwrite : List α → ℕ → List α → List α
  | [], _, _ => []
  | b :: buf, 0, [] => b :: buf
  | _ :: buf, 0, d :: data => d :: overwrite buf 0 data
  | b :: buf, off + 1, data => b :: overwrite buf off data

@[simp] theorem length_overwrite (buf : List α) (off : ℕ) (data : List α) :
    (overwrite buf off data).length = buf.length := by
  induction buf, off, data using overwrite.induct with
  | case1 | case2 => rfl
  | case3 b buf d data ih | case4 b buf off data ih => simp [overwrite, ih]

variable {buf : List α} {off : ℕ} {data : List α}

theorem overwrite_eq (h : off + data.length ≤ buf.length) :
    overwrite buf off data = buf.take off ++ data ++ buf.drop (off + data.length) := by
  induction buf, off, data using overwrite.induct with
  | case1 off data =>
    have hnil : data.length = 0 := Nat.le_zero.mp ((Nat.le_add_left _ off).trans h)
    obtain rfl := length_eq_zero_iff.mp hnil
    simp [overwrite]
  | case2 b buf => simp [overwrite]
  | case3 b buf d data ih =>
    have hrest := ih (by simp at h ⊢; omega)
    simpa [overwrite] using hrest
  | case4 b buf off data ih =>
    have hrest := ih (by simp at h ⊢; omega)
    rw [overwrite, hrest, Nat.succ_add]
    rfl

/-- What stands before the end of the part, after it was overwritten. -/
theorem take_overwrite (h : off + data.length ≤ buf.length) :
    (overwrite buf off data).take (off + data.length) = buf.take off ++ data := by
  rw [overwrite_eq h]
  apply take_left'
  rw [length_append, length_take_of_le (by omega)]

end SelfCertifyingFS.Foundations
