import Mathlib.Tactic

/-!
# Lists in order of last use

A queue of keys, least recently used first, beside a clock that gives the time
of the last use of every key. The queue agrees with the clock when the times
increase along it. Moving a key to the tail at a later time, dropping keys
anywhere and appending a fresh one all keep the agreement.
-/

namespace SelfCertifyingFS.Foundations

open List

variable {κ : Type*} {l : List κ} {stamp stamp' : κ → ℕ} {now : ℕ}

/-- The keys stand in the order of their last use. -/
def RecencyOrdered (stamp : κ → ℕ) (l : List κ) : Prop :=
  l.Pairwise fun a b => stamp a < stamp b

section

variable (h : RecencyOrdered stamp l)

include h

theorem RecencyOrdered.sublist {l' : List κ} (hsub : l'.Sublist l) : RecencyOrdered stamp l' :=
  Pairwise.sublist hsub h

theorem RecencyOrdered.nodup : l.Nodup := Pairwise.imp (fun hlt heq => (heq ▸ hlt).false) h

theorem RecencyOrdered.congr (hstamp : ∀ a ∈ l, stamp' a = stamp a) : RecencyOrdered stamp' l := by
  refine Pairwise.imp_of_mem (fun ha hb hlt => ?_) h
  rw [hstamp _ ha, hstamp _ hb]
  exact hlt

theorem RecencyOrdered.concat {k : κ} (hold : ∀ a ∈ l, stamp a ≤ now)
    (hkeep : ∀ a ∈ l, stamp' a = stamp a) (hnew : now < stamp' k) :
    RecencyOrdered stamp' (l ++ [k]) := by
  refine pairwise_append.mpr ⟨h.congr hkeep, pairwise_singleton _ _, ?_⟩
  intro a ha b hb
  rw [mem_singleton.mp hb, hkeep a ha]
  exact (hold a ha).trans_lt hnew

/-- Whatever is cut off at the head is used before everything that stays. -/
theorem RecencyOrdered.cut_lt {n : ℕ} {a b : κ} (ha : a ∈ l) (hcut : a ∉ l.drop n)
    (hb : b ∈ l.drop n) : stamp a < stamp b := by
  rw [RecencyOrdered, ← take_append_drop n l, pairwise_append] at h
  rw [← take_append_drop n l] at ha
  rcases mem_append.mp ha with htake | hdrop
  · exact h.2.2 a htake b hb
  · exact absurd hdrop hcut

end

end SelfCertifyingFS.Foundations
