import Mathlib.Tactic

/-!
# Runs of a state machine

A machine answers every input with an output and a new state. A run keeps the
list of exchanges, newest first, beside the state it has reached, so that a
property can speak of what happened before. Guards restrict the inputs; an
invariant that survives every guarded exchange holds after every guarded run.
-/

namespace SelfCertifyingFS.Foundations

variable {σ ι ο : Type*}

/-- The state reached and the exchanges made so far, newest first. -/
structure Run (σ ι ο : Type*) where
  state : σ
  past : List (ι × ο)

namespace Run

variable (step : σ → ι → σ × ο)

def start (s : σ) : Run σ ι ο := ⟨s, []⟩

variable (r : Run σ ι ο)

/-- Take one more input. -/
def next (i : ι) : Run σ ι ο :=
  ⟨(step r.state i).1, (i, (step r.state i).2) :: r.past⟩

/-- Take a list of inputs in order. -/
def take (is : List ι) : Run σ ι ο := is.foldl (next step) r

@[simp] theorem take_nil : r.take step [] = r := rfl

@[simp] theorem take_cons (i : ι) (is : List ι) :
    r.take step (i :: is) = (r.next step i).take step is := rfl

theorem take_append (is js : List ι) :
    r.take step (is ++ js) = (r.take step is).take step js := List.foldl_append

/-- Each input is admitted by the guard in the run where it is taken. -/
def Guarded (guard : Run σ ι ο → ι → Prop) : Run σ ι ο → List ι → Prop
  | _, [] => True
  | r, i :: is => guard r i ∧ Guarded guard (r.next step i) is

variable {step} {guard : Run σ ι ο → ι → Prop} {Inv : Run σ ι ο → Prop}
  {r : Run σ ι ο} {is : List ι}

/-- The rule of invariants: initially, and across every guarded step. It then holds, with
the guard, wherever an input is taken. -/
theorem invariant_of_guarded {before after : List ι} {i : ι} (hr : Inv r)
    (hstep : ∀ r i, Inv r → guard r i → Inv (r.next step i))
    (h : Guarded step guard r (before ++ i :: after)) :
    Inv (r.take step before) ∧ guard (r.take step before) i := by
  induction before generalizing r with
  | nil => exact ⟨hr, h.1⟩
  | cons j before ih => exact ih (hstep r j hr h.1) h.2

theorem invariant_take (hr : Inv r) (hstep : ∀ r i, Inv r → guard r i → Inv (r.next step i))
    (h : Guarded step guard r is) : Inv (r.take step is) := by
  induction is generalizing r with
  | nil => exact hr
  | cons i is ih => exact ih (hstep r i hr h.1) h.2

theorem Guarded.mono {guard' : Run σ ι ο → ι → Prop} (h : Guarded step guard r is)
    (hguard : ∀ r i, guard r i → guard' r i) : Guarded step guard' r is := by
  induction is generalizing r with
  | nil => trivial
  | cons i is ih => exact ⟨hguard r i h.1, ih h.2⟩

theorem guarded_append {js : List ι} :
    Guarded step guard r (is ++ js) ↔
      Guarded step guard r is ∧ Guarded step guard (r.take step is) js := by
  induction is generalizing r with
  | nil => exact (and_iff_right trivial).symm
  | cons i is ih => exact (and_congr_right fun _ => ih).trans and_assoc.symm

theorem invariant (hr : Inv r) (hstep : ∀ r i, Inv r → Inv (r.next step i)) (is : List ι) :
    Inv (r.take step is) := by
  induction is generalizing r with
  | nil => exact hr
  | cons i is ih => exact ih (hstep r i hr)

/-- When the guard says exactly which steps keep the invariant, the guarded runs are those in
which it holds in every state reached. -/
theorem guarded_iff (hr : Inv r) (hstep : ∀ r i, Inv r → (Inv (r.next step i) ↔ guard r i)) :
    Guarded step guard r is ↔ ∀ n, Inv (r.take step (is.take n)) := by
  induction is generalizing r with
  | nil => exact ⟨fun _ n => by rwa [List.take_nil], fun _ => trivial⟩
  | cons i is ih =>
    constructor
    · rintro ⟨hguard, hrest⟩ n
      cases n with
      | zero => exact hr
      | succ n => exact (ih ((hstep r i hr).mpr hguard)).mp hrest n
    · intro h
      have hnext : Inv (r.next step i) := h 1
      exact ⟨(hstep r i hr).mp hnext, (ih hnext).mpr fun n => h (n + 1)⟩

end Run

end SelfCertifyingFS.Foundations
