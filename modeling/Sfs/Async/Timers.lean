import Sfs.Async.Itree

/-!
# Timers

The timers of `async/core.C` wait in a tree ordered by their due times. `timecb_check`
runs those that are due; their callbacks may arm new timers and cancel others while
the tree is walked. A callback is given by the list of the calls it makes, and a check
by the list of the callbacks it runs.
-/

namespace SelfCertifyingFS.Async

structure Timespec where
  tvSec : ℤ
  tvNsec : ℤ
  valid : 0 ≤ tvNsec ∧ tvNsec < 1000000000
  deriving DecidableEq

def tscmp (a b : Timespec) : ℤ :=
  if a.tvSec < b.tvSec then -1
  else if b.tvSec < a.tvSec then 1
  else if a.tvNsec < b.tvNsec then -1
  else if b.tvNsec < a.tvNsec then 1
  else 0

/-- `compare<timespec>`, by which the tree is ordered. -/
def tsCompare (a b : Timespec) : ℤ :=
  if tscmp a b < 0 then -1 else if tscmp b a < 0 then 1 else 0

/-- The due time that `delaycb` computes from the clock; its callers pass less than a second
of nanoseconds. -/
def delaycb (clock : Timespec) (sec nsec : ℤ) (h : 0 ≤ nsec ∧ nsec < 1000000000) : Timespec :=
  if carry : clock.tvNsec + nsec ≥ 1000000000 then
    ⟨clock.tvSec + sec + 1, clock.tvNsec + nsec - 1000000000, by
      have := clock.valid
      omega⟩
  else
    ⟨clock.tvSec + sec, clock.tvNsec + nsec, by
      have := clock.valid
      omega⟩

inductive TimerOp (ν : Type)
  | timecb (z : ν)
  | remove (tp : Option ν)

inductive TimerEvent (ν : Type)
  | ran (z : ν)
  | removed (z : ν)
  deriving DecidableEq

/-- What ends the program: a panic; the use of a deleted timer by the loop; a call with a
handle that is not that of an existing timer, or a new timer at the place of another; a
walk through the tree that does not end. -/
inductive TimerHalt
  | panic
  | dangling
  | misuse
  | stuck
  deriving DecidableEq

def need {α : Type} : Option α → Except TimerHalt α
  | some a => .ok a
  | none => .error .stuck

structure Timers (ν : Type) where
  timecbs : Itree ν
  altered : Bool
  /-- All timers allocated so far. -/
  nodes : List ν
  /-- Those that have been deleted. -/
  dead : List ν
  /-- What has happened to the timers, newest first. -/
  log : List (TimerEvent ν)

/-- A check may still be running, about to call the callback of a timer. -/
inductive CheckResult (ν : Type)
  | running (s : Timers ν) (tp : ν)
  | done (s : Timers ν)

namespace Timers

variable {ν : Type} [DecidableEq ν] (ts : ν → Timespec) (fuel : ℕ)

def order (a b : ν) : ℤ := tsCompare (ts a) (ts b)

/-- `New timecb_t` and its insertion; the flag `timecbs_altered` is left alone. -/
def timecb (s : Timers ν) (z : ν) : Except TimerHalt (Timers ν) :=
  if z ∈ s.nodes then .error .misuse
  else do
    let t ← need (s.timecbs.itreeInsert (order ts) fuel z)
    return { s with timecbs := t, nodes := z :: s.nodes }

/-- The loop of `timecb_remove` through the timers that are due at the same time. -/
def findNode (t : Itree ν) (tgt : ν) : ℕ → Option ν → Except TimerHalt Unit
  | 0, _ => .error .stuck
  | _ + 1, none => .error .panic
  | k + 1, some tp =>
    if tp = tgt then .ok ()
    else if ts tp ≠ ts tgt then .error .panic
    else do findNode t tgt k (← need (t.next fuel tp))

def timecbRemove (s : Timers ν) : Option ν → Except TimerHalt (Timers ν)
  | none => .ok s
  | some tgt =>
    if tgt ∉ s.nodes ∨ tgt ∈ s.dead then .error .misuse
    else do
      let tp ← need (s.timecbs.search (fun n => tsCompare (ts tgt) (ts n)) fuel)
      findNode ts fuel s.timecbs tgt fuel tp
      let t ← need (s.timecbs.itreeDelete fuel tgt)
      return { s with
        timecbs := t, altered := true, dead := tgt :: s.dead, log := .removed tgt :: s.log }

def perform (s : Timers ν) : TimerOp ν → Except TimerHalt (Timers ν)
  | .timecb z => s.timecb ts fuel z
  | .remove tp => s.timecbRemove ts fuel tp

/-- The condition of the loop of `timecb_check`: a timer that is due. -/
def due (now : Timespec) (s : Timers ν) : Option ν → Except TimerHalt (Option ν)
  | none => .ok none
  | some tp =>
    if tp ∈ s.dead then .error .dangling
    else .ok (if tscmp (ts tp) now ≤ 0 then some tp else none)

/-- The body of the loop, with the timer that the loop goes on with. -/
def runTimer (s : Timers ν) (cb : List (TimerOp ν)) (tp : ν) :
    Except TimerHalt (Option ν × Timers ν) := do
  let ntp ← need (s.timecbs.next fuel tp)
  let t ← need (s.timecbs.itreeDelete fuel tp)
  let s := { s with timecbs := t, altered := false, log := .ran tp :: s.log }
  let s ← cb.foldlM (perform ts fuel) s
  if tp ∈ s.dead then .error .dangling
  else
    let s := { s with dead := tp :: s.dead }
    if s.altered then return (← need (s.timecbs.first fuel), s) else return (ntp, s)

def checkLoop (now : Timespec) :
    List (List (TimerOp ν)) → Option ν → Timers ν → Except TimerHalt (CheckResult ν)
  | [], tp, s => do
    match ← due ts now s tp with
    | none => return .done s
    | some tp => return .running s tp
  | cb :: script, tp, s => do
    match ← due ts now s tp with
    | none => return .done s
    | some tp =>
      let (tp, s) ← s.runTimer ts fuel cb tp
      checkLoop now script tp s

/-- `timecb_check` up to the end of its loop. -/
def timecbCheck (now : Timespec) (script : List (List (TimerOp ν))) (s : Timers ν) :
    Except TimerHalt (CheckResult ν) := do
  checkLoop ts fuel now script (← need (s.timecbs.first fuel)) s

/-- The seconds and microseconds that `select` may wait, from a second look at the clock. -/
def selwait (s : Timers ν) (tsnow : Timespec) (sigdocheck : Bool) : Except TimerHalt (ℤ × ℤ) := do
  if sigdocheck then return (0, 0)
  else
    match ← need (s.timecbs.first fuel) with
    | none => return (86400, 0)
    | some tp =>
      if tscmp (ts tp) tsnow < 0 then return (0, 0)
      else if (ts tp).tvNsec ≥ tsnow.tvNsec then
        return ((ts tp).tvSec - tsnow.tvSec, ((ts tp).tvNsec - tsnow.tvNsec) / 1000)
      else
        return ((ts tp).tvSec - tsnow.tvSec - 1,
          (1000000000 + (ts tp).tvNsec - tsnow.tvNsec) / 1000)

end Timers

/-- A program calls the functions above from outside and checks its timers. -/
inductive TimerStep (ν : Type)
  | call (op : TimerOp ν)
  | check (now : Timespec) (script : List (List (TimerOp ν)))

namespace Timers

variable {ν : Type} [DecidableEq ν] (ts : ν → Timespec) (fuel : ℕ)

/-- No timers yet, whatever is in the memory of those to come. -/
def start (e : ν → ItreeEntry ν) : Timers ν := ⟨⟨none, e⟩, false, [], [], []⟩

/-- A step of the program; a check is over before the next step. -/
def step (s : Timers ν) : TimerStep ν → Except TimerHalt (Timers ν)
  | .call op => s.perform ts fuel op
  | .check now script => do
    match ← s.timecbCheck ts fuel now script with
    | .done s => return s
    | .running _ _ => .error .stuck

def run (s : Timers ν) (steps : List (TimerStep ν)) : Except TimerHalt (Timers ν) :=
  steps.foldlM (step ts fuel) s

end Timers

end SelfCertifyingFS.Async
