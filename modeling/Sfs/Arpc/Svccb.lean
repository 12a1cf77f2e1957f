import Sfs.Arpc.Asrv

/-!
# The end of a request

How a service is done with a `svccb` of a reliable transport: `reply`, the two `reject` and
`ignore` of `arpc/asrv.C`, with `asrv::sendreply`, which all of them end in. It clears the encoder
of the reply if the service has asked for the result buffer, also where there is no encoder. An
`asrv_delayed_eof` keeps the end of a transport from a service that has requests; later replies
are swallowed, and their requests with them.
-/

namespace SelfCertifyingFS.Arpc

/-- What ends the program. -/
inductive SvcFault
  | nullEncoder
  | panic
  | assertion
  deriving DecidableEq

inductive AcceptStat
  | success
  | progUnavail
  | progMismatch
  | procUnavail
  | garbageArgs
  | systemErr
  deriving DecidableEq

/-- How the service is done with a request. -/
inductive SvcEnd
  | reply (encodes : Bool)
  | rejectAuth (stat : ℕ)
  | rejectAccept (stat : AcceptStat)
  | ignore
  deriving DecidableEq

def authOk : ℕ := 0

namespace Xhinfo

/-- A transport does not take messages behind its end. -/
def sendv (x : Xhinfo) : Except SvcFault Unit := if x.ateof then .error .panic else .ok ()

def asrvAuthReject (stat : ℕ) (x : Xhinfo) : Except SvcFault Unit :=
  if stat = authOk then .error .assertion else x.sendv

/-- A server for the program and version of the request has a callback. -/
def Serves (m : CallMsg) (x : Xhinfo) : Prop :=
  ∃ s ∈ x.stab, s.cb ≠ none ∧ s.prog = m.prog ∧ s.vers = m.vers

instance (m : CallMsg) (x : Xhinfo) : Decidable (x.Serves m) :=
  inferInstanceAs (Decidable (∃ s ∈ x.stab, _))

def asrvAccepterr (m : CallMsg) (x : Xhinfo) : AcceptStat → Except SvcFault Unit
  | .progUnavail | .progMismatch => if x.Serves m then .error .panic else x.sendv
  | .procUnavail | .garbageArgs | .systemErr => x.sendv
  | .success => .error .panic

/-- `asrv::sendreply`, and how often the request has been deleted. -/
def sendreply (encoder resdat : Bool) (x : Xhinfo) : Except SvcFault ℕ := do
  if x.eof = false ∧ encoder = true then x.sendv
  if resdat = true ∧ encoder = false then .error .nullEncoder
  return 1

variable (m : CallMsg)

/-- The end of a request, with its result buffer if there is one. -/
def finish (resdat : Bool) (x : Xhinfo) : SvcEnd → Except SvcFault ℕ
  | .reply encodes => if encodes then x.sendreply true resdat else .ok 1
  | .rejectAuth stat => do
      if x.eof = false then x.asrvAuthReject stat
      x.sendreply false resdat
  | .rejectAccept stat => do
      if x.eof = false then x.asrvAccepterr m stat
      x.sendreply false resdat
  | .ignore => x.sendreply false resdat

/-- A reason that `asrv_accepterr` takes for the request. -/
def Acceptable (x : Xhinfo) : AcceptStat → Prop
  | .progUnavail | .progMismatch => ¬ x.Serves m
  | .procUnavail | .garbageArgs | .systemErr => True
  | .success => False

/-- What the service has to see to. -/
def MayFinish (resdat : Bool) (x : Xhinfo) : SvcEnd → Prop
  | .reply encodes => encodes = true → x.eof = false → x.ateof = false
  | .rejectAuth stat => (x.eof = false → stat ≠ authOk ∧ x.ateof = false) ∧ resdat = false
  | .rejectAccept stat =>
      (x.eof = false → x.Acceptable m stat ∧ x.ateof = false) ∧ resdat = false
  | .ignore => resdat = false

section

variable {x : Xhinfo} {resdat : Bool} {c : Prop} [Decidable c] {act : Except SvcFault Unit}

theorem when_ok_iff {rest : Except SvcFault ℕ} :
    (do if c then act
        rest) = .ok 1 ↔ (c → act = .ok ()) ∧ rest = .ok 1 := by
  by_cases hc : c <;> cases act <;> simp [hc, bind, Except.bind]

theorem sendv_ok_iff : x.sendv = .ok () ↔ x.ateof = false := by
  cases hend : x.ateof <;> simp [sendv, hend]

theorem sendreply_true : x.sendreply true resdat = .ok 1 ↔ (x.eof = false → x.ateof = false) := by
  rw [sendreply, when_ok_iff, sendv_ok_iff]
  simp [pure, Except.pure]

theorem sendreply_false : x.sendreply false resdat = .ok 1 ↔ resdat = false := by
  rw [sendreply, when_ok_iff, when_ok_iff]
  simp [pure, Except.pure]

theorem asrvAccepterr_ok_iff {stat : AcceptStat} {m : CallMsg} :
    x.asrvAccepterr m stat = .ok () ↔ x.Acceptable m stat ∧ x.ateof = false := by
  cases stat <;> by_cases hserves : x.Serves m <;>
    simp [asrvAccepterr, Acceptable, hserves, sendv_ok_iff]

end

end Xhinfo

open Foundations Run Function

/-- What happens to an `asrv_delayed_eof`. A service that replies, rejects or ignores ends in
`sendreply`, if its reply can be encoded. -/
inductive EofStep
  | request
  | reply (q : ℕ) (encodes : Bool)
  | eof

/-- An `asrv_delayed_eof`, with the requests that the service holds, how often each has been
deleted, and how many were held when the service was called with `NULL` and when `eofcb` was. -/
structure DelayedEof where
  count : ℕ
  eof : Bool
  eofcb : Bool
  arrived : ℕ
  held : Finset ℕ
  deleted : ℕ → ℕ
  nulls : List ℕ
  earlies : List ℕ

namespace DelayedEof

def new (eofcb : Bool) : DelayedEof := ⟨0, false, eofcb, 0, ∅, fun _ => 0, [], []⟩

variable (s : DelayedEof)

def dispatchNull : DelayedEof :=
  { s with
    eof := true
    eofcb := false
    nulls := if s.count = 0 then s.held.card :: s.nulls else s.nulls
    earlies := if s.count ≠ 0 ∧ s.eofcb = true then s.held.card :: s.earlies else s.earlies }

def decSvccbCount : DelayedEof :=
  { s with
    count := s.count - 1
    nulls := if s.count - 1 = 0 ∧ s.eof = true then s.held.card :: s.nulls else s.nulls }

def delete (q : ℕ) : DelayedEof := { s with deleted := update s.deleted q (s.deleted q + 1) }

def sendreply (q : ℕ) : DelayedEof :=
  if s.eof = true then s.decSvccbCount else s.decSvccbCount.delete q

/-- What cannot happen leaves the server as it is. -/
def step : EofStep → DelayedEof × Unit
  | .request =>
      (if s.eof = true then s
        else { s with count := s.count + 1, arrived := s.arrived + 1,
                      held := insert s.arrived s.held }, ())
  | .reply q encodes =>
      let s' := { s with held := s.held.erase q }
      (if q ∈ s.held then if encodes then s'.sendreply q else s'.delete q else s, ())
  | .eof => (if s.eof = true then s else s.dispatchNull, ())

/-- `NULL` has come once, when the transport was at its end and nothing was held. -/
structure Right : Prop where
  count : s.count = s.held.card
  bound : ∀ q ∈ s.held, q < s.arrived
  null : s.nulls = if s.eof = true ∧ s.held.card = 0 then [0] else []
  early : s.earlies.length ≤ s.eof.toNat ∧ 0 ∉ s.earlies

def Released : Prop := ∀ q, s.deleted q = if q < s.arrived ∧ q ∉ s.held then 1 else 0

def Encodes : EofStep → Prop
  | .reply q encodes => q ∈ s.held → encodes = true
  | .request | .eof => True

def Open : EofStep → Prop
  | .reply q _ => q ∈ s.held → s.eof = false
  | .request | .eof => True

variable {s}

theorem right_step_iff (h : s.Right) (i : EofStep) : (s.step i).1.Right ↔ s.Encodes i := by
  obtain ⟨hcount, hbound, hnull, hearly⟩ := id h
  cases i with
  | request =>
    refine iff_of_true ⟨?_, ?_, ?_, ?_⟩ trivial <;> grind [step]
  | eof =>
    refine iff_of_true ⟨?_, ?_, ?_, ?_⟩ trivial <;> grind [step, dispatchNull]
  | reply q encodes =>
    by_cases hq : q ∈ s.held
    · cases encodes with
      | false =>
        refine iff_of_false (fun hr => ?_) (by simp [Encodes, hq])
        have := hr.count
        grind [step, delete]
      | true =>
        refine iff_of_true ⟨?_, ?_, ?_, ?_⟩ fun _ => rfl <;>
          grind [step, sendreply, decSvccbCount, delete]
    · simpa [step, Encodes, hq] using h

theorem released_step_iff (h : s.Right) (hr : s.Released) {i : EofStep} (hi : s.Encodes i) :
    (s.step i).1.Released ↔ s.Open i := by
  have hbound := h.bound
  cases i with
  | request =>
    refine iff_of_true (fun q => ?_) trivial
    grind [step, Released]
  | eof =>
    refine iff_of_true (fun q => ?_) trivial
    grind [step, dispatchNull, Released]
  | reply q encodes =>
    by_cases hq : q ∈ s.held
    · obtain rfl := hi hq
      cases heof : s.eof with
      | true =>
        refine iff_of_false (fun hnext => ?_) (by simp [Open, hq, heof])
        have hzero := hr q
        have hone := hnext q
        grind [step, sendreply, decSvccbCount]
      | false =>
        refine iff_of_true (fun p => ?_) fun _ => heof
        have hp := hr p
        simp only [step, if_pos hq, sendreply, heof, decSvccbCount, delete]
        grind
    · simpa [step, Open, hq] using hr

/-- The callbacks come as they should if all replies can be encoded; requests are released then if
they are answered before the end. -/
theorem delayed_eof_iff (eofcb : Bool) (is : List EofStep) :
    (Guarded step (fun r i => r.state.Encodes i) (start (new eofcb)) is ↔
      ∀ n, ((start (new eofcb)).take step (is.take n)).state.Right) ∧
    (Guarded step (fun r i => r.state.Encodes i ∧ r.state.Open i) (start (new eofcb)) is ↔
      ∀ n, ((start (new eofcb)).take step (is.take n)).state.Right ∧
        ((start (new eofcb)).take step (is.take n)).state.Released) := by
  have hright : (new eofcb).Right := by constructor <;> simp [new]
  have hreleased : (new eofcb).Released := fun q => by simp [new]
  constructor
  · exact @Run.guarded_iff _ _ _ _ _ (Right ·.state) _ _ hright fun r i h => right_step_iff h i
  · refine @Run.guarded_iff _ _ _ _ _ (fun r => Right r.state ∧ Released r.state) _ _
      ⟨hright, hreleased⟩ fun r i h => ?_
    rw [← right_step_iff h.1 i]
    exact and_congr_right fun hi => released_step_iff h.1 h.2 ((right_step_iff h.1 i).mp hi)

/-- A request that is answered behind the end is never deleted. -/
theorem late_reply_kept :
    ¬((start (new false)).take step [.request, .eof, .reply 0 true]).state.Released := by
  intro h
  exact absurd (h 0) (by decide)

end DelayedEof

end SelfCertifyingFS.Arpc
