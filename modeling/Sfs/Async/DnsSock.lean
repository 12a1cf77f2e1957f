import Mathlib.Data.List.Basic

/-!
# Sockets of the resolver

The loops of `dnssock_udp::rcb` and `dnssock_tcp::rcb` in `async/dns.C` give packets to a
callback, which may destroy the socket. They look at a flag that outlives the socket; but the
destructor of `dnssock` in `async/dnsimpl.h` stores false in it, which it holds from the start.
-/

namespace SelfCertifyingFS.Async

/-- A socket: whether it still exists, and the flag that it shares with its loops. -/
structure Dnssock where
  alive : Bool
  destroyed : Bool
deriving DecidableEq

/-- What a loop does with the socket, and whether the socket existed then. -/
inductive SockUse where
  | read (alive : Bool)
  | deliver (alive : Bool)
deriving DecidableEq

/-- What `recv` returns: a packet, the end or an error, or that nothing is there. -/
inductive Recv where
  | packet
  | failed
  | again
deriving DecidableEq

namespace Dnssock

def new : Dnssock := ⟨true, false⟩

/-- The destructor of `dnssock`. -/
def delete (_ : Dnssock) : Dnssock := ⟨false, false⟩

/-- A callback, which may destroy the socket. -/
def call (s : Dnssock) (destroys : Bool) : Dnssock := if destroys then s.delete else s

/-- `dnssock_udp::rcb` for what is received and whether the callbacks destroy the socket. -/
def udpRcb (s : Dnssock) : List (Recv × Bool) → List SockUse
  | [] | (.again, _) :: _ => [.read s.alive]
  | (.failed, _) :: _ => [.read s.alive, .deliver s.alive]
  | (.packet, destroys) :: rest =>
      .read s.alive :: .deliver s.alive ::
        if (s.call destroys).destroyed then [] else (s.call destroys).udpRcb rest

/-- The loop of `dnssock_tcp::rcb` over the packets that `getpkt` finds. -/
def tcpLoop (s : Dnssock) : List Bool → List SockUse
  | [] => if s.destroyed then [] else [.read s.alive]
  | destroys :: rest =>
      if s.destroyed then []
      else .read s.alive :: .deliver s.alive :: (s.call destroys).tcpLoop rest

/-- `dnssock_tcp::rcb`; `input` may fail. -/
def tcpRcb (s : Dnssock) (failed : Bool) (packets : List Bool) : List SockUse :=
  .read s.alive :: if failed then [.deliver s.alive] else s.tcpLoop packets

/-- Every use is one of a socket that exists. -/
def Safe (log : List SockUse) : Prop := ∀ u ∈ log, u = .read true ∨ u = .deliver true

theorem safe_cons {u : SockUse} {log : List SockUse} :
    Safe (u :: log) ↔ (u = .read true ∨ u = .deliver true) ∧ Safe log :=
  List.forall_mem_cons

/-- The loop turns to a socket that is gone, whatever is received next. -/
theorem not_safe_udpRcb_delete (s : Dnssock) (rs : List (Recv × Bool)) :
    ¬ Safe (s.delete.udpRcb rs) := by
  intro h
  have hfirst : SockUse.read false ∈ s.delete.udpRcb rs := by
    fun_cases udpRcb <;> exact List.mem_cons_self
  simpa using h _ hfirst

theorem not_safe_tcpLoop_delete (s : Dnssock) (ps : List Bool) : ¬ Safe (s.delete.tcpLoop ps) := by
  intro h
  have hfirst : SockUse.read false ∈ s.delete.tcpLoop ps := by
    cases ps <;> exact List.mem_cons_self
  simpa using h _ hfirst

theorem safe_udpRcb_iff (rs : List (Recv × Bool)) :
    Safe (new.udpRcb rs) ↔ ∀ r ∈ rs.takeWhile (·.1 = .packet), r.2 = false := by
  induction rs with
  | nil => simp [udpRcb, Safe, new]
  | cons r rest ih =>
    obtain ⟨got, destroys⟩ := r
    cases got with
    | again | failed => simp [udpRcb, Safe, new]
    | packet =>
      cases destroys with
      | false => simpa [udpRcb, safe_cons, new, call] using ih
      | true =>
        have hgone := not_safe_udpRcb_delete new rest
        simpa [udpRcb, safe_cons, new, call, delete] using hgone

theorem safe_tcpLoop_iff (ps : List Bool) : Safe (new.tcpLoop ps) ↔ ∀ p ∈ ps, p = false := by
  induction ps with
  | nil => simp [tcpLoop, Safe, new]
  | cons destroys rest ih =>
    cases destroys with
    | false => simpa [tcpLoop, safe_cons, new, call] using ih
    | true =>
      have hgone := not_safe_tcpLoop_delete new rest
      simpa [tcpLoop, safe_cons, new, call] using hgone

/-- The loops leave alone a socket that is gone exactly if no callback for a packet destroys it. -/
theorem rcb_safe_iff (rs : List (Recv × Bool)) (failed : Bool) (ps : List Bool) :
    (Safe (new.udpRcb rs) ↔ ∀ r ∈ rs.takeWhile (·.1 = .packet), r.2 = false) ∧
      (Safe (new.tcpRcb failed ps) ↔ failed = true ∨ ∀ p ∈ ps, p = false) := by
  refine ⟨safe_udpRcb_iff rs, ?_⟩
  rw [tcpRcb, safe_cons]
  cases failed with
  | true => simp [Safe, new]
  | false => simpa [new] using safe_tcpLoop_iff ps

/-- The first packet makes the callback destroy the socket. -/
theorem rcb_after_delete :
    new.udpRcb [(.packet, true)] = [.read true, .deliver true, .read false] ∧
      new.tcpRcb false [true] = [.read true, .read true, .deliver true, .read false] := by
  decide

end Dnssock

end SelfCertifyingFS.Async
