import Sfs.Arpc.Asrv

/-!
# Clients of a transport

The calls of `arpc/aclnt.C`. A client keeps its outstanding calls in a queue; the
clients of a transport share a table of transaction numbers. A call ends with its
callback, by a reply, by a timeout or by the end of the transport, or it is
cancelled. While a callback or a hook of the user runs, anything else may happen,
and what the library does when it returns is on a stack.
-/

namespace SelfCertifyingFS.Arpc

open Foundations

inductive ClntStat
  | success
  | cantEncodeArgs
  | cantDecodeRes
  | cantSend
  | cantRecv
  | timedOut
  | other (code : ℕ)
  deriving DecidableEq, Repr

/-- `callbase`. The number tells calls apart; it takes the place of the address. -/
structure CallBase where
  id : ℕ
  client : ℕ
  xid : UInt32
  dest : Option Sockaddr
  raw : Bool
  deriving DecidableEq, Repr

/-- What is constant of a transport and its clients. Replies are decoded by the procedure that
the call was made with. -/
structure XprtConf where
  connected : Bool
  reliable : Bool
  socksize : ℕ
  clist : List ℕ
  services : Bool
  decodemsg : CallBase → Bytes → ClntStat

def XprtConf.checksrc (conf : XprtConf) (rp : CallBase) (src : Option Sockaddr) : Bool :=
  if conf.connected then true
  else
    match src, rp.dest with
    | some src, some dest => addreq src dest conf.socksize
    | _, _ => false

/-- The hooks of a client that are set. -/
structure Hooks where
  send : Bool
  recv : Bool
  eofcb : Bool
  deriving DecidableEq, Repr

/-- What the library has left to do when a callback or a hook returns. -/
inductive Frame
  /-- the rest of `call`, behind the send hook -/
  | alloc (k : CallBase)
  /-- `fail` of a client -/
  | fail (c : ℕ)
  /-- the rest of the loop of `fail`, which has already read the next pointer -/
  | failFrom (c : ℕ) (nrb : Option CallBase)
  /-- the rest of `dispatch`, behind the receive hook -/
  | finish (k : CallBase) (stat : ClntStat)
  /-- the rest of `dispatch`, behind `rawcall::decodemsg` -/
  | rawReplied (k : CallBase)
  /-- the rest of `rawcall::finish` -/
  | rawEnd (k : CallBase)
  deriving DecidableEq, Repr

inductive CallEvent
  | issued (k : CallBase)
  | cancelled (k : CallBase)
  | ran (k : CallBase) (stat : ClntStat)
  | packet (msg : Bytes) (src : Option Sockaddr)
  deriving DecidableEq, Repr

/-- The clients of a transport. The log, newest first, is of what happens to calls; a process
that uses a call that is gone has no defined behaviour, and stops here. -/
structure Aclnts where
  eof : Bool
  fresh : ℕ
  calls : ℕ → List CallBase
  xidtab : List CallBase
  hooks : ℕ → Hooks
  stack : List (List Frame)
  halted : Bool
  log : List CallEvent

namespace Aclnts

def new : Aclnts where
  eof := false
  fresh := 0
  calls := fun _ => []
  xidtab := []
  hooks := fun _ => ⟨false, false, false⟩
  stack := []
  halted := false
  log := []

def lookup (s : Aclnts) (xid : UInt32) : Option CallBase := s.xidtab.find? (·.xid = xid)

/-- `genxid`, on the numbers that `next_xid` returns. -/
def genxid (s : Aclnts) (draws : List UInt32) : Option UInt32 :=
  draws.find? fun x => s.lookup x = none ∧ x ≠ 0

/-- The constructor of `callbase`. -/
def insert (k : CallBase) (s : Aclnts) : Aclnts :=
  { s with
    calls := Function.update s.calls k.client (s.calls k.client ++ [k])
    xidtab := k :: s.xidtab
    log := .issued k :: s.log }

/-- The destructor of `callbase`. -/
def delete (k : CallBase) (s : Aclnts) : Aclnts :=
  { s with
    calls := Function.update s.calls k.client ((s.calls k.client).erase k)
    xidtab := if s.lookup k.xid = some k then s.xidtab.erase k else s.xidtab }

def nextCall (k : CallBase) : List CallBase → Option CallBase
  | [] => none
  | j :: js => if j = k then js.head? else nextCall k js

def halt (s : Aclnts) : Aclnts := { s with halted := true }

def note (e : CallEvent) (s : Aclnts) : Aclnts := { s with log := e :: s.log }

/-- Code of the user runs; the frames are done when it returns. -/
def enter (fs : List Frame) (s : Aclnts) : Aclnts := { s with stack := fs :: s.stack }

section Endings

/-- `finish`. An `rpccb` deletes itself and runs its callback, a `rawcall` the other way
round. -/
def finish (k : CallBase) (stat : ClntStat) (fs : List Frame) (s : Aclnts) : Aclnts :=
  if k ∈ s.calls k.client then
    if k.raw then (s.note (.ran k stat)).enter (.rawEnd k :: fs)
    else ((s.delete k).note (.ran k stat)).enter fs
  else (s.note (.ran k stat)).halt

/-- One turn of the loop of `fail`, and what follows the loop. -/
def failLoop (c : ℕ) (rb : Option CallBase) (fs : List Frame) (ret : Aclnts → Aclnts)
    (s : Aclnts) : Aclnts :=
  match rb with
  | some rb => s.finish rb .cantRecv (.failFrom c (nextCall rb (s.calls c)) :: fs)
  | none => if (s.hooks c).eofcb then s.enter fs else ret s

/-- The library goes on until code of the user runs again or nothing is left to do. -/
def exec : List Frame → Aclnts → Aclnts
  | [], s => s
  | .alloc k :: fs, s => exec fs (s.insert k)
  | .fail c :: fs, s => s.failLoop c (s.calls c).head? fs (exec fs)
  | .failFrom c nrb :: fs, s => s.failLoop c nrb fs (exec fs)
  | .finish k stat :: fs, s => s.finish k stat fs
  | .rawReplied k :: fs, s =>
      if k ∈ s.calls k.client then
        if (s.hooks k.client).recv then s.enter (.rawEnd k :: fs) else exec fs (s.delete k)
      else s.halt
  | .rawEnd k :: fs, s => if k ∈ s.calls k.client then exec fs (s.delete k) else s.halt

variable (conf : XprtConf)

/-- `xhinfo::seteof` and `aclnt::seteof`. -/
def seteof (s : Aclnts) : Aclnts :=
  if conf.connected then exec (conf.clist.map .fail) { s with eof := true } else s

/-- The word is only ever copied, so that its byte order does not matter. -/
def getxid (msg : Bytes) : UInt32 := .ofNat (getint msg)

/-- `aclnt::dispatch`, on a reply. -/
def dispatch (msg : Bytes) (src : Option Sockaddr) (s : Aclnts) : Aclnts :=
  match s.lookup (getxid msg) with
  | none => s
  | some rp =>
      if conf.checksrc rp src then
        if rp.raw then (s.note (.ran rp .success)).enter [.rawReplied rp]
        else
          let err := conf.decodemsg rp msg
          if err = .success ∧ (s.hooks rp.client).recv then s.enter [.finish rp err]
          else s.finish rp err []
      else s

end Endings

end Aclnts

/-- What users, peers and clocks do. A call is marshalled or not, and draws numbers. -/
inductive CallOp
  | call (c : ℕ) (dest : Option Sockaddr) (nullcb marshals : Bool) (draws : List UInt32)
  | rawcall (c : ℕ) (dest : Option Sockaddr) (draws : List UInt32)
  | cancel (k : CallBase)
  | expire (k : CallBase)
  | packet (msg : Bytes) (src : Option Sockaddr)
  | eof
  | setHooks (c : ℕ) (h : Hooks)
  | ret
  deriving DecidableEq, Repr

namespace Aclnts

variable (conf : XprtConf) (c : ℕ) (dest : Option Sockaddr)

/-- `init_call` and `call`. A call whose reply nobody wants leaves no state. -/
def call (nullcb marshals : Bool) (draws : List UInt32)
    (s : Aclnts) : Aclnts :=
  let s' := { s with fresh := s.fresh + 1 }
  if s.eof then (s'.note (.ran ⟨s.fresh, c, 0, dest, false⟩ .cantSend)).enter []
  else if !marshals then
    (s'.note (.ran ⟨s.fresh, c, 0, dest, false⟩ .cantEncodeArgs)).enter []
  else if conf.reliable && nullcb then if (s.hooks c).send then s'.enter [] else s'
  else
    match s.genxid draws with
    | none => s'
    | some xid =>
        let k : CallBase := ⟨s.fresh, c, xid, dest, false⟩
        if (s.hooks c).send then s'.enter [.alloc k] else exec [.alloc k] s'

def rawcall (draws : List UInt32) (s : Aclnts) : Aclnts :=
  match s.genxid draws with
  | none => s
  | some xid => { s with fresh := s.fresh + 1 }.insert ⟨s.fresh, c, xid, dest, true⟩

/-- One step. Timers go with their calls, and nobody cancels a call that has ended; the
transport is not listened to after its end. -/
def step (s : Aclnts) (op : CallOp) : Aclnts × Unit :=
  if s.halted then (s, ())
  else
    match op with
    | .call c dest nullcb marshals draws => (s.call conf c dest nullcb marshals draws, ())
    | .rawcall c dest draws => (s.rawcall c dest draws, ())
    | .cancel k =>
        (if k ∈ s.calls k.client then (s.delete k).note (.cancelled k) else s, ())
    | .expire k => (if k ∈ s.calls k.client then s.finish k .timedOut [] else s, ())
    | .packet msg src =>
        if s.eof then (s, ())
        else
          let s := s.note (.packet msg src)
          match msgKind msg with
          | .call => (if conf.services then s else s.seteof conf, ())
          | .reply => (if conf.clist ≠ [] then s.dispatch conf msg src else s.seteof conf, ())
          | .bad => (s.seteof conf, ())
    | .eof => (if s.eof then s else s.seteof conf, ())
    | .setHooks c h =>
        -- `seteofcb` runs its argument at once if the transport has ended
        ({ s with hooks := Function.update s.hooks c { h with eofcb := h.eofcb && !s.eof } }, ())
    | .ret =>
        match s.stack with
        | [] => (s, ())
        | fs :: stack => (exec fs { s with stack := stack }, ())

end Aclnts

end SelfCertifyingFS.Arpc
