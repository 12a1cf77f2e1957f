import Sfs.Arpc.StreamLink

/-!
# Servers that outlive their connection

`asrv_resumable` of `arpc/asrv.C` and its client, `aclnt_resumable` of
`arpc/aclnt.C`. The server keeps its replies to send them again when the client
repeats a call over a new connection, until it knows from counts of bytes that the
client has them. The stream to the client is counted where the source counts it,
in `raw_bytes_sent`, and where the argument needs it: what the kernel has taken,
and what the client has received.
-/

namespace SelfCertifyingFS.Arpc

open Foundations

/-- What `svccb::operator==` compares on a connected transport. All calls for one server have
its program and version. -/
structure CallKey where
  xid : UInt32
  proc : ℕ
  deriving DecidableEq, Repr

/-- A call of the client, in the order in which calls are made. `badArgs` are arguments that
`xdr_arg` does not decode. -/
structure RpcCall where
  id : ℕ
  key : CallKey
  badArgs : Bool
  deriving DecidableEq, Repr

/-- A `svccb` that has been replied to. -/
structure Svccb where
  call : RpcCall
  reslen : ℕ
  offset : ℕ
  deriving DecidableEq, Repr

/-- The stream from the server to the client over one connection: the bytes sent, written to
the kernel and received, and the replies that have not been received, each with the offset of
its end. -/
structure Conn where
  pktsize : ℕ
  sndbufsz : ℤ
  ateof : Bool
  sent : ℕ
  written : ℕ
  received : ℕ
  maxAckedOffset : ℕ
  replies : List (UInt32 × ℕ)
  deriving DecidableEq, Repr

namespace Conn

def new (pktsize : ℕ) (sndbufsz : ℤ) : Conn where
  pktsize := pktsize
  sndbufsz := sndbufsz
  ateof := false
  sent := 0
  written := 0
  received := 0
  maxAckedOffset := 0
  replies := []

/-- `axprt_stream::sendv`, of a reply to the client or of another message. -/
def send (len : ℕ) (answers : Option UInt32) (c : Conn) : Conn :=
  if len > c.pktsize then { c with ateof := true }
  else
    { c with
      sent := c.sent + len + 4
      replies := c.replies ++ answers.toList.map fun xid => (xid, c.sent + len + 4) }

/-- The kernel takes some of what is queued. It holds at most `sndbufsize` bytes. -/
def write (n : ℕ) (c : Conn) : Conn :=
  if c.ateof = false ∧ c.written + n ≤ c.sent ∧
      (0 < c.sndbufsz → (c.written + n : ℤ) ≤ c.received + c.sndbufsz) then
    { c with written := c.written + n }
  else c

/-- The bytes that the client must have, in the view of the server. -/
def knownReceived (c : Conn) : ℕ :=
  max (if 0 < c.sndbufsz then c.sent - c.sndbufsz.toNat else 0) c.maxAckedOffset

/-- The counts are those of a transport. -/
structure Counts (c : Conn) (st : AxprtStream) : Prop where
  pktsize : c.pktsize = st.pktsize
  ateof : c.ateof = st.ateof
  sent : c.sent = st.rawBytesSent
  queued : c.written + st.out.length = c.sent

end Conn

/-- A server, its client, and the connection between them. The transport tells its end to
`xhinfo`, whose flag is `eof`; what sends in between panics. The table of the server consists
of the calls that it has not replied to and of the replies in its queue. `wire` are the calls
on the way to the server; `arrived` are those that have reached it, and `handed` those that
were handed to its callback, newest first. -/
structure Session where
  conn : Conn
  eof : Bool
  waiting : List RpcCall
  rq : List Svccb
  calls : List RpcCall
  wire : List RpcCall
  fresh : ℕ
  arrived : List ℕ
  handed : List ℕ
  panicked : Bool
  deriving DecidableEq, Repr

/-- What the client, the service, the network and the kernel do. -/
inductive SessionOp
  | issue (key : CallKey) (badArgs : Bool)
  | cancel (id : ℕ)
  | arrive
  | reply (key : CallKey) (len : ℕ) (nocache : Bool)
  | reject (key : CallKey) (len : ℕ)
  | ignore (key : CallKey)
  | message (len : ℕ)
  | write (n : ℕ)
  | deliver (n : ℕ)
  | acked (offset : ℕ)
  | fail
  | eof
  | resume (order : List RpcCall) (pktsize : ℕ) (sndbufsz : ℤ)
  deriving DecidableEq, Repr

namespace Session

def new (pktsize : ℕ) (sndbufsz : ℤ) : Session where
  conn := .new pktsize sndbufsz
  eof := false
  waiting := []
  rq := []
  calls := []
  wire := []
  fresh := 0
  arrived := []
  handed := []
  panicked := false

/-- The keys in `rtab`. -/
def rtab (s : Session) : List CallKey := s.waiting.map RpcCall.key ++ s.rq.map (·.call.key)

/-- `asrv_replay::delsbp` on the replies at the head of the queue. -/
def evict (p : Svccb → Bool) (s : Session) : Session := { s with rq := s.rq.dropWhile p }

variable (k : RpcCall)

/-- `asrv_resumable::isreplay`. The transport must not be at its end when a reply is sent
again. -/
def isreplay (s : Session) : Session × Bool :=
  match s.rq.find? (·.call.key = k.key) with
  | some osbp =>
      if s.conn.ateof then ({ s with panicked := true }, true)
      else
        let conn := s.conn.send osbp.reslen (some k.key.xid)
        let rq := s.rq.filter (·.call.key ≠ k.key) ++ [{ osbp with offset := conn.sent }]
        ({ s with conn := conn, rq := rq }, true)
  | none =>
      if k.key ∈ s.waiting.map RpcCall.key then (s, true)
      else
        -- clear out any calls from the last connection
        (({ s with waiting := k :: s.waiting }).evict (·.offset = 0), false)

/-- `svccb::reject` and the other replies without a result; they are not kept. -/
def drop (len : Option ℕ) (s : Session) : Session :=
  let dropped := { s with waiting := s.waiting.erase k }
  match len with
  | none => dropped
  | some len =>
      if s.eof then dropped
      else if s.conn.ateof then { s with panicked := true }
      else { dropped with conn := s.conn.send len (some k.key.xid) }

/-- `asrv::dispatch` behind the checks that do not depend on the state of the server. -/
def dispatch (s : Session) : Session :=
  let (s, replay) := s.isreplay k
  if replay then s
  else if k.badArgs then
    if s.conn.ateof then { s with panicked := true } else s.drop k (some 24)
  else { s with handed := k.id :: s.handed }

variable (reslen : ℕ) (s : Session)

/-- The reply is sent, unless the end of the transport is known, and put at the end of the
queue. -/
def keepReply : Session :=
  let conn := if s.eof then s.conn else s.conn.send reslen (some k.key.xid)
  { s with
    conn := conn
    waiting := s.waiting.erase k
    rq := s.rq ++ [⟨k, reslen, conn.sent⟩] }

def sendreply : Session :=
  if s.eof = false ∧ s.conn.ateof then { s with panicked := true }
  else
    let s := s.keepReply k reslen
    s.evict fun sbp => sbp.offset ≠ 0 ∧ sbp.offset < s.conn.knownReceived

def outstanding (key : CallKey) (s : Session) : Option RpcCall := s.waiting.find? (·.key = key)

/-- A new call. Its number is not that of an outstanding call. -/
def issue (key : CallKey) (badArgs : Bool) (s : Session) : Session :=
  if key.xid ∈ s.calls.map (·.key.xid) then s
  else
    let k := ⟨s.fresh, key, badArgs⟩
    { s with calls := s.calls ++ [k], wire := s.wire ++ [k], fresh := s.fresh + 1 }

/-- More of the stream reaches the client; the replies that are complete end their calls. -/
def deliver (n : ℕ) (s : Session) : Session :=
  let received := s.conn.received + n
  if received ≤ s.conn.written then
    let done := (s.conn.replies.filter (·.2 ≤ received)).map Prod.fst
    { s with
      conn := { s.conn with
        received := received, replies := s.conn.replies.filter (received < ·.2) }
      calls := s.calls.filter (·.key.xid ∉ done) }
  else s

/-- `asrv_resumable::resume` and `aclnt_resumable::resume`: what was on the way is lost, and
the client sends all its calls again, before any new one. -/
def resume (order : List RpcCall) (pktsize : ℕ) (sndbufsz : ℤ) (s : Session) : Session :=
  if order.isPerm s.calls then
    { s with
      conn := .new pktsize sndbufsz
      eof := false
      rq := s.rq.map fun sbp => { sbp with offset := 0 }
      wire := order }
  else s

/-- One step. A message is one of other servers and clients on the transport; a peer that
replies to a call has received what was sent before the call. -/
def step (s : Session) (op : SessionOp) : Session × Unit :=
  if s.panicked then (s, ())
  else
    match op with
    | .issue key badArgs => (s.issue key badArgs, ())
    | .cancel id => ({ s with calls := s.calls.filter (·.id ≠ id) }, ())
    | .arrive =>
        match s.wire with
        | [] => (s, ())
        | k :: wire =>
            (({ s with wire := wire, arrived := k.id :: s.arrived }).dispatch k, ())
    | .reply key len nocache =>
        match s.outstanding key with
        | none => (s, ())
        | some k => (if nocache then { s with panicked := true } else s.sendreply k len, ())
    | .reject key len =>
        match s.outstanding key with
        | none => (s, ())
        | some k => (s.drop k (some len), ())
    | .ignore key =>
        match s.outstanding key with
        | none => (s, ())
        | some k => (s.drop k none, ())
    | .message len =>
        (if s.conn.ateof then s else { s with conn := s.conn.send len none }, ())
    | .write n => ({ s with conn := s.conn.write n }, ())
    | .deliver n => (s.deliver n, ())
    | .acked offset =>
        (if offset ≤ s.conn.received then
          { s with conn := { s.conn with maxAckedOffset := max s.conn.maxAckedOffset offset } }
        else s, ())
    | .fail => ({ s with conn := { s.conn with ateof := true } }, ())
    | .eof => ({ s with conn := { s.conn with ateof := true }, eof := true }, ())
    | .resume order pktsize sndbufsz => (s.resume order pktsize sndbufsz, ())

end Session

/-- A packet sent by the transport is a packet sent on the connection, of which the kernel has
taken what was written. -/
theorem Conn.Counts.sendv {c : Conn} {st : AxprtStream} {scb : Recvcb} {iov : List Bytes}
    {ws : List WriteRes} (h : c.Counts st) (heof : c.ateof = false)
    (hp : Legal st.pktsize iov.flatten) (hws : .error ∉ ws) (answers : Option UInt32) :
    ∃ st' wrote, st.sendv scb iov ws = some (st', wrote) ∧
      Counts { c.send iov.flatten.length answers with
        written := c.written + wrote.length } st' := by
  obtain ⟨out, wcb, wrote, hsend, hall⟩ :=
    @AxprtStream.sendv_spec scb st ws iov (h.ateof ▸ heof) hp hws
  have hlen := congrArg List.length hall
  simp only [List.length_append, length_frame] at hlen
  have hfits : ¬iov.flatten.length > c.pktsize := by
    rw [h.pktsize]
    exact not_lt.mpr hp.size
  refine ⟨_, wrote, hsend, ?_⟩
  rw [Conn.send, if_neg hfits]
  refine ⟨h.pktsize, h.ateof, ?_, ?_⟩
  · rw [h.sent]
  · have hqueued := h.queued
    dsimp only
    omega

end SelfCertifyingFS.Arpc
