import Sfs.Foundations.ByteNumbers
import Sfs.Foundations.Runs

/-!
# Servers of a transport

`xhinfo::dispatch` sorts packets into calls, replies and those that end the connection.
`asrv::dispatch` of `arpc/asrv.C` gives the calls that arrive on a transport to the
callbacks of its servers, and tells them the end of the transport with a null
pointer. `xhinfo` stops listening at the end, so that a callback hears of it once.
But a call that `xdr_callmsg` does not decode is answered with the null pointer as
well, and the transport goes on.
-/

namespace SelfCertifyingFS.Arpc

open Foundations

/-- `sockaddr_in`, as far as addresses are compared. -/
structure Sockaddr where
  family : ℕ
  addr : ℕ
  port : ℕ
  deriving DecidableEq, Repr

def afInet : ℕ := 2

/-- `addreq`; the size is that of the transport's addresses. -/
def addreq (a b : Sockaddr) (size : ℕ) : Bool :=
  if a.family ≠ b.family then false
  else if a.family = afInet then
    if size ≥ 16 then a.addr = b.addr ∧ a.port = b.port else false
  else false

def getint (msg : Bytes) : ℕ := beNat (msg.take 4)

inductive MsgKind
  | call
  | reply
  | bad
  deriving DecidableEq, Repr

/-- The cases of `xhinfo::dispatch`. -/
def msgKind (msg : Bytes) : MsgKind :=
  if msg.length < 8 then .bad
  else if msg.length % 4 ≠ 0 then .bad
  else
    match getint (msg.drop 4) with
    | 0 => .call
    | 1 => .reply
    | _ => .bad

open Foundations List

/-- The header of a call. -/
structure CallMsg where
  rpcvers : ℕ
  prog : ℕ
  vers : ℕ
  proc : ℕ
  deriving DecidableEq, Repr

/-- `asrv`. Callbacks are told apart by the order in which they are registered. -/
structure Asrv where
  prog : ℕ
  vers : ℕ
  nproc : ℕ
  cb : Option ℕ
  deriving DecidableEq, Repr

/-- What is constant of a transport and its servers: the decoder of call headers, and that of
the arguments of each procedure. -/
structure SrvConf where
  connected : Bool
  xdrCallmsg : Bytes → Option CallMsg
  xdrArg : CallMsg → Bytes → Bool

/-- A call of a server's callback. -/
inductive SrvEvent
  | request (cb : ℕ) (msg : Bytes)
  | null (cb : ℕ)
  deriving DecidableEq, Repr

def SrvEvent.cb : SrvEvent → ℕ
  | .request cb _ | .null cb => cb

/-- `xhinfo` with its transport, which is at its end if `ateof`, and has a receive callback if
`rcb`. The log is of the calls of the servers' callbacks, newest first. -/
structure Xhinfo where
  eof : Bool
  ateof : Bool
  rcb : Bool
  clist : Bool
  stab : List Asrv
  fresh : ℕ
  panicked : Bool
  log : List SrvEvent
  deriving DecidableEq, Repr

/-- What the transport and the users of it do. `isreplay` may answer anything. -/
inductive SrvOp
  | packet (msg : Bytes) (replay : Bool)
  | eof
  | fail
  | xon (receive : Bool)
  | alloc (prog vers nproc : ℕ) (cb : Bool)
  | setcb (prog vers : ℕ) (cb : Bool)
  | stop (prog vers : ℕ)
  | clients (any : Bool)
  deriving DecidableEq, Repr

def rpcMsgVersion : ℕ := 2

namespace Xhinfo

def new : Xhinfo where
  eof := false
  ateof := false
  rcb := true
  clist := false
  stab := []
  fresh := 0
  panicked := false
  log := []

/-- The callbacks of the servers that have one. -/
def cbs (x : Xhinfo) : List ℕ := x.stab.filterMap Asrv.cb

def answer (x : Xhinfo) : Xhinfo := if x.ateof then { x with panicked := true } else x

section Dispatch

variable (conf : SrvConf)

def asrvSeteof (x : Xhinfo) : Xhinfo :=
  if conf.connected then { x with log := (x.cbs.map .null).reverse ++ x.log } else x

def seteof (x : Xhinfo) : Xhinfo :=
  if conf.connected then asrvSeteof conf { x with eof := true, rcb := false } else x

variable (msg : Bytes) (replay : Bool) (x : Xhinfo)

/-- `asrv::dispatch` of a packet. -/
def asrvDispatch : Xhinfo :=
  match conf.xdrCallmsg msg with
  | none => x.asrvSeteof conf
  | some m =>
      if m.rpcvers ≠ rpcMsgVersion then x.answer
      else
        match x.stab.find? fun s => s.prog = m.prog ∧ s.vers = m.vers with
        | none => x.answer
        | some s =>
            match s.cb with
            | none => x.answer
            | some cb =>
                if m.proc ≥ s.nproc then x.answer
                else if replay then x
                else if conf.xdrArg m msg then { x with log := .request cb msg :: x.log }
                else x.answer

def dispatch : Xhinfo :=
  match msgKind msg with
  | .call => if x.stab ≠ [] then x.asrvDispatch conf msg replay else x.seteof conf
  | .reply => if x.clist then x else x.seteof conf
  | .bad => x.seteof conf

end Dispatch

/-- `asrv::alloc`; a transport that has ended takes no servers. -/
def alloc (prog vers nproc : ℕ) (cb : Bool) (x : Xhinfo) : Xhinfo :=
  if x.eof then x
  else if x.stab.any fun s => s.prog = prog ∧ s.vers = vers then { x with panicked := true }
  else
    { x with
      stab := x.stab ++ [⟨prog, vers, nproc, if cb then some x.fresh else none⟩]
      fresh := x.fresh + 1 }

def setcb (prog vers : ℕ) (cb : Bool) (x : Xhinfo) : Xhinfo :=
  let c := if cb then some x.fresh else none
  { x with
    stab := x.stab.map fun s => if s.prog = prog ∧ s.vers = vers then { s with cb := c } else s
    fresh := x.fresh + 1
    log := if cb ∧ x.eof then .null x.fresh :: x.log else x.log }

def stop (prog vers : ℕ) (x : Xhinfo) : Xhinfo :=
  { x with stab := x.stab.filter fun s => ¬(s.prog = prog ∧ s.vers = vers) }

variable (conf : SrvConf)

/-- One step. The transport calls its callback only while it has one, and at once if it is
given one behind its end. -/
def step (x : Xhinfo) (op : SrvOp) : Xhinfo × Unit :=
  if x.panicked then (x, ())
  else
    match op with
    | .packet msg replay => (if x.rcb then x.dispatch conf msg replay else x, ())
    | .eof =>
        let x := { x with ateof := true }
        (if x.rcb then x.seteof conf else x, ())
    | .fail => ({ x with ateof := true }, ())
    | .xon receive =>
        if x.eof then ({ x with panicked := true }, ())
        else
          let x := { x with rcb := receive }
          (if receive ∧ x.ateof then x.seteof conf else x, ())
    | .alloc prog vers nproc cb => (x.alloc prog vers nproc cb, ())
    | .setcb prog vers cb => (x.setcb prog vers cb, ())
    | .stop prog vers => (x.stop prog vers, ())
    | .clients any => ({ x with clist := any }, ())

section Invariant

/-- Nothing has been told to anybody before the end, and nothing is listened to behind it. -/
structure Inv (x : Xhinfo) : Prop where
  quiet : x.eof = false → ∀ cb, .null cb ∉ x.log
  closed : x.eof = true → x.rcb = false
  distinct : x.stab.Pairwise fun s t =>
    ¬(s.prog = t.prog ∧ s.vers = t.vers) ∧ ∀ cb, s.cb = some cb → t.cb ≠ some cb
  old : ∀ s ∈ x.stab, ∀ cb, s.cb = some cb → cb < x.fresh
  told : ∀ cb, .null cb ∈ x.log → cb < x.fresh
  final : x.log.Pairwise fun later earlier => earlier ≠ .null later.cb

theorem Inv.new : Inv new := by
  constructor <;> simp [Xhinfo.new]

variable {conf} {x : Xhinfo}

section

variable (h : Inv x)

include h

theorem inv_answer : Inv x.answer := by
  unfold answer
  split
  · exact { h with }
  · exact h

theorem Inv.nodup_cbs : x.cbs.Nodup := by
  rw [cbs, Nodup, pairwise_filterMap]
  refine h.distinct.imp ?_
  rintro s t hst c hc c' hc' rfl
  exact hst.2 c hc hc'

section

variable (hrun : x.eof = false)

include hrun

theorem inv_seteof : Inv (x.seteof conf) := by
  by_cases hconn : conf.connected = true
  · have hset : x.seteof conf = { x with
        eof := true, rcb := false, log := (x.cbs.map .null).reverse ++ x.log } := by
      rw [seteof, if_pos hconn, asrvSeteof, if_pos hconn]
      rfl
    rw [hset]
    refine
      { quiet := by rintro ⟨⟩
        closed := fun _ => rfl
        distinct := h.distinct
        old := h.old
        told := ?_
        final := ?_ }
    · intro cb hcb
      rcases mem_append.mp hcb with hcb | hcb
      · rw [mem_reverse, mem_map] at hcb
        obtain ⟨cb', hmem, heq⟩ := hcb
        obtain ⟨s, hs, hscb⟩ := mem_filterMap.mp hmem
        rw [← SrvEvent.null.inj heq]
        exact h.old s hs cb' hscb
      · exact h.told cb hcb
    · refine pairwise_append.mpr ⟨?_, h.final, ?_⟩
      · rw [pairwise_reverse, pairwise_map]
        exact h.nodup_cbs.imp fun hne heq => hne (SrvEvent.null.inj heq)
      · rintro e - e' he' rfl
        exact h.quiet hrun _ he'
  · rw [seteof, if_neg hconn]
    exact h

theorem inv_request (cb : ℕ) (msg : Bytes) : Inv { x with log := .request cb msg :: x.log } := by
  have hold : ∀ c, SrvEvent.null c ∈ .request cb msg :: x.log → .null c ∈ x.log := by
    intro c hc
    exact (mem_cons.mp hc).resolve_left (by rintro ⟨⟩)
  refine { h with quiet := ?_, told := ?_, final := ?_ }
  · exact fun _ c hc => h.quiet hrun c (hold c hc)
  · exact fun c hc => h.told c (hold c hc)
  · refine pairwise_cons.mpr ⟨?_, h.final⟩
    rintro e he rfl
    exact h.quiet hrun _ he

variable {msg : Bytes} (replay : Bool)

theorem inv_asrvDispatch
    (hmsg : x.cbs = [] ∨ (conf.xdrCallmsg msg).isSome) : Inv (x.asrvDispatch conf msg replay) := by
  unfold asrvDispatch
  split
  · rename_i hnone
    rw [hnone] at hmsg
    have hnil : x.cbs = [] := hmsg.resolve_right (by simp)
    unfold asrvSeteof
    split
    · rw [hnil]
      exact { h with }
    · exact h
  · split
    · exact inv_answer h
    · split
      · exact inv_answer h
      · split
        · exact inv_answer h
        · rename_i cb _
          split
          · exact inv_answer h
          · split
            · exact h
            · split
              · exact inv_request h hrun cb msg
              · exact inv_answer h

theorem inv_dispatch (hmsg : msgKind msg = .call → x.cbs = [] ∨ (conf.xdrCallmsg msg).isSome) :
    Inv (x.dispatch conf msg replay) := by
  unfold dispatch
  split
  · rename_i hcall
    split
    · exact inv_asrvDispatch h hrun replay (hmsg hcall)
    · exact inv_seteof h hrun
  · split
    · exact h
    · exact inv_seteof h hrun
  · exact inv_seteof h hrun

end

theorem inv_alloc (prog vers nproc : ℕ) (cb : Bool) : Inv (x.alloc prog vers nproc cb) := by
  unfold alloc
  split
  · exact h
  · split
    · exact { h with }
    · rename_i hnone
      refine { h with distinct := ?_, old := ?_, told := ?_ }
      · refine pairwise_append.mpr ⟨h.distinct, pairwise_singleton _ _, ?_⟩
        intro s hs t ht
        rw [mem_singleton.mp ht]
        refine ⟨?_, ?_⟩
        · rintro ⟨hprog, hvers⟩
          exact hnone (any_eq_true.mpr ⟨s, hs, by simp [hprog, hvers]⟩)
        · intro c hc heq
          have hlt := h.old s hs c hc
          split at heq
          · exact hlt.ne' (Option.some.inj heq)
          · cases heq
      · intro s hs c hc
        rcases mem_append.mp hs with hs | hs
        · exact Nat.lt_succ_of_lt (h.old s hs c hc)
        · rw [mem_singleton.mp hs] at hc
          split at hc
          · rw [← Option.some.inj hc]
            exact Nat.lt_succ_self _
          · cases hc
      · exact fun c hc => Nat.lt_succ_of_lt (h.told c hc)

theorem inv_setcb (prog vers : ℕ) (cb : Bool) : Inv (x.setcb prog vers cb) := by
  have hset : ∀ {s : Asrv} {c : ℕ}, s ∈ x.stab →
      (if s.prog = prog ∧ s.vers = vers then
        { s with cb := if cb then some x.fresh else none } else s).cb = some c →
      (c = x.fresh ∧ s.prog = prog ∧ s.vers = vers) ∨ s.cb = some c := by
    intro s c hs hc
    split at hc
    · rename_i hpv
      split at hc
      · exact .inl ⟨(Option.some.inj hc).symm, hpv⟩
      · cases hc
    · exact .inr hc
  have hkey : ∀ s : Asrv, (if s.prog = prog ∧ s.vers = vers then
        { s with cb := if cb then some x.fresh else none } else s).prog = s.prog ∧
      (if s.prog = prog ∧ s.vers = vers then
        { s with cb := if cb then some x.fresh else none } else s).vers = s.vers := by
    intro s
    split <;> exact ⟨rfl, rfl⟩
  unfold setcb
  refine { closed := h.closed, quiet := ?_, distinct := ?_, old := ?_, told := ?_, final := ?_ }
  · intro hrun c
    have hopen : x.eof = false := hrun
    simpa [hopen] using h.quiet hopen c
  · refine pairwise_map.mpr (h.distinct.imp_of_mem ?_)
    intro s t hs ht hst
    rw [(hkey s).1, (hkey s).2, (hkey t).1, (hkey t).2]
    refine ⟨hst.1, fun c hc hc' => ?_⟩
    rcases hset hs hc with ⟨rfl, hps, hvs⟩ | hsc <;> rcases hset ht hc' with ⟨heq, hpt, hvt⟩ | htc
    · exact hst.1 ⟨hps.trans hpt.symm, hvs.trans hvt.symm⟩
    · exact (h.old t ht _ htc).ne rfl
    · exact (h.old s hs _ hsc).ne heq
    · exact hst.2 c hsc htc
  · intro s' hs' c hc
    obtain ⟨s, hs, rfl⟩ := mem_map.mp hs'
    rcases hset hs hc with ⟨rfl, -⟩ | hsc
    · exact Nat.lt_succ_self _
    · exact Nat.lt_succ_of_lt (h.old s hs c hsc)
  · intro c hc
    dsimp only at hc
    split at hc
    · rcases mem_cons.mp hc with heq | hc
      · rw [SrvEvent.null.inj heq]
        exact Nat.lt_succ_self _
      · exact Nat.lt_succ_of_lt (h.told c hc)
    · exact Nat.lt_succ_of_lt (h.told c hc)
  · dsimp only
    split
    · refine pairwise_cons.mpr ⟨?_, h.final⟩
      rintro e he rfl
      exact (h.told _ he).ne rfl
    · exact h.final

theorem inv_stop (prog vers : ℕ) : Inv (x.stop prog vers) :=
  { h with
    distinct := h.distinct.sublist filter_sublist
    old := fun s hs => h.old s (mem_of_mem_filter hs) }

/-- A packet that is a call decodes, whenever there is a callback to hear of it. -/
def Decodes (conf : SrvConf) (x : Xhinfo) : SrvOp → Prop
  | .packet msg _ =>
      x.rcb = true → msgKind msg = .call → x.cbs = [] ∨ (conf.xdrCallmsg msg).isSome
  | _ => True

instance (conf : SrvConf) (x : Xhinfo) (op : SrvOp) : Decidable (x.Decodes conf op) :=
  match op with
  | .packet _ _ => inferInstanceAs (Decidable (_ → _ → _ ∨ _))
  | .eof | .fail | .xon _ | .alloc _ _ _ _ | .setcb _ _ _ | .stop _ _
  | .clients _ => inferInstanceAs (Decidable True)

theorem Inv.running (hrcb : x.rcb = true) : x.eof = false := by
  cases heof : x.eof with
  | false => rfl
  | true =>
    rw [h.closed heof] at hrcb
    cases hrcb

theorem inv_step (op : SrvOp) (hop : x.Decodes conf op) : Inv (x.step conf op).1 := by
  unfold step
  split
  · exact h
  · cases op with
    | packet msg replay =>
      dsimp only
      split
      · rename_i hrcb
        exact inv_dispatch h (h.running hrcb) replay (hop hrcb)
      · exact h
    | eof =>
      dsimp only
      split
      · rename_i hrcb
        exact inv_seteof { h with } (h.running hrcb)
      · exact { h with }
    | fail => exact { h with }
    | xon receive =>
      dsimp only
      split
      · exact { h with }
      · rename_i hrun
        have hopen : x.eof = false := by simpa using hrun
        have hrcb : Inv { x with rcb := receive } :=
          { h with closed := fun heof => absurd heof hrun }
        split
        · exact inv_seteof hrcb hopen
        · exact hrcb
    | alloc prog vers nproc cb => exact inv_alloc h prog vers nproc cb
    | setcb prog vers cb => exact inv_setcb h prog vers cb
    | stop prog vers => exact inv_stop h prog vers
    | clients any => exact { h with }

end

end Invariant

end Xhinfo

/-- The end is final: what a callback is called with, a request or the null pointer, it is
called with before it has been told of the end. -/
theorem null_is_final (conf : SrvConf) (ops : List SrvOp)
    (h : Run.Guarded (Xhinfo.step conf) (fun r op => r.state.Decodes conf op)
      (Run.start Xhinfo.new) ops) :
    ((Run.start Xhinfo.new).take (Xhinfo.step conf) ops).state.log.Pairwise
      fun later earlier => earlier ≠ .null later.cb := by
  have hinv : Xhinfo.Inv ((Run.start Xhinfo.new).take (Xhinfo.step conf) ops).state := by
    have hstep : ∀ (r : Run Xhinfo SrvOp Unit) op, Xhinfo.Inv r.state →
        r.state.Decodes conf op → Xhinfo.Inv (r.next (Xhinfo.step conf) op).state :=
      fun r op hr hop => Xhinfo.inv_step hr op hop
    exact Run.invariant_take Xhinfo.Inv.new hstep h
  exact hinv.final

/-- A transport whose calls have the header of Sun RPC, and arguments that always decode. -/
def sunCalls : SrvConf where
  connected := true
  xdrCallmsg := fun msg =>
    if msg.length < 40 then none
    else
      some ⟨getint (msg.drop 8), getint (msg.drop 12), getint (msg.drop 16), getint (msg.drop 20)⟩
  xdrArg := fun _ _ => true

/-- A call of procedure 0 of program 100, with empty credentials. -/
def nullCall : Bytes :=
  [0, 0, 0, 7, 0, 0, 0, 0, 0, 0, 0, 2, 0, 0, 0, 100, 0, 0, 0, 1, 0, 0, 0, 0,
    0, 0, 0, 0, 0, 0, 0, 0, 0, 0, 0, 0, 0, 0, 0, 0]

/-- A request, a truncated packet that ends the transport, a request that comes too late, and a
callback that is set too late. -/
theorem null_is_final_truncated :
    [SrvEvent.null 1, .null 0, .request 0 nullCall].Pairwise
      fun later earlier => earlier ≠ .null later.cb :=
  null_is_final sunCalls
    [.alloc 100 1 5 true, .packet nullCall false, .packet [0, 0, 0] false,
      .packet nullCall false, .setcb 100 1 true]
    ⟨by decide, by decide, by decide, by decide, by decide, trivial⟩

/-- A call that is cut off behind its direction tells the server the end of a transport that
goes on: the next call is a request, and the end is told twice more. -/
theorem null_then_request :
    ((Run.start Xhinfo.new).take (Xhinfo.step sunCalls)
      [.alloc 100 1 5 true, .packet [0, 0, 0, 6, 0, 0, 0, 0] false, .packet nullCall false,
        .packet [0, 0, 0, 8, 0, 0, 0, 0] false, .eof]).state.log =
      [.null 0, .null 0, .request 0 nullCall, .null 0] := by
  decide

end SelfCertifyingFS.Arpc
