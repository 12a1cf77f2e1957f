import Sfs.Foundations.ByteNumbers
import Sfs.Foundations.Runs

/-!
# Stream transports

`axprt_stream` of `arpc/axprt_stream.C` sends packets over a byte stream, each behind its length;
what the kernel does not take at once waits in `out`. What a receiver has read is cut into
packets, and the cut says what is left over: an unfinished packet, or everything behind the
packet at which the callback took itself out. An assertion then bounds what is left. The
results of `writev` and `read` are arguments, and the receive callback is a function of all it
has been told.
-/

namespace SelfCertifyingFS.Arpc

section

open Foundations

/-- A call of the receive callback: with a packet, or with a null pointer. -/
inductive RecvEvent
  | packet (p : Bytes)
  | eof
  deriving DecidableEq, Repr

/-- What the receive callback has done to the transport when it returns. -/
structure CbAct where
  uninstall : Bool
  close : Bool
  deriving DecidableEq, Repr

def CbAct.keep : CbAct := ⟨false, false⟩

/-- The callback's next action, from the calls made so far, newest first. -/
abbrev Recvcb := List RecvEvent → CbAct

inductive WriteRes
  | bytes (n : ℕ)
  | again
  | error
  deriving DecidableEq, Repr

inductive ReadRes
  | bytes (chunk : Bytes)
  | again
  | error
  deriving DecidableEq, Repr

/-- `axprt_stream`. The transport is at its end when `fd` is negative; `pktbuf` is the part of
the buffer that is in use, so that its length is `pktlen`. -/
structure AxprtStream where
  pktsize : ℕ
  bufsize : ℕ
  ateof : Bool
  cb : Bool
  pktbuf : Bytes
  out : Bytes
  wcbset : Bool
  bytesSent : ℕ
  rawBytesSent : ℕ
  bytesRecv : ℕ
  heard : List RecvEvent
  deriving DecidableEq, Repr

namespace AxprtStream

/-- The constructor. A buffer size of zero stands for the default. -/
def new (ps bs : ℕ) : AxprtStream where
  pktsize := ps
  bufsize := if bs = 0 then ps + 4 else bs
  ateof := false
  cb := false
  pktbuf := []
  out := []
  wcbset := false
  bytesSent := 0
  rawBytesSent := 0
  bytesRecv := 0
  heard := []

section Callbacks

variable (recvcb : Recvcb)

def shut (st : AxprtStream) : AxprtStream :=
  { st with ateof := true, wcbset := false, out := [] }

def hear (e : RecvEvent) (st : AxprtStream) : AxprtStream :=
  let act := recvcb (e :: st.heard)
  let st := { st with heard := e :: st.heard, cb := st.cb && !act.uninstall }
  if act.close then st.shut else st

/-- `fail`; inside `callgetpkt` the callback is called later. -/
def fail (ingetpkt : Bool) (st : AxprtStream) : AxprtStream :=
  let st := { st with ateof := true, wcbset := false }
  let st := if st.cb && !ingetpkt then st.hear recvcb .eof else st
  { st with out := [] }

end Callbacks

section Output

/-- `suio::output`: the bytes written, those left, whether an error stopped it, and the
results of `writev` that are left. -/
def suioOutput (wrote : Bytes) : Bytes → List WriteRes → Bytes × Bytes × Bool × List WriteRes
  | [], ws => (wrote, [], false, ws)
  | out, [] => (wrote, out, false, [])
  | out, .again :: ws => (wrote, out, false, ws)
  | out, .error :: ws => (wrote, out, true, ws)
  | out, .bytes n :: ws =>
      if n = 0 then (wrote, out, false, ws)
      else suioOutput (wrote ++ out.take n) (out.drop n) ws

variable (recvcb : Recvcb)

/-- The end of `output`, when `dowritev` has made no progress. -/
def settle (st : AxprtStream) : AxprtStream :=
  if st.out ≠ [] then { st with wcbset := true } else { st with wcbset := false }

/-- The loop of `output`, with the bytes that reach the kernel. Every turn but the last uses up
a result of `writev`, so that there are at most as many turns as results. -/
def outputLoop : ℕ → AxprtStream → List WriteRes → AxprtStream × Bytes
  | 0, st, _ => (st.settle, [])
  | fuel + 1, st, ws =>
      let (wrote, out, err, ws) := suioOutput [] st.out ws
      let st := { st with out := out }
      if err then (st.fail recvcb false, wrote)
      else if wrote = [] then (st.settle, [])
      else
        let (st, more) := outputLoop fuel st ws
        (st, wrote ++ more)

def output (ws : List WriteRes) (st : AxprtStream) : AxprtStream × Bytes :=
  outputLoop recvcb (ws.length + 1) st ws

def lenWord (len : ℕ) : Bytes := beBytes 4 ((0x80000000 : UInt32) ||| .ofNat len).toNat

/-- `sendv`, with the bytes that reach the kernel. It must not be called at the end of the
stream. -/
def sendv (iov : List Bytes) (ws : List WriteRes) (st : AxprtStream) :
    Option (AxprtStream × Bytes) :=
  let len := iov.flatten.length % 2 ^ 32
  if st.ateof then none
  else if len > st.pktsize then some (st.fail recvcb false, [])
  else
    let st := { st with
      bytesSent := st.bytesSent + len, rawBytesSent := st.rawBytesSent + len + 4 }
    let pkt := lenWord len ++ iov.flatten
    if st.out = [] ∧ iov.length < 16 then
      match ws with
      | .error :: _ => some (st.fail recvcb false, [])
      | .bytes n :: ws =>
          let (st, more) := output recvcb ws { st with out := pkt.drop n }
          some (st, pkt.take n ++ more)
      | .again :: ws => some (output recvcb ws { st with out := pkt })
      | [] => some (output recvcb [] { st with out := pkt })
    else some (output recvcb ws { st with out := st.out ++ pkt })

end Output

section Input

variable (recvcb : Recvcb)

/-- `getpkt` on the unread part of the buffer: whether to go on, and the new state. -/
def getpkt (st : AxprtStream) (buf : Bytes) : Bool × AxprtStream × Bytes :=
  if st.cb = false ∨ buf.length < 4 then (false, st, buf)
  else
    let len := beNat (buf.take 4)
    let cp := buf.drop 4
    if len = 0 then
      -- `recvbreak`
      (true, st.fail recvcb true, cp)
    else if len < 2 ^ 31 then (false, st.fail recvcb true, buf)
    else if len - 2 ^ 31 > st.pktsize then (false, st.fail recvcb true, buf)
    else if cp.length < len - 2 ^ 31 then (false, st, buf)
    else (true, st.hear recvcb (.packet (cp.take (len - 2 ^ 31))), cp.drop (len - 2 ^ 31))

/-- The loop of `callgetpkt`. Every turn but the last takes four bytes off the buffer. -/
def getpkts : ℕ → AxprtStream → Bytes → AxprtStream × Bytes
  | 0, st, buf => (st, buf)
  | fuel + 1, st, buf =>
      match getpkt recvcb st buf with
      | (false, st, buf) => (st, buf)
      | (true, st, buf) => getpkts fuel st buf

/-- `callgetpkt`. An assertion stops the process if too much is left. -/
def callgetpkt (st : AxprtStream) : Option AxprtStream :=
  let (st, rest) := getpkts recvcb (st.pktbuf.length + 1) st st.pktbuf
  if st.ateof then some (if st.cb then st.hear recvcb .eof else st)
  else if rest.length < st.pktsize then some { st with pktbuf := rest }
  else none

/-- `pktlen += n`, on 32 bits. -/
def fill (st : AxprtStream) (chunk : Bytes) : Bytes :=
  (st.pktbuf ++ chunk).take ((st.pktbuf.length + chunk.length) % 2 ^ 32)

/-- `input`: the kernel gives no more than there is room for. -/
def input (r : ReadRes) (st : AxprtStream) : Option AxprtStream :=
  if st.ateof then some st
  else
    match r with
    | .again => some st
    | .error => some (st.fail recvcb false)
    | .bytes chunk =>
        let chunk := chunk.take (st.bufsize - st.pktbuf.length)
        if chunk = [] then some (st.fail recvcb false)
        else
          callgetpkt recvcb { st with
            bytesRecv := st.bytesRecv + chunk.length, pktbuf := st.fill chunk }

/-- `setrcb`: install a callback, or take it out. -/
def setrcb (c : Bool) (st : AxprtStream) : Option AxprtStream :=
  let st := { st with cb := c }
  if st.ateof then some (if c then st.hear recvcb .eof else st)
  else if c ∧ st.pktbuf ≠ [] then callgetpkt recvcb st
  else some st

end Input

end AxprtStream

end

open Foundations List AxprtStream
open Option (mem_def some.injEq)

def frame (p : Bytes) : Bytes := lenWord p.length ++ p

def frames (pkts : List Bytes) : Bytes := pkts.flatMap frame

@[simp] theorem frames_nil : frames [] = [] := rfl

@[simp] theorem frames_cons (p : Bytes) (pkts : List Bytes) :
    frames (p :: pkts) = frame p ++ frames pkts :=
  flatMap_cons

theorem frames_append (pkts pkts' : List Bytes) :
    frames (pkts ++ pkts') = frames pkts ++ frames pkts' :=
  flatMap_append

/-- The length fits the word that announces it, and the size of the transport's packets. -/
structure Legal (ps : ℕ) (p : Bytes) : Prop where
  size : p.length ≤ ps
  word : p.length < 2 ^ 31

@[simp] theorem length_lenWord (n : ℕ) : (lenWord n).length = 4 := length_beBytes _ _

theorem length_frame (p : Bytes) : (frame p).length = 4 + p.length := by
  simp [frame]

theorem lenWord_eq {n : ℕ} (h : n < 2 ^ 31) : lenWord n = beBytes 4 (2 ^ 31 + n) := by
  have hn : (UInt32.ofNat n).toNat = n := UInt32.toNat_ofNat_of_lt' (lt_trans h (by norm_num))
  have hor : 2 ^ 31 + n = 2 ^ 31 ||| n := by
    have hor := Nat.two_pow_add_eq_or_of_lt h 1
    rwa [mul_one] at hor
  rw [lenWord, UInt32.toNat_or, hn, hor]
  rfl

theorem beNat_lenWord {n : ℕ} (h : n < 2 ^ 31) : beNat (lenWord n) = 2 ^ 31 + n := by
  rw [lenWord_eq h, beNat_beBytes]
  omega

theorem take_frame_append (p rest : Bytes) : (frame p ++ rest).take 4 = lenWord p.length := by
  rw [frame, append_assoc, take_left' (length_lenWord _)]

theorem drop_frame_append (p rest : Bytes) : (frame p ++ rest).drop 4 = p ++ rest := by
  rw [frame, append_assoc, drop_left' (length_lenWord _)]

/-- The bytes begin with the length word of a legal packet but do not hold all of it. -/
def Unfinished (ps : ℕ) (s : Bytes) : Prop :=
  s.length < 4 ∨
    (2 ^ 31 ≤ beNat (s.take 4) ∧ beNat (s.take 4) - 2 ^ 31 ≤ ps ∧
      s.length < 4 + (beNat (s.take 4) - 2 ^ 31))

/-- What is left of received bytes behind the packets that the callback is given, in a
connection that lasts: an unfinished packet, or all that follows the packet at which the
callback takes itself out. The last index says whether it is still there. -/
inductive Leaves (recvcb : Recvcb) (ps : ℕ) :
    List RecvEvent → Bytes → List Bytes → Bytes → Bool → Prop
  | short {h : List RecvEvent} {s : Bytes} :
      Unfinished ps s → Leaves recvcb ps h s [] s true
  | quit {h : List RecvEvent} {p s : Bytes} :
      Legal ps p → recvcb (.packet p :: h) = ⟨true, false⟩ →
      Leaves recvcb ps h (frame p ++ s) [p] s false
  | next {h : List RecvEvent} {p s tail : Bytes} {pkts : List Bytes} {c : Bool} :
      Legal ps p → recvcb (.packet p :: h) = .keep →
      Leaves recvcb ps (.packet p :: h) s pkts tail c →
      Leaves recvcb ps h (frame p ++ s) (p :: pkts) tail c

/-- The calls that are made for packets, newest first. -/
def packetEvents (pkts : List Bytes) : List RecvEvent := (pkts.map .packet).reverse

theorem packetEvents_append (pkts pkts' : List Bytes) :
    packetEvents (pkts ++ pkts') = packetEvents pkts' ++ packetEvents pkts := by
  simp [packetEvents]

namespace AxprtStream

variable {recvcb : Recvcb} {st : AxprtStream}

theorem hear_keep {e : RecvEvent} (h : recvcb (e :: st.heard) = .keep) :
    st.hear recvcb e = { st with heard := e :: st.heard } := by
  simp [hear, h, CbAct.keep]

theorem ateof_hear (e : RecvEvent) (h : st.ateof = true) : (st.hear recvcb e).ateof = true := by
  unfold hear
  dsimp only
  split
  · rfl
  · exact h

theorem ateof_fail (ingetpkt : Bool) : (st.fail recvcb ingetpkt).ateof = true := by
  unfold fail
  dsimp only
  split
  · exact ateof_hear _ rfl
  · rfl

variable {buf : Bytes}

theorem getpkt_unfinished (h : Unfinished st.pktsize buf) :
    getpkt recvcb st buf = (false, st, buf) := by
  unfold getpkt
  rcases h with hlen | ⟨hbit, hsize, hlen⟩
  · rw [if_pos (.inr hlen)]
  · split
    · rfl
    · have hcp : (buf.drop 4).length < beNat (buf.take 4) - 2 ^ 31 := by
        rw [length_drop]
        omega
      rw [if_neg (by omega), if_neg (by omega), if_neg (by omega), if_pos hcp]

theorem getpkt_frame {p : Bytes} (hp : Legal st.pktsize p) (hcb : st.cb = true) (rest : Bytes) :
    getpkt recvcb st (frame p ++ rest) = (true, st.hear recvcb (.packet p), rest) := by
  have hlen : ¬ (frame p ++ rest).length < 4 := by
    rw [length_append, length_frame]
    omega
  have hword := beNat_lenWord hp.word
  have hsize := hp.size
  unfold getpkt
  rw [if_neg (not_or.mpr ⟨by simp [hcb], hlen⟩)]
  simp only [take_frame_append, drop_frame_append, hword]
  have hsub : 2 ^ 31 + p.length - 2 ^ 31 = p.length := Nat.add_sub_cancel_left _ _
  rw [hsub, if_neg (by omega), if_neg (by omega), if_neg (by omega),
    if_neg (by rw [length_append]; omega), take_left, drop_left]

/-- Bytes that are neither an unfinished packet nor begin with a whole one end the
connection. -/
theorem getpkt_cases (hcb : st.cb = true) (buf : Bytes) :
    Unfinished st.pktsize buf ∨ (∃ p rest, Legal st.pktsize p ∧ buf = frame p ++ rest) ∨
      ∃ b rest, getpkt recvcb st buf = (b, st.fail recvcb true, rest) := by
  by_cases hshort : buf.length < 4
  · exact .inl (.inl hshort)
  have hopen : ¬ (st.cb = false ∨ buf.length < 4) := not_or.mpr ⟨by simp [hcb], hshort⟩
  by_cases hzero : beNat (buf.take 4) = 0
  · refine .inr (.inr ⟨true, buf.drop 4, ?_⟩)
    simp only [getpkt, if_neg hopen, if_pos hzero]
  by_cases hbit : beNat (buf.take 4) < 2 ^ 31
  · refine .inr (.inr ⟨false, buf, ?_⟩)
    simp only [getpkt, if_neg hopen, if_neg hzero, if_pos hbit]
  by_cases hsize : beNat (buf.take 4) - 2 ^ 31 > st.pktsize
  · refine .inr (.inr ⟨false, buf, ?_⟩)
    simp only [getpkt, if_neg hopen, if_neg hzero, if_neg hbit, if_pos hsize]
  set len := beNat (buf.take 4) - 2 ^ 31
  by_cases hlen : (buf.drop 4).length < len
  · rw [length_drop] at hlen
    exact .inl (.inr ⟨by omega, by omega, by omega⟩)
  -- the packet is there, and the length word is the one that announces it
  have h4 : (buf.take 4).length = 4 := length_take_of_le (by omega)
  have hlt : beNat (buf.take 4) < 2 ^ 32 := by
    have hlt := beNat_lt (buf.take 4)
    rwa [h4] at hlt
  have htake : ((buf.drop 4).take len).length = len := length_take_of_le (by omega)
  refine .inr (.inl ⟨(buf.drop 4).take len, (buf.drop 4).drop len, ⟨by omega, by omega⟩, ?_⟩)
  have hword : lenWord len = buf.take 4 := by
    have hback := beBytes_beNat (buf.take 4)
    rw [h4] at hback
    rw [lenWord_eq (by omega), Nat.add_sub_cancel' (by omega), hback]
  rw [frame, htake, hword, append_assoc, take_append_drop, take_append_drop]

theorem ateof_getpkt (h : st.ateof = true) (buf : Bytes) :
    (getpkt recvcb st buf).2.1.ateof = true := by
  unfold getpkt
  dsimp only
  repeat' split
  all_goals first | exact h | exact ateof_fail true | exact ateof_hear _ h

theorem ateof_getpkts (fuel : ℕ) (h : st.ateof = true) (buf : Bytes) :
    (getpkts recvcb fuel st buf).1.ateof = true := by
  induction fuel generalizing st buf with
  | zero => exact h
  | succ fuel ih =>
    have hnext : (getpkt recvcb st buf).2.1.ateof = true := ateof_getpkt h buf
    unfold getpkts
    split
    · rename_i st' buf' heq
      rw [heq] at hnext
      exact hnext
    · rename_i st' buf' heq
      rw [heq] at hnext
      exact ih hnext buf'

/-- The loop of `callgetpkt` makes the cut. -/
theorem getpkts_of_leaves {fuel : ℕ} {tail : Bytes} {pkts : List Bytes} {c : Bool}
    (h : Leaves recvcb st.pktsize st.heard buf pkts tail c) (hcb : st.cb = true)
    (hfuel : buf.length < fuel) :
    getpkts recvcb fuel st buf =
      ({ st with heard := packetEvents pkts ++ st.heard, cb := c }, tail) := by
  generalize hps : st.pktsize = ps at h
  generalize hh : st.heard = hist at h
  induction h generalizing st fuel with
  | short hs =>
    subst hps hh
    obtain ⟨fuel, rfl⟩ : ∃ n, fuel = n + 1 := ⟨fuel - 1, by omega⟩
    rw [getpkts, getpkt_unfinished hs, ← hcb]
    rfl
  | quit hp hact =>
    subst hps hh
    rw [length_append, length_frame] at hfuel
    obtain ⟨fuel, rfl⟩ : ∃ n, fuel = n + 2 := ⟨fuel - 2, by omega⟩
    rw [getpkts, getpkt_frame hp hcb, hear, hact]
    simp [getpkts, getpkt, packetEvents]
  | @next hist p s tail pkts c hp hact hrest ih =>
    subst hps hh
    rw [length_append, length_frame] at hfuel
    obtain ⟨fuel, rfl⟩ : ∃ n, fuel = n + 1 := ⟨fuel - 1, by omega⟩
    have hloop : getpkts recvcb fuel { st with heard := .packet p :: st.heard } s = _ :=
      ih hcb (by omega) rfl rfl
    rw [getpkts, getpkt_frame hp hcb, hear_keep hact]
    dsimp only
    rw [hloop]
    simp [packetEvents]

theorem leaves_or_ateof {fuel : ℕ} (hcb : st.cb = true) (hfuel : buf.length < fuel) :
    (∃ pkts tail c, Leaves recvcb st.pktsize st.heard buf pkts tail c) ∨
      (getpkts recvcb fuel st buf).1.ateof = true := by
  induction fuel generalizing st buf with
  | zero => omega
  | succ fuel ih =>
    have hcases : _ ∨ _ ∨ ∃ b rest, getpkt recvcb st buf = _ := getpkt_cases hcb buf
    rcases hcases with hshort | ⟨p, rest, hp, rfl⟩ | ⟨b, rest, hfail⟩
    · exact .inl ⟨[], buf, true, .short hshort⟩
    · rw [length_append, length_frame] at hfuel
      rw [getpkts, getpkt_frame hp hcb]
      rcases hact : recvcb (.packet p :: st.heard) with ⟨uninstall, close⟩
      cases close with
      | true => exact .inr (ateof_getpkts fuel (by simp [hear, hact, shut]) rest)
      | false =>
        cases uninstall with
        | true => exact .inl ⟨[p], rest, false, .quit hp hact⟩
        | false =>
          rw [hear_keep hact]
          have hloop : _ ∨
              (getpkts recvcb fuel { st with heard := .packet p :: st.heard } rest).1.ateof =
                true :=
            ih hcb (by omega)
          rcases hloop with ⟨pkts, tail, c, hrest⟩ | heof
          · exact .inl ⟨p :: pkts, tail, c, .next hp hact hrest⟩
          · exact .inr heof
    · refine .inr ?_
      rw [getpkts, hfail]
      cases b with
      | true => exact ateof_getpkts fuel (ateof_fail true) rest
      | false => exact ateof_fail true

theorem callgetpkt_of_leaves {tail : Bytes} {pkts : List Bytes} {c : Bool}
    (h : Leaves recvcb st.pktsize st.heard st.pktbuf pkts tail c) (hcb : st.cb = true)
    (heof : st.ateof = false) (hless : tail.length < st.pktsize) :
    callgetpkt recvcb st =
      some { st with heard := packetEvents pkts ++ st.heard, cb := c, pktbuf := tail } := by
  simp [callgetpkt, getpkts_of_leaves h hcb (Nat.lt_succ_self _), heof, hless]

/-- The process stops exactly if the cut leaves as much as a packet. -/
theorem callgetpkt_eq_none_iff (hcb : st.cb = true) (heof : st.ateof = false) :
    callgetpkt recvcb st = none ↔
      ∃ pkts tail c, Leaves recvcb st.pktsize st.heard st.pktbuf pkts tail c ∧
        st.pktsize ≤ tail.length := by
  have hfuel : st.pktbuf.length < st.pktbuf.length + 1 := Nat.lt_succ_self _
  constructor
  · intro hnone
    have hcut : _ ∨ (getpkts recvcb (st.pktbuf.length + 1) st st.pktbuf).1.ateof = true :=
      leaves_or_ateof hcb hfuel
    rcases hcut with ⟨pkts, tail, c, hleaves⟩ | hshut
    · refine ⟨pkts, tail, c, hleaves, ?_⟩
      simpa [callgetpkt, getpkts_of_leaves hleaves hcb hfuel, heof] using hnone
    · simp [callgetpkt, hshut] at hnone
  · rintro ⟨pkts, tail, c, hleaves, hlong⟩
    simpa [callgetpkt, getpkts_of_leaves hleaves hcb hfuel, heof] using hlong

end AxprtStream

/-- What happens to a transport that receives: its descriptor can be read, and the callback is
changed. -/
inductive StreamOp
  | read (r : ReadRes)
  | setrcb (c : Bool)
  deriving DecidableEq, Repr

namespace AxprtStream

variable (recvcb : Recvcb)

/-- One step of a receiver. The descriptor is watched as long as there is a callback; a process
that has stopped does nothing. -/
def step : Option AxprtStream → StreamOp → Option AxprtStream × Unit
  | none, _ => (none, ())
  | some st, .read r => (if st.cb then st.input recvcb r else some st, ())
  | some st, .setrcb c => (st.setrcb recvcb c, ())

def received (st : AxprtStream) : StreamOp → Option Bytes
  | .read (.bytes chunk) =>
      if st.cb = true ∧ st.ateof = false ∧ chunk.take (st.bufsize - st.pktbuf.length) ≠ [] then
        some (st.fill (chunk.take (st.bufsize - st.pktbuf.length)))
      else none
  | .setrcb true => if st.ateof = false ∧ st.pktbuf ≠ [] then some st.pktbuf else none
  | _ => none

/-- Whatever is left behind the packets of a step is shorter than the largest packet. -/
def LeavesLittle (st : AxprtStream) (op : StreamOp) : Prop :=
  ∀ s ∈ st.received op, ∀ pkts tail c, Leaves recvcb st.pktsize st.heard s pkts tail c →
    tail.length < st.pktsize

variable {recvcb} {st : AxprtStream}

theorem input_ne_none_iff (hcb : st.cb = true) (r : ReadRes) :
    st.input recvcb r ≠ none ↔ LeavesLittle recvcb st (.read r) := by
  unfold LeavesLittle
  cases r with
  | again => simp [input, received]
  | error => cases heof : st.ateof <;> simp [input, received, heof]
  | bytes chunk =>
    cases heof : st.ateof with
    | true => simp [input, received, heof]
    | false =>
      by_cases hchunk : chunk.take (st.bufsize - st.pktbuf.length) = []
      · simp [input, received, heof, hchunk]
      · have hiff : callgetpkt recvcb { st with
            bytesRecv := st.bytesRecv + (chunk.take (st.bufsize - st.pktbuf.length)).length,
            pktbuf := st.fill (chunk.take (st.bufsize - st.pktbuf.length)) } = none ↔ _ :=
          callgetpkt_eq_none_iff hcb heof
        rw [input, if_neg (by simp [heof])]
        rw [if_neg hchunk, ne_eq, hiff]
        simp only [received, hcb, heof, ne_eq, hchunk, not_false_eq_true, and_self, if_true,
          mem_def, some.injEq, forall_eq', not_exists, not_and, not_le]

theorem setrcb_ne_none_iff (c : Bool) :
    st.setrcb recvcb c ≠ none ↔ LeavesLittle recvcb st (.setrcb c) := by
  unfold LeavesLittle
  cases c with
  | false => cases heof : st.ateof <;> simp [setrcb, received]
  | true =>
    cases heof : st.ateof with
    | true => simp [setrcb, received, heof]
    | false =>
      by_cases hbuf : st.pktbuf = []
      · simp [setrcb, received, heof, hbuf]
      · have hiff : callgetpkt recvcb { st with cb := true } = none ↔ _ :=
          callgetpkt_eq_none_iff rfl heof
        rw [setrcb]
        rw [if_neg (by simp [heof]), if_pos ⟨rfl, hbuf⟩, ne_eq, hiff]
        simp only [received, heof, ne_eq, hbuf, not_false_eq_true, and_self, if_true,
          mem_def, some.injEq, forall_eq', not_exists, not_and, not_le]

theorem step_ne_none_iff (op : StreamOp) :
    (step recvcb (some st) op).1 ≠ none ↔ LeavesLittle recvcb st op := by
  cases op with
  | setrcb c => exact setrcb_ne_none_iff c
  | read r =>
    cases hcb : st.cb with
    | true =>
      rw [← input_ne_none_iff hcb]
      simp [step, hcb]
    | false =>
      have hnone : st.received (.read r) = none := by
        cases r <;> simp [received, hcb]
      simp [step, hcb, LeavesLittle, hnone]

variable (ops : List StreamOp) (past : List (StreamOp × Unit))

theorem take_none : ((Run.mk none past).take (step recvcb) ops).state = none := by
  induction ops generalizing past with
  | nil => rfl
  | cons op ops ih => exact ih _

theorem take_ne_none_iff :
    ((Run.mk (some st) past).take (step recvcb) ops).state ≠ none ↔
      Run.Guarded (step recvcb) (fun r op => ∀ st ∈ r.state, LeavesLittle recvcb st op)
        (Run.mk (some st) past) ops := by
  induction ops generalizing st past with
  | nil => simp [Run.Guarded]
  | cons op ops ih =>
    have hstep : (step recvcb (some st) op).1 ≠ none ↔ _ := step_ne_none_iff op
    rw [Run.take_cons, Run.Guarded, Run.next]
    cases hnext : (step recvcb (some st) op).1 with
    | none =>
      rw [hnext] at hstep
      simp only [take_none, mem_def, some.injEq, forall_eq', ← hstep, ne_eq,
        not_true_eq_false, false_and]
    | some st' =>
      rw [hnext] at hstep
      rw [ih]
      simp only [mem_def, some.injEq, forall_eq', ← hstep, ne_eq, reduceCtorEq,
        not_false_eq_true, true_and]

end AxprtStream

/-- A receiver with buffers of the default size survives what it reads exactly if every step
leaves less than the size of a packet. -/
theorem receiver_survives_iff (recvcb : Recvcb) (ps : ℕ) (ops : List StreamOp) :
    ((Run.start (some (new ps 0))).take (step recvcb) ops).state ≠ none ↔
      Run.Guarded (step recvcb)
        (fun r op => ∀ st ∈ r.state, AxprtStream.LeavesLittle recvcb st op)
        (Run.start (some (new ps 0))) ops :=
  take_ne_none_iff ops []

/-- A packet of the largest size of which the last byte has not arrived stops the process; so
does a callback that takes itself out at an empty packet before other bytes. -/
theorem largest_packet_stops_receiver :
    ((Run.start (some (new 8 0))).take (step fun _ => .keep)
        [.setrcb true, .read (.bytes (beBytes 4 0x80000008 ++ replicate 7 1))]).state = none ∧
      ((Run.start (some (new 8 0))).take (step fun _ => ⟨true, false⟩)
        [.setrcb true, .read (.bytes (beBytes 4 0x80000000 ++ replicate 8 1))]).state =
          none := by
  decide

namespace AxprtClone

variable (ps bufsize : ℕ) (bs : Bytes)

/-- Where the first packet of a stream ends. -/
def packetEnd : ℕ := 4 + beNat (bs.take 4) % 2 ^ 31

/-- What `axprt_clone::doread` may read when `n` bytes of the stream have arrived behind the
`pktlen` that are in the buffer. -/
def avail (pktlen n : ℕ) : ℕ := min n (min (bs.length - pktlen) (bufsize - pktlen))

def doread (pktlen n : ℕ) : ℕ :=
  if pktlen < 4 then avail bufsize bs pktlen n
  else min (avail bufsize bs pktlen n) (packetEnd bs - pktlen)

instance (s : Bytes) : Decidable (Unfinished ps s) := inferInstanceAs (Decidable (_ ∨ _))

/-- `input`, until the first packet is complete, and given away with the descriptor, or
refused. -/
def input (pktlen n : ℕ) : ℕ × Unit :=
  (if Unfinished ps (bs.take pktlen) then pktlen + doread bufsize bs pktlen n else pktlen, ())

theorem input_le_iff {pktlen : ℕ} (h : pktlen ≤ packetEnd bs) (n : ℕ) :
    (input ps bufsize bs pktlen n).1 ≤ packetEnd bs ↔
      (pktlen < 4 → avail bufsize bs pktlen n ≤ packetEnd bs - pktlen) := by
  unfold input doread
  by_cases hlen : pktlen < 4
  · have hshort : Unfinished ps (bs.take pktlen) := .inl (by simp; omega)
    simp only [hshort, hlen, if_true, forall_const]
    omega
  · simp only [hlen, if_false, false_imp_iff, iff_true]
    split
    · omega
    · exact h

/-- No byte behind the first packet is read exactly if, while the length of the packet is not
known, nothing behind it has arrived that fits the buffer. -/
theorem reads_first_packet_iff (ns : List ℕ) :
    Run.Guarded (input ps bufsize bs)
        (fun r n => r.state < 4 → avail bufsize bs r.state n ≤ packetEnd bs - r.state)
        (Run.start 0) ns ↔
      ∀ k, ((Run.start 0).take (input ps bufsize bs) (ns.take k)).state ≤ packetEnd bs :=
  Run.guarded_iff (Nat.zero_le _) fun _ n h => input_le_iff ps bufsize bs h n

/-- Two packets of a byte each arrive together, and are read together. -/
theorem second_packet_read :
    packetEnd (frames [[7], [8]]) = 5 ∧
      ((Run.start 0).take (input 64 68 (frames [[7], [8]])) [10]).state = 10 := by
  decide

end AxprtClone

end SelfCertifyingFS.Arpc
