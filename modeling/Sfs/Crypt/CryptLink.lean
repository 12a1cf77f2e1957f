import Sfs.Crypt.AxprtCrypt

/-!
# Two encrypting transports and the connection between them

Both ends send and receive. Each switches to encryption when it has sent and been given
the packets that both count as clear, with the keys of the other end the other way round.
The bytes under way in one direction are then the frames of the clear packets under way
and, behind them, the sealed packets, and the sender's stream stands where the receiver's
will stand when it has opened them.
-/

namespace SelfCertifyingFS.Crypt

open Foundations Arpc Rpc List Function AxprtStream Option AxprtCrypt
open Run (start)

namespace AxprtCrypt

variable {κ : Type} (env : CryptEnv κ)

section Sending

/-- What a transport sends with. -/
@[ext] structure Outgoing (κ : Type) where
  ateof : Bool
  pktsize : ℕ
  out : Bytes
  cryptsend : Bool
  ctxSend : κ

def outgoing (st : AxprtCrypt κ) : Outgoing κ :=
  ⟨st.ateof, st.pktsize, st.out, st.cryptsend, st.ctxSend⟩

/-- A packet as it goes out, in the clear or sealed. -/
def wire (crypt : Bool) (p : Bytes) (c : κ) : Bytes × κ :=
  if crypt then sealPkt env p c else (frame p, c)

variable {env} {st : AxprtCrypt κ}

theorem sendv_spec {iov : List Bytes} {ws : List WriteRes} (heof : st.ateof = false)
    (hp : Legal st.pktsize iov.flatten) (hws : .error ∉ ws) :
    ∃ out wcb n raw wrote, sendv env iov ws st = some ({ st with
        out := out, wcbset := wcb, bytesSent := n, rawBytesSent := raw,
        ctxSend := (wire env st.cryptsend iov.flatten st.ctxSend).2 }, wrote) ∧
      wrote ++ out = st.out ++ (wire env st.cryptsend iov.flatten st.ctxSend).1 := by
  have hlen : iov.flatten.length % 2 ^ 32 = iov.flatten.length :=
    Nat.mod_eq_of_lt (lt_trans hp.word (by norm_num))
  unfold sendv
  rw [if_neg (by simp [heof]), hlen]
  cases hcrypt : st.cryptsend with
  | false =>
    obtain ⟨out, wcb, wrote, heq, hall⟩ :
        ∃ out wcb wrote, st.toAxprtStream.sendv called iov ws = _ ∧ _ :=
      AxprtStream.sendv_spec heof hp hws
    rw [heq]
    exact ⟨out, wcb, _, _, wrote, rfl, hall⟩
  | true =>
    rw [if_neg (not_lt.mpr hp.size)]
    dsimp only
    by_cases hout : st.out = []
    · rw [if_pos hout]
      obtain ⟨out, wcb, wrote, heq, hall⟩ := output_eq called hws
        { st.toAxprtStream with
          out := st.out ++ (sealPkt env iov.flatten st.ctxSend).1
          rawBytesSent := st.rawBytesSent + (sealPkt env iov.flatten st.ctxSend).1.length }
      rw [heq]
      exact ⟨out, wcb, _, _, wrote, rfl, hall⟩
    · rw [if_neg hout]
      simp [wire]

end Sending

/-- The bytes of packets of which the first `k` are clear, and the stream behind them. -/
def underWay (k : ℕ) (pkts : List Bytes) (c : κ) : Bytes × κ :=
  (frames (pkts.take k) ++ (sealed env (pkts.drop k) c).1, (sealed env (pkts.drop k) c).2)

theorem underWay_zero (pkts : List Bytes) (c : κ) : underWay env 0 pkts c = sealed env pkts c := rfl

theorem underWay_nil (k : ℕ) (c : κ) : underWay env k [] c = ([], c) := by
  simp [underWay, sealed]

theorem underWay_clear_cons (k : ℕ) (p : Bytes) (pkts : List Bytes) (c : κ) :
    underWay env (k + 1) (p :: pkts) c =
      (frame p ++ (underWay env k pkts c).1, (underWay env k pkts c).2) := by
  simp [underWay]

variable {k : ℕ} {pkts : List Bytes}

theorem underWay_append_clear (h : pkts.length < k) (p : Bytes)
    (c : κ) : underWay env k (pkts ++ [p]) c = ((underWay env k pkts c).1 ++ frame p, c) := by
  rw [underWay, underWay, take_of_length_le (by simp; omega), drop_eq_nil_of_le (by simp; omega),
    take_of_length_le h.le, drop_eq_nil_of_le h.le]
  simp [sealed, frames_append]

theorem underWay_append_sealed (h : k ≤ pkts.length) (p : Bytes)
    (c : κ) :
    underWay env k (pkts ++ [p]) c =
      ((underWay env k pkts c).1 ++ (sealPkt env p (underWay env k pkts c).2).1,
        (sealPkt env p (underWay env k pkts c).2).2) := by
  rw [underWay, take_append_of_le_length h, drop_append_of_le_length h, sealed_append]
  simp [underWay, sealed]

def wireLength (clear : Bool) (p : Bytes) : ℕ :=
  if clear then 4 + p.length else 4 + (p.length + macsize)

/-- The bytes that are received and not yet cut into packets. -/
def held (st : AxprtCrypt κ) : Bytes := if st.ingetpkt then st.unread else st.pktbuf

/-- A first part of bytes that begin with a packet ends inside of it or holds all of it. -/
theorem short_or_whole {s rest pkt behind : Bytes} (h : s ++ rest = pkt ++ behind) :
    (∃ more, more ≠ [] ∧ s ++ more = pkt) ∨ ∃ u, s = pkt ++ u ∧ u ++ rest = behind := by
  rcases List.append_eq_append_iff.mp h with ⟨more, hpkt, hrest⟩ | ⟨u, hs, hrest⟩
  · by_cases hmore : more = []
    · subst hmore
      rw [append_nil] at hpkt
      exact .inr ⟨[], by rw [hpkt, append_nil], hrest⟩
    · exact .inl ⟨more, hmore, hpkt.symm⟩
  · exact .inr ⟨u, hs, hrest.symm⟩

/-- One direction of a connection, with `n` packets in the clear. The receiver has been handed
the packets `delivered`, and `todo` are under way; it looks for what is sealed from `c` on. -/
structure Flow (ps n : ℕ) (key : Bytes) (snd : Outgoing κ) (pipe : Bytes) (rcv : AxprtCrypt κ)
    (sent delivered todo : List Bytes) (c : κ) : Prop where
  sndOpen : snd.ateof = false
  rcvOpen : rcv.ateof = false
  rcvCb : rcv.cb = true
  sndSize : snd.pktsize = ps
  rcvSize : rcv.pktsize = ps
  rcvBuf : rcv.bufsize = ps + macsize + 4
  legal : ∀ p ∈ todo, Legal ps p
  split : sent = delivered ++ todo
  heard : rcv.heard = packetEvents delivered
  sndClear : snd.cryptsend = false →
    sent.length ≤ n ∧ snd.ctxSend = env.reset ∧ c = env.setkey key env.reset
  sndSealed : snd.cryptsend = true →
    n ≤ sent.length ∧ snd.ctxSend = (underWay env (n - delivered.length) todo c).2
  rcvClear : rcv.cryptrecv = false → delivered.length ≤ n ∧ rcv.macset = false ∧
    rcv.ctxRecv = env.reset ∧ c = env.setkey key env.reset
  rcvSealed : rcv.cryptrecv = true → n ≤ delivered.length ∧ InStep env rcv c
  bytes : rcv.held ++ (pipe ++ snd.out) = (underWay env (n - delivered.length) todo c).1
  short : rcv.ingetpkt = false → rcv.pktbuf.length < rcv.bufsize ∧
    ∀ p ∈ todo.head?, rcv.pktbuf.length < wireLength (delivered.length < n) p

namespace Flow

/-- What a turn of the loop may not find: bytes behind the clear packets before the receiver has
switched, and a packet that is not all there but as long as the largest. -/
structure TurnOk (ps n : ℕ) (rcv : AxprtCrypt κ) (delivered todo : List Bytes) : Prop where
  switched : rcv.cryptrecv = false → delivered.length = n → rcv.unread.length < 4
  little : (∀ p ∈ todo.head?, rcv.unread.length < wireLength (delivered.length < n) p) →
    rcv.unread.length < ps

/-- A turn of the loop leaves the packets flowing. -/
def Turns (env : CryptEnv κ) (ps n : ℕ) (key : Bytes) (snd : Outgoing κ) (pipe : Bytes)
    (rcv : AxprtCrypt κ) (sent : List Bytes) : Prop :=
  ∃ rcv' delivered todo c, rcv.turn env = some rcv' ∧ rcv'.outgoing = rcv.outgoing ∧
    Flow env ps n key snd pipe rcv' sent delivered todo c

variable {env} {ps n : ℕ} {key pipe : Bytes} {snd : Outgoing κ} {rcv : AxprtCrypt κ}
  {sent delivered todo : List Bytes} {c : κ}
  (h : Flow env ps n key snd pipe rcv sent delivered todo c)
include h

theorem length_sent : sent.length = delivered.length + todo.length := by
  rw [h.split, length_append]

theorem length_heard : rcv.heard.length = delivered.length := by
  simp [h.heard, packetEvents]

theorem send {p : Bytes} (hp : Legal ps p) (hpoint : snd.cryptsend = false → sent.length < n)
    {out wrote : Bytes}
    (hall : wrote ++ out = snd.out ++ (wire env snd.cryptsend p snd.ctxSend).1) :
    Flow env ps n key
      { snd with out := out, ctxSend := (wire env snd.cryptsend p snd.ctxSend).2 }
      (pipe ++ wrote) rcv (sent ++ [p]) delivered (todo ++ [p]) c := by
  have hlen := h.length_sent
  have hway : underWay env (n - delivered.length) (todo ++ [p]) c =
      ((underWay env (n - delivered.length) todo c).1 ++
        (wire env snd.cryptsend p snd.ctxSend).1,
        if snd.cryptsend then (wire env snd.cryptsend p snd.ctxSend).2 else c) := by
    cases hcrypt : snd.cryptsend with
    | false =>
      have hpoint := hpoint hcrypt
      rw [underWay_append_clear env (by omega)]
      rfl
    | true =>
      obtain ⟨hsent, hctx⟩ := h.sndSealed hcrypt
      rw [underWay_append_sealed env (by omega), hctx]
      rfl
  exact { h with
    legal := by simpa [or_imp, forall_and] using ⟨h.legal, hp⟩
    split := by rw [h.split, append_assoc]
    sndClear := by
      intro hcrypt
      have hpoint := hpoint hcrypt
      obtain ⟨-, hctx, hc⟩ := h.sndClear hcrypt
      refine ⟨?_, ?_, hc⟩
      · rw [length_append, length_singleton]
        omega
      · rw [hcrypt, wire, if_neg Bool.false_ne_true, hctx]
    sndSealed := by
      intro hcrypt
      obtain ⟨hsent, -⟩ := h.sndSealed hcrypt
      refine ⟨?_, ?_⟩
      · rw [length_append]
        omega
      · rw [hway, hcrypt]
        rfl
    bytes := by
      rw [hway]
      rw [append_assoc, hall, ← h.bytes, append_assoc, append_assoc]
    short := by
      intro hin
      obtain ⟨hroom, hshort⟩ := h.short hin
      refine ⟨hroom, ?_⟩
      cases todo with
      | cons q todo => exact hshort
      | nil =>
        -- nothing was under way, so nothing is held
        have hbytes := h.bytes
        rw [underWay_nil, held, if_neg (by simp [hin]), append_eq_nil_iff] at hbytes
        intro q hq
        rw [hbytes.1, wireLength]
        split <;> simp }

theorem flush {out wrote : Bytes} (hall : wrote ++ out = snd.out) :
    Flow env ps n key { snd with out := out } (pipe ++ wrote) rcv sent delivered todo c :=
  { h with bytes := by rw [append_assoc, hall, h.bytes] }

theorem encryptSnd (hclear : snd.cryptsend = false) (hpoint : sent.length = n) :
    Flow env ps n key { snd with cryptsend := true, ctxSend := env.setkey key snd.ctxSend } pipe
      rcv sent delivered todo c := by
  obtain ⟨-, hctx, hc⟩ := h.sndClear hclear
  have hlen := h.length_sent
  refine { h with sndClear := by simp, sndSealed := fun _ => ⟨hpoint.ge, ?_⟩ }
  rw [hctx, ← hc, underWay, drop_eq_nil_of_le (by omega)]
  rfl

/-- The receiver switches when it has been handed the last clear packet. -/
theorem encryptRcv (hclear : rcv.cryptrecv = false) (hpoint : delivered.length = n) (c' : κ) :
    Flow env ps n key snd pipe
      { rcv with
        ctxSend := c'
        cryptsend := true
        ctxRecv := env.setkey key rcv.ctxRecv
        cryptrecv := true }
      sent delivered todo c := by
  obtain ⟨-, hset, hctx, hc⟩ := h.rcvClear hclear
  refine { h with
    rcvClear := by simp
    rcvSealed := fun _ => ⟨hpoint.ge, .inl ⟨hset, ?_⟩⟩ }
  rw [hctx, hc]

theorem read (hin : rcv.ingetpkt = false) (m b : ℕ) :
    Flow env ps n key snd (pipe.drop m)
      { rcv with
        bytesRecv := b
        pktbuf := rcv.pktbuf ++ pipe.take m
        ingetpkt := true
        unread := rcv.pktbuf ++ pipe.take m }
      sent delivered todo c := by
  refine { h with bytes := ?_, short := by simp }
  rw [← h.bytes, held, held, if_pos rfl, if_neg (by simp [hin]), append_assoc,
    ← append_assoc (pipe.take m), take_append_drop]

theorem leave (hin : rcv.ingetpkt = true)
    (hshort : ∀ p ∈ todo.head?, rcv.unread.length < wireLength (delivered.length < n) p)
    (hlittle : rcv.unread.length < ps) :
    ∃ rcv', rcv.leave = some rcv' ∧ rcv'.outgoing = rcv.outgoing ∧
      Flow env ps n key snd pipe rcv' sent delivered todo c := by
  have hleave : rcv.leave = some { rcv with
      ingetpkt := false, pktbuf := rcv.unread, unread := [] } := by
    unfold AxprtCrypt.leave
    rw [if_neg (by simp [h.rcvOpen]), if_pos (h.rcvSize.symm ▸ hlittle)]
  refine ⟨_, hleave, rfl, { h with bytes := ?_, short := fun _ => ⟨?_, hshort⟩ }⟩
  · rw [← h.bytes, held, held, if_neg Bool.false_ne_true, if_pos hin]
  · rw [h.rcvBuf]
    dsimp only
    omega

theorem turn_eq (hin : rcv.ingetpkt = true) {more : Bool} {rcv' : AxprtCrypt κ}
    (hget : rcv.getpkt env = (more, rcv')) :
    rcv.turn env = if more then some rcv' else rcv'.leave := by
  rw [turn, if_neg (by simp [hin]), if_neg (by simp [h.rcvCb]), hget]
  cases more <;> rfl

theorem turnClear (hin : rcv.ingetpkt = true) (hclear : rcv.cryptrecv = false)
    (hok : TurnOk ps n rcv delivered todo) : Turns env ps n key snd pipe rcv sent := by
  have hstop : Unfinished rcv.pktsize rcv.unread →
      (∀ p ∈ todo.head?, rcv.unread.length < wireLength (delivered.length < n) p) →
      Turns env ps n key snd pipe rcv sent := by
    intro hunfinished hshort
    obtain ⟨rcv', hleave, hout, hflow⟩ := h.leave hin hshort (hok.little hshort)
    have hget : rcv.getpkt env = (false, rcv) := by
      rw [getpkt, if_pos hclear, getpkt_unfinished hunfinished]
    exact ⟨rcv', delivered, todo, c, (h.turn_eq hin hget).trans hleave, hout, hflow⟩
  obtain ⟨hle, hset, hctx, hc⟩ := h.rcvClear hclear
  have hbytes := h.bytes
  rw [held, if_pos hin] at hbytes
  rcases hle.eq_or_lt with hpoint | hpoint
  · have hfour := hok.switched hclear hpoint
    refine hstop (.inl hfour) ?_
    intro p _
    rw [wireLength]
    split <;> omega
  obtain ⟨k, hk⟩ : ∃ k, n - delivered.length = k + 1 := ⟨n - delivered.length - 1, by omega⟩
  rw [hk] at hbytes
  cases todo with
  | nil =>
    rw [underWay_nil, append_eq_nil_iff] at hbytes
    exact hstop (.inl (by simp [hbytes.1])) (by simp)
  | cons p todo =>
    have hp : Legal rcv.pktsize p := h.rcvSize.symm ▸ h.legal p mem_cons_self
    rw [underWay_clear_cons] at hbytes
    rcases short_or_whole hbytes with ⟨more, hmore, hframe⟩ | ⟨rest, hunread, hrest⟩
    · refine hstop (unfinished_of_append hp hframe hmore) ?_
      have hpos := length_pos_of_ne_nil hmore
      have hlen := congrArg List.length hframe
      rw [length_append, length_frame] at hlen
      simp only [List.head?_cons, mem_def, Option.some.injEq, forall_eq', wireLength, hpoint,
        decide_true, if_true]
      omega
    · have hget : rcv.getpkt env = (true, { rcv with
          heard := .packet p :: rcv.heard, unread := rest }) := by
        rw [getpkt, if_pos hclear, hunread, getpkt_frame hp h.rcvCb]
        rw [hear_keep rfl]
      have hk' : n - (delivered ++ [p]).length = k := by
        rw [length_append, length_singleton]
        omega
      refine ⟨_, delivered ++ [p], todo, c, h.turn_eq hin hget, rfl, { h with
        legal := fun q hq => h.legal q (mem_cons_of_mem _ hq)
        split := by rw [h.split, append_assoc]; rfl
        heard := by rw [packetEvents_append, ← h.heard]; rfl
        sndSealed := ?_
        rcvClear := fun _ => ⟨by rw [length_append, length_singleton]; omega, hset, hctx, hc⟩
        rcvSealed := fun hsealed => absurd (hclear.symm.trans hsealed) Bool.false_ne_true
        bytes := ?_
        short := fun hout => absurd (hin.symm.trans hout) Bool.false_ne_true.symm }⟩
      · intro hcrypt
        have hsealed := h.sndSealed hcrypt
        rw [hk] at hsealed
        rwa [hk']
      · rw [hk', held, if_pos hin]
        exact hrest

theorem drawn (hsealed : rcv.cryptrecv = true) :
    Flow env ps n key snd pipe (setmac env rcv) sent delivered todo c := by
  obtain ⟨hpoint, hstep⟩ := h.rcvSealed hsealed
  have hstep' := inStep_setmac hstep
  rw [setmac_eq hstep] at hstep' ⊢
  refine { h with
    rcvClear := fun hclear => absurd (hclear.symm.trans hsealed) Bool.false_ne_true
    rcvSealed := fun _ => ⟨hpoint, hstep'⟩ }

theorem turnSealed (hin : rcv.ingetpkt = true) (hsealed : rcv.cryptrecv = true)
    (hok : TurnOk ps n rcv delivered todo) : Turns env ps n key snd pipe rcv sent := by
  obtain ⟨hpoint, hstep⟩ := h.rcvSealed hsealed
  have hget : rcv.getpkt env = getsealed env (setmac env rcv) := by
    rw [getpkt, if_neg (by simp [hsealed])]
  have hdrawn := h.drawn hsealed
  have hset := setmac_eq hstep
  generalize hrcv' : setmac env rcv = rcv' at hdrawn hget hset
  have hunread : rcv'.unread = rcv.unread := by rw [hset]
  have hout : rcv'.outgoing = rcv.outgoing := by rw [hset]; rfl
  have hin' : rcv'.ingetpkt = true := by rw [hset]; exact hin
  have hstop : getsealed env rcv' = (false, rcv') →
      (∀ p ∈ todo.head?, rcv.unread.length < wireLength (delivered.length < n) p) →
      Turns env ps n key snd pipe rcv sent := by
    intro hfalse hshort
    obtain ⟨rcv'', hleave, hout', hflow⟩ :=
      hdrawn.leave hin' (hunread ▸ hshort) (hunread ▸ hok.little hshort)
    exact ⟨rcv'', delivered, todo, c, (h.turn_eq hin (hget.trans hfalse)).trans hleave,
      hout'.trans hout, hflow⟩
  have hbytes := h.bytes
  rw [held, if_pos hin, Nat.sub_eq_zero_of_le hpoint, underWay_zero] at hbytes
  cases todo with
  | nil =>
    rw [sealed, append_eq_nil_iff] at hbytes
    refine hstop ?_ (by simp)
    rw [getsealed, if_pos (.inr (by simp [hunread, hbytes.1]))]
  | cons p todo =>
    have hp : Legal rcv'.pktsize p := hdrawn.rcvSize.symm ▸ h.legal p mem_cons_self
    rw [sealed] at hbytes
    rcases short_or_whole hbytes with ⟨more, hmore, hpkt⟩ | ⟨rest, hwhole, hrest⟩
    · refine hstop (getsealed_short hp (by rw [hset]) (hunread.symm ▸ hpkt) hmore) ?_
      have hpos := length_pos_of_ne_nil hmore
      have hlen := congrArg List.length hpkt
      rw [length_append, length_sealPkt] at hlen
      simp only [List.head?_cons, mem_def, Option.some.injEq, forall_eq', wireLength,
        not_lt.mpr hpoint, decide_false, Bool.false_eq_true, if_false]
      omega
    · have hopen := getsealed_whole hp hdrawn.rcvCb
        (by rw [hset]; exact ⟨rfl, rfl, rfl, rfl⟩) (hunread.trans hwhole)
      have hzero : n - (delivered ++ [p]).length = 0 := by
        rw [length_append]
        omega
      refine ⟨_, delivered ++ [p], todo, (sealPkt env p c).2,
        h.turn_eq hin (hget.trans hopen), hout, { hdrawn with
          legal := fun q hq => h.legal q (mem_cons_of_mem _ hq)
          split := by rw [h.split, append_assoc]; rfl
          heard := by rw [packetEvents_append, ← hdrawn.heard]; rfl
          sndClear := ?_
          sndSealed := ?_
          rcvClear := ?_
          rcvSealed := fun _ => ⟨by omega, .inl ⟨rfl, rfl⟩⟩
          bytes := ?_
          short := fun hout => absurd (hin'.symm.trans hout) Bool.false_ne_true.symm }⟩
      · -- a sealed packet is under way, so the sender has switched
        intro hclear
        have hlen := h.length_sent
        have hsent := (h.sndClear hclear).1
        rw [length_cons] at hlen
        omega
      · intro hcrypt
        obtain ⟨hsent, hctx⟩ := h.sndSealed hcrypt
        rw [Nat.sub_eq_zero_of_le hpoint] at hctx
        rw [hzero]
        exact ⟨hsent, hctx⟩
      · intro hclear
        rw [hset] at hclear
        exact absurd (hclear.symm.trans hsealed) Bool.false_ne_true
      · rw [hzero, held, if_pos hin']
        exact hrest

theorem turn (hin : rcv.ingetpkt = true) (hok : TurnOk ps n rcv delivered todo) :
    Turns env ps n key snd pipe rcv sent := by
  cases hcrypt : rcv.cryptrecv with
  | false => exact h.turnClear hin hcrypt hok
  | true => exact h.turnSealed hin hcrypt hok

/-- When everything has been written, read and cut, no packet is under way. -/
theorem todo_eq_nil (hin : rcv.ingetpkt = false) (hpipe : pipe = []) (hout : snd.out = []) :
    todo = [] := by
  cases todo with
  | nil => rfl
  | cons p todo =>
    have hshort := (h.short hin).2 p rfl
    have hlen := congrArg List.length h.bytes
    rw [hpipe, hout, held, if_neg (by simp [hin]), append_nil, append_nil] at hlen
    rw [hlen, wireLength] at hshort
    by_cases hpoint : delivered.length < n
    · obtain ⟨k, hk⟩ : ∃ k, n - delivered.length = k + 1 := ⟨n - delivered.length - 1, by omega⟩
      rw [hk, underWay_clear_cons, length_append, length_frame, if_pos (by simp [hpoint])]
        at hshort
      omega
    · rw [Nat.sub_eq_zero_of_le (not_lt.mp hpoint), underWay_zero, sealed, length_append,
        length_sealPkt, if_neg (by simp [hpoint])] at hshort
      omega

end Flow

end AxprtCrypt

/-- The two ends of a connection. -/
inductive Side
  | left
  | right
  deriving DecidableEq, Repr

def Side.other : Side → Side
  | .left => .right
  | .right => .left

@[simp] theorem Side.other_other (s : Side) : s.other.other = s := by cases s <;> rfl

theorem Side.other_ne (s : Side) : s.other ≠ s := by cases s <;> decide

/-- A connection. The pipe of an end holds what the kernel has taken from it and not yet given
to the other one; an end is missing when its process has stopped. -/
structure CryptLink (κ : Type) where
  ends : Side → Option (AxprtCrypt κ)
  pipe : Side → Bytes

inductive CryptOp
  | send (s : Side) (iov : List Bytes) (ws : List WriteRes)
  | flush (s : Side) (ws : List WriteRes)
  | recv (s : Side) (n : ℕ)
  | turn (s : Side)
  | encrypt (s : Side) (svcnum : ℕ) (sendkey recvkey : Bytes)
  deriving DecidableEq, Repr

namespace CryptLink

variable {κ : Type} (env : CryptEnv κ)

/-- A new connection, with callbacks at both ends. -/
def new (ps : ℕ) : CryptLink κ where
  ends _ := some ((AxprtCrypt.new env ps).setrcb true)
  pipe _ := []

variable (l : CryptLink κ)

/-- What a `read` finds when at most `n` bytes of the other end's pipe have arrived. -/
def reads (s : Side) (n : ℕ) : ReadRes :=
  if (l.pipe s.other).take n = [] then .again else .bytes ((l.pipe s.other).take n)

/-- The end has a new state and has written some bytes. -/
def set (s : Side) (st : Option (AxprtCrypt κ)) (wrote : Bytes) :
    CryptLink κ where
  ends := update l.ends s st
  pipe := update l.pipe s (l.pipe s ++ wrote)

def step : CryptOp → CryptLink κ × Unit
  | .send s iov ws =>
      match l.ends s with
      | none => (l, ())
      | some st =>
          match st.sendv env iov ws with
          | none => (l.set s none [], ())
          | some (st, wrote) => (l.set s (some st) wrote, ())
  | .flush s ws =>
      match l.ends s with
      | none => (l, ())
      | some st =>
          if st.wcbset then
            let (st, wrote) := st.output ws
            (l.set s (some st) wrote, ())
          else (l, ())
  | .recv s n =>
      match l.ends s with
      | none => (l, ())
      | some st =>
          -- the descriptor is watched as long as there is a callback
          if st.ateof ∨ st.ingetpkt ∨ st.cb = false then (l, ())
          else
            let room := st.bufsize - st.pktbuf.length
            ({ ends := update l.ends s (some (st.input (l.reads s n)))
               pipe := update l.pipe s.other
                 ((l.pipe s.other).drop (min n room)) }, ())
  | .turn s =>
      match l.ends s with
      | none => (l, ())
      | some st => (l.set s (st.turn env) [], ())
  | .encrypt s svcnum sendkey recvkey =>
      match l.ends s with
      | none => (l, ())
      | some st => (l.set s (some (st.encrypt env svcnum sendkey recvkey)) [], ())

end CryptLink

/-- What the ends agree on: how many packets each sends in the clear, and the key of each. -/
structure Agreement where
  clear : Side → ℕ
  key : Side → Bytes

/-- The packet that an operation sends from one of the ends. -/
def CryptOp.packet (s : Side) : CryptOp → Option Bytes
  | .send t iov _ => if t = s then some iov.flatten else none
  | _ => none

section Runs

variable {κ : Type} (env : CryptEnv κ)

/-- The packets that an end has sent so far, oldest first. -/
def sentBy (s : Side) (r : Run (CryptLink κ) CryptOp Unit) : List Bytes :=
  (r.past.filterMap fun x => x.1.packet s).reverse

/-- No packet is larger than the transports allow, no system call fails, and each end switches
to encryption when it has sent and been given all the clear packets, before it sends the next
packet or looks at the length of the next. -/
def CryptOp.Agreed (ps : ℕ) (a : Agreement) (r : Run (CryptLink κ) CryptOp Unit) :
    CryptOp → Prop
  | .send s iov ws => iov.flatten.length ≤ ps ∧ .error ∉ ws ∧
      ∀ st ∈ r.state.ends s, st.cryptsend = false → (sentBy s r).length < a.clear s
  | .flush _ ws => .error ∉ ws
  | .recv _ _ => True
  | .turn s => ∀ st ∈ r.state.ends s, st.ingetpkt = true → st.cryptrecv = false →
      st.heard.length = a.clear s.other → st.unread.length < 4
  | .encrypt s svcnum sendkey recvkey => svcnum = 0 ∧ sendkey = a.key s ∧
      recvkey = a.key s.other ∧ (sentBy s r).length = a.clear s ∧
      ∀ st ∈ r.state.ends s, st.cryptsend = false ∧ st.cryptrecv = false ∧
        st.heard.length = a.clear s.other

/-- A packet of which only a part has been read is shorter than the largest one, its length word
and its code included. -/
def CryptOp.LeavesLittle (a : Agreement) (r : Run (CryptLink κ) CryptOp Unit) : CryptOp → Prop
  | .turn s => ∀ st ∈ r.state.ends s, st.ingetpkt = true →
      (∀ p ∈ (sentBy s.other r)[st.heard.length]?,
        st.unread.length < wireLength (st.heard.length < a.clear s.other) p) →
      st.unread.length < st.pktsize
  | _ => True

instance CryptOp.decidableAgreed (ps : ℕ) (a : Agreement) (r : Run (CryptLink κ) CryptOp Unit) :
    DecidablePred (CryptOp.Agreed ps a r)
  | .send _ _ _ => inferInstanceAs (Decidable (_ ∧ _ ∧ _))
  | .flush _ _ => inferInstanceAs (Decidable (_ ∉ _))
  | .recv _ _ => inferInstanceAs (Decidable True)
  | .turn s => inferInstanceAs (Decidable (∀ st ∈ r.state.ends s, _ → _ → _ → _))
  | .encrypt _ _ _ _ => inferInstanceAs (Decidable (_ ∧ _ ∧ _ ∧ _ ∧ _))

instance CryptOp.decidableLeavesLittle (a : Agreement) (r : Run (CryptLink κ) CryptOp Unit) :
    DecidablePred (CryptOp.LeavesLittle a r)
  | .turn s => inferInstanceAs (Decidable (∀ st ∈ r.state.ends s, _ → _ → _))
  | .send _ _ _ | .flush _ _ | .recv _ _ | .encrypt _ _ _ _ => inferInstanceAs (Decidable True)

/-- Both ends live, and the packets flow in both directions. -/
def Flows (ps : ℕ) (a : Agreement) (l : CryptLink κ) (sent : Side → List Bytes) : Prop :=
  ∃ st : Side → AxprtCrypt κ, (∀ s, l.ends s = some (st s)) ∧ ∀ s, ∃ delivered todo c,
    AxprtCrypt.Flow env ps (a.clear s) (a.key s) (st s).outgoing (l.pipe s) (st s.other) (sent s)
      delivered todo c

variable {env} {ps : ℕ} {a : Agreement}

theorem flows_new : Flows env ps a (CryptLink.new env ps) fun _ => [] := by
  refine ⟨fun _ => (AxprtCrypt.new env ps).setrcb true, fun _ => rfl, fun s => ⟨[], [], _, {
    sndOpen := rfl
    rcvOpen := rfl
    rcvCb := rfl
    sndSize := rfl
    rcvSize := rfl
    rcvBuf := rfl
    legal := by simp
    split := rfl
    heard := rfl
    sndClear := fun _ => ⟨Nat.zero_le _, rfl, rfl⟩
    sndSealed := fun h => absurd h Bool.false_ne_true
    rcvClear := fun _ => ⟨Nat.zero_le _, rfl, rfl, rfl⟩
    rcvSealed := fun h => absurd h Bool.false_ne_true
    bytes := (congrArg Prod.fst (AxprtCrypt.underWay_nil env _ _)).symm
    short := fun _ => ⟨by simp [AxprtCrypt.setrcb, AxprtCrypt.new, AxprtStream.new], by simp⟩ }⟩⟩

/-- One end has a new state: the direction in which it sends and the one in which it receives. -/
theorem flows_update {st : Side → AxprtCrypt κ} {s : Side} {st' : AxprtCrypt κ} {l : CryptLink κ}
    {sent : Side → List Bytes}
    (hends : l.ends = update (fun t => some (st t)) s (some st'))
    (hout : ∃ delivered todo c, AxprtCrypt.Flow env ps (a.clear s) (a.key s) st'.outgoing
      (l.pipe s) (st s.other) (sent s) delivered todo c)
    (hin : ∃ delivered todo c, AxprtCrypt.Flow env ps (a.clear s.other) (a.key s.other)
      (st s.other).outgoing (l.pipe s.other) st' (sent s.other) delivered todo c) :
    Flows env ps a l sent := by
  refine ⟨update st s st', fun t => ?_, fun t => ?_⟩
  · rw [hends]
    by_cases ht : t = s
    · subst ht
      rw [update_self, update_self]
    · rw [update_of_ne ht, update_of_ne ht]
  · by_cases ht : t = s
    · subst ht
      rw [update_self, update_of_ne t.other_ne]
      exact hout
    · obtain rfl : t = s.other := by revert ht; cases t <;> cases s <;> simp [Side.other]
      rw [update_of_ne ht, Side.other_other, update_self]
      exact hin

section Steps

variable {l : CryptLink κ} {sent : Side → List Bytes} {s : Side}

theorem flows_set {st : Side → AxprtCrypt κ} {st' : AxprtCrypt κ} {wrote : Bytes}
    (hends : ∀ t, l.ends t = some (st t))
    (hout : ∃ delivered todo c, AxprtCrypt.Flow env ps (a.clear s) (a.key s) st'.outgoing
      (l.pipe s ++ wrote) (st s.other) (sent s) delivered todo c)
    (hin : ∃ delivered todo c, AxprtCrypt.Flow env ps (a.clear s.other) (a.key s.other)
      (st s.other).outgoing (l.pipe s.other) st' (sent s.other) delivered todo c) :
    Flows env ps a (l.set s (some st') wrote) sent := by
  have hself : (l.set s (some st') wrote).pipe s = l.pipe s ++ wrote := update_self _ _ _
  have hother : (l.set s (some st') wrote).pipe s.other = l.pipe s.other :=
    update_of_ne s.other_ne _ _
  refine flows_update (by rw [CryptLink.set, funext hends]) ?_ ?_
  · rw [hself]
    exact hout
  · rw [hother]
    exact hin

theorem flows_send {iov : List Bytes} {ws : List WriteRes} (h : Flows env ps a l sent)
    (hp : Legal ps iov.flatten) (hws : .error ∉ ws)
    (hpoint : ∀ st ∈ l.ends s, st.cryptsend = false → (sent s).length < a.clear s) :
    Flows env ps a (l.step env (.send s iov ws)).1
      fun t => sent t ++ (CryptOp.packet t (.send s iov ws)).toList := by
  obtain ⟨st, hends, hflow⟩ := h
  obtain ⟨delivered, todo, c, hs⟩ := hflow s
  have hsize : (st s).pktsize = ps := hs.sndSize
  obtain ⟨out, wcb, n, raw, wrote, heq, hall⟩ :
      ∃ out wcb n raw wrote, (st s).sendv env iov ws = some (_, wrote) ∧ _ :=
    sendv_spec hs.sndOpen (hsize.symm ▸ hp) hws
  rw [CryptLink.step, hends]
  dsimp only
  rw [heq]
  refine flows_set hends ⟨delivered, todo ++ [iov.flatten], c, ?_⟩ ?_
  · rw [CryptOp.packet, if_pos rfl]
    exact hs.send hp (hpoint _ (hends s)) hall
  · obtain ⟨delivered, todo, c, ho⟩ := hflow s.other
    rw [Side.other_other] at ho
    rw [CryptOp.packet, if_neg s.other_ne.symm, toList_none, append_nil]
    -- what the end sends does not concern the packets that it receives
    exact ⟨delivered, todo, c, { ho with }⟩

theorem flows_flush {ws : List WriteRes} (h : Flows env ps a l sent) (hws : .error ∉ ws) :
    Flows env ps a (l.step env (.flush s ws)).1 sent := by
  obtain ⟨st, hends, hflow⟩ := h
  cases hwcb : (st s).wcbset with
  | false =>
    have hstep : (l.step env (.flush s ws)).1 = l := by simp [CryptLink.step, hends, hwcb]
    rw [hstep]
    exact ⟨st, hends, hflow⟩
  | true =>
    obtain ⟨out, wcb, wrote, heq, hall⟩ := output_eq called hws (st s).toAxprtStream
    have hstep : (l.step env (.flush s ws)).1 =
        l.set s (some { st s with out := out, wcbset := wcb }) wrote := by
      simp [CryptLink.step, hends, hwcb, AxprtCrypt.output, heq]
    rw [hstep]
    obtain ⟨delivered, todo, c, hs⟩ := hflow s
    obtain ⟨delivered', todo', c', ho⟩ := hflow s.other
    rw [Side.other_other] at ho
    exact flows_set hends ⟨delivered, todo, c, hs.flush hall⟩ ⟨delivered', todo', c', { ho with }⟩

theorem flows_encrypt {svcnum : ℕ} {sendkey recvkey : Bytes} (h : Flows env ps a l sent)
    (hsvc : svcnum = 0) (hsend : sendkey = a.key s) (hrecv : recvkey = a.key s.other)
    (hpoint : (sent s).length = a.clear s)
    (hst : ∀ st ∈ l.ends s, st.cryptsend = false ∧ st.cryptrecv = false ∧
      st.heard.length = a.clear s.other) :
    Flows env ps a (l.step env (.encrypt s svcnum sendkey recvkey)).1 sent := by
  obtain ⟨st, hends, hflow⟩ := h
  obtain ⟨hsnd, hrcv, hheard⟩ := hst _ (hends s)
  subst hsvc hsend hrecv
  rw [CryptLink.step, hends]
  obtain ⟨delivered, todo, c, hs⟩ := hflow s
  obtain ⟨delivered', todo', c', ho⟩ := hflow s.other
  rw [Side.other_other] at ho
  have hdelivered := ho.length_heard.symm.trans hheard
  refine flows_set hends ⟨delivered, todo, c, ?_⟩
    ⟨delivered', todo', c', ho.encryptRcv hrcv hdelivered _⟩
  rw [append_nil]
  exact hs.encryptSnd hsnd hpoint

theorem input_eq {st : AxprtCrypt κ} {chunk : Bytes} (heof : st.ateof = false)
    (hin : st.ingetpkt = false) (hword : st.bufsize < 2 ^ 32)
    (hroom : st.pktbuf.length < st.bufsize)
    (hchunk : chunk.take (st.bufsize - st.pktbuf.length) ≠ []) :
    st.input (.bytes chunk) = { st with
      bytesRecv := st.bytesRecv + (chunk.take (st.bufsize - st.pktbuf.length)).length
      pktbuf := st.pktbuf ++ chunk.take (st.bufsize - st.pktbuf.length)
      ingetpkt := true
      unread := st.pktbuf ++ chunk.take (st.bufsize - st.pktbuf.length) } := by
  generalize hgot : chunk.take (st.bufsize - st.pktbuf.length) = got at hchunk
  have hfill : st.toAxprtStream.fill got = st.pktbuf ++ got := by
    have hle : got.length ≤ st.bufsize - st.pktbuf.length := by
      rw [← hgot]
      exact length_take_le _ _
    rw [AxprtStream.fill, Nat.mod_eq_of_lt (by omega), ← length_append, take_length]
  rw [AxprtCrypt.input, if_neg (by simp [heof, hin])]
  rw [hgot, if_neg hchunk, hfill, AxprtCrypt.callgetpkt, if_neg (by simp [hin])]

theorem flows_recv (h : Flows env ps a l sent) (hword : ps + 20 < 2 ^ 32) (m : ℕ) :
    Flows env ps a (l.step env (.recv s m)).1 sent := by
  obtain ⟨st, hends, hflow⟩ := h
  obtain ⟨delivered, todo, c, hs⟩ := hflow s
  obtain ⟨delivered', todo', c', ho⟩ := hflow s.other
  rw [Side.other_other] at ho
  rw [CryptLink.step, hends]
  dsimp only
  by_cases hskip : (st s).ateof = true ∨ (st s).ingetpkt = true ∨ (st s).cb = false
  · rw [if_pos hskip]
    exact ⟨st, hends, hflow⟩
  rw [if_neg hskip]
  have hin : (st s).ingetpkt = false := by simpa using fun hin => hskip (.inr (.inl hin))
  have hroom := (ho.short hin).1
  have hbuf : (st s).bufsize = ps + 20 := ho.rcvBuf
  have hself : ∀ bs, update l.pipe s.other bs s.other = bs := fun bs => update_self _ _ _
  have hpipe : ∀ bs, update l.pipe s.other bs s = l.pipe s :=
    fun bs => update_of_ne s.other_ne.symm _ _
  set room := (st s).bufsize - (st s).pktbuf.length
  by_cases hnil : (l.pipe s.other).take m = []
  · -- nothing has arrived
    have hdrop : (l.pipe s.other).drop (min m room) = l.pipe s.other := by
      rcases take_eq_nil_iff.mp hnil with rfl | hempty
      · rw [Nat.zero_min, drop_zero]
      · rw [hempty, drop_nil]
    have hread : (st s).input (l.reads s m) = st s := by
      rw [CryptLink.reads, if_pos hnil, AxprtCrypt.input, ite_self]
    refine flows_update (congrArg (update · s _) (funext hends)) ?_ ?_
    · dsimp only
      rw [hread, hpipe]
      exact ⟨delivered, todo, c, hs⟩
    · dsimp only
      rw [hread, hself, hdrop]
      exact ⟨delivered', todo', c', ho⟩
  · have hgot : ((l.pipe s.other).take m).take room = (l.pipe s.other).take (min m room) := by
      rw [take_take, min_comm]
    have hchunk : ((l.pipe s.other).take m).take room ≠ [] := by
      rw [Ne, take_eq_nil_iff, not_or]
      exact ⟨by omega, hnil⟩
    have hreads : l.reads s m = .bytes ((l.pipe s.other).take m) := if_neg hnil
    have hread := input_eq ho.rcvOpen hin (by omega) hroom hchunk
    rw [hgot, ← hreads] at hread
    refine flows_update (congrArg (update · s _) (funext hends)) ?_ ?_
    · dsimp only
      rw [hread, hpipe]
      exact ⟨delivered, todo, c, hs⟩
    · dsimp only
      rw [hread, hself]
      exact ⟨delivered', todo', c', ho.read hin _ _⟩

theorem flows_turn (h : Flows env ps a l sent)
    (hswitched : ∀ st ∈ l.ends s, st.ingetpkt = true → st.cryptrecv = false →
      st.heard.length = a.clear s.other → st.unread.length < 4)
    (hlittle : ∀ st ∈ l.ends s, st.ingetpkt = true →
      (∀ p ∈ (sent s.other)[st.heard.length]?,
        st.unread.length < wireLength (st.heard.length < a.clear s.other) p) →
      st.unread.length < st.pktsize) : Flows env ps a (l.step env (.turn s)).1 sent := by
  obtain ⟨st, hends, hflow⟩ := h
  obtain ⟨delivered, todo, c, hs⟩ := hflow s
  obtain ⟨delivered', todo', c', ho⟩ := hflow s.other
  rw [Side.other_other] at ho
  have hheard := ho.length_heard
  rw [CryptLink.step, hends]
  cases hin : (st s).ingetpkt with
  | false =>
    have hturn : (st s).turn env = some (st s) := by rw [turn, if_pos hin]
    dsimp only
    rw [hturn]
    refine flows_set hends ⟨delivered, todo, c, ?_⟩ ⟨delivered', todo', c', ho⟩
    rw [append_nil]
    exact hs
  | true =>
    have hhead : (sent s.other)[(st s).heard.length]? = todo'.head? := by
      rw [ho.split, hheard, List.getElem?_append_right le_rfl, Nat.sub_self, List.head?_eq_getElem?]
    have hok : AxprtCrypt.Flow.TurnOk ps (a.clear s.other) (st s) delivered' todo' := by
      have hlittle := hlittle _ (hends s) hin
      rw [hhead, hheard, ho.rcvSize] at hlittle
      have hswitched := hswitched _ (hends s) hin
      rw [hheard] at hswitched
      exact ⟨hswitched, hlittle⟩
    obtain ⟨rcv', delivered'', todo'', c'', hturn, hout, hnew⟩ := ho.turn hin hok
    dsimp only
    rw [hturn]
    refine flows_set hends ⟨delivered, todo, c, ?_⟩ ⟨delivered'', todo'', c'', hnew⟩
    rw [append_nil, hout]
    exact hs

end Steps

theorem sentBy_next (r : Run (CryptLink κ) CryptOp Unit) (op : CryptOp) (s : Side) :
    sentBy s (r.next (CryptLink.step env) op) = sentBy s r ++ (op.packet s).toList := by
  cases hop : op.packet s <;> simp [sentBy, Run.next, hop]

theorem flows_next (hps : ps + 20 < 2 ^ 31) (r : Run (CryptLink κ) CryptOp Unit) (op : CryptOp)
    (h : Flows env ps a r.state fun s => sentBy s r)
    (hop : op.Agreed ps a r ∧ op.LeavesLittle a r) :
    Flows env ps a (r.next (CryptLink.step env) op).state
      fun s => sentBy s (r.next (CryptLink.step env) op) := by
  obtain ⟨hagreed, hlittle⟩ := hop
  simp only [sentBy_next]
  cases op with
  | send s iov ws =>
    obtain ⟨hsize, hws, hpoint⟩ := hagreed
    exact flows_send h ⟨hsize, by omega⟩ hws hpoint
  | flush s ws =>
    simp only [CryptOp.packet, toList_none, append_nil]
    exact flows_flush h hagreed
  | recv s n =>
    simp only [CryptOp.packet, toList_none, append_nil]
    exact flows_recv h (by omega) n
  | turn s =>
    simp only [CryptOp.packet, toList_none, append_nil]
    exact flows_turn h hagreed hlittle
  | encrypt s svcnum sendkey recvkey =>
    obtain ⟨hsvc, hsend, hrecv, hpoint, hst⟩ := hagreed
    simp only [CryptOp.packet, toList_none, append_nil]
    exact flows_encrypt h hsvc hsend hrecv hpoint hst

/-- The receiver's stream stands before the packets under way, and the sender's stands where
sealing them leads from there; the keys and the pad that the receiver may have drawn are those
of the next packet. -/
def LockStep (env : CryptEnv κ) (snd rcv : AxprtCrypt κ) (todo : List Bytes) : Prop :=
  ∃ c, AxprtCrypt.InStep env rcv c ∧ snd.ctxSend = (sealed env todo c).2

/-- The callback of each end is given the packets that the other one has sent, in their order;
and all of them, once all has been written, read and cut. When both ends have switched, their
streams are in lock step. -/
theorem crypt_link_delivers (env : CryptEnv κ) (ps : ℕ) (a : Agreement) (ops : List CryptOp)
    (hps : ps + 20 < 2 ^ 31)
    (h : Run.Guarded (CryptLink.step env) (fun r op => op.Agreed ps a r ∧ op.LeavesLittle a r)
      (start (CryptLink.new env ps)) ops) (s : Side) :
    ∃ snd rcv delivered todo,
      ((start (CryptLink.new env ps)).take (CryptLink.step env) ops).state.ends s = some snd ∧
      ((start (CryptLink.new env ps)).take (CryptLink.step env) ops).state.ends s.other =
        some rcv ∧
      snd.ateof = false ∧ rcv.ateof = false ∧
      sentBy s ((start (CryptLink.new env ps)).take (CryptLink.step env) ops) =
        delivered ++ todo ∧
      rcv.heard = packetEvents delivered ∧
      (snd.cryptsend = true → rcv.cryptrecv = true → LockStep env snd rcv todo) ∧
      (((start (CryptLink.new env ps)).take (CryptLink.step env) ops).state.pipe s = [] →
        snd.out = [] → rcv.ingetpkt = false → todo = []) := by
  obtain ⟨st, hends, hflow⟩ : Flows env ps a _ fun s => sentBy s _ :=
    Run.invariant_take flows_new (flows_next hps) h
  obtain ⟨delivered, todo, c, hs⟩ := hflow s
  refine ⟨st s, st s.other, delivered, todo, hends s, hends s.other, hs.sndOpen, hs.rcvOpen,
    hs.split, hs.heard, ?_, fun hpipe hout hin => hs.todo_eq_nil hin hpipe hout⟩
  intro hsnd hrcv
  obtain ⟨hpoint, hstep⟩ := hs.rcvSealed hrcv
  have hctx := (hs.sndSealed hsnd).2
  rw [Nat.sub_eq_zero_of_le hpoint] at hctx
  exact ⟨c, hstep, hctx⟩

end Runs

/-- A generator that counts, and the beginning of a text for its hash. -/
def countingCipher : CryptEnv ℕ where
  getbyte c := (.ofNat (7 * c + 3), c + 1)
  reset := 0
  setkey key _ := beNat key
  sha1 bs := ⟨(bs ++ List.replicate 20 0).take 20, by simp⟩

/-- One packet in the clear from the left, then keys `1` and `2`. -/
def oneClear : Agreement where
  clear s := if s = .left then 1 else 0
  key s := if s = .left then [1] else [2]

/-- The right end switches in the callback of the clear packet, between two turns, and goes on
with a part of the sealed one. -/
def switchRun : List CryptOp :=
  [.send .left [[1, 2]] [.bytes 6], .encrypt .left 0 [1] [2], .send .left [[3], [4]] [.bytes 9],
    .recv .right 11, .turn .right, .encrypt .right 0 [2] [1], .turn .right,
    .flush .left [.bytes 99], .recv .right 99, .turn .right, .turn .right]

/-- Both packets arrive. -/
theorem crypt_link_delivers_switch :
    ∃ rcv, ((start (CryptLink.new countingCipher 40)).take (CryptLink.step countingCipher)
        switchRun).state.ends .right = some rcv ∧
      rcv.heard = packetEvents [[1, 2], [3, 4]] := by
  obtain ⟨snd, rcv, delivered, todo, hsnd, hrcv, -, -, hsent, hheard, -, hall⟩ :=
    crypt_link_delivers countingCipher 40 oneClear switchRun (by decide)
      (by refine ⟨?_, ?_, ?_, ?_, ?_, ?_, ?_, ?_, ?_, ?_, ?_, trivial⟩ <;> decide +kernel) .left
  have hout : ∀ st ∈ ((start (CryptLink.new countingCipher 40)).take
      (CryptLink.step countingCipher) switchRun).state.ends .left, st.out = [] := by
    decide +kernel
  have hin : ∀ st ∈ ((start (CryptLink.new countingCipher 40)).take
      (CryptLink.step countingCipher) switchRun).state.ends .right, st.ingetpkt = false := by
    decide +kernel
  have htodo := hall (by decide +kernel) (hout snd hsnd) (hin rcv hrcv)
  rw [htodo, append_nil] at hsent
  refine ⟨rcv, hrcv, ?_⟩
  rw [hheard, ← hsent]
  rfl

/-- A sealed packet of which all but one byte has been read stops the receiver. -/
theorem sealed_packet_lost :
    Run.Guarded (CryptLink.step countingCipher)
        (fun r op => op.Agreed 8 ⟨fun _ => 0, oneClear.key⟩ r)
        (start (CryptLink.new countingCipher 8))
        [.encrypt .left 0 [1] [2], .encrypt .right 0 [2] [1], .send .left [[1]] [.bytes 21],
          .recv .right 20, .turn .right] ∧
      ((start (CryptLink.new countingCipher 8)).take (CryptLink.step countingCipher)
        [.encrypt .left 0 [1] [2], .encrypt .right 0 [2] [1], .send .left [[1]] [.bytes 21],
          .recv .right 20, .turn .right]).state.ends .right = none := by
  refine ⟨⟨?_, ?_, ?_, ?_, ?_, trivial⟩, ?_⟩ <;> decide +kernel

end SelfCertifyingFS.Crypt
