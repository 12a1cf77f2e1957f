import Sfs.Arpc.StreamFraming

/-!
# Two stream transports and the connection between them

One transport sends packets, and the bytes are written and read in pieces of any
size. Those under way, in the receiver's buffer, in the kernel and in the
sender's queue, are always the frames of the packets sent and not yet handed to
the receiver's callback.
-/

namespace SelfCertifyingFS.Arpc

open Foundations List AxprtStream

namespace AxprtStream

variable {scb : Recvcb} {st : AxprtStream} {ws : List WriteRes}

theorem suioOutput_spec (hws : .error ∉ ws) (wrote out : Bytes) :
    ∃ wrote' out' ws', suioOutput wrote out ws = (wrote', out', false, ws') ∧
      wrote' ++ out' = wrote ++ out ∧ .error ∉ ws' := by
  induction ws generalizing wrote out with
  | nil => cases out <;> exact ⟨_, _, _, rfl, rfl, hws⟩
  | cons w ws ih =>
    rw [mem_cons, not_or] at hws
    obtain ⟨hw, hws⟩ := hws
    cases out with
    | nil => exact ⟨wrote, [], w :: ws, rfl, rfl, by simp [hw, hws]⟩
    | cons b out =>
      cases w with
      | again => exact ⟨wrote, b :: out, ws, rfl, rfl, hws⟩
      | error => exact absurd rfl hw
      | bytes n =>
        by_cases hn : n = 0
        · exact ⟨wrote, b :: out, ws, by simp [suioOutput, hn], rfl, hws⟩
        · obtain ⟨wrote', out', ws', heq, hall, hws'⟩ :=
            ih hws (wrote ++ (b :: out).take n) ((b :: out).drop n)
          refine ⟨wrote', out', ws', by simp [suioOutput, hn, heq], ?_, hws'⟩
          rw [hall, append_assoc, take_append_drop]

theorem settle_eq (st : AxprtStream) : ∃ wcb, st.settle = { st with wcbset := wcb } := by
  unfold settle
  split
  · exact ⟨true, rfl⟩
  · exact ⟨false, rfl⟩

theorem outputLoop_eq (scb : Recvcb) (hws : .error ∉ ws) (fuel : ℕ) (st : AxprtStream) :
    ∃ out wcb wrote,
      outputLoop scb fuel st ws = ({ st with out := out, wcbset := wcb }, wrote) ∧
        wrote ++ out = st.out := by
  induction fuel generalizing ws st with
  | zero =>
    obtain ⟨wcb, hwcb⟩ := settle_eq st
    exact ⟨st.out, wcb, [], congrArg (·, []) hwcb, rfl⟩
  | succ fuel ih =>
    obtain ⟨wrote, out, ws', heq, hall, hws'⟩ := suioOutput_spec hws [] st.out
    rw [nil_append] at hall
    rw [outputLoop, heq]
    dsimp only
    by_cases hnil : wrote = []
    · obtain ⟨wcb, hwcb⟩ := settle_eq { st with out := out }
      rw [if_pos hnil]
      exact ⟨out, wcb, [], congrArg (·, []) hwcb, hnil ▸ hall⟩
    · obtain ⟨out', wcb, more, hloop, hmore⟩ := ih hws' { st with out := out }
      rw [if_neg hnil, hloop]
      refine ⟨out', wcb, wrote ++ more, rfl, ?_⟩
      rw [append_assoc, hmore, hall]

theorem output_eq (scb : Recvcb) (hws : .error ∉ ws) (st : AxprtStream) :
    ∃ out wcb wrote, output scb ws st = ({ st with out := out, wcbset := wcb }, wrote) ∧
      wrote ++ out = st.out :=
  outputLoop_eq scb hws _ st

/-- `sendv` puts the packet behind all that was queued, on whichever path it takes. The packet is
counted in full, however much of it the kernel takes. -/
theorem sendv_spec {iov : List Bytes} (heof : st.ateof = false) (hp : Legal st.pktsize iov.flatten)
    (hws : .error ∉ ws) :
    ∃ out wcb wrote, sendv scb iov ws st = some ({ st with
        bytesSent := st.bytesSent + iov.flatten.length
        rawBytesSent := st.rawBytesSent + iov.flatten.length + 4
        out := out
        wcbset := wcb }, wrote) ∧ wrote ++ out = st.out ++ frame iov.flatten := by
  have hlen : iov.flatten.length % 2 ^ 32 = iov.flatten.length :=
    Nat.mod_eq_of_lt (lt_trans hp.word (by norm_num))
  unfold sendv
  dsimp only
  rw [hlen, if_neg (by simp [heof]), if_neg (not_lt.mpr hp.size), ← frame]
  generalize st.bytesSent + iov.flatten.length = n, st.rawBytesSent + _ + 4 = raw
  have hout : ∀ {ws : List WriteRes}, .error ∉ ws → ∀ queued, ∃ out wcb wrote,
      some (output scb ws { st with bytesSent := n, rawBytesSent := raw, out := queued }) =
        some ({ st with bytesSent := n, rawBytesSent := raw, out := out, wcbset := wcb }, wrote) ∧
      wrote ++ out = queued := by
    intro ws hws queued
    obtain ⟨out, wcb, wrote, heq, hall⟩ := output_eq scb hws _
    exact ⟨out, wcb, wrote, congrArg some heq, hall⟩
  split
  · rename_i hfast
    rw [hfast.1, nil_append]
    cases ws with
    | nil => exact hout hws _
    | cons w ws =>
      rw [mem_cons, not_or] at hws
      obtain ⟨hw, hws⟩ := hws
      cases w with
      | error => exact absurd rfl hw
      | again => exact hout hws _
      | bytes k =>
        obtain ⟨out, wcb, wrote, heq, hall⟩ := hout hws ((frame iov.flatten).drop k)
        dsimp only
        rw [Option.some.inj heq]
        refine ⟨out, wcb, _, rfl, ?_⟩
        rw [append_assoc, hall, take_append_drop]
  · exact hout hws _

end AxprtStream

/-- The callback of a receiver that takes all it is given. -/
def takesAll : Recvcb := fun _ => .keep

theorem unfinished_of_append {ps : ℕ} {p s rest : Bytes} (hp : Legal ps p)
    (hs : s ++ rest = frame p) (hrest : rest ≠ []) : Unfinished ps s := by
  have hlen : s.length < 4 + p.length := by
    have hpos := length_pos_of_ne_nil hrest
    rw [← length_frame, ← hs, length_append]
    omega
  by_cases hfour : s.length < 4
  · exact .inl hfour
  · refine .inr ?_
    have hword : s.take 4 = lenWord p.length := by
      rw [← take_frame_append p [], append_nil, ← hs, take_append_of_le_length (by omega)]
    have hsize := hp.size
    rw [hword, beNat_lenWord hp.word]
    omega

/-- Any first part of a sequence of frames is whole packets and an unfinished one. -/
theorem exists_leaves_of_frames {ps : ℕ} {todo : List Bytes} {s rest : Bytes}
    (hlegal : ∀ p ∈ todo, Legal ps p) (hs : s ++ rest = frames todo) (hist : List RecvEvent) :
    ∃ pkts todo' tail, todo = pkts ++ todo' ∧ Leaves takesAll ps hist s pkts tail true ∧
      tail ++ rest = frames todo' ∧ Unfinished ps tail := by
  induction todo generalizing s hist with
  | nil =>
    rw [frames_nil, append_eq_nil_iff] at hs
    obtain ⟨rfl, rfl⟩ := hs
    have hnil : Unfinished ps [] := .inl (by simp)
    exact ⟨[], [], [], rfl, .short hnil, rfl, hnil⟩
  | cons p todo ih =>
    rw [forall_mem_cons] at hlegal
    obtain ⟨hp, hlegal⟩ := hlegal
    rw [frames_cons] at hs
    have hwhole : ∀ s', s' ++ rest = frames todo → ∃ pkts todo' tail,
        p :: todo = pkts ++ todo' ∧ Leaves takesAll ps hist (frame p ++ s') pkts tail true ∧
          tail ++ rest = frames todo' ∧ Unfinished ps tail := by
      intro s' hs'
      obtain ⟨pkts, todo', tail, rfl, hleaves, htail, hshort⟩ := ih hlegal hs' (.packet p :: hist)
      exact ⟨p :: pkts, todo', tail, rfl, .next hp rfl hleaves, htail, hshort⟩
    rcases List.append_eq_append_iff.mp hs with ⟨more, hframe, hrest⟩ | ⟨s', rfl, hrest⟩
    · by_cases hmore : more = []
      · subst hmore
        rw [append_nil] at hframe
        have hnone := hwhole [] hrest
        rwa [append_nil, hframe] at hnone
      · have hshort := unfinished_of_append hp hframe.symm hmore
        refine ⟨[], p :: todo, s, rfl, .short hshort, ?_, hshort⟩
        rw [frames_cons, hs]
    · exact hwhole s' hrest.symm

namespace AxprtStream

variable {st : AxprtStream}

/-- A read that leaves little hands over the packets that it completes. -/
theorem input_of_frames {todo : List Bytes} {chunk rest : Bytes}
    (hlegal : ∀ p ∈ todo, Legal st.pktsize p) (heof : st.ateof = false) (hcb : st.cb = true)
    (hword : st.bufsize < 2 ^ 32) (hroom : st.pktbuf.length ≤ st.bufsize)
    (hchunk : chunk.take (st.bufsize - st.pktbuf.length) ≠ [])
    (hs : st.pktbuf ++ chunk.take (st.bufsize - st.pktbuf.length) ++ rest = frames todo)
    (hlittle : LeavesLittle takesAll st (.read (.bytes chunk))) :
    ∃ pkts todo' tail, todo = pkts ++ todo' ∧ tail ++ rest = frames todo' ∧
      Unfinished st.pktsize tail ∧
      st.input takesAll (.bytes chunk) = some { st with
        bytesRecv := st.bytesRecv + (chunk.take (st.bufsize - st.pktbuf.length)).length
        pktbuf := tail
        heard := packetEvents pkts ++ st.heard } := by
  obtain ⟨pkts, todo', tail, htodo, hleaves, htail, hshort⟩ :=
    exists_leaves_of_frames hlegal hs st.heard
  refine ⟨pkts, todo', tail, htodo, htail, hshort, ?_⟩
  generalize hgot : chunk.take (st.bufsize - st.pktbuf.length) = got at *
  have hfill : st.fill got = st.pktbuf ++ got := by
    have hle : got.length ≤ st.bufsize - st.pktbuf.length := by
      rw [← hgot]
      exact length_take_le _ _
    rw [fill, Nat.mod_eq_of_lt (by omega), ← length_append, take_length]
  have hrecv : st.received (.read (.bytes chunk)) = some (st.pktbuf ++ got) := by
    simp [received, hcb, heof, hgot, hchunk, hfill]
  have hless : tail.length < st.pktsize := hlittle _ hrecv pkts tail true hleaves
  have hcut : callgetpkt takesAll
      { st with bytesRecv := st.bytesRecv + got.length, pktbuf := st.pktbuf ++ got } = _ :=
    callgetpkt_of_leaves hleaves hcb heof hless
  rw [input, if_neg (by simp [heof])]
  rw [hgot, if_neg hchunk, hfill, hcut, ← hcb]

end AxprtStream

/-- A connection. The pipe holds what the kernel has taken from the sender and not yet given to
the receiver; an end is missing when its process has stopped. -/
structure Link where
  snd : Option AxprtStream
  pipe : Bytes
  rcv : Option AxprtStream

inductive LinkOp
  | send (iov : List Bytes) (ws : List WriteRes)
  | flush (ws : List WriteRes)
  | recv (n : ℕ)
  deriving DecidableEq, Repr

namespace Link

/-- A new connection, with a receiver that has its callback. -/
def new (ps bs : ℕ) : Link where
  snd := some (.new ps 0)
  pipe := []
  rcv := (AxprtStream.new ps bs).setrcb takesAll true

/-- What a `read` finds when at most `n` bytes of the pipe have arrived. -/
def reads (l : Link) (n : ℕ) : ReadRes :=
  if l.pipe.take n = [] then .again else .bytes (l.pipe.take n)

variable (scb : Recvcb)

def step (l : Link) : LinkOp → Link × Unit
  | .send iov ws =>
      match l.snd with
      | none => (l, ())
      | some st =>
          match st.sendv scb iov ws with
          | none => ({ l with snd := none }, ())
          | some (st, wrote) => ({ l with snd := some st, pipe := l.pipe ++ wrote }, ())
  | .flush ws =>
      match l.snd with
      | none => (l, ())
      | some st =>
          if st.wcbset then
            let (st, wrote) := st.output scb ws
            ({ l with snd := some st, pipe := l.pipe ++ wrote }, ())
          else (l, ())
  | .recv n =>
      match l.rcv with
      | none => (l, ())
      | some st =>
          if st.ateof then (l, ())
          else
            ({ l with
              rcv := st.input takesAll (l.reads n)
              pipe := l.pipe.drop (min n (st.bufsize - st.pktbuf.length)) }, ())

end Link

/-- No packet is larger than the transports allow, and no system call fails. -/
def LinkOp.Clean (ps : ℕ) : LinkOp → Prop
  | .send iov ws => iov.flatten.length ≤ ps ∧ .error ∉ ws
  | .flush ws => .error ∉ ws
  | .recv _ => True

instance LinkOp.decidableClean (ps : ℕ) : DecidablePred (LinkOp.Clean ps)
  | .send _ _ => inferInstanceAs (Decidable (_ ∧ _))
  | .flush _ => inferInstanceAs (Decidable (_ ∉ _))
  | .recv _ => inferInstanceAs (Decidable True)

/-- The length of a packet fits in the length word beside the mark. The receiver's buffer has
room and a size that fits in a word, and the read leaves little. -/
def Link.Fits (l : Link) : LinkOp → Prop
  | .send iov _ => iov.flatten.length < 2 ^ 31
  | .flush _ => True
  | .recv n => ∀ st ∈ l.rcv, st.bufsize < 2 ^ 32 ∧ st.pktbuf.length < st.bufsize ∧
      AxprtStream.LeavesLittle takesAll st (.read (l.reads n))

theorem Link.fits_recv {l : Link} {st : AxprtStream} {n : ℕ} (hst : l.rcv = some st)
    (hword : st.bufsize < 2 ^ 32) (hroom : st.pktbuf.length < st.bufsize)
    (hlives : (AxprtStream.step takesAll (some st) (.read (l.reads n))).1 ≠ none) :
    l.Fits (.recv n) := by
  intro st' hst'
  obtain rfl : st = st' := Option.some.inj (hst.symm.trans hst')
  exact ⟨hword, hroom, (step_ne_none_iff _).mp hlives⟩

def LinkOp.packet : LinkOp → Option Bytes
  | .send iov _ => some iov.flatten
  | _ => none

def sentPackets (r : Run Link LinkOp Unit) : List Bytes :=
  (r.past.filterMap fun x => x.1.packet).reverse

/-- Both ends live, and the bytes under way are the frames of the packets under way. -/
structure Carries (ps : ℕ) (l : Link) (sent : List Bytes) (snd rcv : AxprtStream)
    (delivered todo : List Bytes) : Prop where
  snd_eq : l.snd = some snd
  rcv_eq : l.rcv = some rcv
  sndOpen : snd.ateof = false
  rcvOpen : rcv.ateof = false
  rcvCb : rcv.cb = true
  sndSize : snd.pktsize = ps
  rcvSize : rcv.pktsize = ps
  legal : ∀ p ∈ todo, Legal ps p
  split : sent = delivered ++ todo
  heard : rcv.heard = packetEvents delivered
  bytes : rcv.pktbuf ++ (l.pipe ++ snd.out) = frames todo
  short : Unfinished ps rcv.pktbuf

namespace Carries

variable {scb : Recvcb} {ps : ℕ} {l : Link} {sent delivered todo : List Bytes}
  {snd rcv : AxprtStream}

theorem new (ps bs : ℕ) :
    Carries ps (Link.new ps bs) [] (.new ps 0) { AxprtStream.new ps bs with cb := true } [] [] where
  snd_eq := rfl
  rcv_eq := rfl
  sndOpen := rfl
  rcvOpen := rfl
  rcvCb := rfl
  sndSize := rfl
  rcvSize := rfl
  legal := by simp
  split := rfl
  heard := rfl
  bytes := rfl
  short := .inl (by simp [AxprtStream.new])

section

variable (h : Carries ps l sent snd rcv delivered todo)

include h

theorem send {iov : List Bytes} {ws : List WriteRes} (hp : Legal ps iov.flatten)
    (hws : .error ∉ ws) :
    ∃ snd', Carries ps (l.step scb (.send iov ws)).1 (sent ++ [iov.flatten]) snd' rcv delivered
      (todo ++ [iov.flatten]) := by
  obtain ⟨out, wcb, wrote, heq, hall⟩ : ∃ out wcb wrote, snd.sendv scb iov ws = _ ∧ _ :=
    sendv_spec h.sndOpen (h.sndSize.symm ▸ hp) hws
  rw [Link.step, h.snd_eq]
  dsimp only
  rw [heq]
  exact ⟨_, { h with
    snd_eq := rfl
    legal := by simpa [or_imp, forall_and] using ⟨h.legal, hp⟩
    split := by rw [h.split, append_assoc]
    bytes := by simp [frames_append, ← h.bytes, hall] }⟩

theorem flush {ws : List WriteRes} (hws : .error ∉ ws) :
    ∃ snd', Carries ps (l.step scb (.flush ws)).1 sent snd' rcv delivered todo := by
  cases hwcb : snd.wcbset with
  | false => exact ⟨snd, by simpa [Link.step, h.snd_eq, hwcb] using h⟩
  | true =>
    obtain ⟨out, wcb, wrote, heq, hall⟩ := output_eq scb hws snd
    rw [Link.step, h.snd_eq]
    dsimp only
    rw [if_pos hwcb, heq]
    exact ⟨_, { h with
      snd_eq := rfl
      bytes := by simp [← h.bytes, hall] }⟩

theorem recv {n : ℕ} (hfit : l.Fits (.recv n)) :
    ∃ rcv' delivered' todo',
      Carries ps (l.step scb (.recv n)).1 sent snd rcv' delivered' todo' := by
  obtain ⟨hword, hroom, hlittle⟩ := hfit rcv h.rcv_eq
  have hstep : (l.step scb (.recv n)).1 = { l with
      rcv := rcv.input takesAll (l.reads n)
      pipe := l.pipe.drop (min n (rcv.bufsize - rcv.pktbuf.length)) } := by
    simp [Link.step, h.rcv_eq, h.rcvOpen]
  rw [hstep]
  set room := rcv.bufsize - rcv.pktbuf.length
  by_cases hnil : l.pipe.take n = []
  · -- nothing has arrived
    have hdrop : l.pipe.drop (min n room) = l.pipe := by
      rcases take_eq_nil_iff.mp hnil with rfl | hpipe
      · rw [Nat.zero_min, drop_zero]
      · rw [hpipe, drop_nil]
    have hread : rcv.input takesAll (l.reads n) = some rcv := by
      simp [Link.reads, hnil, input]
    rw [hdrop, hread, ← h.rcv_eq]
    exact ⟨rcv, delivered, todo, h⟩
  · have hreads : l.reads n = .bytes (l.pipe.take n) := if_neg hnil
    rw [hreads] at hlittle ⊢
    have hgot : (l.pipe.take n).take room = l.pipe.take (min n room) := by
      rw [take_take, min_comm]
    have hchunk : (l.pipe.take n).take room ≠ [] := by
      rw [Ne, take_eq_nil_iff, not_or]
      exact ⟨by omega, hnil⟩
    have hlegal : ∀ p ∈ todo, Legal rcv.pktsize p := by
      rw [h.rcvSize]
      exact h.legal
    have hs : rcv.pktbuf ++ (l.pipe.take n).take room ++ (l.pipe.drop (min n room) ++ snd.out) =
        frames todo := by
      rw [hgot, append_assoc, ← append_assoc (List.take _ _), take_append_drop]
      exact h.bytes
    obtain ⟨pkts, todo', tail, htodo, htail, hshort, hinput⟩ :=
      input_of_frames hlegal h.rcvOpen h.rcvCb hword hroom.le hchunk hs hlittle
    rw [hinput]
    refine ⟨_, delivered ++ pkts, todo', { h with
      rcv_eq := rfl
      legal := fun p hp => h.legal p (htodo ▸ mem_append_right _ hp)
      split := by rw [h.split, htodo, append_assoc]
      heard := by rw [h.heard, packetEvents_append]
      bytes := htail
      short := h.rcvSize ▸ hshort }⟩

/-- Nothing under way but an unfinished packet means that no packet is. -/
theorem todo_eq_nil (hpipe : l.pipe = []) (hout : snd.out = []) : todo = [] := by
  have hbytes := h.bytes
  rw [hpipe, hout, append_nil, append_nil] at hbytes
  cases todo with
  | nil => rfl
  | cons p todo =>
    rw [frames_cons] at hbytes
    have hp := h.legal p mem_cons_self
    have hshort := h.short
    rw [hbytes, Unfinished, take_frame_append, beNat_lenWord hp.word, length_append,
      length_frame] at hshort
    omega

end

end Carries

theorem sentPackets_next (scb : Recvcb) (r : Run Link LinkOp Unit) (op : LinkOp) :
    sentPackets (r.next (Link.step scb) op) = sentPackets r ++ op.packet.toList := by
  cases op <;> simp [sentPackets, Run.next, LinkOp.packet]

theorem carries_next {scb : Recvcb} {ps : ℕ} (r : Run Link LinkOp Unit) (op : LinkOp)
    (h : ∃ snd rcv delivered todo, Carries ps r.state (sentPackets r) snd rcv delivered todo)
    (hop : op.Clean ps ∧ r.state.Fits op) :
    ∃ snd rcv delivered todo, Carries ps (r.next (Link.step scb) op).state
      (sentPackets (r.next (Link.step scb) op)) snd rcv delivered todo := by
  obtain ⟨snd, rcv, delivered, todo, h⟩ := h
  obtain ⟨hclean, hfit⟩ := hop
  rw [sentPackets_next]
  cases op with
  | send iov ws =>
    obtain ⟨snd', hnext⟩ := h.send ⟨hclean.1, hfit⟩ hclean.2
    exact ⟨snd', rcv, delivered, todo ++ [iov.flatten], hnext⟩
  | flush ws =>
    obtain ⟨snd', hnext⟩ := h.flush hclean
    exact ⟨snd', rcv, delivered, todo, by simpa [LinkOp.packet, Run.next] using hnext⟩
  | recv n =>
    obtain ⟨rcv', delivered', todo', hnext⟩ := h.recv hfit
    exact ⟨snd, rcv', delivered', todo', by simpa [LinkOp.packet, Run.next] using hnext⟩

/-- The callback of the receiver is given the packets that were sent, in their order; and all
of them, once all has been written and read. -/
theorem link_delivers (scb : Recvcb) (ps bs : ℕ) (ops : List LinkOp)
    (h : Run.Guarded (Link.step scb) (fun r op => op.Clean ps ∧ r.state.Fits op)
      (Run.start (Link.new ps bs)) ops) :
    ∃ snd rcv delivered todo,
      ((Run.start (Link.new ps bs)).take (Link.step scb) ops).state.snd = some snd ∧
      ((Run.start (Link.new ps bs)).take (Link.step scb) ops).state.rcv = some rcv ∧
      snd.ateof = false ∧ rcv.ateof = false ∧
      sentPackets ((Run.start (Link.new ps bs)).take (Link.step scb) ops) = delivered ++ todo ∧
      rcv.heard = packetEvents delivered ∧
      (((Run.start (Link.new ps bs)).take (Link.step scb) ops).state.pipe = [] → snd.out = [] →
        todo = []) := by
  obtain ⟨snd, rcv, delivered, todo, hcarries⟩ :=
    Run.invariant_take ⟨_, _, [], [], Carries.new ps bs⟩ carries_next h
  exact ⟨snd, rcv, delivered, todo, hcarries.snd_eq, hcarries.rcv_eq, hcarries.sndOpen,
    hcarries.rcvOpen, hcarries.split, hcarries.heard, hcarries.todo_eq_nil⟩

/-- A packet written in two pieces and read in two others. -/
theorem link_delivers_split_packet :
    ∃ snd rcv, ((Run.start (Link.new 8 0)).take (Link.step takesAll)
        [.send [[1], [2]] [.bytes 3, .again], .recv 2, .flush [.bytes 3], .recv 100]).state =
          ⟨some snd, [], some rcv⟩ ∧
      rcv.heard = packetEvents [[1, 2]] := by
  obtain ⟨snd, rcv, delivered, todo, hsnd, hrcv, -, -, hsent, hheard, hall⟩ :=
    link_delivers takesAll 8 0
      [.send [[1], [2]] [.bytes 3, .again], .recv 2, .flush [.bytes 3], .recv 100]
      ⟨⟨by decide, by simp [Link.Fits]⟩,
        ⟨by decide, Link.fits_recv rfl (by decide) (by decide) (by decide)⟩,
        ⟨by decide, trivial⟩,
        ⟨by decide, Link.fits_recv rfl (by decide) (by decide) (by decide)⟩, trivial⟩
  obtain rfl := Option.some.inj hsnd
  have htodo : todo = [] := hall (by decide) (by decide)
  refine ⟨_, rcv, congrArg (Link.mk _ _) hrcv, ?_⟩
  rw [htodo, append_nil] at hsent
  rw [hheard, ← hsent]
  rfl

/-- A packet of the largest size that arrives without its last byte is lost. -/
theorem largest_packet_lost :
    (∀ op ∈ [LinkOp.send [List.replicate 8 1] [.bytes 12], .recv 11], op.Clean 8) ∧
      ((Run.start (Link.new 8 0)).take (Link.step fun _ => .keep)
        [.send [List.replicate 8 1] [.bytes 12], .recv 11]).state.rcv = none := by
  decide

end SelfCertifyingFS.Arpc
