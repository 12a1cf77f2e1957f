import Sfs.Arpc.StreamLink
import Sfs.Foundations.Ciphers
import Sfs.Rpc.Xdr

/-!
# Encrypting stream transports

`axprt_crypt` of `crypt/axprt_crypt.C` is a stream transport that sends and receives in
the clear until `encrypt` gives it two keys. From then on a packet goes out with a code
behind it that authenticates its length and contents, and all of it is added to the
bytes of an arc4 stream, of which the first 32 are the keys of the code. The receiver
draws the keys and the pad of the length once, however often it looks for the packet.

The receive callback may use the transport, also to switch it to encryption, before the
loop of `callgetpkt` goes on; so the loop is taken turn by turn.
-/

namespace SelfCertifyingFS.Crypt

section

open Foundations Arpc Rpc

/-- `arc4`, and SHA-1 of all that a `sha1ctx` is updated with. -/
structure CryptEnv (κ : Type) extends Keystream κ where
  reset : κ
  setkey : Bytes → κ → κ
  sha1 : Bytes → FixedBytes 20

/-- `axprt_crypt`. Inside `callgetpkt`, `unread` is what the loop has not yet passed. -/
structure AxprtCrypt (κ : Type) extends AxprtStream where
  ctxSend : κ
  ctxRecv : κ
  cryptsend : Bool
  cryptrecv : Bool
  macset : Bool
  mackey1 : Bytes
  mackey2 : Bytes
  lenpad : UInt32
  ingetpkt : Bool
  unread : Bytes

namespace AxprtCrypt

variable {κ : Type} (env : CryptEnv κ)

def macsize : ℕ := 16

def new (ps : ℕ) : AxprtCrypt κ where
  toAxprtStream := .new ps (ps + macsize + 4)
  ctxSend := env.reset
  ctxRecv := env.reset
  cryptsend := false
  cryptrecv := false
  macset := false
  mackey1 := []
  mackey2 := []
  lenpad := 0
  ingetpkt := false
  unread := []

/-- The callback of a transport; what it does is a step of its own. -/
def called : Recvcb := fun _ => .keep

def fail (st : AxprtCrypt κ) : AxprtCrypt κ :=
  { st with toAxprtStream := st.toAxprtStream.fail called st.ingetpkt }

/-- `encrypt`, with the number of calls that are being served. -/
def encrypt (svcnum : ℕ) (sendkey recvkey : Bytes) (st : AxprtCrypt κ) : AxprtCrypt κ :=
  if svcnum ≠ 0 then st.fail
  else
    { st with
      ctxSend := env.setkey sendkey st.ctxSend
      ctxRecv := env.setkey recvkey st.ctxRecv
      cryptsend := true
      cryptrecv := true }

def mackeys (c : κ) : (Bytes × Bytes) × κ :=
  let (mk1, c) := env.draw 16 c
  let (mk2, c) := env.draw 16 c
  ((mk1, mk2), c)

def mac (keys : Bytes × Bytes) (msg : Bytes) : Bytes :=
  (env.sha1 (keys.1 ++ (msg ++ keys.2))).1.take macsize

/-- A packet as it goes out, and the stream behind it. -/
def sealPkt (p : Bytes) (c : κ) : Bytes × κ :=
  let (keys, c) := mackeys env c
  let msg := AxprtStream.lenWord p.length ++ p
  let (body, c) := env.mask msg c
  let (code, c) := env.mask (mac env keys msg) c
  (body ++ code, c)

/-- `sendv`, with the bytes that reach the kernel. It must not be called at the end of the
stream. -/
def sendv (iov : List Bytes) (ws : List WriteRes) (st : AxprtCrypt κ) :
    Option (AxprtCrypt κ × Bytes) :=
  if st.ateof then none
  else if st.cryptsend = false then
    match st.toAxprtStream.sendv called iov ws with
    | none => none
    | some (s, wrote) => some ({ st with toAxprtStream := s }, wrote)
  else if iov.flatten.length % 2 ^ 32 > st.pktsize then some (st.fail, [])
  else
    let (pkt, c) := sealPkt env iov.flatten st.ctxSend
    let s := { st.toAxprtStream with
      out := st.out ++ pkt, rawBytesSent := st.rawBytesSent + pkt.length }
    -- a queue that was not empty is written when the descriptor is ready
    if st.out = [] then
      let (s, wrote) := s.output called ws
      some ({ st with toAxprtStream := s, ctxSend := c }, wrote)
    else some ({ st with toAxprtStream := s, ctxSend := c }, [])

/-- `output`, when the descriptor is ready. -/
def output (ws : List WriteRes) (st : AxprtCrypt κ) : AxprtCrypt κ × Bytes :=
  let (s, wrote) := st.toAxprtStream.output called ws
  ({ st with toAxprtStream := s }, wrote)

/-- The keys of the next packet's code and the pad of its length are drawn once, when the
packet is first looked for. -/
def setmac (st : AxprtCrypt κ) : AxprtCrypt κ :=
  if st.macset then st
  else
    let (keys, c) := mackeys env st.ctxRecv
    let (pad, c) := env.draw 4 c
    { st with
      ctxRecv := c
      mackey1 := keys.1
      mackey2 := keys.2
      lenpad := .ofNat (beNat pad)
      macset := true }

/-- The end of `getpkt`, when all of the packet and its code is there. -/
def opensealed (word : UInt32) (len : ℕ) (st : AxprtCrypt κ) : Bool × AxprtCrypt κ :=
  let (body, c) := env.mask ((st.unread.drop 4).take (len + macsize)) st.ctxRecv
  let st := { st with macset := false, ctxRecv := c }
  if mac env (st.mackey1, st.mackey2) (beBytes 4 word.toNat ++ body.take len) ≠ body.drop len then
    (false, st.fail)
  else
    (true, { st with
      toAxprtStream := st.toAxprtStream.hear called (.packet (body.take len))
      unread := (st.unread.drop 4).drop (len + macsize) })

variable (st : AxprtCrypt κ)

/-- The part of `getpkt` behind the drawing of the keys. -/
def getsealed : Bool × AxprtCrypt κ :=
  if st.cb = false ∨ st.unread.length < 4 then (false, st)
  else
    let word := UInt32.ofNat (beNat (st.unread.take 4)) ^^^ st.lenpad
    if word = 0 then
      -- `recvbreak`
      (true, ({ st with unread := st.unread.drop 4 }).fail)
    else if word.toNat < 2 ^ 31 then (false, st.fail)
    else if word.toNat - 2 ^ 31 > st.pktsize then (false, st.fail)
    else if (st.unread.drop 4).length < word.toNat - 2 ^ 31 + macsize then (false, st)
    else opensealed env word (word.toNat - 2 ^ 31) st

/-- `getpkt` on the unread part of the buffer: whether to go on, and the new state. -/
def getpkt : Bool × AxprtCrypt κ :=
  if st.cryptrecv = false then
    let (more, s, rest) := st.toAxprtStream.getpkt called st.unread
    (more, { st with toAxprtStream := s, unread := rest })
  else getsealed env (setmac env st)

/-- The beginning of `callgetpkt`. -/
def callgetpkt : AxprtCrypt κ :=
  if st.ingetpkt then st else { st with ingetpkt := true, unread := st.pktbuf }

/-- The end of `callgetpkt`, behind its loop. An assertion stops the process if too much is
left. -/
def leave : Option (AxprtCrypt κ) :=
  let st := { st with ingetpkt := false }
  if st.ateof then
    some { st with
      toAxprtStream := if st.cb then st.toAxprtStream.hear called .eof else st.toAxprtStream }
  else if st.unread.length < st.pktsize then some { st with pktbuf := st.unread, unread := [] }
  else none

/-- One turn of the loop of `callgetpkt`. -/
def turn : Option (AxprtCrypt κ) :=
  if st.ingetpkt = false then some st
  else if st.cb = false then st.leave
  else
    match getpkt env st with
    | (true, st) => some st
    | (false, st) => st.leave

/-- `input`: the kernel gives no more than there is room for. It is not called inside
`callgetpkt`. -/
def input (r : ReadRes) (st : AxprtCrypt κ) : AxprtCrypt κ :=
  if st.ateof ∨ st.ingetpkt then st
  else
    match r with
    | .again => st
    | .error => st.fail
    | .bytes chunk =>
        let chunk := chunk.take (st.bufsize - st.pktbuf.length)
        if chunk = [] then st.fail
        else
          ({ st with
            bytesRecv := st.bytesRecv + chunk.length
            pktbuf := st.toAxprtStream.fill chunk }).callgetpkt

/-- `setrcb`: install a callback, or take it out. -/
def setrcb (c : Bool) (st : AxprtCrypt κ) : AxprtCrypt κ :=
  let st := { st with cb := c }
  if st.ateof then
    { st with
      toAxprtStream := if c then st.toAxprtStream.hear called .eof else st.toAxprtStream }
  else if c ∧ st.pktbuf ≠ [] then st.callgetpkt
  else st

end AxprtCrypt

end

open Foundations Arpc Rpc List AxprtStream

namespace AxprtCrypt

variable {κ : Type} (env : CryptEnv κ)

@[simp] theorem length_mac (keys : Bytes × Bytes) (msg : Bytes) :
    (mac env keys msg).length = macsize := by
  rw [mac, length_take, (env.sha1 _).2]
  rfl

/-- The packet and its code, behind the length word, are masked as one. -/
theorem sealPkt_eq (p : Bytes) (c : κ) :
    sealPkt env p c =
      let code := mac env (mackeys env c).1 (lenWord p.length ++ p)
      let word := env.mask (lenWord p.length) (mackeys env c).2
      (word.1 ++ (env.mask (p ++ code) word.2).1, (env.mask (p ++ code) word.2).2) := by
  simp only [sealPkt, Keystream.mask_append, append_assoc]

@[simp] theorem length_sealPkt (p : Bytes) (c : κ) :
    (sealPkt env p c).1.length = 4 + (p.length + macsize) := by
  simp [sealPkt_eq]

/-- Packets one behind the other, sealed from a place of the stream on. -/
def sealed : List Bytes → κ → Bytes × κ
  | [], c => ([], c)
  | p :: pkts, c =>
      let (bs, c) := sealPkt env p c
      let (bss, c) := sealed pkts c
      (bs ++ bss, c)

theorem sealed_append (pkts pkts' : List Bytes) (c : κ) :
    sealed env (pkts ++ pkts') c =
      ((sealed env pkts c).1 ++ (sealed env pkts' (sealed env pkts c).2).1,
        (sealed env pkts' (sealed env pkts c).2).2) := by
  induction pkts generalizing c with
  | nil => rfl
  | cons p pkts ih => simp [sealed, ih]

section Receiving

/-- The receiver looks for the packet that is sealed from `c` on: it has drawn nothing since, or
the keys and the pad. -/
def InStep (st : AxprtCrypt κ) (c : κ) : Prop :=
  (st.macset = false ∧ st.ctxRecv = c) ∨
    (st.macset = true ∧ st.mackey1 = (mackeys env c).1.1 ∧ st.mackey2 = (mackeys env c).1.2 ∧
      st.lenpad = .ofNat (beNat (env.draw 4 (mackeys env c).2).1) ∧
      st.ctxRecv = (env.draw 4 (mackeys env c).2).2)

variable {env} {st : AxprtCrypt κ} {c : κ}

/-- However often the packet has been looked for, the keys and the pad are the same. -/
theorem setmac_eq (h : InStep env st c) :
    setmac env st = { st with
      macset := true
      mackey1 := (mackeys env c).1.1
      mackey2 := (mackeys env c).1.2
      lenpad := .ofNat (beNat (env.draw 4 (mackeys env c).2).1)
      ctxRecv := (env.draw 4 (mackeys env c).2).2 } := by
  rcases h with ⟨hset, rfl⟩ | ⟨hset, hkey1, hkey2, hpad, hctx⟩
  · rw [setmac, if_neg (by simp [hset])]
  · rw [setmac, if_pos hset, ← hkey1, ← hkey2, ← hpad, ← hctx, ← hset]

theorem inStep_setmac (h : InStep env st c) : InStep env (setmac env st) c := by
  rw [setmac_eq h]
  exact .inr ⟨rfl, rfl, rfl, rfl, rfl⟩

theorem lenWord_of_pad {n : ℕ} (hn : n < 2 ^ 31) (c : κ) :
    (UInt32.ofNat (beNat (env.mask (lenWord n) c).1) ^^^
      UInt32.ofNat (beNat (env.draw 4 c).1)).toNat = 2 ^ 31 + n := by
  have hxor := env.beNat_mask_xor (lenWord n) c
  rw [length_lenWord, beNat_lenWord hn] at hxor
  have hlt : ∀ bs, bs.length = 4 → beNat bs < 2 ^ 32 := by
    intro bs hbs
    have hlt := beNat_lt bs
    rwa [hbs] at hlt
  rw [UInt32.toNat_xor, UInt32.toNat_ofNat_of_lt' (hlt _ (by simp)),
    UInt32.toNat_ofNat_of_lt' (hlt _ (by simp)), hxor]

variable {p : Bytes}

/-- The length word at the beginning of a sealed packet, cleared with the pad. -/
theorem word_of_sealPkt {bs more : Bytes} (hp : p.length < 2 ^ 31)
    (hbs : (sealPkt env p c).1 ++ more = bs) :
    (UInt32.ofNat (beNat (bs.take 4)) ^^^
      UInt32.ofNat (beNat (env.draw 4 (mackeys env c).2).1)).toNat = 2 ^ 31 + p.length := by
  have hfour : bs.take 4 = (env.mask (lenWord p.length) (mackeys env c).2).1 := by
    rw [← hbs, sealPkt_eq, append_assoc, take_left' (by simp)]
  rw [hfour, lenWord_of_pad hp]

theorem ne_zero_of_toNat {w : UInt32} {n : ℕ} (h : w.toNat = 2 ^ 31 + n) : w ≠ 0 := by
  rintro rfl
  rw [UInt32.toNat_zero] at h
  omega

theorem getsealed_short {more : Bytes} (hp : Legal st.pktsize p)
    (hpad : st.lenpad = .ofNat (beNat (env.draw 4 (mackeys env c).2).1))
    (hs : st.unread ++ more = (sealPkt env p c).1) (hmore : more ≠ []) :
    getsealed env st = (false, st) := by
  have hlen : st.unread.length < 4 + (p.length + macsize) := by
    have hpos := length_pos_of_ne_nil hmore
    rw [← length_sealPkt env p c, ← hs, length_append]
    omega
  unfold getsealed
  by_cases hfour : st.unread.length < 4
  · rw [if_pos (.inr hfour)]
  · have htake : (st.unread ++ more).take 4 = st.unread.take 4 :=
      take_append_of_le_length (by omega)
    have hall : (sealPkt env p c).1 ++ [] = st.unread ++ more := by rw [hs, append_nil]
    have hword := word_of_sealPkt hp.word hall
    rw [htake, ← hpad] at hword
    have hsize := hp.size
    split
    · rfl
    · rw [if_neg (ne_zero_of_toNat hword), if_neg (by omega), if_neg (by omega),
        if_pos (by rw [length_drop]; omega)]

theorem getsealed_whole {rest : Bytes} (hp : Legal st.pktsize p) (hcb : st.cb = true)
    (hset : st.mackey1 = (mackeys env c).1.1 ∧ st.mackey2 = (mackeys env c).1.2 ∧
      st.lenpad = .ofNat (beNat (env.draw 4 (mackeys env c).2).1) ∧
      st.ctxRecv = (env.draw 4 (mackeys env c).2).2)
    (hs : st.unread = (sealPkt env p c).1 ++ rest) :
    getsealed env st = (true, { st with
      macset := false
      ctxRecv := (sealPkt env p c).2
      heard := .packet p :: st.heard
      unread := rest }) := by
  obtain ⟨hkey1, hkey2, hpad, hctx⟩ := hset
  have hword := word_of_sealPkt hp.word hs.symm
  rw [← hpad] at hword
  have hsize := hp.size
  have hlen : st.unread.length = 4 + (p.length + macsize) + rest.length := by
    rw [hs, length_append, length_sealPkt]
  -- the stream behind the pad is the one behind the masked length word
  have hbehind : st.ctxRecv = (env.mask (lenWord p.length) (mackeys env c).2).2 := by
    rw [hctx, Keystream.mask_eq, length_lenWord]
  have hdrop : st.unread.drop 4 = (env.mask (p ++ mac env (mackeys env c).1
      (lenWord p.length ++ p)) st.ctxRecv).1 ++ rest := by
    rw [hs, sealPkt_eq, append_assoc, drop_left' (by simp), hbehind]
  have hbytes : beBytes 4 (2 ^ 31 + p.length) = lenWord p.length := (lenWord_eq hp.word).symm
  have hctx' : (sealPkt env p c).2 = (env.mask (p ++ mac env (mackeys env c).1
      (lenWord p.length ++ p)) st.ctxRecv).2 := by
    rw [sealPkt_eq, hbehind]
  have hopen : ∀ word, word.toNat = 2 ^ 31 + p.length →
      opensealed env word p.length st = (true, { st with
        macset := false
        ctxRecv := (sealPkt env p c).2
        heard := .packet p :: st.heard
        unread := rest }) := by
    intro word hword
    unfold opensealed
    rw [hdrop, take_left' (by simp), Keystream.mask_mask]
    dsimp only
    rw [hdrop, take_left, drop_left, drop_left' (by simp), hword, hbytes, hctx',
      hkey1, hkey2, if_neg (by simp), hear_keep rfl]
  have hsub : 2 ^ 31 + p.length - 2 ^ 31 = p.length := Nat.add_sub_cancel_left _ _
  unfold getsealed
  rw [if_neg (by rw [hcb]; simp; omega)]
  rw [if_neg (ne_zero_of_toNat hword), if_neg (by omega), if_neg (by omega),
    if_neg (by rw [length_drop]; omega), hword, hsub, hopen _ hword]

end Receiving

end AxprtCrypt

end SelfCertifyingFS.Crypt
