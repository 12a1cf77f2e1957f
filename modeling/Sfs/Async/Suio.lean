import Sfs.Foundations.Regions

/-!
# Queues of bytes

A `suio` of `async/suio++.C` queues bytes for output. What it queues are segments of
memory: a large buffer is queued where it is and must stay as it is until its bytes are
removed, small ones are copied to a scratch buffer, at first the default buffer inside of
the `suio` itself and then blocks from the heap. A segment that begins where the last one
ends extends it. Callbacks wait until the bytes in front of them are removed; the
deallocation of a scratch buffer is one of them.

Addresses are numbers. The heap's answers are an argument, and the bytes of a block that
is freed become anything.
-/

namespace SelfCertifyingFS.Async

open Foundations

/-- What a callback does: the caller's business, or the deallocation of a block. -/
inductive Uiocall
  | user (id : ℕ)
  | dealloc (b : Region)
  deriving DecidableEq, Repr

structure Uiocb where
  nbytes : ℕ
  cb : Uiocall
  deriving DecidableEq, Repr

/-- `suio`. It lies at `self`, and its default buffer is at its end. A `struct iovec` is a
region. -/
structure Suio where
  self : ℕ
  defbuf : ℕ
  iovs : List Region
  uiocbs : List Uiocb
  uiobytes : ℕ
  nrembytes : ℕ
  nremiov : ℕ
  lastiovend : Option ℕ
  scratchBuf : ℕ
  scratchPos : ℕ
  scratchLim : ℕ
  deriving DecidableEq, Repr

/-- Memory, the blocks that are allocated, and the callbacks that have been made. -/
structure Arena where
  mem : Memory
  live : List Region
  calls : List ℕ

/-- What the allocator returns, given the blocks that are allocated and a size, and what the
bytes of a freed block become. -/
structure HeapAnswer where
  malloc : List Region → ℕ → ℕ
  junk : Memory

/-- `iovmgr`: the current piece and those behind it. -/
structure Iovmgr where
  cur : Bytes
  iov : List Bytes
  deriving DecidableEq, Repr

namespace Iovmgr

def new : List Bytes → Iovmgr
  | [] => ⟨[], []⟩
  | v :: iov => ⟨v, iov⟩

/-- The loop of `skip`, over the pieces that are passed as a whole. -/
def skipLoop : ℕ → List Bytes → ℕ × List Bytes
  | n, [] => (n, [])
  | n, v :: iov => if n ≥ v.length then skipLoop (n - v.length) iov else (n, v :: iov)

/-- `skip`; it panics behind the last piece. -/
def skip (n : ℕ) (m : Iovmgr) : Option Iovmgr :=
  if n < m.cur.length then some { m with cur := m.cur.drop n }
  else
    match skipLoop (n - m.cur.length) m.iov with
    | (0, iov) => some ⟨[], iov⟩
    | (_ + 1, []) => none
    | (n + 1, v :: iov) => if n + 1 > v.length then none else some ⟨v.drop (n + 1), iov⟩

/-- The loop of `copyout`, over the pieces that are copied as a whole. -/
def copyoutLoop : ℕ → List Bytes → Bytes × ℕ × List Bytes
  | room, [] => ([], room, [])
  | room, v :: iov =>
      if v.length ≤ room then
        let (bs, room, iov) := copyoutLoop (room - v.length) iov
        (v ++ bs, room, iov)
      else ([], room, v :: iov)

/-- `copyout`: the bytes copied, and what is left. -/
def copyout (len : ℕ) (m : Iovmgr) : Bytes × Iovmgr :=
  if len < m.cur.length then (m.cur.take len, { m with cur := m.cur.drop len })
  else
    match copyoutLoop (len - m.cur.length) m.iov with
    | (bs, _, []) => (m.cur ++ bs, ⟨[], []⟩)
    | (bs, room, v :: iov) =>
        if 0 < room then (m.cur ++ (bs ++ v.take room), ⟨v.drop room, iov⟩)
        else (m.cur ++ bs, ⟨v, iov⟩)

def size (m : Iovmgr) : ℕ := m.cur.length + (m.iov.map List.length).sum

end Iovmgr

namespace Suio

def smallbufsize : ℕ := 0x80

def blocksize : ℕ := 0x2000

def mallocresv : ℕ := 16

def new (self defbuf : ℕ) : Suio where
  self := self
  defbuf := defbuf
  iovs := []
  uiocbs := []
  uiobytes := 0
  nrembytes := 0
  nremiov := 0
  lastiovend := none
  scratchBuf := defbuf
  scratchPos := defbuf
  scratchLim := defbuf + smallbufsize

section Callbacks

variable (h : HeapAnswer)

def call (m : Arena) : Uiocall → Arena
  | .user id => { m with calls := m.calls ++ [id] }
  | .dealloc b => { m with mem := m.mem.scribble b h.junk, live := m.live.erase b }

def iovcb (cb : Uiocall) (u : Suio) (m : Arena) : Suio × Arena :=
  if u.uiobytes ≠ 0 then
    ({ u with uiocbs := u.uiocbs ++ [⟨u.nrembytes + u.uiobytes, cb⟩] }, m)
  else (u, call h m cb)

/-- `makeuiocbs`. The callbacks do not use the queue themselves. -/
def makeuiocbs (u : Suio) (m : Arena) : Suio × Arena :=
  let due := u.uiocbs.takeWhile (·.nbytes ≤ u.nrembytes)
  ({ u with uiocbs := u.uiocbs.dropWhile (·.nbytes ≤ u.nrembytes) },
    due.foldl (fun m c => call h m c.cb) m)

end Callbacks

section Appending

variable (h : HeapAnswer)

/-- `pushiov`. The last segment of a queue without segments is outside of its vector. -/
def pushiov (base len : ℕ) (u : Suio) : Option Suio :=
  let pushed :=
    if u.lastiovend = some base then
      match u.iovs.getLast? with
      | none => none
      | some v => some { u with
          lastiovend := some (base + len)
          iovs := u.iovs.dropLast ++ [⟨v.base, v.size + len⟩] }
    else if len ≠ 0 then
      some { u with lastiovend := some (base + len), iovs := u.iovs ++ [⟨base, len⟩] }
    else some u
  match pushed with
  | none => none
  | some u => some { u with
      uiobytes := u.uiobytes + len
      scratchPos := if base = u.scratchPos then u.scratchPos + len else u.scratchPos }

/-- `scratch_lim - scratch_pos`, as a `size_t`. -/
def fastspace (u : Suio) : ℕ :=
  if u.scratchPos ≤ u.scratchLim then u.scratchLim - u.scratchPos
  else 2 ^ 64 - (u.scratchPos - u.scratchLim)

def morescratch (size : ℕ) (u : Suio) (m : Arena) : Suio × Arena :=
  let size := (size + mallocresv + (blocksize - 1)) / blocksize * blocksize - mallocresv
  let (u, m) :=
    if u.scratchBuf ≠ u.defbuf then
      iovcb h (.dealloc ⟨u.scratchBuf, u.scratchLim - u.scratchBuf⟩) u m
    else (u, m)
  let a := h.malloc m.live size
  ({ u with scratchBuf := a, scratchPos := a, scratchLim := a + size },
    { m with live := ⟨a, size⟩ :: m.live })

variable (d : Chunk) (u : Suio) (m : Arena)

/-- Bytes are written at `scratch_pos` and queued. -/
def put : Option (Suio × Arena) :=
  match u.pushiov u.scratchPos d.size with
  | none => none
  | some u' => some (u', { m with mem := m.mem.write u.scratchPos d })

/-- The common body of `slowfill` and `slowcopy`. -/
def slowput : Option (Suio × Arena) :=
  let n := u.fastspace
  if d.size ≤ n then put d u m
  else if n ≥ smallbufsize ∨ u.lastiovend = some u.scratchPos then do
    let (u, m) ← put (d.take n) u m
    let (u, m) := morescratch h (d.size - n) u m
    put (d.drop n) u m
  else
    let (u, m) := morescratch h d.size u m
    put d u m

def slowfill (c : UInt8) (len : ℕ) : Suio → Arena → Option (Suio × Arena) :=
  slowput h ⟨len, fun _ => c⟩

def slowcopy (buf : Chunk) : Suio → Arena → Option (Suio × Arena) := slowput h buf

def fill (c : UInt8) (n : ℤ) (u : Suio) (m : Arena) : Option (Suio × Arena) :=
  if n ≤ 0 then some (u, m)
  else if n ≤ (u.scratchLim : ℤ) - u.scratchPos then put ⟨n.toNat, fun _ => c⟩ u m
  else slowfill h c n.toNat u m

def copy (buf : Chunk) (u : Suio) (m : Arena) : Option (Suio × Arena) :=
  if buf.size ≤ u.fastspace then put buf u m else slowcopy h buf u m

/-- The first half of `copyv`, to the scratch buffer that there is. -/
def copyvScratch (iom : Iovmgr) (u : Suio) (m : Arena) : Option (Suio × Arena × Iovmgr) :=
  if u.lastiovend = some u.scratchPos ∨ u.fastspace ≥ smallbufsize then
    let (bs, iom) := iom.copyout u.fastspace
    if bs.length > 0 then
      match put (.ofBytes bs) u m with
      | none => none
      | some (u, m) => some (u, m, iom)
    else some (u, m, iom)
  else some (u, m, iom)

def copyv (iov : List Bytes) (skip : ℕ) (u : Suio) (m : Arena) : Option (Suio × Arena) := do
  let iom ← (Iovmgr.new iov).skip skip
  let (u, m, iom) ← copyvScratch iom u m
  if iom.size > 0 then
    let (u, m) := morescratch h iom.size u m
    put (.ofBytes (iom.copyout iom.size).1) u m
  else some (u, m)

def print (p len : ℕ) (u : Suio) (m : Arena) : Option (Suio × Arena) :=
  if len ≤ smallbufsize ∧ p ≠ u.scratchPos then copy h ⟨len, fun k => m.mem (p + k)⟩ u m
  else
    match u.pushiov p len with
    | none => none
    | some u => some (u, m)

def default (u : Suio) : Region := ⟨u.defbuf, smallbufsize⟩

/-- `take` of one segment of the other queue, whose default buffer is `dflt`. -/
def takeIov (dflt v : Region) (u : Suio) (m : Arena) : Option (Suio × Arena) :=
  if v.base ∈ dflt then copy h ⟨v.size, fun k => m.mem (v.base + k)⟩ u m
  else
    match u.pushiov v.base v.size with
    | none => none
    | some u => some (u, m)

/-- The loop of `take`, over the segments of the other queue. -/
def takeLoop (dflt : Region) : List Region → Suio → Arena → Option (Suio × Arena)
  | [], u, m => some (u, m)
  | v :: vs, u, m => do
      let (u, m) ← takeIov h dflt v u m
      takeLoop dflt vs u m

/-- The sum of a position and a difference, as a `u_int64_t`. -/
def shift (nbytes : ℕ) (bdiff : ℤ) : ℕ :=
  if 0 ≤ nbytes + bdiff then (nbytes + bdiff).toNat else (2 ^ 64 + (nbytes + bdiff)).toNat

/-- `take`: the new states of this queue and of the other one. -/
def take (uio u : Suio) (m : Arena) : Option (Suio × Suio × Arena) := do
  let bdiff : ℤ := u.nrembytes + u.uiobytes - uio.nrembytes
  let (u, m) ← takeLoop h uio.default uio.iovs u m
  some ({ u with uiocbs := u.uiocbs ++ uio.uiocbs.map fun c => ⟨shift c.nbytes bdiff, c.cb⟩ },
    { uio with
      nrembytes := uio.nrembytes + uio.uiobytes
      nremiov := uio.nremiov + uio.iovs.length
      uiobytes := 0
      iovs := []
      uiocbs := []
      scratchBuf := uio.defbuf
      scratchPos := uio.defbuf
      scratchLim := uio.defbuf + smallbufsize }, m)

end Appending

section Removing

variable (h : HeapAnswer)

/-- The loop of `rembytes`: the segments that are left, the first of them shortened. -/
def popIovs : ℕ → List Region → Option (List Region)
  | n, [] => if n > 0 then none else some []
  | n, v :: vs =>
      if n ≥ v.size then popIovs (n - v.size) vs
      else some (⟨v.base + n, v.size - n⟩ :: vs)

/-- `rembytes`, with its two assertions. -/
def rembytes (n : ℕ) (u : Suio) (m : Arena) : Option (Suio × Arena) :=
  if n > u.uiobytes then none
  else
    match popIovs n u.iovs with
    | none => none
    | some iovs =>
        let u := { u with
          uiobytes := u.uiobytes - n
          nrembytes := u.nrembytes + n
          nremiov := u.nremiov + (u.iovs.length - iovs.length)
          iovs := iovs }
        let u := if iovs = [] then { u with scratchPos := u.scratchBuf, lastiovend := none } else u
        some (makeuiocbs h u m)

def clear (u : Suio) (m : Arena) : Option (Suio × Arena) :=
  match rembytes h u.uiobytes u m with
  | none => none
  | some (u, m) =>
      let m :=
        if u.scratchBuf ≠ u.defbuf then
          call h m (.dealloc ⟨u.scratchBuf, u.scratchLim - u.scratchBuf⟩)
        else m
      let u :=
        if u.scratchBuf ≠ u.defbuf then
          { u with scratchBuf := u.defbuf, scratchLim := u.defbuf + smallbufsize }
        else u
      some ({ u with scratchPos := u.defbuf, iovs := [], uiocbs := [] }, m)

end Removing

/-- `copyout`: the bytes that are copied. -/
def copyout (mem : Memory) : ℕ → List Region → Bytes
  | _, [] => []
  | len, v :: vs =>
      if len ≥ v.size then mem.read v.addrs ++ copyout mem (len - v.size) vs
      else mem.read (Region.addrs ⟨v.base, len⟩)

end Suio

end SelfCertifyingFS.Async
