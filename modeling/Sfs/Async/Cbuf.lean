import Sfs.Foundations.Regions
import Sfs.Foundations.Runs

/-!
# The circular buffer

`cbuf` keeps bytes in a circle of memory from `start` to `end`. Both are at the same place
when the buffer is empty and when it is full; a flag tells the two apart. Bytes are put in
through the regions that `iniov` gives and counted by `addbytes`, and taken out by
`rembytes` or `copyout`; `unrembytes` takes back bytes that were removed.
-/

namespace SelfCertifyingFS.Async

open Foundations

/-- A buffer; `stop` is the member `end`. -/
structure Cbuf where
  buf : Memory
  buflen : ℕ
  empty : Bool
  start : ℕ
  stop : ℕ

/-- A number as an `int`. -/
def intOf (n : ℕ) : ℤ := (n : ℤ).bmod (2 ^ 32)

/-- An `int` as a `size_t`. -/
def sizeOfInt (n : ℤ) : ℕ := (n % 2 ^ 64).toNat

namespace Cbuf

/-- The constructor, with the memory that `xmalloc` gives. -/
def new (buf : Memory) (n : ℕ) : Cbuf := ⟨buf, n, true, 0, 0⟩

variable (c : Cbuf)

def clear : Cbuf := { c with empty := false, start := 0, stop := 0 }

def space : ℕ :=
  (if c.empty || decide (c.start < c.stop) then c.buflen else 0) + c.start - c.stop

def size : ℕ :=
  (if c.empty || decide (c.start < c.stop) then 0 else c.buflen) + c.stop - c.start

/-- The regions of the memory to be filled, in order. -/
def iniov : Region × Region :=
  if c.empty || decide (c.start < c.stop) then (⟨c.stop, c.buflen - c.stop⟩, ⟨0, c.start⟩)
  else (⟨c.stop, c.start - c.stop⟩, ⟨0, 0⟩)

def addbytes (n : ℕ) : Option Cbuf :=
  if n ≠ 0 then
    if n ≤ c.space then
      some { c with
        empty := false
        stop := if c.buflen ≤ c.stop + n then c.stop + n - c.buflen else c.stop + n }
    else none
  else some c

/-- Bytes put into the regions of `iniov` one after the other, and then added. -/
def write (bs : Bytes) : Option Cbuf :=
  let inv := c.iniov
  let buf := (c.buf.writeBytes inv.1.base (bs.take inv.1.size)).writeBytes inv.2.base
    ((bs.drop inv.1.size).take inv.2.size)
  { c with buf := buf }.addbytes bs.length

/-- `at`: a byte of the contents. -/
def byteAt (n : ℕ) : Option UInt8 :=
  if n < c.size then some (c.buf ((n + c.start) % c.buflen)) else none

/-- `memchr`: the distance to the first such byte of a region. -/
def memchr (m : Memory) (p n : ℕ) (b : UInt8) : Option ℕ := (m.readBytes p n).idxOf? b

variable (c : Cbuf)

def find (b : UInt8) : ℤ :=
  if c.empty then -1
  else if c.start < c.stop then
    (memchr c.buf c.start (c.stop - c.start) b).elim (-1) intOf
  else
    (memchr c.buf c.start (c.buflen - c.start) b).elim
      ((memchr c.buf 0 c.stop b).elim (-1) fun p => intOf (p + c.buflen - c.start)) intOf

/-- The regions that hold the contents, in order. -/
def outiov : Region × Region :=
  if c.stop ≤ c.start ∧ c.empty = false then (⟨c.start, c.buflen - c.start⟩, ⟨0, c.stop⟩)
  else (⟨c.start, c.stop - c.start⟩, ⟨0, 0⟩)

def rembytes (n : ℕ) : Option Cbuf :=
  if n ≠ 0 then
    if n ≤ c.size then
      let start := (c.start + n) % c.buflen
      some { c with start := start, empty := decide (start = c.stop) }
    else none
  else some c

def unrembytes (n : ℕ) : Option Cbuf :=
  if n ≠ 0 then
    if n ≤ c.space then
      some { c with
        start := (if n ≤ c.start then 0 else c.buflen) + c.start - n
        empty := false }
    else none
  else some c

/-- The bytes copied, and the buffer without them. -/
def copyout (len : ℕ) : Option (Bytes × Cbuf) :=
  if len ≤ c.size then
    let dst :=
      if c.empty || decide (c.start < c.stop) then
        c.buf.readBytes c.start (min len (c.stop - c.start))
      else
        let n := min len (c.buflen - c.start)
        c.buf.readBytes c.start n ++ if n < len then c.buf.readBytes 0 (len - n) else []
    (c.rembytes len).map fun c => (dst, c)
  else none

/-- A new memory of `n` bytes, with the contents at its start. -/
def resize (nbuf : Memory) (n : ℕ) : Option Cbuf :=
  let nend := intOf c.size
  (c.copyout (sizeOfInt nend)).map fun r =>
    ⟨nbuf.writeBytes 0 r.1, n, decide (nend ≠ 0), 0, sizeOfInt nend⟩

/-- What a program does with a buffer. -/
inductive Op
  | resize (nbuf : Memory) (n : ℕ)
  | clear
  | write (bs : Bytes)
  | rembytes (n : ℕ)
  | unrembytes (n : ℕ)
  | find (b : UInt8)
  | byteAt (n : ℕ)
  | copyout (len : ℕ)

/-- What an operation gives. -/
inductive Out
  | done
  | index (i : ℤ)
  | byte (b : UInt8)
  | bytes (bs : Bytes)
  | aborted
  deriving DecidableEq

/-- An operation; nothing when an assertion fails. -/
def exec : Op → Option (Cbuf × Out)
  | .resize nbuf n => (c.resize nbuf n).map fun c => (c, .done)
  | .clear => some (c.clear, .done)
  | .write bs => (c.write bs).map fun c => (c, .done)
  | .rembytes n => (c.rembytes n).map fun c => (c, .done)
  | .unrembytes n => (c.unrembytes n).map fun c => (c, .done)
  | .find b => some (c, .index (c.find b))
  | .byteAt n => (c.byteAt n).map fun b => (c, .byte b)
  | .copyout len => (c.copyout len).map fun r => (r.2, .bytes r.1)

end Cbuf

/-- A bounded queue of bytes, with those that have been removed and are not yet lost. -/
structure ByteQueue where
  capacity : ℕ
  removed : Bytes
  contents : Bytes

namespace ByteQueue

def exec (q : ByteQueue) : Cbuf.Op → ByteQueue × Cbuf.Out
  | .resize _ n => (⟨n, [], q.contents⟩, .done)
  | .clear => ({ q with removed := [], contents := [] }, .done)
  | .write bs => ({ q with removed := [], contents := q.contents ++ bs }, .done)
  | .rembytes n =>
    ({ q with removed := q.removed ++ q.contents.take n, contents := q.contents.drop n }, .done)
  | .unrembytes n =>
    ({ q with
      removed := q.removed.take (q.removed.length - n)
      contents := q.removed.drop (q.removed.length - n) ++ q.contents }, .done)
  | .find b => (q, .index ((q.contents.idxOf? b).elim (-1) fun i => i))
  | .byteAt n => (q, .byte (q.contents.getD n 0))
  | .copyout len =>
    ({ q with removed := q.removed ++ q.contents.take len, contents := q.contents.drop len },
      .bytes (q.contents.take len))

/-- What may be asked of a queue. Bytes are taken back when they have been removed and
nothing has been put in since. -/
def Allowed (q : ByteQueue) : Cbuf.Op → Prop
  | .resize _ n => q.contents.length ≤ n
  | .clear => True
  | .write bs => q.contents.length + bs.length ≤ q.capacity
  | .rembytes n => n ≤ q.contents.length
  | .unrembytes n => n ≤ q.removed.length
  | .find _ => True
  | .byteAt n => n < q.contents.length
  | .copyout len => len ≤ q.contents.length

end ByteQueue

end SelfCertifyingFS.Async
