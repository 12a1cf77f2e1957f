import Sfs.Async.Bitvec

/-!
# The binary buddy allocator

`bbuddy` of `async/bbuddy.C` manages the offsets below a total size in blocks of
sizes between two powers of two. For each size it keeps a bit vector of the free
blocks. An operation that fails an assertion, panics or shifts an `int` out of its
range has no result.
-/

namespace SelfCertifyingFS.Async

/-- The free blocks of one size. -/
structure Bbfree where
  map : ℕ → MapT
  nbits : ℕ
  nmaps : ℕ
  /-- Possibly the index of a word that is not zero. -/
  hint : ℕ
  cnt : ℕ

namespace Bbfree

def new : Bbfree := ⟨fun _ => 0, 0, 0, 0, 0⟩

variable (b : Bbfree)

/-- Only the words allocated before keep their contents; `junk` is in the others. -/
def init (junk : ℕ → MapT) (nb : ℕ) : Option Bbfree :=
  if nb ≥ b.nbits then
    let nmaps := (nb + 63) / 64
    let map := fun i => if i < (b.nbits + 63) / 64 then b.map i else junk i
    some { b with nbits := nb, nmaps, map := rangeClr map b.nbits (nmaps * 64) }
  else none

variable (pos : ℕ)

def getbit : Option Bool :=
  if pos < b.nbits then some (bitAt b.map pos) else none

def setbit : Option Bbfree :=
  let mi := pos / 64
  let mask : MapT := 1 <<< (pos % 64)
  if pos < b.nbits ∧ b.map mi &&& mask = 0 then
    let map := Function.update b.map mi (b.map mi ||| mask)
    some { b with map, hint := if map b.hint = 0 then mi else b.hint, cnt := b.cnt + 1 }
  else none

def clrbit : Option Bbfree :=
  let mi := pos / 64
  let mask : MapT := 1 <<< (pos % 64)
  if pos < b.nbits ∧ b.map mi &&& mask ≠ 0 then
    some { b with map := Function.update b.map mi (b.map mi &&& ~~~mask), cnt := b.cnt - 1 }
  else none

/-- The position of a free block, if there is one. -/
def findbit : Option (Option ℕ × Bbfree) :=
  if b.cnt = 0 ∨ b.nbits = 0 then some (none, b)
  else if b.map b.hint ≠ 0 then some (some (b.hint * 64 + ffs (b.map b.hint).toNat - 1), b)
  else
    match (List.range b.nmaps).find? (fun i => b.map i ≠ 0) with
    | some i => some (some (i * 64 + ffs (b.map i).toNat - 1), { b with hint := i })
    | none => none

end Bbfree

/-- The expression `1 << n`, of type `int`. -/
def oneShl (n : ℕ) : Option ℕ := if n < 31 then some (2 ^ n) else none

structure Bbuddy where
  totsize : ℕ
  log2minalloc : ℕ
  log2maxalloc : ℕ
  freemaps : ℕ → Bbfree
  spaceleft : ℤ

namespace Bbuddy

variable (b : Bbuddy)

def fm (sn : ℕ) : Option Bbfree :=
  if b.log2minalloc ≤ sn ∧ sn ≤ b.log2maxalloc then some (b.freemaps (sn - b.log2minalloc))
  else none

def putFm (sn : ℕ) (bf : Bbfree) : Bbuddy :=
  { b with freemaps := Function.update b.freemaps (sn - b.log2minalloc) bf }

variable (sn pos : ℕ)

def getbit : Option Bool := do
  (← b.fm sn).getbit pos

def setbit : Option Bbuddy := do
  return b.putFm sn (← (← b.fm sn).setbit pos)

def clrbit : Option Bbuddy := do
  return b.putFm sn (← (← b.fm sn).clrbit pos)

def findbit (sn : ℕ) : Option (Option ℕ × Bbuddy) := do
  let (pos, bf) ← (← b.fm sn).findbit
  return (pos, b.putFm sn bf)

def level (len : ℕ) : ℕ :=
  if log2c len < b.log2minalloc then b.log2minalloc else log2c len

/-- Merge with free buddies from level `sni` on; `k` levels are above it. -/
def mergeUp : ℕ → ℕ → ℕ → Bbuddy → Option Bbuddy
  | 0, _, pos, b => b.setbit b.log2maxalloc pos
  | k + 1, sni, pos, b => do
    if ← b.getbit sni (pos ^^^ 1) then
      mergeUp k (sni + 1) (pos >>> 1) (← b.clrbit sni (pos ^^^ 1))
    else
      b.setbit sni pos

def dealloc (b : Bbuddy) (off len : ℕ) : Option Bbuddy :=
  let sn := b.level len
  if sn > b.log2maxalloc then none
  else
    let pos := off >>> sn
    if off = pos <<< sn then do
      let size ← oneShl sn
      mergeUp (b.log2maxalloc - sn) sn pos { b with spaceleft := b.spaceleft + size }
    else none

/-- Search for a free block above level `sni`; `k` levels are above it. -/
def searchUp : ℕ → ℕ → Bbuddy → Option (Option (ℕ × ℕ) × Bbuddy)
  | 0, _, b => some (none, b)
  | k + 1, sni, b => do
    match ← b.findbit (sni + 1) with
    | (some pos, b) => return (some (sni + 1, pos), b)
    | (none, b) => searchUp k (sni + 1) b

/-- Split a block of level `sni` down to level `sn`, freeing the upper halves. Below
level 0 the counter wraps around: the loop goes on and `fm` fails its assertion. -/
def splitDown (sn : ℕ) : ℕ → ℕ → Bbuddy → Option (ℕ × Bbuddy)
  | 0, _, _ => none
  | sni + 1, pos, b =>
    if sni ≥ sn then do
      splitDown sn sni (pos <<< 1) (← b.setbit sni (pos <<< 1 + 1))
    else some (pos, b)

/-- The offset of a new block, `none` for `-1`. -/
def alloc (b : Bbuddy) (n : ℕ) : Option (Option ℕ × Bbuddy) :=
  let sn := b.level n
  if sn > b.log2maxalloc then some (none, b)
  else do
    match ← b.findbit sn with
    | (some pos, b) =>
      let b ← b.clrbit sn pos
      let size ← oneShl sn
      return (some (pos <<< sn), { b with spaceleft := b.spaceleft - size })
    | (none, b) =>
      match ← searchUp (b.log2maxalloc - sn) sn b with
      | (none, b) => return (none, b)
      | (some (sni, pos), b) =>
        let b ← b.clrbit sni pos
        let (pos, b) ← splitDown sn sni pos b
        let size ← oneShl sn
        return (some (pos <<< sn), { b with spaceleft := b.spaceleft - size })

/-- Extend the vectors of `k` levels from `sn` on; the first gets `o` bits. -/
def initMaps (junk : ℕ → ℕ → MapT) : ℕ → ℕ → ℕ → Bbuddy → Option Bbuddy
  | 0, _, _, b => some b
  | k + 1, sn, o, b => do
    let bf ← (← b.fm sn).init (junk sn) o
    initMaps junk k (sn + 1) (o >>> 1) (b.putFm sn bf)

/-- Free small blocks up to a multiple of the largest size. -/
def alignUp : ℕ → ℕ → Bbuddy → Option (ℕ × Bbuddy)
  | 0, _, _ => none
  | fuel + 1, o, b =>
    let n := (ffs o + 2 ^ 32 - 1) % 2 ^ 32
    if n ≥ b.log2maxalloc then some (o, b)
    else do
      let inc ← oneShl n
      alignUp fuel (o + inc) (← b.dealloc o inc)

/-- Free blocks of the largest size up to the end. -/
def fillUp (maxinc ts : ℕ) : ℕ → ℕ → Bbuddy → Option Bbuddy
  | 0, _, _ => none
  | fuel + 1, o, b =>
    if o < ts then do fillUp maxinc ts fuel (o + maxinc) (← b.dealloc o maxinc)
    else some b

def settotsize (b : Bbuddy) (junk : ℕ → ℕ → MapT) (ts : ℕ) : Option Bbuddy := do
  let maxinc ← oneShl b.log2maxalloc
  -- the bits below those of `maxinc` are cleared
  let ts := ts - ts % maxinc
  if ts ≥ b.totsize then
    let o := b.totsize
    let b ← initMaps junk (b.log2maxalloc + 1 - b.log2minalloc) b.log2minalloc
      (ts >>> b.log2minalloc) b
    if o < ts then
      let (o, b) ← alignUp (ts + 1) o b
      let b ← fillUp maxinc ts (ts + 1) o b
      return { b with totsize := ts }
    else return { b with totsize := ts }
  else none

def new (junk : ℕ → ℕ → MapT) (ts minalloc maxalloc : ℕ) : Option Bbuddy :=
  if log2c minalloc ≤ log2c maxalloc then
    settotsize ⟨0, log2c minalloc, log2c maxalloc, fun _ => Bbfree.new, 0⟩ junk ts
  else none

def space (b : Bbuddy) : ℤ := b.spaceleft

def gettotsize (b : Bbuddy) : ℕ := b.totsize

end Bbuddy

end SelfCertifyingFS.Async
