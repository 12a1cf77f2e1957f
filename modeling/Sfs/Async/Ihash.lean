import Sfs.Async.Bitvec
import Sfs.Foundations.Chains
import Sfs.Foundations.Runs

/-!
# The intrusive hash table

`ihash_core` keeps its elements in chains: an element has a pointer to the next one, a
pointer back to the place that points to it, and the hash value it was inserted under.
When the elements would fill it the table grows to the next prime of a list, and all are
linked anew. `ihash` finds elements by a key they hold, and `qhash` is the map made of
such a table and slots of its own.
-/

namespace SelfCertifyingFS.Async

open Foundations Function

/-- Some prime numbers, each at most the power of two of its index. -/
def exp2primes : List ℕ :=
  [0x1, 0x2, 0x3, 0x7, 0xd, 0x1f, 0x3d, 0x7f, 0xfb, 0x1fd, 0x3fd, 0x7f7, 0xffd, 0x1fff,
    0x3ffd, 0x7fed, 0xfff1, 0x1ffff, 0x3fffb, 0x7ffff, 0xffffd, 0x1ffff7, 0x3ffffd,
    0x7ffff1, 0xfffffd, 0x1ffffd9, 0x3fffffb, 0x7ffffd9, 0xfffffc7, 0x1ffffffd, 0x3fffffdd,
    0x7fffffff, 0xfffffffb]

variable {ι K V : Type*} [DecidableEq ι] [DecidableEq K]

/-- A table and the fields its elements have for it. -/
structure Ihash (ι : Type*) where
  buckets : ℕ
  entries : ℕ
  links : Links ι
  val : ι → UInt32

namespace Ihash

/-- The size to grow to; nothing for an index past the end of the list of primes. The
logarithm of zero is minus one. -/
def growSize (buckets : ℕ) : Option ℕ :=
  exp2primes[(log2c buckets + 1) % 2 ^ 32]?.map fun nbuckets =>
    if nbuckets < 3 then 3 else nbuckets

/-- An element put in front of a chain of the new table, as `_ihash_grow` does it. -/
def relink (s : Links ι) (ni : ℕ) (p : ι) : Links ι :=
  let s' : Links ι := ⟨update s.cell (.next p) (s.cell (.tab ni)), update s.pprev p (.tab ni)⟩
  let s'' := s'.point (s.cell (.tab ni)) (.next p)
  { s'' with cell := update s''.cell (.tab ni) (some p) }

/-- The inner loop of `_ihash_grow`: a chain of the old table is moved. -/
def moveChain (nbuckets : ℕ) (val : ι → UInt32) : ℕ → Option ι → Links ι → Option (Links ι)
  | 0, _, _ => none
  | _ + 1, none, s => some s
  | bound + 1, some p, s =>
    let np := s.cell (.next p)
    moveChain nbuckets val bound np (relink s ((val p).toNat % nbuckets) p)

def bzero (s : Links ι) : Links ι where
  cell
    | .tab _ => none
    | .next e => s.cell (.next e)
  pprev := s.pprev

variable (t : Ihash ι)

def grow : Option (Ihash ι) :=
  (growSize t.buckets).bind fun nbuckets =>
    ((List.range t.buckets).foldlM
      (fun s i => moveChain nbuckets t.val (t.entries + 1) (t.links.cell (.tab i)) s)
      (bzero t.links)).map fun s => { t with buckets := nbuckets, links := s }

/-- The table that `init` makes of whatever memory there is. -/
def init : Option (Ihash ι) :=
  { t with buckets := 0, entries := 0 }.grow

def insertVal (elm : ι) (hval : UInt32) : Option (Ihash ι) :=
  let t := { t with entries := t.entries + 1 }
  (if t.buckets ≤ t.entries then t.grow else some t).map fun t =>
    { t with
      val := update t.val elm hval
      links := t.links.push (hval.toNat % t.buckets) elm }

def chainNext (elm : ι) : Option (Option ι) := some (t.links.cell (.next elm))

def lookupVal (hval : UInt32) : Option (Option ι) :=
  search t.chainNext (fun elm => t.val elm == hval) (t.entries + 1)
    (t.links.cell (.tab (hval.toNat % t.buckets)))

def nextVal (elm : ι) : Option (Option ι) :=
  (t.chainNext elm).bind (search t.chainNext (fun e => t.val e == t.val elm) (t.entries + 1))

def remove (elm : ι) : Ihash ι :=
  { t with entries := t.entries - 1, links := t.links.unlink elm }

def first : Option ι :=
  if t.entries ≠ 0 then (List.range t.buckets).findSome? fun i => t.links.cell (.tab i)
  else none

def next (n : ι) : Option ι :=
  match t.links.cell (.next n) with
  | some nn => some nn
  | none => ((List.range t.buckets).drop ((t.val n).toNat % t.buckets + 1)).findSome? fun i =>
      t.links.cell (.tab i)

/-- The inner loop of `traverse`, with a callback that removes the elements of `drop` when
they are visited, and the elements visited. -/
def traverseChain (drop : ι → Bool) : ℕ → Option ι → Ihash ι → Option (List ι × Ihash ι)
  | 0, _, _ => none
  | _ + 1, none, t => some ([], t)
  | bound + 1, some n, t =>
    let nn := t.links.cell (.next n)
    (traverseChain drop bound nn (if drop n then t.remove n else t)).map fun r =>
      (n :: r.1, r.2)

/-- The outer loop of `traverse`. -/
def traverseFrom (drop : ι → Bool) : List ℕ → Ihash ι → Option (List ι × Ihash ι)
  | [], t => some ([], t)
  | i :: is, t =>
    (traverseChain drop (t.entries + 1) (t.links.cell (.tab i)) t).bind fun r =>
      (traverseFrom drop is r.2).map fun r' => (r.1 ++ r'.1, r'.2)

def traverse (t : Ihash ι) (drop : ι → Bool) : Option (List ι × Ihash ι) :=
  traverseFrom drop (List.range t.buckets) t

/-- `operator[]` of `ihash`, for elements that hold a key. -/
def lookup (key : ι → K) (hash : K → UInt32) (t : Ihash ι) (k : K) : Option (Option ι) :=
  (t.lookupVal (hash k)).bind (search t.nextVal (fun v => decide (k = key v)) (t.entries + 1))

def nextkeq (key : ι → K) (t : Ihash ι) (v : ι) : Option (Option ι) :=
  (t.nextVal v).bind (search t.nextVal (fun x => decide (key v = key x)) (t.entries + 1))

/-- What a program does to a table. -/
inductive Op (ι : Type*)
  | insert (elm : ι)
  | remove (elm : ι)
  | traverse (drop : ι → Bool)
  | clear

/-- A table, if no operation on it has failed, and the elements that are in it by the
operations made. -/
structure Held (ι : Type*) where
  table : Option (Ihash ι)
  live : Finset ι

def start (t : Ihash ι) : Run (Held ι) (Op ι) Unit := Run.start ⟨t.init, ∅⟩

/-- An operation on a table of elements with keys. -/
def step (key : ι → K) (hash : K → UInt32) (s : Held ι) : Op ι → Held ι × Unit
  | .insert elm =>
    (⟨s.table.bind fun t => t.insertVal elm (hash (key elm)), insert elm s.live⟩, ())
  | .remove elm => (⟨s.table.map fun t => t.remove elm, s.live.erase elm⟩, ())
  | .traverse drop =>
    (⟨s.table.bind fun t => (t.traverse drop).map Prod.snd,
      s.live.filter fun elm => drop elm = false⟩, ())
  | .clear => (⟨s.table.bind init, ∅⟩, ())

/-- Elements are inserted when they are not in the table and removed when they are. -/
def Allowed (r : Run (Held ι) (Op ι) Unit) : Op ι → Prop
  | .insert elm => elm ∉ r.state.live
  | .remove elm => elm ∈ r.state.live
  | .traverse _ | .clear => True

end Ihash

/-- A map: a table of slots, each with a key and a value. -/
structure Qhash (ι K V : Type*) where
  core : Ihash ι
  slot : ι → K × V

namespace Qhash

variable (hash : K → UInt32) (q : Qhash ι K V)

def getslot (k : K) : Option (Option ι) :=
  (q.core.lookupVal (hash k)).bind
    (search q.core.nextVal (fun s => decide ((q.slot s).1 = k)) (q.core.entries + 1))

/-- A value under a key; `elm` is the address of the slot that is made when the key has
none. -/
def insert (elm : ι) (k : K) (v : V) : Option (Qhash ι K V) :=
  (q.getslot hash k).bind fun
    | some s => some { q with slot := update q.slot s ((q.slot s).1, v) }
    | none => (q.core.insertVal elm (hash k)).map fun core =>
        ⟨core, update q.slot elm (k, v)⟩

def remove (k : K) : Option (Qhash ι K V) :=
  (q.getslot hash k).map fun
    | some s => { q with core := q.core.remove s }
    | none => q

/-- `operator[]`. -/
def get (k : K) : Option (Option V) :=
  (q.getslot hash k).map fun s => s.map fun s => (q.slot s).2

/-- The keys and values that a traversal shows its callback. -/
def traverse : Option (List (K × V)) :=
  (q.core.traverse fun _ => false).map fun r => r.1.map q.slot

/-- Every slot is removed by the callback of a traversal, and the table made anew. -/
def clear : Option (Qhash ι K V) :=
  (q.core.traverse fun _ => true).bind fun r => r.2.init.map fun core => { q with core := core }

/-- What a program does to a map. -/
inductive Op (ι K V : Type*)
  | insert (elm : ι) (k : K) (v : V)
  | remove (k : K)
  | clear

/-- A map, if no operation on it has failed, and what it holds by the operations made. -/
structure Held (ι K V : Type*) where
  table : Option (Qhash ι K V)
  values : K → Option V

def start : Run (Held ι K V) (Op ι K V) Unit :=
  Run.start ⟨q.core.init.map fun core => { q with core := core }, fun _ => none⟩

def step (s : Held ι K V) : Op ι K V → Held ι K V × Unit
  | .insert elm k v =>
    (⟨s.table.bind fun q => q.insert hash elm k v, update s.values k (some v)⟩, ())
  | .remove k => (⟨s.table.bind fun q => q.remove hash k, update s.values k none⟩, ())
  | .clear => (⟨s.table.bind clear, fun _ => none⟩, ())

def Allowed (r : Run (Held ι K V) (Op ι K V) Unit) : Op ι K V → Prop
  | .insert elm _ _ => ∀ q ∈ r.state.table, ∀ s ∈ q.core.traverse fun _ => false, elm ∉ s.1
  | .remove _ | .clear => True

end Qhash

end SelfCertifyingFS.Async
