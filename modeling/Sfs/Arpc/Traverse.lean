import Sfs.Rpc.Xdr

/-!
# Traversal of RPC data

The objects that `rpc_traverse` visits: the templates of `arpc/rpctypes.h` and `array`, over
the `vec` of `async/vec.h`, which has slots before and behind its elements; `set` lends it
memory that it does not own. The same templates write an object to an `XDR` stream, read into
one and free one. A traversal returns false, or an assertion fails under it, or it leaves the
stream and the object as they then are.
-/

namespace SelfCertifyingFS.Arpc

section

open Foundations Rpc List

/-- `fls`: the position of the highest bit that is set, counted from one. -/
def fls (n : ℕ) : ℕ := if n = 0 then 0 else n.log2 + 1

/-- `rpc_vec<T, max>` over `vec<T>`: `firstp - basep`, the elements, `limp - lastp`, and
whether the memory is lent. -/
structure RpcVec (α : Type) where
  before : ℕ
  elems : List α
  after : ℕ
  nofree : Bool
  deriving DecidableEq, Repr

namespace RpcVec

variable {α : Type}

def size (v : RpcVec α) : ℕ := v.elems.length

def init : RpcVec α := ⟨0, [], 0, false⟩

/-- `vec::reserve`: `move` copies every element. -/
def vecReserve (copy : α → α) (n : ℕ) (v : RpcVec α) : RpcVec α :=
  if n ≤ v.after then v
  else
    let nalloc := v.before + v.size + v.after
    let nwanted := v.size + n
    if nwanted > nalloc / 2 then
      let nalloc := 1 <<< fls (max nalloc nwanted)
      { v with before := 0, elems := v.elems.map copy, after := nalloc - v.size }
    else if v.before = 0 then v
    else { v with before := 0, elems := v.elems.map copy, after := v.before + v.after }

/-- The elements appended by `vec::setsize` and `vec::push_back`, for which there is room. -/
def append (es : List α) (v : RpcVec α) : RpcVec α :=
  { v with elems := v.elems ++ es, after := v.after - es.length }

def vecSetsize (copy : α → α) (fresh : α) (n : ℕ) (v : RpcVec α) : RpcVec α :=
  if n < v.size then { v with elems := v.elems.take n, after := v.after + (v.size - n) }
  else if n - v.size ≠ 0 then
    (v.vecReserve copy (n - v.size)).append (replicate (n - v.size) fresh)
  else v

/-- What `ensure` asserts. -/
def ensure (bound m : ℕ) (v : RpcVec α) : Bool := !v.nofree && decide (v.size + m ≤ bound)

/-- `reserve`, unless the assertion fails. -/
def reserve (copy : α → α) (bound m : ℕ) (v : RpcVec α) : Option (RpcVec α) :=
  if v.ensure bound m then some (v.vecReserve copy m) else none

/-- `setsize`, unless an assertion fails. -/
def setsize (copy : α → α) (fresh : α) (bound n : ℕ) (v : RpcVec α) : Option (RpcVec α) :=
  if v.nofree ∨ bound < n then none else some (v.vecSetsize copy fresh n)

/-- The copy constructor: `append` reserves room in an empty vector. -/
def copy (copyElem : α → α) (v : RpcVec α) : RpcVec α :=
  (init.vecReserve copyElem v.size).append (v.elems.map copyElem)

variable (copy : α → α) (n : ℕ) (v : RpcVec α)

/-- `vec::reserve` keeps the elements or copies them all. -/
theorem vecReserve_elems :
    (v.vecReserve copy n).elems = v.elems ∨ (v.vecReserve copy n).elems = v.elems.map copy := by
  unfold vecReserve
  simp only
  split_ifs <;> simp

@[simp] theorem vecReserve_nofree : (v.vecReserve copy n).nofree = v.nofree := by
  unfold vecReserve
  simp only
  split_ifs <;> rfl

@[simp] theorem vecReserve_size : (v.vecReserve copy n).size = v.size := by
  rcases vecReserve_elems copy n v with h | h <;> simp [size, h]

@[simp] theorem append_size (es : List α) (v : RpcVec α) :
    (v.append es).size = v.size + es.length := by
  simp [append, size]

variable (copy : α → α) (fresh : α) (n : ℕ) (v : RpcVec α)

@[simp] theorem vecSetsize_size : (v.vecSetsize copy fresh n).size = n := by
  unfold vecSetsize
  split_ifs with hlt hne
  · simp only [size, length_take] at hlt ⊢
    omega
  · rw [append_size, vecReserve_size, length_replicate]
    omega
  · omega

@[simp] theorem vecSetsize_nofree : (v.vecSetsize copy fresh n).nofree = v.nofree := by
  unfold vecSetsize
  split_ifs <;> simp [append]

variable (copyElem : α → α) (v : RpcVec α)

@[simp] theorem copy_elems : (v.copy copyElem).elems = v.elems.map copyElem := by
  have hnil : (init.vecReserve copyElem v.size).elems = [] := by
    rcases vecReserve_elems copyElem v.size init with h | h <;> rw [h] <;> rfl
  rw [copy, append, hnil, nil_append]

@[simp] theorem copy_nofree : (v.copy copyElem).nofree = false := by
  rw [copy, append, vecReserve_nofree]
  rfl

end RpcVec

/-- The bounds of the types: `RPC_INFINITY` is written for none. -/
abbrev Bound := {n : ℕ // n ≤ rpcInfinity}

/-- The types that `rpc_traverse` is instantiated at. -/
inductive XdrType
  | uint32
  | int32
  | uint64
  | int64
  | bool
  | rpcOpaque (n : Bound)
  | rpcBytes (max : Bound)
  | rpcStr (max : Bound)
  | array (elm : XdrType) (n : ℕ)
  | rpcVec (elm : XdrType) (max : Bound)
  | rpcPtr (elm : XdrType)

/-- Objects in memory; a string may be null. -/
@[reducible] def Obj : XdrType → Type
  | .uint32 | .int32 => BitVec 32
  | .uint64 | .int64 => BitVec 64
  | .bool => Bool
  | .rpcOpaque _ => Bytes
  | .rpcBytes _ => RpcVec UInt8
  | .rpcStr _ => Option Bytes
  | .array elm _ => List (Obj elm)
  | .rpcVec elm _ => RpcVec (Obj elm)
  | .rpcPtr elm => Option (Obj elm)

/-- The default constructor; the numbers are what memory happens to hold. -/
def freshObj : (t : XdrType) → Obj t
  | .uint32 | .int32 => 0#32
  | .uint64 | .int64 => 0#64
  | .bool => false
  | .rpcOpaque n => replicate n.1 0
  | .rpcBytes _ => RpcVec.init
  | .rpcStr _ => some []
  | .array elm n => replicate n (freshObj elm)
  | .rpcVec _ _ => RpcVec.init
  | .rpcPtr _ => none

/-- The copy constructor: a copy owns its memory. -/
def copyObj : (t : XdrType) → Obj t → Obj t
  | .uint32, obj | .int32, obj | .uint64, obj | .int64, obj | .bool, obj
  | .rpcOpaque _, obj | .rpcStr _, obj => obj
  | .rpcBytes _, obj => RpcVec.copy id obj
  | .array elm _, obj => List.map (copyObj elm) obj
  | .rpcVec elm _, obj => RpcVec.copy (copyObj elm) obj
  | .rpcPtr elm, obj => Option.map (copyObj elm) obj

/-- What the classes keep true of their objects. -/
def Valid : (t : XdrType) → Obj t → Prop
  | .uint32, _ | .int32, _ | .uint64, _ | .int64, _ | .bool, _ => True
  | .rpcOpaque n, obj => length obj = n.1
  | .rpcBytes max, obj => RpcVec.size obj ≤ max.1
  | .rpcStr max, obj => ∀ s, obj = some s → s.length ≤ max.1 ∧ 0 ∉ s
  | .array elm n, obj => length obj = n ∧ ∀ e ∈ obj, Valid elm e
  | .rpcVec elm max, obj => RpcVec.size obj ≤ max.1 ∧ ∀ e ∈ RpcVec.elems obj, Valid elm e
  | .rpcPtr elm, obj => ∀ e, obj = some e → Valid elm e

/-- No vector in the object uses lent memory, apart from vectors that can only be empty. -/
def Owned : (t : XdrType) → Obj t → Prop
  | .uint32, _ | .int32, _ | .uint64, _ | .int64, _ | .bool, _
  | .rpcOpaque _, _ | .rpcStr _, _ => True
  | .rpcBytes _, obj => RpcVec.nofree obj = false
  | .array elm _, obj => ∀ e ∈ obj, Owned elm e
  | .rpcVec elm max, obj =>
    (RpcVec.nofree obj = true → max.1 = 0 ∧ RpcVec.elems obj = []) ∧
      ∀ e ∈ RpcVec.elems obj, Owned elm e
  | .rpcPtr elm, obj => ∀ e, obj = some e → Owned elm e

variable (t : XdrType)

abbrev Object := {obj : Obj t // Valid t obj}

theorem valid_freshObj : Valid t (freshObj t) := by
  induction t with
  | uint32 | int32 | uint64 | int64 | bool => trivial
  | rpcOpaque n => exact length_replicate
  | rpcBytes max => exact Nat.zero_le _
  | rpcStr max =>
    rintro s ⟨⟩
    exact ⟨Nat.zero_le _, not_mem_nil⟩
  | array elm n ih =>
    refine ⟨length_replicate, fun e he => ?_⟩
    rw [eq_of_mem_replicate he]
    exact ih
  | rpcVec elm max _ => exact ⟨Nat.zero_le _, fun e he => absurd he not_mem_nil⟩
  | rpcPtr elm _ => rintro e ⟨⟩

theorem valid_copyObj (obj : Obj t) (h : Valid t obj) : Valid t (copyObj t obj) := by
  induction t with
  | uint32 | int32 | uint64 | int64 | bool | rpcOpaque | rpcStr => exact h
  | rpcBytes max =>
    rw [copyObj, Valid, RpcVec.size, RpcVec.copy_elems, length_map]
    exact h
  | array elm n ih =>
    refine ⟨length_map _ |>.trans h.1, fun e he => ?_⟩
    obtain ⟨e', he', rfl⟩ := List.mem_map.mp he
    exact ih e' (h.2 e' he')
  | rpcVec elm max ih =>
    rw [copyObj, Valid, RpcVec.size, RpcVec.copy_elems, length_map]
    refine ⟨h.1, fun e he => ?_⟩
    obtain ⟨e', he', rfl⟩ := List.mem_map.mp he
    exact ih e' (h.2 e' he')
  | rpcPtr elm ih =>
    intro e he
    obtain ⟨e', rfl, rfl⟩ := Option.map_eq_some_iff.mp he
    exact ih e' (h e' rfl)

theorem owned_freshObj : Owned t (freshObj t) := by
  induction t with
  | uint32 | int32 | uint64 | int64 | bool | rpcOpaque | rpcStr => trivial
  | rpcBytes max => rfl
  | array elm n ih =>
    intro e he
    rw [eq_of_mem_replicate he]
    exact ih
  | rpcVec elm max _ => exact ⟨Bool.noConfusion, fun e he => absurd he not_mem_nil⟩
  | rpcPtr elm _ => rintro e ⟨⟩

theorem owned_copyObj (obj : Obj t) : Owned t (copyObj t obj) := by
  induction t with
  | uint32 | int32 | uint64 | int64 | bool | rpcOpaque | rpcStr => trivial
  | rpcBytes max => exact RpcVec.copy_nofree id obj
  | array elm n ih =>
    intro e he
    obtain ⟨e', -, rfl⟩ := List.mem_map.mp he
    exact ih e'
  | rpcVec elm max ih =>
    refine ⟨fun h => ?_, fun e he => ?_⟩
    · exact absurd ((RpcVec.copy_nofree _ obj).symm.trans h) Bool.false_ne_true
    · rw [copyObj, RpcVec.copy_elems] at he
      obtain ⟨e', -, rfl⟩ := List.mem_map.mp he
      exact ih e'
  | rpcPtr elm ih =>
    intro e he
    obtain ⟨e', -, rfl⟩ := Option.map_eq_some_iff.mp he
    exact ih e'

end

open Foundations Rpc Wire

inductive XdrOp
  | encode
  | decode
  | free
  deriving DecidableEq, Repr

/-- An `xdrsuio` with what has been written, or an `xdrmem` with what is left to read. -/
structure XDR where
  op : XdrOp
  data : Bytes
  deriving DecidableEq, Repr

/-- How a traversal ends early: it returns false, or an assertion fails. -/
inductive Stop
  | refused
  | aborted
  deriving DecidableEq, Repr

/-- Fails the assertion where there is no result. -/
def asserting {α : Type} : Option α → Except Stop α
  | some a => .ok a
  | none => .error .aborted

namespace XDR

variable (x : XDR)

/-- `XDR_PUTLONG`: the low 32 bits. -/
def putlong (l : ℤ) : XDR :=
  { x with data := x.data ++ beBytes 4 (BitVec.ofInt 32 l).toNat }

def putbytes (bs : Bytes) : XDR := { x with data := x.data ++ bs }

/-- `XDR_GETBYTES`, and `XDR_INLINE` of a stream in memory. -/
def getbytes (n : ℕ) : Except Stop (XDR × Bytes) :=
  match takeBytes n x.data with
  | some (bs, rest) => .ok ({ x with data := rest }, bs)
  | none => .error .refused

/-- `XDR_GETLONG`: an `xdrlong_t` is signed. -/
def getlong : Except Stop (XDR × ℤ) := do
  let (x, w) ← x.getbytes 4
  return (x, (BitVec.ofNat 32 (beNat w)).toInt)

end XDR

variable (x : XDR)

def xdrPutint (val : BitVec 32) : XDR := x.putlong val.toInt

def xdrGetint : Except Stop (XDR × BitVec 32) := do
  let (x, l) ← x.getlong
  return (x, BitVec.ofInt 32 l)

def xdrPuthyper (val : BitVec 64) : XDR :=
  (x.putlong (val >>> 32).toInt).putlong (val &&& 0xffffffff#64).toInt

def xdrGethyper : Except Stop (XDR × BitVec 64) := do
  let (x, h) ← x.getlong
  let (x, l) ← x.getlong
  return (x, BitVec.ofInt 64 h <<< 32 ||| BitVec.ofInt 64 l)

/-- `-n & 3`. -/
def padding (n : ℕ) : ℕ := (4 - n % 4) % 4

def xdrPutpadbytes (x : XDR) (p : Bytes) : XDR :=
  if p.length ≠ 0 then
    let x := x.putbytes p
    if padding p.length ≠ 0 then x.putbytes (List.replicate (padding p.length) 0) else x
  else x

def xdrGetpadbytes (x : XDR) (n : ℕ) : Except Stop (XDR × Bytes) := do
  let (x, p) ← x.getbytes n
  if padding n ≠ 0 then
    let (x, _) ← x.getbytes (padding n)
    return (x, p)
  else return (x, p)

/-- `size + 3 & ~3` of a `u_int32_t`. -/
def inlineSize (size : BitVec 32) : ℕ := (size + 3#32).toNat / 4 * 4

def traverseUint32 (x : XDR) (obj : BitVec 32) : Except Stop (XDR × BitVec 32) :=
  match x.op with
  | .encode => .ok (xdrPutint x obj, obj)
  | .decode => xdrGetint x
  | .free => .ok (x, obj)

def traverseUint64 (x : XDR) (obj : BitVec 64) : Except Stop (XDR × BitVec 64) := do
  let (x, hi) ← traverseUint32 x ((obj >>> 32).setWidth 32)
  let (x, lo) ← traverseUint32 x (obj.setWidth 32)
  return (x, hi.setWidth 64 <<< 32 ||| lo.setWidth 64)

def traverseBool (x : XDR) (obj : Bool) : Except Stop (XDR × Bool) := do
  let (x, val) ← traverseUint32 x (if obj then 1#32 else 0#32)
  return (x, val != 0#32)

def traverseOpaque (n : ℕ) (x : XDR) (obj : Bytes) : Except Stop (XDR × Bytes) :=
  match x.op with
  | .encode => .ok (xdrPutpadbytes x obj, obj)
  | .decode => xdrGetpadbytes x n
  | .free => .ok (x, obj)

variable (bound : ℕ) (x : XDR)

def traverseBytes (obj : RpcVec UInt8) :
    Except Stop (XDR × RpcVec UInt8) :=
  match x.op with
  | .encode => .ok (xdrPutpadbytes (xdrPutint x (BitVec.ofNat 32 obj.size)) obj.elems, obj)
  | .decode => do
    let (x, size) ← xdrGetint x
    if size.toNat > bound then .error .refused
    else
      let (x, dp) ← x.getbytes (inlineSize size)
      let obj ← asserting (obj.setsize id 0 bound size.toNat)
      return (x, { obj with elems := dp.take size.toNat })
  | .free => .ok (x, obj)

def traverseStr (obj : Option Bytes) :
    Except Stop (XDR × Option Bytes) :=
  match x.op with
  | .encode =>
    match obj with
    | none => .error .refused
    | some s => .ok (xdrPutpadbytes (xdrPutint x (BitVec.ofNat 32 s.length)) s, obj)
  | .decode => do
    let (x, size) ← xdrGetint x
    if size.toNat > bound then .error .refused
    else
      let (x, dp) ← x.getbytes (inlineSize size)
      if 0 ∈ dp.take size.toNat then .error .refused
      else return (x, some (dp.take size.toNat))
  | .free => .ok (x, obj)

section Templates

variable {α : Type} (traverse : XDR → α → Except Stop (XDR × α))

/-- The loop over the elements that an object has. -/
def traverseAll : XDR → List α → Except Stop (XDR × List α)
  | x, [] => .ok (x, [])
  | x, e :: es => do
    let (x, e) ← traverse x e
    let (x, es) ← traverseAll x es
    return (x, e :: es)

variable (copy : α → α) (fresh : α) (bound : ℕ)

/-- The loop over `i` elements that `push_back` constructs. -/
def traversePushed : ℕ → XDR → RpcVec α → Except Stop (XDR × RpcVec α)
  | 0, x, obj => .ok (x, obj)
  | i + 1, x, obj => do
    let obj ← asserting (obj.reserve copy bound 1)
    let (x, e) ← traverse x fresh
    traversePushed i x (obj.append [e])

/-- The vector before its elements are traversed: cut, or with room for some more. -/
def resizeVec (perPage size : ℕ) (obj : RpcVec α) : Except Stop (RpcVec α) :=
  if size < obj.size then asserting (obj.setsize copy fresh bound size)
  else if size > obj.size then
    let maxreserve := min perPage size
    if obj.size < maxreserve then asserting (obj.reserve copy bound (maxreserve - obj.size))
    else .ok obj
  else .ok obj

/-- `rpc_vec<R, n>`; `perPage` is `0x10000 / sizeof (elm_t)`. -/
def traverseVec (perPage : ℕ) (x : XDR) (obj : RpcVec α) : Except Stop (XDR × RpcVec α) := do
  let (x, size) ← traverseUint32 x (BitVec.ofNat 32 obj.size)
  if size.toNat > bound then .error .refused
  else
    let obj ← resizeVec copy fresh bound perPage size.toNat obj
    let (x, es) ← traverseAll traverse x obj.elems
    let obj := { obj with elems := es }
    traversePushed traverse copy fresh bound (size.toNat - obj.size) x obj

/-- `rpc_ptr<R>`. -/
def traversePtr (x : XDR) (obj : Option α) : Except Stop (XDR × Option α) := do
  let (x, nonnil) ← traverseBool x obj.isSome
  if nonnil then
    let (x, e) ← traverse x (obj.getD fresh)
    return (x, some e)
  else return (x, none)

end Templates

/-- `rpc_traverse` at each type. -/
def rpcTraverse (sizeof : XdrType → ℕ) :
    (t : XdrType) → XDR → Obj t → Except Stop (XDR × Obj t)
  | .uint32, x, obj | .int32, x, obj => traverseUint32 x obj
  | .uint64, x, obj | .int64, x, obj => traverseUint64 x obj
  | .bool, x, obj => traverseBool x obj
  | .rpcOpaque n, x, obj => traverseOpaque n.1 x obj
  | .rpcBytes max, x, obj => traverseBytes max.1 x obj
  | .rpcStr max, x, obj => traverseStr max.1 x obj
  | .array elm _, x, obj => traverseAll (rpcTraverse sizeof elm) x obj
  | .rpcVec elm max, x, obj =>
    traverseVec (rpcTraverse sizeof elm) (copyObj elm) (freshObj elm) max.1
      (0x10000 / sizeof elm) x obj
  | .rpcPtr elm, x, obj => traversePtr (rpcTraverse sizeof elm) (freshObj elm) x obj

end SelfCertifyingFS.Arpc
