import Sfs.Foundations.Runs
import Sfs.Foundations.Recency

/-!
# The attribute and access cache

`attrcache.C` keeps the attributes of recently seen files, and beside them the
access permissions that the server has reported to each user. All caches of a
process share one list in order of last use, from whose head entries are evicted
once there are more than `max_attr_dat`.

An entry is in the hash table of its cache as long as it is in the shared list,
so one list is both; a lookup is a search by cache and handle.
-/

namespace SelfCertifyingFS.Nfs

open Foundations

def maxAttrDat : ℕ := 1024

structure NfsTime3 where
  seconds : UInt32
  nseconds : UInt32
  deriving DecidableEq, Repr

/-- `fattr3exp`: the attributes of a file and the time at which they expire. -/
structure Fattr3exp where
  type : UInt32
  mode : UInt32
  nlink : UInt32
  uid : UInt32
  gid : UInt32
  size : UInt64
  used : UInt64
  rdev : UInt32 × UInt32
  fsid : UInt64
  fileid : UInt64
  atime : NfsTime3
  mtime : NfsTime3
  ctime : NfsTime3
  expire : UInt32
  deriving DecidableEq, Repr

/-- Same mode, owner and group: the reported permissions stay meaningful. -/
def Fattr3exp.SameOwner (a b : Fattr3exp) : Prop :=
  a.mode = b.mode ∧ a.uid = b.uid ∧ a.gid = b.gid

instance (a b : Fattr3exp) : Decidable (a.SameOwner b) :=
  inferInstanceAs (Decidable (_ ∧ _ ∧ _))

/-- The permission bits asked for so far, and those granted. -/
structure AccessDat where
  mask : BitVec 32
  perm : BitVec 32
  deriving DecidableEq, Repr

/-- One cached file: its cache, its handle, and a hash table of permissions. -/
structure AttrDat (κ φ α : Type*) where
  cache : κ
  fh : φ
  attr : Fattr3exp
  access : α → Option AccessDat

/-- The static variables of `attrcache.C`. -/
structure AttrCaches (κ φ α : Type*) where
  lrulist : List (AttrDat κ φ α)
  numAttrDat : ℕ

inductive CacheOp (κ φ α : Type*)
  | attrEnter (c : κ) (fh : φ) (a : Option Fattr3exp)
  | attrLookup (c : κ) (fh : φ) (timenow : ℕ)
  | accessEnter (c : κ) (fh : φ) (aid : α) (mask perm : BitVec 32)
  | accessLookup (c : κ) (fh : φ) (aid : α) (mask : BitVec 32) (timenow : ℕ)
  | flushAttr (c : κ)
  | flushAccess (c : κ) (aid : α)
  | flushAccessFh (c : κ) (fh : φ) (aid : α)

/-- What a call returns: nothing, attributes or the null pointer, a permission
word. For the last one, `hit` notes that it came from an entry. -/
inductive CacheRes
  | unit
  | attr (a : Option Fattr3exp)
  | perm (hit : Bool) (p : ℤ)
  deriving DecidableEq

variable {κ φ α : Type*}

def AttrDat.key (ad : AttrDat κ φ α) : κ × φ := (ad.cache, ad.fh)

/-- A new entry: no permissions are known yet. -/
def AttrDat.create (c : κ) (fh : φ) (a : Fattr3exp) : AttrDat κ φ α := ⟨c, fh, a, fun _ => none⟩

def AttrDat.Valid (ad : AttrDat κ φ α) (timenow : ℕ) : Prop := timenow < ad.attr.expire.toNat

instance (ad : AttrDat κ φ α) (timenow : ℕ) : Decidable (ad.Valid timenow) :=
  inferInstanceAs (Decidable (_ < _))

def AttrDat.set (a : Fattr3exp) (ad : AttrDat κ φ α) : AttrDat κ φ α :=
  { ad with
    attr := a
    access := if a.SameOwner ad.attr then ad.access else fun _ => none }

/-- Merge a report into the bits already held. -/
def AccessDat.merge (ac : AccessDat) (mask perm : BitVec 32) : AccessDat :=
  { mask := ac.mask ||| mask
    perm := (ac.perm &&& ~~~perm) ||| (mask &&& perm) }

/-- `ad->attr.expire = 0`. -/
def AttrDat.expireNow (ad : AttrDat κ φ α) : AttrDat κ φ α :=
  { ad with attr := { ad.attr with expire := 0 } }

@[simp] theorem key_set (a : Fattr3exp) (ad : AttrDat κ φ α) : (ad.set a).key = ad.key := rfl

@[simp] theorem key_expireNow (ad : AttrDat κ φ α) : ad.expireNow.key = ad.key := rfl

@[simp] theorem attr_set (a : Fattr3exp) (ad : AttrDat κ φ α) : (ad.set a).attr = a := rfl

section Tables

variable [DecidableEq α] (aid : α)

/-- A report for a user that has no permissions yet is stored as it comes. -/
def AttrDat.enterAccess (mask perm : BitVec 32) (ad : AttrDat κ φ α) : AttrDat κ φ α :=
  let ac := match ad.access aid with
    | none => ⟨mask, perm⟩
    | some ac => ac.merge mask perm
  { ad with access := Function.update ad.access aid (some ac) }

def AttrDat.removeAccess (ad : AttrDat κ φ α) : AttrDat κ φ α :=
  { ad with access := Function.update ad.access aid none }

@[simp] theorem key_enterAccess (mask perm : BitVec 32) (ad : AttrDat κ φ α) :
    (ad.enterAccess aid mask perm).key = ad.key := rfl

@[simp] theorem key_removeAccess (ad : AttrDat κ φ α) : (ad.removeAccess aid).key = ad.key := rfl

end Tables

namespace AttrCaches

def empty : AttrCaches κ φ α := ⟨[], 0⟩

/-- Delete from the head while there are too many entries. -/
def evict : List (AttrDat κ φ α) → ℕ → AttrCaches κ φ α
  | [], n => ⟨[], n⟩
  | ad :: rest, n => if n > maxAttrDat then evict rest (n - 1) else ⟨ad :: rest, n⟩

/-- The constructor of `attr_dat`, with the evictions it may cause. -/
def construct (s : AttrCaches κ φ α) (c : κ) (fh : φ) (a : Fattr3exp) : AttrCaches κ φ α :=
  evict (s.lrulist ++ [.create c fh a]) (s.numAttrDat + 1)

variable [DecidableEq κ] [DecidableEq φ] (s : AttrCaches κ φ α) (k : κ × φ)

/-- `attrs[fh]` of a cache. -/
def lookup : Option (AttrDat κ φ α) :=
  s.lrulist.find? fun ad => ad.key = k

def update (f : AttrDat κ φ α → AttrDat κ φ α) :
    AttrCaches κ φ α :=
  { s with lrulist := s.lrulist.map fun ad => if ad.key = k then f ad else ad }

/-- `attr_dat::touch` of the entry with this key. -/
def touch : AttrCaches κ φ α :=
  { s with lrulist := s.lrulist.filter (fun ad => ad.key ≠ k) ++
      s.lrulist.filter (fun ad => ad.key = k) }

def attrEnter (c : κ) (fh : φ) (a : Option Fattr3exp) :
    AttrCaches κ φ α :=
  match a with
  | none => s.update (c, fh) AttrDat.expireNow
  | some a =>
      match s.lookup (c, fh) with
      | none => s.construct c fh a
      | some _ => (s.update (c, fh) (AttrDat.set a)).touch (c, fh)

def attrLookup (c : κ) (fh : φ) (timenow : ℕ) :
    AttrCaches κ φ α × Option Fattr3exp :=
  match s.lookup (c, fh) with
  | none => (s, none)
  | some ad => if ad.Valid timenow then (s.touch (c, fh), some ad.attr) else (s, none)

variable [DecidableEq α] (s : AttrCaches κ φ α) (c : κ) (fh : φ) (aid : α)

def accessEnter (mask perm : BitVec 32) :
    AttrCaches κ φ α :=
  match s.lookup (c, fh) with
  | none => s
  | some _ => (s.update (c, fh) (AttrDat.enterAccess aid mask perm)).touch (c, fh)

variable (mask : BitVec 32) (timenow : ℕ)

/-- The nested tests of `access_lookup`. -/
def accessHit : Option (BitVec 32) :=
  match s.lookup (c, fh) with
  | none => none
  | some ad =>
      if ad.Valid timenow then
        match ad.access aid with
        | none => none
        | some ac => if mask &&& ac.mask = mask then some (ac.perm &&& mask) else none
      else none

/-- The result is an `int32_t`: a granted top bit would read as negative. -/
def accessLookup : AttrCaches κ φ α × ℤ :=
  match s.accessHit c fh aid mask timenow with
  | none => (s, -1)
  | some perm => (s.touch (c, fh), perm.toInt)

/-- `flush_attr`, and the destructor of a cache. -/
def flushAttr : AttrCaches κ φ α :=
  { lrulist := s.lrulist.filter fun ad => ad.cache ≠ c
    numAttrDat := s.numAttrDat - s.lrulist.countP fun ad => ad.cache = c }

/-- `flush_access (aid)`: every entry of the cache forgets the user. -/
def flushAccess (aid : α) : AttrCaches κ φ α :=
  { s with lrulist := s.lrulist.map fun ad => if ad.cache = c then ad.removeAccess aid else ad }

def step (s : AttrCaches κ φ α) (op : CacheOp κ φ α) : AttrCaches κ φ α × CacheRes :=
  match op with
  | .attrEnter c fh a => (s.attrEnter c fh a, .unit)
  | .attrLookup c fh timenow =>
      let out := s.attrLookup c fh timenow
      (out.1, .attr out.2)
  | .accessEnter c fh aid mask perm => (s.accessEnter c fh aid mask perm, .unit)
  | .accessLookup c fh aid mask timenow =>
      let out := s.accessLookup c fh aid mask timenow
      (out.1, .perm (s.accessHit c fh aid mask timenow).isSome out.2)
  | .flushAttr c => (s.flushAttr c, .unit)
  | .flushAccess c aid => (s.flushAccess c aid, .unit)
  | .flushAccessFh c fh aid => (s.update (c, fh) (AttrDat.removeAccess aid), .unit)

end AttrCaches

end SelfCertifyingFS.Nfs
