import Sfs.Arpc.Traverse

/-!
# Round trip of the traversal

The values of an RPC type and their external representation, independent of the objects
that hold them. Traversing an object writes the representation of the value it holds, and
traversing another object reads it back, whatever that object held, unless one of its
vectors uses lent memory.
-/

namespace SelfCertifyingFS.Arpc

open Foundations Rpc Wire List RpcVec XDR
open Option hiding map_id
open BitVec hiding append append_assoc lt_trichotomy replicate_zero

@[reducible] def Val : XdrType → Type
  | .uint32 | .int32 => BitVec 32
  | .uint64 | .int64 => BitVec 64
  | .bool => Bool
  | .rpcOpaque n => {bs : Bytes // bs.length = n.1}
  | .rpcBytes max => {bs : Bytes // bs.length ≤ max.1}
  | .rpcStr max => {s : Bytes // s.length ≤ max.1 ∧ 0 ∉ s}
  | .array elm n => {vs : List (Val elm) // vs.length = n}
  | .rpcVec elm max => {vs : List (Val elm) // vs.length ≤ max.1}
  | .rpcPtr elm => Option (Val elm)

def word (n : ℕ) : Bytes := beBytes 4 n

@[simp] theorem length_word (n : ℕ) : (word n).length = 4 := length_beBytes 4 n

def encodeVal : (t : XdrType) → Val t → Bytes
  | .uint32, v | .int32, v => word (BitVec.toNat v)
  | .uint64, v | .int64, v => word (BitVec.toNat v / 2 ^ 32) ++ word (BitVec.toNat v % 2 ^ 32)
  | .bool, v => word (Bool.toNat v)
  | .rpcOpaque _, v => padded v.1
  | .rpcBytes _, v | .rpcStr _, v => word v.1.length ++ padded v.1
  | .array elm _, v => v.1.flatMap (encodeVal elm)
  | .rpcVec elm _, v => word v.1.length ++ v.1.flatMap (encodeVal elm)
  | .rpcPtr _, none => word 0
  | .rpcPtr elm, some v => word 1 ++ encodeVal elm v

def Holds : (t : XdrType) → Obj t → Val t → Prop
  | .uint32, obj, v | .int32, obj, v | .uint64, obj, v | .int64, obj, v | .bool, obj, v => obj = v
  | .rpcOpaque _, obj, v => obj = v.1
  | .rpcBytes _, obj, v => elems obj = v.1
  | .rpcStr _, obj, v => obj = some v.1
  | .array elm _, obj, v => Forall₂ (Holds elm) obj v.1
  | .rpcVec elm _, obj, v => Forall₂ (Holds elm) (elems obj) v.1
  | .rpcPtr elm, obj, v => Option.Rel (Holds elm) obj v

theorem four_dvd_pad4 (n : ℕ) : 4 ∣ pad4 n := ⟨(n + 3) / 4, by rw [pad4, mul_comm]⟩

variable {β α : Type} {bs : Bytes} {bound : ℕ}

theorem dvd_length_flatMap {enc : β → Bytes} (h : ∀ b, 4 ∣ (enc b).length) (bs : List β) :
    4 ∣ (bs.flatMap enc).length := by
  induction bs with
  | nil => exact dvd_zero 4
  | cons b bs ih =>
    rw [flatMap_cons, length_append]
    exact (h b).add ih

theorem four_dvd_length_encodeVal (t : XdrType) (v : Val t) : 4 ∣ (encodeVal t v).length := by
  induction t with
  | uint32 | int32 | uint64 | int64 | bool => simp [encodeVal]
  | rpcOpaque n =>
    rw [encodeVal, length_padded]
    exact four_dvd_pad4 _
  | rpcBytes max | rpcStr max =>
    rw [encodeVal, length_append, length_padded]
    exact (dvd_refl 4).add (four_dvd_pad4 _)
  | array elm n ih => exact dvd_length_flatMap ih v.1
  | rpcVec elm max ih =>
    rw [encodeVal, length_append]
    exact (dvd_refl 4).add (dvd_length_flatMap ih v.1)
  | rpcPtr elm ih =>
    cases v with
    | none => simp [encodeVal]
    | some v =>
      rw [encodeVal, length_append]
      exact (dvd_refl 4).add (ih v)

/-! ### The stream -/

@[simp] theorem ok_bind {ε : Type} (a : α) (f : α → Except ε β) : (Except.ok a >>= f) = f a := rfl

@[simp] theorem error_bind {ε : Type} (e : ε) (f : α → Except ε β) :
    (Except.error e >>= f) = .error e := rfl

@[simp] theorem asserting_some (a : α) : asserting (some a) = .ok a := rfl

@[simp] theorem asserting_none : asserting (none : Option α) = .error .aborted := rfl

theorem getbytes_append {n : ℕ} (h : bs.length = n) (op : XdrOp) (rest : Bytes) :
    getbytes ⟨op, bs ++ rest⟩ n = .ok (⟨op, rest⟩, bs) := by
  simp only [getbytes]
  rw [takeBytes_append h]

variable (op : XdrOp)

theorem xdrPutint_eq (w : Bytes) (val : BitVec 32) :
    xdrPutint ⟨op, w⟩ val = ⟨op, w ++ word val.toNat⟩ := by
  rw [xdrPutint, putlong, ofInt_toInt, word]

variable (val : BitVec 32) (rest : Bytes)

theorem getlong_word : getlong ⟨op, word val.toNat ++ rest⟩ = .ok (⟨op, rest⟩, val.toInt) := by
  have hlt : val.toNat < 256 ^ 4 := val.isLt
  simp only [getlong, getbytes_append (length_word _), ok_bind]
  rw [word, beNat_beBytes hlt, ofNat_toNat]
  rfl

theorem xdrGetint_word : xdrGetint ⟨op, word val.toNat ++ rest⟩ = .ok (⟨op, rest⟩, val) := by
  simp only [xdrGetint, getlong_word, ok_bind, ofInt_toInt]
  rfl

theorem padding_eq (n : ℕ) : padding n = pad4 n - n := by
  unfold padding pad4
  omega

theorem xdrPutpadbytes_eq (op : XdrOp) (w p : Bytes) :
    xdrPutpadbytes ⟨op, w⟩ p = ⟨op, w ++ padded p⟩ := by
  unfold xdrPutpadbytes
  rw [padding_eq, padded]
  split_ifs with hlen hpad
  · rw [putbytes, putbytes, append_assoc]
  · rw [putbytes, not_not.mp hpad, replicate_zero, append_nil]
  · rw [length_eq_zero_iff.mp (not_not.mp hlen)]
    exact congrArg (mk op) (append_nil w).symm

theorem xdrGetpadbytes_padded (op : XdrOp) (p rest : Bytes) :
    xdrGetpadbytes ⟨op, padded p ++ rest⟩ p.length = .ok (⟨op, rest⟩, p) := by
  rw [xdrGetpadbytes, padding_eq, padded, append_assoc, getbytes_append rfl, ok_bind]
  split_ifs with hpad
  · simp only
    rw [getbytes_append length_replicate]
    rfl
  · rw [not_not.mp hpad]
    rfl

theorem inlineSize_eq {size : BitVec 32} (h : size.toNat ≤ rpcInfinity) :
    inlineSize size = pad4 size.toNat := by
  have hlt : size.toNat + 3 < 2 ^ 32 := by
    unfold rpcInfinity at h
    omega
  rw [inlineSize, pad4, toNat_add, BitVec.toNat_ofNat, Nat.mod_eq_of_lt hlt]

theorem toNat_ofNat_of_le {n : ℕ} (h : n ≤ rpcInfinity) : (BitVec.ofNat 32 n).toNat = n := by
  exact Nat.mod_eq_of_lt (by unfold rpcInfinity at h; omega)

/-- The size that is written before the bytes, and the bytes read at once. -/
theorem getint_getbytes_padded (bs : Bytes) (h : bs.length ≤ rpcInfinity) (op : XdrOp)
    (rest : Bytes) :
    xdrGetint ⟨op, word bs.length ++ padded bs ++ rest⟩ =
        .ok (⟨op, padded bs ++ rest⟩, BitVec.ofNat 32 bs.length) ∧
      getbytes ⟨op, padded bs ++ rest⟩ (inlineSize (BitVec.ofNat 32 bs.length)) =
        .ok (⟨op, rest⟩, padded bs) := by
  have hsize := toNat_ofNat_of_le h
  constructor
  · have hget := xdrGetint_word op (BitVec.ofNat 32 bs.length) (padded bs ++ rest)
    rwa [hsize] at hget
  · rw [inlineSize_eq (by rwa [hsize]), hsize]
    exact getbytes_append (length_padded bs) op rest

theorem take_padded (bs : Bytes) : (padded bs).take bs.length = bs := by
  rw [padded, take_left]

/-! ### Numbers, bytes and strings -/

theorem traverseUint32_encode (w : Bytes) (obj : BitVec 32) :
    traverseUint32 ⟨.encode, w⟩ obj = .ok (⟨.encode, w ++ word obj.toNat⟩, obj) := by
  simp only [traverseUint32, xdrPutint_eq]

theorem traverseUint32_decode (val obj : BitVec 32) (rest : Bytes) :
    traverseUint32 ⟨.decode, word val.toNat ++ rest⟩ obj = .ok (⟨.decode, rest⟩, val) :=
  xdrGetint_word .decode val rest

theorem traverseUint32_size {n : ℕ} (h : n ≤ rpcInfinity) (obj : BitVec 32) (rest : Bytes) :
    traverseUint32 ⟨.decode, word n ++ rest⟩ obj = .ok (⟨.decode, rest⟩, BitVec.ofNat 32 n) := by
  have hget := traverseUint32_decode (BitVec.ofNat 32 n) obj rest
  rwa [toNat_ofNat_of_le h] at hget

variable (v : BitVec 64)

theorem high_word_toNat : ((v >>> 32).setWidth 32).toNat = v.toNat / 2 ^ 32 := by
  rw [toNat_setWidth, toNat_ushiftRight, Nat.shiftRight_eq_div_pow, Nat.mod_eq_of_lt (by omega)]

theorem low_word_toNat : (v.setWidth 32).toNat = v.toNat % 2 ^ 32 := toNat_setWidth 32 v

theorem join_words :
    ((v >>> 32).setWidth 32).setWidth 64 <<< 32 ||| (v.setWidth 32).setWidth 64 = v := by
  grind

theorem traverseUint64_encode (w : Bytes) (obj : BitVec 64) :
    traverseUint64 ⟨.encode, w⟩ obj =
      .ok (⟨.encode, w ++ (word (obj.toNat / 2 ^ 32) ++ word (obj.toNat % 2 ^ 32))⟩, obj) := by
  rw [← high_word_toNat]
  simp only [traverseUint64, traverseUint32_encode, ok_bind, join_words, append_assoc]
  rfl

theorem traverseUint64_decode (val obj : BitVec 64) (rest : Bytes) :
    traverseUint64 ⟨.decode, word (val.toNat / 2 ^ 32) ++ word (val.toNat % 2 ^ 32) ++ rest⟩ obj =
      .ok (⟨.decode, rest⟩, val) := by
  rw [← high_word_toNat, ← low_word_toNat, append_assoc]
  simp only [traverseUint64, traverseUint32_decode, ok_bind, join_words]
  rfl

theorem traverseBool_encode (w : Bytes) (obj : Bool) :
    traverseBool ⟨.encode, w⟩ obj = .ok (⟨.encode, w ++ word obj.toNat⟩, obj) := by
  cases obj <;> simp only [traverseBool] <;> rfl

theorem traverseBool_decode (val obj : Bool) (rest : Bytes) :
    traverseBool ⟨.decode, word val.toNat ++ rest⟩ obj = .ok (⟨.decode, rest⟩, val) := by
  cases val <;> rfl

section

variable (hbound : bound ≤ rpcInfinity)

include hbound

theorem traverseBytes_decode (hbs : bs.length ≤ bound) {obj : RpcVec UInt8}
    (hobj : obj.nofree = false) (rest : Bytes) :
    ∃ obj', traverseBytes bound ⟨.decode, word bs.length ++ padded bs ++ rest⟩ obj =
      .ok (⟨.decode, rest⟩, obj') ∧ obj'.elems = bs := by
  have hsize := toNat_ofNat_of_le (hbs.trans hbound)
  obtain ⟨hint, hdp⟩ := getint_getbytes_padded bs (hbs.trans hbound) .decode rest
  have hset : obj.setsize id 0 bound bs.length = some (obj.vecSetsize id 0 bs.length) :=
    if_neg (by simp [hobj, hbs])
  refine ⟨{ obj.vecSetsize id 0 bs.length with elems := bs }, ?_, rfl⟩
  simp only [traverseBytes, hint, ok_bind, hsize, hdp, if_neg (not_lt.mpr hbs), hset, take_padded]
  rfl

theorem traverseBytes_aborts (hbs : bs.length ≤ bound) {obj : RpcVec UInt8}
    (hobj : obj.nofree = true) (rest : Bytes) :
    traverseBytes bound ⟨.decode, word bs.length ++ padded bs ++ rest⟩ obj = .error .aborted := by
  have hsize := toNat_ofNat_of_le (hbs.trans hbound)
  obtain ⟨hint, hdp⟩ := getint_getbytes_padded bs (hbs.trans hbound) .decode rest
  have hset : obj.setsize id 0 bound bs.length = none := if_pos (.inl hobj)
  simp only [traverseBytes, hint, ok_bind, hsize, hdp, if_neg (not_lt.mpr hbs), hset,
    asserting_none, error_bind]

theorem traverseStr_decode {s : Bytes} (hs : s.length ≤ bound) (hzero : 0 ∉ s) (obj : Option Bytes)
    (rest : Bytes) :
    traverseStr bound ⟨.decode, word s.length ++ padded s ++ rest⟩ obj =
      .ok (⟨.decode, rest⟩, some s) := by
  have hsize := toNat_ofNat_of_le (hs.trans hbound)
  obtain ⟨hint, hdp⟩ := getint_getbytes_padded s (hs.trans hbound) .decode rest
  simp only [traverseStr, hint, ok_bind, hsize, hdp, if_neg (not_lt.mpr hs), take_padded,
    if_neg hzero]
  rfl

end

/-! ### Templates

What the templates do, given what the traversal of the elements does. -/

section Templates

variable {α β : Type} (traverse : XDR → α → Except Stop (XDR × α)) (enc : β → Bytes)
  (R : α → β → Prop)

/-- Objects are written as the values they hold. -/
def Writes : Prop :=
  ∀ a b w, R a b → traverse ⟨.encode, w⟩ a = .ok (⟨.encode, w ++ enc b⟩, a)

def ReadsInto (a : α) : Prop :=
  ∀ b rest, ∃ a', traverse ⟨.decode, enc b ++ rest⟩ a = .ok (⟨.decode, rest⟩, a') ∧ R a' b

/-- An assertion fails when the value is read into the object. -/
def AbortsOn (a : α) (b : β) : Prop :=
  ∀ rest, traverse ⟨.decode, enc b ++ rest⟩ a = .error .aborted

variable {traverse enc R} {as : List α} {bs : List β}

theorem Writes.all (h : Writes traverse enc R) (hR : Forall₂ R as bs) (w : Bytes) :
    traverseAll traverse ⟨.encode, w⟩ as = .ok (⟨.encode, w ++ bs.flatMap enc⟩, as) := by
  induction hR generalizing w with
  | nil => simp [traverseAll]
  | cons hab _ ih =>
    simp only [traverseAll, h _ _ w hab, ok_bind, ih, append_assoc]
    rfl

theorem traverseAll_reads (h : ∀ a ∈ as, ReadsInto traverse enc R a) (hlen : as.length = bs.length)
    (rest : Bytes) :
    ∃ as', traverseAll traverse ⟨.decode, bs.flatMap enc ++ rest⟩ as = .ok (⟨.decode, rest⟩, as') ∧
      Forall₂ R as' bs := by
  induction as generalizing bs with
  | nil =>
    obtain rfl := length_eq_zero_iff.mp hlen.symm
    exact ⟨[], rfl, .nil⟩
  | cons a as ih =>
    obtain ⟨b, bs, rfl⟩ := exists_cons_of_length_eq_add_one hlen.symm
    obtain ⟨a', ha, hR⟩ := h a mem_cons_self b (bs.flatMap enc ++ rest)
    obtain ⟨as', has, hRs⟩ := ih (fun e he => h e (mem_cons_of_mem a he))
      (Nat.succ.inj hlen)
    refine ⟨a' :: as', ?_, .cons hR hRs⟩
    simp only [traverseAll, flatMap_cons, append_assoc, ha, ok_bind, has]
    rfl

theorem AbortsOn.not_reads {a : α} {b : β} (h : AbortsOn traverse enc a b) :
    ¬ ReadsInto traverse enc R a := by
  intro hread
  obtain ⟨a', ha, -⟩ := hread b []
  rw [h []] at ha
  exact absurd ha (by rintro ⟨⟩)

/-- One object that cannot be read into stops the loop. -/
theorem traverseAll_aborts (b0 : β)
    (h : ∀ a ∈ as, ReadsInto traverse enc R a ∨ ∃ b, AbortsOn traverse enc a b)
    (hbad : ∃ a ∈ as, ¬ ReadsInto traverse enc R a) :
    ∃ bs : List β, bs.length = as.length ∧
      ∀ rest, traverseAll traverse ⟨.decode, bs.flatMap enc ++ rest⟩ as = .error .aborted := by
  induction as with
  | nil =>
    obtain ⟨a, ha, -⟩ := hbad
    exact absurd ha not_mem_nil
  | cons a as ih =>
    rcases h a mem_cons_self with hread | ⟨b, hb⟩
    · have hbad' : ∃ a ∈ as, ¬ ReadsInto traverse enc R a := by
        obtain ⟨a', ha', hno⟩ := hbad
        rcases mem_cons.mp ha' with rfl | ha'
        · exact absurd hread hno
        · exact ⟨a', ha', hno⟩
      obtain ⟨bs, hlen, hbs⟩ := ih (fun e he => h e (mem_cons_of_mem a he)) hbad'
      refine ⟨b0 :: bs, by simp [hlen], fun rest => ?_⟩
      obtain ⟨a', ha, -⟩ := hread b0 (bs.flatMap enc ++ rest)
      simp [traverseAll, append_assoc, ha, ok_bind, hbs]
    · refine ⟨b :: replicate as.length b0, by simp, fun rest => ?_⟩
      simp only [traverseAll, flatMap_cons, append_assoc, hb _, error_bind]

variable {copy : α → α} {fresh : α} {bound : ℕ} {obj : RpcVec α}

theorem forall₂_vecReserve (hcopy : ∀ a b, R a b → R (copy a) b) (h : Forall₂ R obj.elems bs)
    (n : ℕ) :
    Forall₂ R (obj.vecReserve copy n).elems bs := by
  rcases vecReserve_elems copy n obj with heq | heq
  · rwa [heq]
  · rw [heq, forall₂_map_left_iff]
    exact h.imp hcopy

theorem traversePushed_reads (hcopy : ∀ a b, R a b → R (copy a) b)
    (hfresh : ReadsInto traverse enc R fresh) (bs : List β) (obj : RpcVec α) {done : List β}
    (hobj : obj.nofree = false) (hdone : Forall₂ R obj.elems done)
    (hle : obj.size + bs.length ≤ bound) (rest : Bytes) :
    ∃ obj', traversePushed traverse copy fresh bound bs.length
        ⟨.decode, bs.flatMap enc ++ rest⟩ obj = .ok (⟨.decode, rest⟩, obj') ∧
      Forall₂ R obj'.elems (done ++ bs) := by
  induction bs generalizing obj done with
  | nil => exact ⟨obj, rfl, by simpa using hdone⟩
  | cons b bs ih =>
    rw [length_cons] at hle
    have hres : obj.reserve copy bound 1 = some (obj.vecReserve copy 1) := by
      refine if_pos ?_
      simp only [ensure, hobj, Bool.not_false, Bool.true_and, decide_eq_true_eq]
      omega
    obtain ⟨e, he, hR⟩ := hfresh b (bs.flatMap enc ++ rest)
    have hpushed : Forall₂ R ((obj.vecReserve copy 1).append [e]).elems (done ++ [b]) :=
      (rel_append (forall₂_vecReserve hcopy hdone 1)) (.cons hR .nil)
    have hnofree : ((obj.vecReserve copy 1).append [e]).nofree = false := by
      rwa [append, vecReserve_nofree]
    have hsize : ((obj.vecReserve copy 1).append [e]).size + bs.length ≤ bound := by
      rw [append_size, vecReserve_size, length_singleton]
      omega
    obtain ⟨obj', hrun, hall⟩ := ih _ hnofree hpushed hsize
    refine ⟨obj', ?_, by simpa using hall⟩
    simp only [traversePushed, length_cons, flatMap_cons, append_assoc, hres,
      asserting_some, ok_bind, he, hrun]

variable (copy fresh) in
theorem resizeVec_spec (perPage : ℕ) {size : ℕ} (hsize : size ≤ bound) {obj : RpcVec α}
    (hobj : size ≠ obj.size → obj.nofree = false) :
    ∃ obj', resizeVec copy fresh bound perPage size obj = .ok obj' ∧
      obj'.nofree = obj.nofree ∧ obj'.size = min size obj.size ∧
      ∀ e ∈ obj'.elems, e ∈ obj.elems ∨ ∃ e0 ∈ obj.elems, e = copy e0 := by
  unfold resizeVec
  rcases lt_trichotomy size obj.size with hlt | heq | hgt
  · have hset : obj.setsize copy fresh bound size = some (obj.vecSetsize copy fresh size) :=
      if_neg (by simp [hobj hlt.ne, hsize])
    rw [if_pos hlt, hset]
    refine ⟨_, rfl, vecSetsize_nofree _ _ _ _, ?_, fun e he => .inl ?_⟩
    · rw [vecSetsize_size, min_eq_left hlt.le]
    · rw [vecSetsize, if_pos hlt] at he
      exact mem_of_mem_take he
  · rw [if_neg heq.not_lt, if_neg heq.not_gt]
    exact ⟨obj, rfl, rfl, by rw [heq, min_self], fun e he => .inl he⟩
  · rw [if_neg hgt.not_gt, if_pos hgt]
    simp only
    split_ifs with hroom
    · have hres : obj.reserve copy bound (min perPage size - obj.size) =
          some (obj.vecReserve copy (min perPage size - obj.size)) := by
        refine if_pos ?_
        simp only [ensure, hobj hgt.ne', Bool.not_false, Bool.true_and, decide_eq_true_eq]
        omega
      rw [hres]
      refine ⟨_, rfl, vecReserve_nofree _ _ _, ?_, fun e he => ?_⟩
      · rw [vecReserve_size, min_eq_right hgt.le]
      · rcases vecReserve_elems copy (min perPage size - obj.size) obj with h | h <;>
          rw [h] at he
        · exact .inl he
        · obtain ⟨e0, he0, rfl⟩ := mem_map.mp he
          exact .inr ⟨e0, he0, rfl⟩
    · exact ⟨obj, rfl, rfl, (min_eq_right hgt.le).symm, fun e he => .inl he⟩

section

variable (hbound : bound ≤ rpcInfinity) (hbs : bs.length ≤ bound) (perPage : ℕ)

include hbound hbs

theorem Writes.vec (h : Writes traverse enc R) (hR : Forall₂ R obj.elems bs) (w : Bytes) :
    traverseVec traverse copy fresh bound perPage ⟨.encode, w⟩ obj =
      .ok (⟨.encode, w ++ (word bs.length ++ bs.flatMap enc)⟩, obj) := by
  have hlen : obj.size = bs.length := hR.length_eq
  have hsize : (BitVec.ofNat 32 obj.size).toNat = obj.size :=
    toNat_ofNat_of_le (hlen ▸ hbs.trans hbound)
  have hresize : resizeVec copy fresh bound perPage obj.size obj = .ok obj := by
    rw [resizeVec, if_neg (lt_irrefl _), if_neg (lt_irrefl _)]
  simp only [traverseVec, traverseUint32_encode, ok_bind, hsize, hresize, h.all hR,
    if_neg (not_lt.mpr (hlen ▸ hbs)), Nat.sub_self, traversePushed]
  rw [hlen, append_assoc]

theorem traverseVec_reads (hcopy : ∀ a b, R a b → R (copy a) b)
    (hfresh : ReadsInto traverse enc R fresh)
    (hlent : obj.nofree = true → bound = 0 ∧ obj.elems = [])
    (helems : ∀ a ∈ obj.elems, ReadsInto traverse enc R a)
    (hcopied : ∀ a ∈ obj.elems, ReadsInto traverse enc R (copy a)) (rest : Bytes) :
    ∃ obj', traverseVec traverse copy fresh bound perPage
        ⟨.decode, word bs.length ++ bs.flatMap enc ++ rest⟩ obj = .ok (⟨.decode, rest⟩, obj') ∧
      Forall₂ R obj'.elems bs := by
  have hsize := toNat_ofNat_of_le (hbs.trans hbound)
  have howned : bs.length ≠ obj.size → obj.nofree = false := by
    intro hne
    by_contra hno
    obtain ⟨hzero, hnil⟩ := hlent (Bool.eq_true_of_not_eq_false hno)
    exact hne (by rw [size, hnil, length_nil]; omega)
  obtain ⟨obj1, hresize, hnofree, hsize1, hmem⟩ := resizeVec_spec copy fresh perPage hbs howned
  -- the elements that the vector keeps read the first values, those pushed read the others
  have hsplit : bs.flatMap enc ++ rest =
      (bs.take obj1.size).flatMap enc ++ ((bs.drop obj1.size).flatMap enc ++ rest) := by
    rw [← append_assoc, ← flatMap_append, take_append_drop]
  have hreads : ∀ a ∈ obj1.elems, ReadsInto traverse enc R a := by
    intro a ha
    rcases hmem a ha with ha | ⟨a0, ha0, rfl⟩
    · exact helems a ha
    · exact hcopied a0 ha0
  have hlen : obj1.elems.length = (bs.take obj1.size).length := by
    rw [length_take, ← size]
    omega
  obtain ⟨es, hes, hR⟩ := traverseAll_reads hreads hlen ((bs.drop obj1.size).flatMap enc ++ rest)
  have heslen : es.length = obj1.size := by
    rw [hR.length_eq, ← hlen, size]
  have hdrop : (bs.drop obj1.size).length = bs.length - es.length := by
    rw [length_drop, heslen]
  have hpushed : ∃ obj', traversePushed traverse copy fresh bound (bs.length - es.length)
      ⟨.decode, (bs.drop obj1.size).flatMap enc ++ rest⟩ { obj1 with elems := es } =
        .ok (⟨.decode, rest⟩, obj') ∧ Forall₂ R obj'.elems bs := by
    by_cases hmore : bs.length ≤ obj1.size
    · have hnone : bs.length - es.length = 0 := by omega
      rw [hnone, drop_eq_nil_of_le hmore]
      rw [take_of_length_le hmore] at hR
      exact ⟨_, rfl, hR⟩
    · have hfree : obj1.nofree = false := hnofree.trans (howned (by omega))
      have hle : es.length + (bs.drop obj1.size).length ≤ bound := by
        omega
      have hpush := traversePushed_reads hcopy hfresh (bs.drop obj1.size)
        { obj1 with elems := es } hfree hR hle rest
      rwa [hdrop, take_append_drop] at hpush
  obtain ⟨obj', hrun, hall⟩ := hpushed
  refine ⟨obj', ?_, hall⟩
  rw [append_assoc]
  simp only [traverseVec, traverseUint32_size (hbs.trans hbound), ok_bind, hsize,
    if_neg (not_lt.mpr hbs), hresize]
  rw [hsplit]
  simp only [hes]
  exact hrun

/-- Lent memory cannot be cut or extended. -/
theorem traverseVec_lent_aborts (hlent : obj.nofree = true)
    (hempty : bs.length < obj.size ∨ obj.elems = [] ∧ bs ≠ []) (rest : Bytes) :
    traverseVec traverse copy fresh bound perPage
      ⟨.decode, word bs.length ++ bs.flatMap enc ++ rest⟩ obj = .error .aborted := by
  have hsize := toNat_ofNat_of_le (hbs.trans hbound)
  have hreserve : ∀ m, obj.reserve copy bound m = none := by
    intro m
    exact if_neg (by simp [ensure, hlent])
  rw [append_assoc]
  simp only [traverseVec, traverseUint32_size (hbs.trans hbound), ok_bind, hsize,
    if_neg (not_lt.mpr hbs)]
  rcases hempty with hlt | ⟨hnil, hne⟩
  · have hset : obj.setsize copy fresh bound bs.length = none := if_pos (.inl hlent)
    rw [resizeVec, if_pos hlt, hset, asserting_none, error_bind]
  · have hzero : obj.size = 0 := by rw [size, hnil, length_nil]
    have hpos : 0 < bs.length := length_pos_iff.mpr hne
    obtain ⟨k, hk⟩ : ∃ k, bs.length = k + 1 := ⟨bs.length - 1, by omega⟩
    rw [resizeVec, if_neg (by omega), if_pos (by omega)]
    simp only
    split_ifs
    · rw [hreserve, asserting_none, error_bind]
    · simp only [ok_bind, hnil, traverseAll, size, length_nil, Nat.sub_zero, hk, traversePushed]
      have hnone : reserve copy bound 1 { obj with elems := [] } = none :=
        if_neg (by simp [ensure, hlent])
      rw [hnone, asserting_none, error_bind]

/-- The elements of a vector of the same size are read into in place. -/
theorem traverseVec_elems_abort (hlen : bs.length = obj.elems.length)
    (habort : ∀ rest, traverseAll traverse ⟨.decode, bs.flatMap enc ++ rest⟩ obj.elems =
      .error .aborted) (rest : Bytes) :
    traverseVec traverse copy fresh bound perPage
      ⟨.decode, word bs.length ++ bs.flatMap enc ++ rest⟩ obj = .error .aborted := by
  have hsize := toNat_ofNat_of_le (hbs.trans hbound)
  have hresize : resizeVec copy fresh bound perPage bs.length obj = .ok obj := by
    have heq : bs.length = obj.size := hlen
    rw [resizeVec, if_neg heq.not_lt, if_neg heq.not_gt]
  rw [append_assoc]
  simp only [traverseVec, traverseUint32_size (hbs.trans hbound), ok_bind, hsize,
    if_neg (not_lt.mpr hbs), hresize, habort, error_bind]

end

end Templates

/-! ### All types -/

variable (sizeof : XdrType → ℕ) (t : XdrType)

theorem holds_copyObj (obj : Obj t) (v : Val t) (h : Holds t obj v) :
    Holds t (copyObj t obj) v := by
  induction t with
  | uint32 | int32 | uint64 | int64 | bool | rpcOpaque | rpcStr => exact h
  | rpcBytes max =>
    rw [copyObj, Holds, copy_elems, map_id]
    exact h
  | array elm n ih =>
    rw [copyObj, Holds, forall₂_map_left_iff]
    exact Forall₂.imp ih h
  | rpcVec elm max ih =>
    rw [copyObj, Holds, copy_elems, forall₂_map_left_iff]
    exact Forall₂.imp ih h
  | rpcPtr elm ih =>
    cases h with
    | some h => exact .some (ih _ _ h)
    | none => exact .none

theorem rpcTraverse_writes : Writes (rpcTraverse sizeof t) (encodeVal t) (Holds t) := by
  induction t with
  | uint32 | int32 =>
    rintro obj v w ⟨⟩
    exact traverseUint32_encode w obj
  | uint64 | int64 =>
    rintro obj v w ⟨⟩
    exact traverseUint64_encode w obj
  | bool =>
    rintro obj v w ⟨⟩
    exact traverseBool_encode w obj
  | rpcOpaque n =>
    rintro obj v w ⟨⟩
    simp only [rpcTraverse, traverseOpaque, xdrPutpadbytes_eq, encodeVal]
  | rpcBytes max =>
    intro obj v w h
    have hsize := toNat_ofNat_of_le (v.2.trans max.2)
    rw [Holds] at h
    simp only [rpcTraverse, traverseBytes, xdrPutint_eq, xdrPutpadbytes_eq, encodeVal,
      size, h, hsize, append_assoc]
  | rpcStr max =>
    rintro obj v w ⟨⟩
    have hsize := toNat_ofNat_of_le (v.2.1.trans max.2)
    simp only [rpcTraverse, traverseStr, xdrPutint_eq, xdrPutpadbytes_eq, encodeVal, hsize,
      append_assoc]
  | array elm n ih =>
    intro obj v w h
    exact ih.all h w
  | rpcVec elm max ih =>
    intro obj v w h
    exact ih.vec max.2 v.2 _ h w
  | rpcPtr elm ih =>
    intro obj v w h
    cases h with
    | some h =>
      have hbool := traverseBool_encode w true
      simp only [rpcTraverse, traversePtr, isSome_some, hbool, ok_bind, getD_some,
        ih _ _ _ h, append_assoc]
      rfl
    | none =>
      rfl

theorem reads_of_owned (obj : Obj t) (hvalid : Valid t obj) (h : Owned t obj) :
    ReadsInto (rpcTraverse sizeof t) (encodeVal t) (Holds t) obj := by
  induction t with
  | uint32 | int32 =>
    intro v rest
    exact ⟨v, traverseUint32_decode v obj rest, rfl⟩
  | uint64 | int64 =>
    intro v rest
    exact ⟨v, traverseUint64_decode v obj rest, rfl⟩
  | bool =>
    intro v rest
    exact ⟨v, traverseBool_decode v obj rest, rfl⟩
  | rpcOpaque n =>
    intro v rest
    refine ⟨v.1, ?_, rfl⟩
    have hget := xdrGetpadbytes_padded .decode v.1 rest
    rwa [v.2] at hget
  | rpcBytes max =>
    intro v rest
    exact traverseBytes_decode max.2 v.2 h rest
  | rpcStr max =>
    intro v rest
    exact ⟨some v.1, traverseStr_decode max.2 v.2.1 v.2.2 obj rest, rfl⟩
  | array elm n ih =>
    intro v rest
    exact traverseAll_reads (fun a ha => ih a (hvalid.2 a ha) (h a ha))
      (hvalid.1.trans v.2.symm) rest
  | rpcVec elm max ih =>
    intro v rest
    have hfresh := ih _ (valid_freshObj elm) (owned_freshObj elm)
    have hcopied : ∀ a ∈ elems obj, ReadsInto _ _ _ (copyObj elm a) := fun a ha =>
      ih _ (valid_copyObj elm a (hvalid.2 a ha)) (owned_copyObj elm a)
    exact traverseVec_reads max.2 v.2 _ (holds_copyObj elm) hfresh h.1
      (fun a ha => ih a (hvalid.2 a ha) (h.2 a ha)) hcopied rest
  | rpcPtr elm ih =>
    intro v rest
    cases v with
    | none =>
      refine ⟨none, ?_, .none⟩
      rfl
    | some v =>
      have htarget : ReadsInto (rpcTraverse sizeof elm) (encodeVal elm) (Holds elm)
          (getD obj (freshObj elm)) := by
        cases obj with
        | none => exact ih _ (valid_freshObj elm) (owned_freshObj elm)
        | some e => exact ih e (hvalid e rfl) (h e rfl)
      obtain ⟨e, he, hR⟩ := htarget v rest
      refine ⟨some e, ?_, .some hR⟩
      have hbool := traverseBool_decode true (isSome obj) (encodeVal elm v ++ rest)
      simp only [Bool.toNat_true] at hbool
      simp only [rpcTraverse, traversePtr, encodeVal, append_assoc, hbool, ok_bind, he]
      rfl

def defaultVal : (t : XdrType) → Val t
  | .uint32 | .int32 => 0#32
  | .uint64 | .int64 => 0#64
  | .bool => false
  | .rpcOpaque n => ⟨replicate n.1 0, List.length_replicate⟩
  | .rpcBytes _ => ⟨[], Nat.zero_le _⟩
  | .rpcStr _ => ⟨[], Nat.zero_le _, List.not_mem_nil⟩
  | .array elm n => ⟨replicate n (defaultVal elm), List.length_replicate⟩
  | .rpcVec _ _ => ⟨[], Nat.zero_le _⟩
  | .rpcPtr _ => none

theorem exists_elems_abort {elm : XdrType} (ih : ∀ obj, Valid elm obj → ¬ Owned elm obj →
      ∃ v, AbortsOn (rpcTraverse sizeof elm) (encodeVal elm) obj v) {es : List (Obj elm)}
    (hvalid : ∀ e ∈ es, Valid elm e) (hbad : ∃ e ∈ es, ¬ Owned elm e) :
    ∃ vs : List (Val elm), vs.length = es.length ∧
      ∀ rest, traverseAll (rpcTraverse sizeof elm)
        ⟨.decode, vs.flatMap (encodeVal elm) ++ rest⟩ es = .error .aborted := by
  obtain ⟨e, he, hno⟩ := hbad
  obtain ⟨v, hv⟩ := ih e (hvalid e he) hno
  refine traverseAll_aborts (R := Holds elm) (defaultVal elm) (fun a ha => ?_)
    ⟨e, he, hv.not_reads⟩
  by_cases ho : Owned elm a
  · exact .inl (reads_of_owned sizeof elm a (hvalid a ha) ho)
  · exact .inr (ih a (hvalid a ha) ho)

/-- Some value cannot be read into an object with lent memory. -/
theorem aborts_of_not_owned (t : XdrType) (obj : Obj t) (hvalid : Valid t obj) (h : ¬ Owned t obj) :
    ∃ v, AbortsOn (rpcTraverse sizeof t) (encodeVal t) obj v := by
  induction t with
  | uint32 | int32 | uint64 | int64 | bool | rpcOpaque | rpcStr => exact absurd trivial h
  | rpcBytes max =>
    have hlent : nofree obj = true := Bool.eq_true_of_not_eq_false h
    exact ⟨⟨[], Nat.zero_le _⟩, traverseBytes_aborts max.2 (Nat.zero_le _) hlent⟩
  | array elm n ih =>
    rw [Owned] at h
    push Not at h
    obtain ⟨bs, hlen, hbs⟩ := exists_elems_abort sizeof ih hvalid.2 h
    exact ⟨⟨bs, hlen.trans hvalid.1⟩, hbs⟩
  | rpcVec elm max ih =>
    by_cases hlent : nofree obj = true → max.1 = 0 ∧ elems obj = []
    · have hbad : ∃ e ∈ elems obj, ¬ Owned elm e := by
        by_contra hno
        push Not at hno
        exact h ⟨hlent, hno⟩
      obtain ⟨vs, hlen, hvs⟩ := exists_elems_abort sizeof ih hvalid.2 hbad
      have hle : vs.length ≤ max.1 := hlen.trans_le hvalid.1
      exact ⟨⟨vs, hle⟩, traverseVec_elems_abort max.2 hle _ hlen hvs⟩
    · push Not at hlent
      obtain ⟨hnofree, hne⟩ := hlent
      by_cases hnil : elems obj = []
      · have hle : [defaultVal elm].length ≤ max.1 := by
          have hpos : max.1 ≠ 0 := fun hzero => hne hzero hnil
          exact Nat.one_le_iff_ne_zero.mpr hpos
        exact ⟨⟨[defaultVal elm], hle⟩, traverseVec_lent_aborts max.2 hle _ hnofree
          (.inr ⟨hnil, cons_ne_nil _ _⟩)⟩
      · have hlt : ([] : List (Val elm)).length < size obj := length_pos_iff.mpr hnil
        exact ⟨⟨[], Nat.zero_le _⟩, traverseVec_lent_aborts max.2 (Nat.zero_le _) _ hnofree
          (.inl hlt)⟩
  | rpcPtr elm ih =>
    rw [Owned] at h
    push Not at h
    obtain ⟨e, rfl, he⟩ := h
    obtain ⟨v, hv⟩ := ih e (hvalid e rfl) he
    refine ⟨some v, fun rest => ?_⟩
    have hbool := traverseBool_decode true true (encodeVal elm v ++ rest)
    simp only [Bool.toNat_true] at hbool
    simp [rpcTraverse, traversePtr, encodeVal, isSome_some, hbool, ok_bind, hv rest]

variable {t : XdrType} (target : Object t)

/-- Every value that an object holds is read back into the target from what was written,
whatever follows it. -/
def ReadsBack : Prop :=
  ∀ (src : Obj t) (v : Val t), Holds t src v →
    ∃ enc, rpcTraverse sizeof t ⟨.encode, []⟩ src = .ok (⟨.encode, enc⟩, src) ∧ 4 ∣ enc.length ∧
      ∀ rest, ∃ obj, rpcTraverse sizeof t ⟨.decode, enc ++ rest⟩ target.1 =
        .ok (⟨.decode, rest⟩, obj) ∧ Holds t obj v

theorem readsBack_iff_owned : ReadsBack sizeof target ↔ Owned t target.1 := by
  constructor
  · intro h
    by_contra hno
    obtain ⟨v, hv⟩ := aborts_of_not_owned sizeof t target.1 target.2 hno
    obtain ⟨src, -, hsrc⟩ := reads_of_owned sizeof t _ (valid_freshObj t) (owned_freshObj t) v []
    obtain ⟨enc, henc, -, hdec⟩ := h src v hsrc
    rw [rpcTraverse_writes sizeof t src v [] hsrc, nil_append] at henc
    obtain ⟨obj, hobj, -⟩ := hdec []
    cases henc
    rw [hv []] at hobj
    exact absurd hobj (by rintro ⟨⟩)
  · intro h src v hsrc
    refine ⟨encodeVal t v, rpcTraverse_writes sizeof t src v [] hsrc,
      four_dvd_length_encodeVal t v, reads_of_owned sizeof t target.1 target.2 h v⟩

/-! ### Hyper integers -/

theorem low_mask_getLsbD {i : ℕ} (hi : i < 64) : (0xffffffff#64).getLsbD i = decide (i < 32) := by
  revert i
  decide

theorem join_signed (v : BitVec 64) :
    ((v >>> 32).setWidth 32).signExtend 64 <<< 32 ||| (v.setWidth 32).signExtend 64 = v ↔
      v.getLsbD 31 = false ∨ v >>> 32 = 0xffffffff#64 := by
  have hbit : ∀ i, i < 64 → (((v >>> 32).setWidth 32).signExtend 64 <<< 32 |||
      (v.setWidth 32).signExtend 64).getLsbD i =
        (v.getLsbD i || (decide (32 ≤ i) && v.getLsbD 31)) := by
    intro i hi
    grind
  constructor
  · intro h
    by_cases h31 : v.getLsbD 31 = false
    · exact .inl h31
    · right
      apply eq_of_getLsbD_eq
      intro i hi
      rw [low_mask_getLsbD hi, getLsbD_ushiftRight]
      by_cases hlt : i < 32
      · have hb := hbit (32 + i) (by omega)
        rw [h, Bool.eq_true_of_not_eq_false h31] at hb
        simpa [hlt] using hb
      · rw [getLsbD_of_ge v (32 + i) (by omega), decide_eq_false hlt]
  · intro h
    apply eq_of_getLsbD_eq
    intro i hi
    rw [hbit i hi]
    rcases h with h31 | hhi
    · rw [h31, Bool.and_false, Bool.or_false]
    · by_cases hge : 32 ≤ i
      · have hb := congrArg (fun b => getLsbD b (i - 32)) hhi
        simp only [getLsbD_ushiftRight] at hb
        rw [Nat.add_sub_cancel' hge, low_mask_getLsbD (by omega), decide_eq_true (by omega)] at hb
        rw [hb, Bool.true_or]
      · rw [decide_eq_false hge, Bool.false_and, Bool.or_false]

theorem mask_setWidth (val : BitVec 64) :
    (val &&& 0xffffffff#64).setWidth 32 = val.setWidth 32 := by
  apply eq_of_getLsbD_eq
  intro i hi
  rw [getLsbD_setWidth, getLsbD_setWidth, getLsbD_and,
    low_mask_getLsbD (by omega), decide_eq_true hi, Bool.and_true]

theorem xdrPuthyper_eq (op : XdrOp) (w : Bytes) (val : BitVec 64) :
    xdrPuthyper ⟨op, w⟩ val = ⟨op, w ++ encodeVal .uint64 val⟩ := by
  have hhi : BitVec.ofInt 32 (val >>> 32).toInt = (val >>> 32).setWidth 32 :=
    BitVec.signExtend_eq_setWidth_of_le _ (by decide)
  have hlo : BitVec.ofInt 32 (val &&& 0xffffffff#64).toInt = val.setWidth 32 :=
    (BitVec.signExtend_eq_setWidth_of_le _ (by decide)).trans (mask_setWidth val)
  rw [xdrPuthyper, putlong, putlong, hhi, hlo, high_word_toNat, append_assoc]
  rfl

theorem xdrGethyper_eq (op : XdrOp) (val : BitVec 64) (rest : Bytes) :
    xdrGethyper ⟨op, encodeVal .uint64 val ++ rest⟩ =
      .ok (⟨op, rest⟩, ((val >>> 32).setWidth 32).signExtend 64 <<< 32 |||
        (val.setWidth 32).signExtend 64) := by
  rw [encodeVal, ← high_word_toNat, ← low_word_toNat, append_assoc]
  simp only [xdrGethyper, getlong_word, ok_bind]
  rfl

/-- `xdr_gethyper` reads back what `xdr_puthyper` wrote unless the low word looks negative. -/
theorem xdrGethyper_iff (val : BitVec 64) :
    (∀ rest, xdrGethyper ⟨.decode, (xdrPuthyper ⟨.encode, []⟩ val).data ++ rest⟩ =
        .ok (⟨.decode, rest⟩, val)) ↔
      val.getLsbD 31 = false ∨ val >>> 32 = 0xffffffff#64 := by
  rw [xdrPuthyper_eq, nil_append, ← join_signed]
  simp only [xdrGethyper_eq, Except.ok.injEq, Prod.mk.injEq, true_and, forall_const]

/-- Both ways to read: every value is read back into a target exactly if the target has no
vector on lent memory, and `xdr_gethyper` reads back a number exactly if its low word does
not look negative or its high word is all ones. -/
theorem xdr_round_trip_iff {t : XdrType} (target : Object t) (val : BitVec 64) :
    (ReadsBack sizeof target ↔ Owned t target.1) ∧
      ((∀ rest, xdrGethyper ⟨.decode, (xdrPuthyper ⟨.encode, []⟩ val).data ++ rest⟩ =
          .ok (⟨.decode, rest⟩, val)) ↔
        val.getLsbD 31 = false ∨ val >>> 32 = 0xffffffff#64) :=
  ⟨readsBack_iff_owned sizeof target, xdrGethyper_iff val⟩

/-- Four bytes at most, in a byte that was lent. -/
def lentByte : Object (.rpcBytes ⟨4, by decide⟩) := 
  ⟨⟨0, [1], 0, true⟩, (by decide : [1].length ≤ 4)⟩

/-- One byte is written but not read into the byte that was lent, and `2 ^ 31` is read back as
another number. -/
theorem lent_target_aborts :
    rpcTraverse (fun _ => 1) (.rpcBytes ⟨4, by decide⟩) ⟨.encode, []⟩ ⟨0, [2], 0, false⟩ =
        .ok (⟨.encode, [0, 0, 0, 1, 2, 0, 0, 0]⟩, ⟨0, [2], 0, false⟩) ∧
      rpcTraverse (fun _ => 1) (.rpcBytes ⟨4, by decide⟩) ⟨.decode, [0, 0, 0, 1, 2, 0, 0, 0]⟩
        lentByte.1 = .error .aborted ∧
      ¬ ReadsBack (fun _ => 1) lentByte ∧
      xdrGethyper ⟨.decode, (xdrPuthyper ⟨.encode, []⟩ 0x80000000#64).data⟩ =
        .ok (⟨.decode, []⟩, 0xffffffff80000000#64) := by
  refine ⟨by rfl, by rfl, ?_, by rfl⟩
  rw [readsBack_iff_owned]
  exact Bool.noConfusion

end SelfCertifyingFS.Arpc
