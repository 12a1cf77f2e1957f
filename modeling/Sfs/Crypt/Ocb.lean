import Sfs.Async.Bitvec
import Sfs.Foundations.Regions
import Sfs.Foundations.XorBytes
import Sfs.Rpc.Xdr

/-!
# Offset codebook mode

`ocb` of `crypt/ocb.C` over an arbitrary block cipher. Encryption and decryption read
one buffer and write another, which may be the same. The offsets come from a table,
filled when the key is set, whose size depends on that of messages. An access outside
of it has no result. The code computes in memory what is stated on byte strings.
-/

namespace SelfCertifyingFS.Crypt

section

open Foundations Rpc Nat Async

/-- `blk`. -/
abbrev Blk := FixedBytes 16

theorem length_zero_block : (List.replicate 16 (0 : UInt8)).length = 16 := rfl

def blkclear : Blk := ⟨List.replicate 16 0, length_zero_block⟩

theorem length_blkxor (a b : Blk) : (xorBytes a.1 b.1).length = 16 := by
  simp [a.2, b.2]

def blkxor (a b : Blk) : Blk := ⟨xorBytes a.1 b.1, length_blkxor a b⟩

theorem length_xorFront (a : Blk) (bs : Bytes) : (xorInto a.1 bs).length = 16 := by
  simp [a.2]

def xorFront (a : Blk) (bs : Bytes) : Blk := ⟨xorInto a.1 bs, length_xorFront a bs⟩

def xorLast (a : Blk) (b : UInt8) : Blk := xorFront a (List.replicate 15 0 ++ [b])

/-- The loop of `lshift`, from the last byte to the first: the bytes and the carry. -/
def lshiftBytes : Bytes → Bytes × Bool
  | [] => ([], false)
  | c :: s =>
      let d := lshiftBytes s
      (((c <<< 1) ||| (if d.2 then 1 else 0)) :: d.1, 0x80 ≤ c)

theorem length_lshiftBytes (s : Bytes) : (lshiftBytes s).1.length = s.length := by
  induction s with
  | nil => rfl
  | cons c s ih => exact congrArg (· + 1) ih

theorem length_lshift (s : Blk) : (lshiftBytes s.1).1.length = 16 := by
  rw [length_lshiftBytes, s.2]

def lshift (s : Blk) : Blk :=
  let d : Blk := ⟨(lshiftBytes s.1).1, length_lshift s⟩
  if (lshiftBytes s.1).2 then xorLast d 0x87 else d

/-- The loop of `rshift`, from the first byte to the last. -/
def rshiftBytes : Bytes → Bool → Bytes × Bool
  | [], carryin => ([], carryin)
  | c :: s, carryin =>
      let d := rshiftBytes s (c &&& 1 ≠ 0)
      (((c >>> 1) ||| (if carryin then 0x80 else 0)) :: d.1, d.2)

theorem length_rshiftBytes (s : Bytes) (carryin : Bool) :
    (rshiftBytes s carryin).1.length = s.length := by
  induction s generalizing carryin with
  | nil => rfl
  | cons c s ih => exact congrArg (· + 1) (ih _)

theorem length_rshift (s : Blk) : (rshiftBytes s.1 false).1.length = 16 := by
  rw [length_rshiftBytes, s.2]

def rshift (s : Blk) : Blk :=
  let d : Blk := ⟨(rshiftBytes s.1 false).1, length_rshift s⟩
  if (rshiftBytes s.1 false).2 then xorLast (xorFront d [0x80]) 0x43 else d

def calcLSize (mms : ℕ) : ℕ :=
  let r := log2c mms
  if r > 4 then r - 4 else 1

/-- The cipher with its key, and the table of offsets, from the index `-1` on. -/
structure Ocb where
  k : Equiv.Perm Blk
  l : List Blk

namespace Ocb

/-- A block and what it is shifted to, so many times. -/
def shifts : ℕ → Blk → List Blk
  | 0, b => [b]
  | n + 1, b => b :: shifts n (lshift b)

/-- The constructor for messages of at most `mms` bytes and `setkey`, for the permutation that
the key selects. -/
def setkey (k : Equiv.Perm Blk) (mms : ℕ) : Ocb :=
  ⟨k, rshift (k blkclear) :: shifts (calcLSize mms) (k blkclear)⟩

/-- `l[i]` for an index that is not negative. -/
def lAt (o : Ocb) (i : ℕ) : Option Blk := o.l[i + 1]?

def start (o : Ocb) (nonce : UInt64) : Option Blk :=
  let r := xorFront blkclear (List.replicate 8 0 ++ beBytes 8 nonce.toNat)
  (o.lAt 0).map fun l => o.k (blkxor r l)

/-- The variables of the loops. -/
structure Pass where
  mem : Memory
  ctext : ℕ
  ptext : ℕ
  len : ℕ
  i : ℕ
  r : Blk
  s : Blk

variable (mem : Memory) (p : ℕ)

theorem length_readBlk : (mem.readBytes p 16).length = 16 := Memory.length_readBytes mem p 16

/-- The method `get`. -/
def readBlk : Blk := ⟨mem.readBytes p 16, length_readBlk mem p⟩

/-- The block that masks the last bytes: `len` of them. -/
def lastMask (o : Ocb) (l r : Blk) (len : ℕ) : Blk :=
  o.k (xorLast (blkxor l r) (UInt8.ofNat (len <<< 3)))

section Encryption

variable (o : Ocb)

/-- The loop of `encrypt` over the blocks before the last one. -/
def encryptLoop : ℕ → Pass → Option Pass
  | 0, st => if st.len > 16 then none else some st
  | fuel + 1, st =>
      if st.len > 16 then
        (o.lAt (ffs st.i - 1)).bind fun l =>
          let tmp := readBlk st.mem st.ptext
          let s := blkxor st.s tmp
          let r := blkxor st.r l
          let tmp := blkxor tmp r
          let tmp := o.k tmp
          let tmp := blkxor tmp r
          encryptLoop fuel {
            mem := st.mem.writeBytes st.ctext tmp.1
            ptext := st.ptext + 16
            ctext := st.ctext + 16
            len := st.len - 16
            i := st.i + 1
            r := r
            s := s }
      else some st

/-- The loop of `encrypt` over the bytes of the last block: the memory, and the bytes that were
written, which are added to the checksum. -/
def encryptTail : Bytes → Memory → ℕ → ℕ → Memory × Bytes
  | [], mem, _, _ => (mem, [])
  | t :: tmp, mem, ctext, ptext =>
      let c := t ^^^ mem ptext
      let (mem, cs) := encryptTail tmp (mem.writeBytes ctext [c]) (ctext + 1) (ptext + 1)
      (mem, c :: cs)

/-- What `encrypt` does behind its loop. -/
def encryptEnd (st : Pass) : Option (Memory × Blk) :=
  (o.lAt (ffs st.i - 1)).bind fun l =>
    (o.l[0]?).map fun l1 =>
      let r := blkxor st.r l
      let tmp := o.lastMask l1 r st.len
      let s := blkxor st.s tmp
      let (mem, cs) := encryptTail (tmp.1.take st.len) st.mem st.ctext st.ptext
      (mem, o.k (blkxor (xorFront s cs) r))

/-- `encrypt`: the memory, and the tag. -/
def encrypt (mem : Memory) (ctext : ℕ) (nonce : UInt64) (ptext len : ℕ) : Option (Memory × Blk) :=
  (o.start nonce).bind fun r =>
    (o.encryptLoop len ⟨mem, ctext, ptext, len, 1, r, blkclear⟩).bind o.encryptEnd

end Encryption

section Decryption

variable (o : Ocb)

/-- The loop of `decrypt` over the blocks before the last one. -/
def decryptLoop : ℕ → Pass → Option Pass
  | 0, st => if st.len > 16 then none else some st
  | fuel + 1, st =>
      if st.len > 16 then
        (o.lAt (ffs st.i - 1)).bind fun l =>
          let r := blkxor st.r l
          let tmp := readBlk st.mem st.ctext
          let tmp := blkxor tmp r
          let tmp := o.k.symm tmp
          let tmp := blkxor tmp r
          decryptLoop fuel {
            mem := st.mem.writeBytes st.ptext tmp.1
            ptext := st.ptext + 16
            ctext := st.ctext + 16
            len := st.len - 16
            i := st.i + 1
            r := r
            s := blkxor st.s tmp }
      else some st

/-- The loop of `decrypt` over the bytes of the last block: the memory, and the bytes that were
read, which are added to the checksum. -/
def decryptTail : Bytes → Memory → ℕ → ℕ → Memory × Bytes
  | [], mem, _, _ => (mem, [])
  | t :: tmp, mem, ctext, ptext =>
      let c := mem ctext
      let (mem, cs) := decryptTail tmp (mem.writeBytes ptext [t ^^^ c]) (ctext + 1) (ptext + 1)
      (mem, c :: cs)

/-- What `decrypt` does behind its loop. -/
def decryptEnd (tag : Blk) (st : Pass) : Option (Memory × Bool) :=
  (o.lAt (ffs st.i - 1)).bind fun l =>
    (o.l[0]?).map fun l1 =>
      let r := blkxor st.r l
      let tmp := o.lastMask l1 r st.len
      let s := blkxor st.s tmp
      let (mem, cs) := decryptTail (tmp.1.take st.len) st.mem st.ctext st.ptext
      (mem, tag = o.k (blkxor (xorFront s cs) r))

/-- `decrypt`: the memory, and whether the tag is right. -/
def decrypt (mem : Memory) (ptext : ℕ) (nonce : UInt64) (ctext : ℕ) (tag : Blk) (len : ℕ) :
    Option (Memory × Bool) :=
  (o.start nonce).bind fun r =>
    (o.decryptLoop len ⟨mem, ctext, ptext, len, 1, r, blkclear⟩).bind (o.decryptEnd tag)

end Decryption

end Ocb

@[simp] theorem Ocb.length_shifts (n : ℕ) (b : Blk) : (Ocb.shifts n b).length = n + 1 := by
  induction n generalizing b with
  | zero => rfl
  | succ n ih => exact congrArg (· + 1) (ih _)

theorem Ocb.exists_lAt {k : Equiv.Perm Blk} {mms i : ℕ} (h : i ≤ calcLSize mms) :
    ∃ l, (Ocb.setkey k mms).lAt i = some l := by
  have hlt : i + 1 < (Ocb.setkey k mms).l.length := by
    simp only [Ocb.setkey, List.length_cons, Ocb.length_shifts]
    omega
  exact ⟨_, List.getElem?_eq_getElem hlt⟩

theorem ffs_sub_one_le (v : ℕ) (hv : v ≠ 0) : ffs v - 1 ≤ v.log2 := by
  unfold ffs fls
  split_ifs with hlow hhigh
  · rw [le_log2 hv]
    exact (log2_self_le hlow).trans (mod_le _ _)
  · have hself := log2_self_le hhigh
    have hle : (v >>> 32) % 2 ^ 32 ≤ v / 2 ^ 32 := by
      rw [shiftRight_eq_div_pow]
      exact mod_le _ _
    rw [← Nat.add_assoc, Nat.add_sub_cancel, le_log2 hv, pow_add]
    calc 2 ^ 32 * 2 ^ ((v >>> 32) % 2 ^ 32).log2 ≤ 2 ^ 32 * (v / 2 ^ 32) :=
          Nat.mul_le_mul_left _ (hself.trans hle)
      _ ≤ v := mul_div_le v _
  · exact Nat.zero_le _

/-- The table has the logarithm of the number of each block of a message. -/
theorem log2_le_calcLSize {mms i : ℕ} (hi : 0 < i) (h : i = 1 ∨ 16 * (i - 1) < mms) :
    i.log2 ≤ calcLSize mms := by
  rcases h with rfl | h
  · exact Nat.zero_le _
  · have hmms : mms ≠ 0 := by omega
    have hpow : mms ≤ 2 ^ log2c mms := (log2c_le_iff hmms).mp le_rfl
    unfold calcLSize
    dsimp only
    split_ifs with hr
    · have hsplit : 2 ^ log2c mms = 16 * 2 ^ (log2c mms - 4) := by
        rw [show 16 = 2 ^ 4 from rfl, ← pow_add]
        congr 1
        omega
      rw [← Nat.lt_succ_iff, log2_lt hi.ne']
      omega
    · have hsixteen : 2 ^ log2c mms ≤ 2 ^ 4 := Nat.pow_le_pow_right (by decide) (by omega)
      obtain rfl : i = 1 := by omega
      exact Nat.zero_le _

theorem ffs_le_calcLSize {mms i : ℕ} (hi : 0 < i) (h : i = 1 ∨ 16 * (i - 1) < mms) :
    ffs i - 1 ≤ calcLSize mms :=
  (ffs_sub_one_le i hi.ne').trans (log2_le_calcLSize hi h)

end

open Foundations Rpc List Option Function Memory Ocb

theorem blkxor_cancel (a b : Blk) : blkxor (blkxor a b) b = a :=
  Subtype.ext (xorBytes_cancel (by rw [a.2, b.2]))

theorem length_firstBlk {m : Bytes} (h : 16 < m.length) : (m.take 16).length = 16 := by
  rw [length_take]
  omega

def firstBlk (m : Bytes) (h : 16 < m.length) : Blk := ⟨m.take 16, length_firstBlk h⟩

namespace Ocb

variable (o : Ocb)

/-- The last bytes of a message: what they are encrypted to, and the tag. -/
def sealLast (i : ℕ) (r s : Blk) (m : Bytes) : Option (Bytes × Blk) :=
  (o.lAt (Async.ffs i - 1)).bind fun l =>
    (o.l[0]?).map fun l1 =>
      let r := blkxor r l
      let tmp := o.lastMask l1 r m.length
      let c := xorBytes (tmp.1.take m.length) m
      (c, o.k (blkxor (xorFront (blkxor s tmp) c) r))

/-- A message: what it is encrypted to, and the tag. -/
def sealBytes : ℕ → ℕ → Blk → Blk → Bytes → Option (Bytes × Blk)
  | 0, i, r, s, m => if 16 < m.length then none else o.sealLast i r s m
  | fuel + 1, i, r, s, m =>
      if h : 16 < m.length then
        (o.lAt (Async.ffs i - 1)).bind fun l =>
          let r := blkxor r l
          let c := blkxor (o.k (blkxor (firstBlk m h) r)) r
          (sealBytes fuel (i + 1) r (blkxor s (firstBlk m h)) (m.drop 16)).map fun x =>
            (c.1 ++ x.1, x.2)
      else o.sealLast i r s m

/-- The last bytes of a ciphertext: the message, and the tag that belongs to it. -/
def openLast (i : ℕ) (r s : Blk) (c : Bytes) : Option (Bytes × Blk) :=
  (o.lAt (Async.ffs i - 1)).bind fun l =>
    (o.l[0]?).map fun l1 =>
      let r := blkxor r l
      let tmp := o.lastMask l1 r c.length
      (xorBytes (tmp.1.take c.length) c, o.k (blkxor (xorFront (blkxor s tmp) c) r))

/-- A ciphertext: the message, and the tag that belongs to it. -/
def openBytes : ℕ → ℕ → Blk → Blk → Bytes → Option (Bytes × Blk)
  | 0, i, r, s, c => if 16 < c.length then none else o.openLast i r s c
  | fuel + 1, i, r, s, c =>
      if h : 16 < c.length then
        (o.lAt (Async.ffs i - 1)).bind fun l =>
          let r := blkxor r l
          let m := blkxor (o.k.symm (blkxor (firstBlk c h) r)) r
          (openBytes fuel (i + 1) r (blkxor s m) (c.drop 16)).map fun x => (m.1 ++ x.1, x.2)
      else o.openLast i r s c

section Strings

variable {o} {i : ℕ} {r s : Blk} {m : Bytes}

theorem length_take_lastMask (l1 r : Blk) {n : ℕ} (h : n ≤ 16) :
    ((o.lastMask l1 r n).1.take n).length = n := by
  rw [length_take, (o.lastMask l1 r n).2]
  omega

/-- The table has an offset for the last bytes, and decryption unmasks them. -/
theorem openLast_sealLast (hm : m.length ≤ 16) {c : Bytes} {tag : Blk}
    (h : o.sealLast i r s m = some (c, tag)) :
    c.length = m.length ∧ o.openLast i r s c = some (m, tag) := by
  obtain ⟨l, hl, h⟩ := bind_eq_some_iff.mp h
  obtain ⟨l1, hl1, h⟩ := map_eq_some_iff.mp h
  obtain ⟨hc, htag⟩ := Prod.mk.inj h
  have htake := length_take_lastMask (o := o) l1 (blkxor r l) hm
  have hlen : c.length = m.length := by
    rw [← hc, length_xorBytes, htake, Nat.min_self]
  refine ⟨hlen, ?_⟩
  rw [openLast, hl, bind_some, hl1, map_some, hlen]
  dsimp only
  have hmessage : xorBytes ((o.lastMask l1 (blkxor r l) m.length).1.take m.length) c = m := by
    rw [← hc, xorBytes_comm, xorBytes_comm _ m, xorBytes_cancel htake.ge]
  rw [hmessage, ← htag, ← hc]

theorem openBytes_sealBytes {fuel : ℕ} {c : Bytes} {tag : Blk}
    (h : o.sealBytes fuel i r s m = some (c, tag)) :
    c.length = m.length ∧ o.openBytes fuel i r s c = some (m, tag) := by
  induction fuel generalizing i r s m c with
  | zero =>
    unfold sealBytes at h
    split_ifs at h with hlen
    obtain ⟨hc, hopen⟩ := openLast_sealLast (not_lt.mp hlen) h
    refine ⟨hc, ?_⟩
    rw [openBytes, if_neg (by omega), hopen]
  | succ fuel ih =>
    unfold sealBytes at h
    split_ifs at h with hlen
    · obtain ⟨l, hl, h⟩ := bind_eq_some_iff.mp h
      obtain ⟨⟨c', tag'⟩, hrest, h⟩ := map_eq_some_iff.mp h
      obtain ⟨hc, rfl⟩ := Prod.mk.inj h
      obtain ⟨hlen', hopen⟩ := ih hrest
      set b := blkxor (o.k (blkxor (firstBlk m hlen) (blkxor r l))) (blkxor r l) with hb
      have hsize : c.length = m.length := by
        rw [← hc, length_append, hlen', length_drop]
        omega
      have hlong : 16 < c.length := by omega
      have hfirst : firstBlk c hlong = b := by
        apply Subtype.ext
        change c.take 16 = b.1
        rw [← hc, take_left' b.2]
      have hdrop : c.drop 16 = c' := by
        rw [← hc, drop_left' b.2]
      have hblock : blkxor (o.k.symm (blkxor b (blkxor r l))) (blkxor r l) = firstBlk m hlen := by
        rw [blkxor_cancel, Equiv.symm_apply_apply, blkxor_cancel]
      refine ⟨hsize, ?_⟩
      rw [openBytes, dif_pos hlong, hl, bind_some]
      dsimp only
      rw [hfirst, hdrop, hblock, hopen]
      exact congrArg (fun x => some (x, tag')) (take_append_drop 16 m)
    · obtain ⟨hc, hopen⟩ := openLast_sealLast (not_lt.mp hlen) h
      refine ⟨hc, ?_⟩
      rw [openBytes, dif_neg (by omega), hopen]

/-- Encryption has a result if the table has an offset for every block. -/
theorem exists_sealBytes {fuel : ℕ} (hfuel : m.length ≤ 16 * (fuel + 1))
    (hl0 : ∃ l, o.l[0]? = some l) (hl : ∀ j, i ≤ j → (j = i ∨ 16 * (j - i) < m.length) →
      ∃ l, o.lAt (Async.ffs j - 1) = some l) :
    ∃ c tag, o.sealBytes fuel i r s m = some (c, tag) := by
  have hlast : ∀ {i : ℕ} (r s) (m : Bytes), (∃ l, o.lAt (Async.ffs i - 1) = some l) →
      ∃ c tag, o.sealLast i r s m = some (c, tag) := by
    intro i r s m hl
    obtain ⟨l, hl⟩ := hl
    obtain ⟨l1, hl1⟩ := hl0
    rw [sealLast, hl, hl1]
    exact ⟨_, _, rfl⟩
  induction fuel generalizing i r s m with
  | zero =>
    rw [sealBytes, if_neg (by omega)]
    exact hlast r s m (hl i le_rfl (.inl rfl))
  | succ fuel ih =>
    rw [sealBytes]
    split_ifs with hlen
    · obtain ⟨l, hli⟩ := hl i le_rfl (.inl rfl)
      have hrest : ∃ c tag, o.sealBytes fuel (i + 1) (blkxor r l) (blkxor s (firstBlk m hlen))
          (m.drop 16) = some (c, tag) := by
        apply ih
        · rw [length_drop]
          omega
        · intro j hj hlt
          rw [length_drop] at hlt
          exact hl j (by omega) (.inr (by omega))
      obtain ⟨c, tag, hc⟩ := hrest
      rw [hli, bind_some]
      dsimp only
      rw [hc]
      exact ⟨_, _, rfl⟩
    · exact hlast r s m (hl i le_rfl (.inl rfl))

end Strings

section Buffers

def Buffers (a b len : ℕ) : Prop := a = b ∨ a + len ≤ b ∨ b + len ≤ a

instance (a b len : ℕ) : Decidable (Buffers a b len) := inferInstanceAs (Decidable (_ ∨ _))

variable {a b n : ℕ} {mem : Memory} {st : Pass}

/-- Behind the first bytes the source is as before, when they have been written. -/
theorem Buffers.readBytes {k : ℕ} {bs : Bytes} (h : Buffers a b (k + n)) (hbs : bs.length = k) :
    (mem.writeBytes a bs).readBytes (b + k) n = mem.readBytes (b + k) n := by
  apply readBytes_writeBytes_of_apart
  rcases h with rfl | h | h <;> omega

theorem Buffers.readBytes_blk {c : Blk} (h : Buffers a b (16 + n)) :
    (mem.writeBytes a c.1).readBytes (b + 16) n = mem.readBytes (b + 16) n :=
  h.readBytes c.2

theorem Buffers.drop {k : ℕ} (h : Buffers a b (k + n)) : Buffers (a + k) (b + k) n := by
  rcases h with rfl | h | h
  · exact .inl rfl
  · exact .inr (.inl (by omega))
  · exact .inr (.inr (by omega))

theorem Buffers.split (h : Buffers a b n) (hn : 16 < n) : Buffers a b (16 + (n - 16)) := by
  rwa [Nat.add_sub_cancel' hn.le]

variable {o : Ocb}

variable (tmp : Bytes) {ctext ptext : ℕ}

theorem encryptTail_eq (h : Buffers ctext ptext tmp.length) :
    encryptTail tmp mem ctext ptext =
      (mem.writeBytes ctext (xorBytes tmp (mem.readBytes ptext tmp.length)),
        xorBytes tmp (mem.readBytes ptext tmp.length)) := by
  induction tmp generalizing mem ctext ptext with
  | nil => simp [encryptTail, xorBytes]
  | cons t tmp ih =>
    rw [length_cons, Nat.add_comm] at h
    rw [encryptTail, ih h.drop, h.readBytes rfl]
    exact congrArg (·, _) (writeBytes_append [t ^^^ mem ptext] _)

theorem decryptTail_eq (h : Buffers ptext ctext tmp.length) :
    decryptTail tmp mem ctext ptext =
      (mem.writeBytes ptext (xorBytes tmp (mem.readBytes ctext tmp.length)),
        mem.readBytes ctext tmp.length) := by
  induction tmp generalizing mem ctext ptext with
  | nil => simp [decryptTail, xorBytes, Memory.readBytes, Memory.read, Region.addrs]
  | cons t tmp ih =>
    rw [length_cons, Nat.add_comm] at h
    rw [decryptTail, ih h.drop, h.readBytes rfl]
    exact congrArg (·, _) (writeBytes_append [t ^^^ mem ctext] _)

variable (mem : Memory) (p : ℕ)

theorem writeBlk_append (b : Blk) (bs : Bytes) :
    (mem.writeBytes p b.1).writeBytes (p + 16) bs = mem.writeBytes p (b.1 ++ bs) := by
  rw [← writeBytes_append, b.2]

theorem readBytes_firstBlk {len : ℕ} (h : 16 < len) :
    ∃ hlen, firstBlk (mem.readBytes p len) hlen = readBlk mem p ∧
      (mem.readBytes p len).drop 16 = mem.readBytes (p + 16) (len - 16) := by
  have hsplit : mem.readBytes p len = mem.readBytes p 16 ++ mem.readBytes (p + 16) (len - 16) := by
    rw [← readBytes_add, Nat.add_sub_cancel' h.le]
  refine ⟨by rwa [length_readBytes], Subtype.ext ?_, ?_⟩
  · change (mem.readBytes p len).take 16 = mem.readBytes p 16
    rw [hsplit, take_left' (length_readBytes _ _ _)]
  · rw [hsplit, drop_left' (length_readBytes _ _ _)]

theorem encryptEnd_eq (hlen : st.len ≤ 16) (h : Buffers st.ctext st.ptext st.len) :
    o.encryptEnd st =
      (o.sealLast st.i st.r st.s (st.mem.readBytes st.ptext st.len)).map fun x =>
        (st.mem.writeBytes st.ctext x.1, x.2) := by
  rw [sealLast, Option.map_bind]
  refine congrArg _ (funext fun l => ?_)
  rw [comp_apply, Option.map_map]
  refine congrArg (Option.map · o.l[0]?) (funext fun l1 => ?_)
  have htake := length_take_lastMask (o := o) l1 (blkxor st.r l) hlen
  dsimp only [comp_apply]
  rw [length_readBytes, encryptTail_eq _ (htake.symm ▸ h), htake]

theorem decryptEnd_eq {tag : Blk} (hlen : st.len ≤ 16) (h : Buffers st.ptext st.ctext st.len) :
    o.decryptEnd tag st =
      (o.openLast st.i st.r st.s (st.mem.readBytes st.ctext st.len)).map fun x =>
        (st.mem.writeBytes st.ptext x.1, decide (tag = x.2)) := by
  rw [openLast, Option.map_bind]
  refine congrArg _ (funext fun l => ?_)
  rw [comp_apply, Option.map_map]
  refine congrArg (Option.map · o.l[0]?) (funext fun l1 => ?_)
  have htake := length_take_lastMask (o := o) l1 (blkxor st.r l) hlen
  dsimp only [comp_apply]
  rw [length_readBytes, decryptTail_eq _ (htake.symm ▸ h), htake]

theorem encryptLoop_eq {fuel : ℕ} (h : Buffers st.ctext st.ptext st.len) :
    (o.encryptLoop fuel st).bind o.encryptEnd =
      (o.sealBytes fuel st.i st.r st.s (st.mem.readBytes st.ptext st.len)).map fun x =>
        (st.mem.writeBytes st.ctext x.1, x.2) := by
  induction fuel generalizing st with
  | zero =>
    rw [encryptLoop, sealBytes, length_readBytes]
    by_cases hlen : st.len > 16
    · rw [if_pos hlen, if_pos hlen]
      rfl
    · rw [if_neg hlen, if_neg hlen, bind_some, encryptEnd_eq (not_lt.mp hlen) h]
  | succ fuel ih =>
    rw [encryptLoop, sealBytes]
    by_cases hlen : st.len > 16
    · have hbuf := h.split hlen
      obtain ⟨hlen', hfirst, hdrop⟩ := readBytes_firstBlk st.mem st.ptext hlen
      rw [if_pos hlen, dif_pos hlen', bind_assoc, Option.map_bind]
      refine congrArg _ (funext fun l => ?_)
      dsimp only [comp_apply]
      rw [ih hbuf.drop, hfirst, hdrop, Option.map_map]
      rw [hbuf.readBytes_blk]
      refine congrArg (Option.map · _) (funext fun x => ?_)
      exact congrArg (·, _) (writeBlk_append _ _ _ _)
    · rw [if_neg hlen, dif_neg (by rwa [length_readBytes]), bind_some,
        encryptEnd_eq (not_lt.mp hlen) h]

theorem decryptLoop_eq {fuel : ℕ} {tag : Blk} (h : Buffers st.ptext st.ctext st.len) :
    (o.decryptLoop fuel st).bind (o.decryptEnd tag) =
      (o.openBytes fuel st.i st.r st.s (st.mem.readBytes st.ctext st.len)).map fun x =>
        (st.mem.writeBytes st.ptext x.1, decide (tag = x.2)) := by
  induction fuel generalizing st with
  | zero =>
    rw [decryptLoop, openBytes, length_readBytes]
    by_cases hlen : st.len > 16
    · rw [if_pos hlen, if_pos hlen]
      rfl
    · rw [if_neg hlen, if_neg hlen, bind_some, decryptEnd_eq (not_lt.mp hlen) h]
  | succ fuel ih =>
    rw [decryptLoop, openBytes]
    by_cases hlen : st.len > 16
    · have hbuf := h.split hlen
      obtain ⟨hlen', hfirst, hdrop⟩ := readBytes_firstBlk st.mem st.ctext hlen
      rw [if_pos hlen, dif_pos hlen', bind_assoc, Option.map_bind]
      refine congrArg _ (funext fun l => ?_)
      dsimp only [comp_apply]
      rw [ih hbuf.drop, hfirst, hdrop, Option.map_map]
      rw [hbuf.readBytes_blk]
      refine congrArg (Option.map · _) (funext fun x => ?_)
      exact congrArg (·, _) (writeBlk_append _ _ _ _)
    · rw [if_neg hlen, dif_neg (by rwa [length_readBytes]), bind_some,
        decryptEnd_eq (not_lt.mp hlen) h]

end Buffers

end Ocb

/-- A message of at most the configured size is encrypted with accesses inside of the table
only, and decryption of the ciphertext, wherever it is then, recovers it and accepts the tag.
Both work in place and between buffers that do not overlap. -/
theorem ocb_decrypt_encrypt (k : Equiv.Perm Blk) {mms len : ℕ} (hlen : len ≤ mms) (nonce : UInt64)
    (mem : Memory) {ctext ptext : ℕ} (hbuf : Ocb.Buffers ctext ptext len) :
    ∃ mem' tag, (setkey k mms).encrypt mem ctext nonce ptext len = some (mem', tag) ∧
      ∀ (mem1 : Memory) (ctext1 ptext1 : ℕ), Ocb.Buffers ptext1 ctext1 len →
        mem1.readBytes ctext1 len = mem'.readBytes ctext len →
        ∃ mem2, (setkey k mms).decrypt mem1 ptext1 nonce ctext1 tag len = some (mem2, true) ∧
          mem2.readBytes ptext1 len = mem.readBytes ptext len := by
  set o := setkey k mms with ho
  obtain ⟨l0, hl0⟩ : ∃ l, o.lAt 0 = some l := exists_lAt (Nat.zero_le _)
  have hfirst : ∃ l, o.l[0]? = some l := ⟨_, rfl⟩
  have hstart : ∃ r, o.start nonce = some r := by
    rw [start, hl0]
    exact ⟨_, rfl⟩
  obtain ⟨r, hr⟩ := hstart
  have hsealed : ∃ c tag,
      o.sealBytes len 1 r blkclear (mem.readBytes ptext len) = some (c, tag) := by
    apply exists_sealBytes _ hfirst
    · intro j hj hlt
      rw [length_readBytes] at hlt
      apply exists_lAt
      exact ffs_le_calcLSize hj (by omega)
    · rw [length_readBytes]
      omega
  obtain ⟨c, tag, hc⟩ := hsealed
  obtain ⟨hsize, hopen⟩ := openBytes_sealBytes hc
  rw [length_readBytes] at hsize
  refine ⟨mem.writeBytes ctext c, tag, ?_, ?_⟩
  · rw [encrypt, hr, bind_some, encryptLoop_eq hbuf]
    rw [hc, map_some]
  · intro mem1 ctext1 ptext1 hbuf1 hread
    have hcipher : mem1.readBytes ctext1 len = c := by
      rw [hread, ← hsize]
      exact readBytes_writeBytes mem ctext c
    refine ⟨mem1.writeBytes ptext1 (mem.readBytes ptext len), ?_, ?_⟩
    · rw [decrypt, hr, bind_some, decryptLoop_eq hbuf1]
      rw [hcipher, hopen, map_some, decide_eq_true rfl]
    · have hback := readBytes_writeBytes mem1 ptext1 (mem.readBytes ptext len)
      rwa [length_readBytes] at hback

/-- A message of forty bytes, in place. -/
theorem ocb_decrypt_encrypt_in_place :
    ∃ mem' tag, (setkey (Equiv.refl Blk) 64).encrypt (fun x => UInt8.ofNat x) 1000 7 1000 40 =
        some (mem', tag) ∧
      ∃ mem2, (setkey (Equiv.refl Blk) 64).decrypt mem' 1000 7 1000 tag 40 =
          some (mem2, true) ∧
        mem2.readBytes 1000 40 = Memory.readBytes (fun x => UInt8.ofNat x) 1000 40 := by
  obtain ⟨mem', tag, henc, hdec⟩ := ocb_decrypt_encrypt (Equiv.refl Blk) (by decide : 40 ≤ 64) 7
    (fun x => UInt8.ofNat x) (.inl rfl)
  exact ⟨mem', tag, henc, hdec mem' 1000 1000 (.inl rfl) rfl⟩

end SelfCertifyingFS.Crypt
