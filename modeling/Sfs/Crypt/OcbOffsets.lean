import Mathlib.Data.List.GetD
import Sfs.Crypt.Ocb

/-!
# The offsets of offset codebook mode

Each block is masked with an offset of its own, which differs from the one before by an
entry of the table. The mode takes that of the number of zeros that the block's number ends
with. `ffs64` takes the highest bit of the number instead, and the third offset is the first
one again.
-/

namespace SelfCertifyingFS.Crypt

open Foundations Rpc List Option Async

theorem blkxor_comm (a b : Blk) : blkxor a b = blkxor b a := Subtype.ext (xorBytes_comm a.1 b.1)

theorem blkxor_assoc (a b c : Blk) : blkxor (blkxor a b) c = blkxor a (blkxor b c) :=
  Subtype.ext (xorBytes_assoc a.1 b.1 c.1)

theorem blkxor_self (a : Blk) : blkxor a a = blkclear := by
  apply Subtype.ext
  change xorBytes a.1 a.1 = replicate 16 0
  rw [xorBytes, zipWith_self]
  simp only [UInt8.xor_self, map_const', a.2]

theorem blkclear_blkxor (a : Blk) : blkxor blkclear a = a := by
  rw [← blkxor_self a, blkxor_cancel]

instance blkAdd : Add Blk := ⟨blkxor⟩

instance blkZero : Zero Blk := ⟨blkclear⟩

instance blkNeg : Neg Blk := ⟨id⟩

/-- Blocks are vectors of bits. -/
instance blkAddCommGroup : AddCommGroup Blk where
  add_assoc := blkxor_assoc
  add_comm := blkxor_comm
  zero_add := blkclear_blkxor
  add_zero a := (blkxor_comm a blkclear).trans (blkclear_blkxor a)
  neg_add_cancel := blkxor_self
  nsmul := nsmulRec
  zsmul := zsmulRec

theorem two_nsmul_blk (a : Blk) : 2 • a = 0 := (two_nsmul a).trans (blkxor_self a)

instance blkModule : Module (ZMod 2) Blk := AddCommGroup.zmodModule two_nsmul_blk

namespace Ocb

section Offsets

variable (o : Ocb)

/-- The number of blocks of a message. There is a last one in any case. -/
def blocks (len : ℕ) : ℕ := (len - 1) / 16 + 1

/-- The offsets of so many blocks from the one with the number `i` on, when `find` selects the
entry of the table. -/
def offsetsFrom (find : ℕ → ℕ) : ℕ → ℕ → Blk → Option (List Blk)
  | 0, _, _ => some []
  | n + 1, i, r =>
      (o.lAt (find i - 1)).bind fun l =>
        (offsetsFrom find n (i + 1) (blkxor r l)).map fun rs => blkxor r l :: rs

def offsets (nonce : UInt64) (len : ℕ) : Option (List Blk) :=
  (o.start nonce).bind (o.offsetsFrom ffs (blocks len) 1)

/-- What a message is encrypted to with these offsets, and `l1` as the entry before the first. -/
def maskWith (l1 : Blk) : List Blk → Bytes → Bytes
  | [], _ => []
  | r :: rs, m =>
      if h : 16 < m.length then
        (blkxor (o.k (blkxor (firstBlk m h) r)) r).1 ++ maskWith l1 rs (m.drop 16)
      else xorBytes ((o.lastMask l1 r m.length).1.take m.length) m

variable {o}

theorem blocks_of_lt {len : ℕ} (h : 16 < len) : blocks len = blocks (len - 16) + 1 := by
  unfold blocks
  omega

theorem blocks_of_le {len : ℕ} (h : len ≤ 16) : blocks len = 1 := by
  unfold blocks
  omega

theorem sealLast_offsets {i : ℕ} {r s : Blk} {m c : Bytes} {tag : Blk} (hm : m.length ≤ 16)
    (h : o.sealLast i r s m = some (c, tag)) :
    ∃ rs l1, o.offsetsFrom ffs (blocks m.length) i r = some rs ∧ o.l[0]? = some l1 ∧
      c = o.maskWith l1 rs m := by
  obtain ⟨l, hl, h⟩ := bind_eq_some_iff.mp h
  obtain ⟨l1, hl1, h⟩ := map_eq_some_iff.mp h
  refine ⟨[blkxor r l], l1, ?_, hl1, ?_⟩
  · rw [blocks_of_le hm, offsetsFrom, hl]
    rfl
  · rw [maskWith, dif_neg hm.not_gt]
    exact (Prod.mk.inj h).1.symm

/-- The blocks of a message are encrypted with its offsets, one after the other. -/
theorem sealBytes_offsets {fuel i : ℕ} {r s : Blk} {m c : Bytes} {tag : Blk}
    (h : o.sealBytes fuel i r s m = some (c, tag)) :
    ∃ rs l1, o.offsetsFrom ffs (blocks m.length) i r = some rs ∧ o.l[0]? = some l1 ∧
      c = o.maskWith l1 rs m := by
  induction fuel generalizing i r s m c tag with
  | zero =>
    unfold sealBytes at h
    split_ifs at h with hlen
    exact sealLast_offsets (not_lt.mp hlen) h
  | succ fuel ih =>
    unfold sealBytes at h
    split_ifs at h with hlen
    · obtain ⟨l, hl, h⟩ := bind_eq_some_iff.mp h
      obtain ⟨⟨c', tag'⟩, hrest, h⟩ := map_eq_some_iff.mp h
      obtain ⟨rs, l1, hrs, hl1, rfl⟩ := ih hrest
      refine ⟨blkxor r l :: rs, l1, ?_, hl1, ?_⟩
      · rw [length_drop] at hrs
        rw [blocks_of_lt hlen, offsetsFrom, hl, bind_some, hrs]
        rfl
      · rw [maskWith, dif_pos hlen]
        exact (Prod.mk.inj h).1.symm
    · exact sealLast_offsets (not_lt.mp hlen) h

/-- `encrypt` writes the message masked with its offsets. -/
theorem encrypt_offsets {mem mem' : Memory} {ctext ptext len : ℕ} {nonce : UInt64} {tag : Blk}
    (hbuf : Buffers ctext ptext len) (h : o.encrypt mem ctext nonce ptext len = some (mem', tag)) :
    ∃ rs l1, o.offsets nonce len = some rs ∧ o.l[0]? = some l1 ∧
      mem' = mem.writeBytes ctext (o.maskWith l1 rs (mem.readBytes ptext len)) := by
  obtain ⟨r, hr, h⟩ := bind_eq_some_iff.mp h
  rw [encryptLoop_eq hbuf] at h
  obtain ⟨⟨c, tag'⟩, hseal, h⟩ := map_eq_some_iff.mp h
  obtain ⟨rs, l1, hrs, hl1, rfl⟩ := sealBytes_offsets hseal
  rw [Memory.length_readBytes] at hrs
  refine ⟨rs, l1, ?_, hl1, (Prod.mk.inj h).1.symm⟩
  rw [offsets, hr, bind_some, hrs]

theorem encrypt_offsets_one_byte :
    let o := setkey (Equiv.refl Blk) 1
    ∃ mem' tag, o.encrypt (fun _ => 5) 0 7 0 1 = some (mem', tag) ∧ ∃ rs l1,
      o.offsets 7 1 = some rs ∧ o.l[0]? = some l1 ∧
        mem' = Memory.writeBytes (fun _ => 5) 0 (o.maskWith l1 rs [5]) :=
  ⟨_, _, rfl, encrypt_offsets (.inl rfl) rfl⟩

end Offsets

section Table

variable (o : Ocb)

def entry (b : ℕ) : Blk := (o.lAt b).getD blkclear

/-- The entries from the index zero on are independent. -/
def Independent : Prop := LinearIndependent (ZMod 2) fun b : Fin (o.l.length - 1) => o.entry b

/-- The offset of the block with the number `i`. -/
def place (find : ℕ → ℕ) (r : Blk) : ℕ → Blk
  | 0 => r
  | i + 1 => place find r i + o.entry (find (i + 1) - 1)

/-- From each offset to the next one the entry of the zeros at the end of its number is added. -/
def ByZeros (r : Blk) (rs : List Blk) : Prop :=
  ∀ i < rs.length, rs.getD i 0 = blkxor ((r :: rs).getD i 0) (o.entry (padicValNat 2 (i + 1)))

variable {o} {find : ℕ → ℕ} {r : Blk}

theorem offsetsFrom_eq {n i : ℕ}
    (h : ∀ j, i < j → j ≤ i + n → ∃ l, o.lAt (find j - 1) = some l) :
    o.offsetsFrom find n (i + 1) (o.place find r i) =
      some ((range' (i + 1) n).map (o.place find r)) := by
  induction n generalizing i with
  | zero => rfl
  | succ n ih =>
    obtain ⟨l, hl⟩ := h (i + 1) (Nat.lt_succ_self i) (by omega)
    have hnext : blkxor (o.place find r i) l = o.place find r (i + 1) := by
      rw [place, entry, hl]
      rfl
    rw [offsetsFrom, hl, bind_some, hnext, ih fun j hj hle => h j (by omega) (by omega)]
    rfl

/-- The offsets change as they should if that is what the places do. -/
theorem byZeros_iff {n : ℕ} :
    o.ByZeros r ((range' 1 n).map (o.place find r)) ↔
      ∀ i < n, o.entry (find (i + 1) - 1) = o.entry (padicValNat 2 (i + 1)) := by
  have hget : ∀ i < n, ((range' 1 n).map (o.place find r)).getD i 0 = o.place find r (i + 1) := by
    intro i hi
    rw [getD_eq_getElem _ _ (by simpa using hi)]
    simp [Nat.add_comm]
  have hprev : ∀ i < n, (r :: (range' 1 n).map (o.place find r)).getD i 0 = o.place find r i := by
    intro i hi
    cases i with
    | zero => rfl
    | succ i =>
      exact hget i (Nat.lt_of_succ_lt hi)
  unfold ByZeros
  rw [length_map, length_range']
  refine forall₂_congr fun i hi => ?_
  rw [hget i hi, hprev i hi]
  exact add_right_inj _

theorem entry_add_self (b : ℕ) : o.entry b + o.entry b = 0 := blkxor_self _

variable {k : Equiv.Perm Blk} {mms len : ℕ}

theorem length_table (k : Equiv.Perm Blk) (mms : ℕ) :
    (setkey k mms).l.length - 1 = calcLSize mms + 1 := by
  simp [setkey]

section

variable (h : (setkey k mms).Independent)

include h

theorem Independent.linearIndependent :
    LinearIndependent (ZMod 2) fun b : Fin (calcLSize mms + 1) => (setkey k mms).entry b := by
  unfold Independent at h
  rwa [length_table k mms] at h

theorem Independent.entry_ne_zero {b : ℕ} (hb : b ≤ calcLSize mms) : (setkey k mms).entry b ≠ 0 :=
  h.linearIndependent.ne_zero (⟨b, Nat.lt_succ_of_le hb⟩ : Fin (calcLSize mms + 1))

theorem Independent.entry_injective {a b : ℕ} (ha : a ≤ calcLSize mms) (hb : b ≤ calcLSize mms)
    (hab : (setkey k mms).entry a = (setkey k mms).entry b) : a = b := by
  have hfin : (⟨a, Nat.lt_succ_of_le ha⟩ : Fin (calcLSize mms + 1)) = ⟨b, Nat.lt_succ_of_le hb⟩ :=
    h.linearIndependent.injective hab
  exact Fin.mk.inj hfin

end

theorem one_le_calcLSize (mms : ℕ) : 1 ≤ calcLSize mms := by
  unfold calcLSize
  dsimp only
  split_ifs <;> omega

theorem offsets_eq (hlen : len ≤ mms) (nonce : UInt64) :
    ∃ r, (setkey k mms).start nonce = some r ∧ (setkey k mms).offsets nonce len =
      some ((range' 1 (blocks len)).map ((setkey k mms).place ffs r)) := by
  obtain ⟨l, hl⟩ := @exists_lAt k mms 0 (Nat.zero_le _)
  have hstart : ∃ r, (setkey k mms).start nonce = some r := by
    rw [start, hl]
    exact ⟨_, rfl⟩
  obtain ⟨r, hr⟩ := hstart
  refine ⟨r, hr, ?_⟩
  rw [offsets, hr]
  apply @offsetsFrom_eq _ ffs r (blocks len) 0
  intro j hj hle
  rw [blocks] at hle
  exact exists_lAt (ffs_le_calcLSize hj (by omega))

end Table

section Distinct

variable {k : Equiv.Perm Blk} {mms len : ℕ}

theorem place_three (o : Ocb) (r : Blk) : o.place ffs r 3 = o.place ffs r 1 := by
  have htwo : ffs 2 = 2 := by decide
  have hthree : ffs 3 = 2 := by decide
  have hfirst : o.place ffs r 2 = o.place ffs r 1 + o.entry (ffs 2 - 1) := rfl
  have hnext : o.place ffs r 3 = o.place ffs r 2 + o.entry (ffs 3 - 1) := rfl
  rw [hnext, hfirst, htwo, hthree, add_assoc, entry_add_self, add_zero]

theorem nodup_places_iff (h : (setkey k mms).Independent) (r : Blk) (n : ℕ) :
    ((range' 1 n).map ((setkey k mms).place ffs r)).Nodup ↔ n ≤ 2 := by
  constructor
  · intro hnodup
    by_contra hn
    have hmem : ∀ i, 0 < i → i ≤ 3 → i ∈ range' 1 n := by
      intro i hi hle
      rw [List.mem_range'_1]
      omega
    have hinj := inj_on_of_nodup_map hnodup (hmem 3 (by decide) le_rfl)
      (hmem 1 (by decide) (by decide)) (place_three _ r)
    exact absurd hinj (by decide)
  · intro hn
    have hstep : (setkey k mms).place ffs r 1 ≠ (setkey k mms).place ffs r 2 := by
      intro heq
      have hnext : (setkey k mms).place ffs r 2 =
          (setkey k mms).place ffs r 1 + (setkey k mms).entry (ffs 2 - 1) := rfl
      rw [hnext, left_eq_add] at heq
      exact h.entry_ne_zero (one_le_calcLSize mms) heq
    interval_cases n
    · exact nodup_nil
    · exact nodup_singleton _
    · exact nodup_cons.mpr ⟨fun hmem => hstep (mem_singleton.mp hmem), nodup_singleton _⟩

theorem byZeros_places_iff (h : (setkey k mms).Independent) (r : Blk) (n : ℕ) :
    (setkey k mms).ByZeros r ((range' 1 n).map ((setkey k mms).place ffs r)) ↔ n ≤ 2 := by
  have hone : padicValNat 2 1 = 0 := by simp
  have htwo : padicValNat 2 2 = 1 := by simp
  have hthree : padicValNat 2 3 = 0 := padicValNat.eq_zero_of_not_dvd (by decide)
  rw [byZeros_iff]
  constructor
  · intro hall
    by_contra hn
    have heq := hall 2 (by omega)
    rw [hthree] at heq
    exact absurd (h.entry_injective (one_le_calcLSize mms) (Nat.zero_le _) heq) (by decide)
  · intro hn i hi
    obtain rfl | rfl : i = 0 ∨ i = 1 := by omega
    · rw [show ffs (0 + 1) - 1 = 0 by decide, hone]
    · rw [show ffs (1 + 1) - 1 = 1 by decide, htwo]

theorem blocks_le_two_iff : blocks len ≤ 2 ↔ len ≤ 32 := by
  unfold blocks
  omega

/-- With independent entries in the table, the offsets of a message are distinct, and change by
the entry of the zeros that the block's number ends with, if the message has at most two
blocks. -/
theorem offsets_distinct_iff (k : Equiv.Perm Blk) {mms len : ℕ} (hlen : len ≤ mms)
    (hindep : (setkey k mms).Independent) (nonce : UInt64) :
    ∃ r rs, (setkey k mms).start nonce = some r ∧
      (setkey k mms).offsets nonce len = some rs ∧ rs.length = blocks len ∧
      (rs.Nodup ↔ len ≤ 32) ∧ ((setkey k mms).ByZeros r rs ↔ len ≤ 32) := by
  obtain ⟨r, hr, hrs⟩ := offsets_eq hlen nonce
  refine ⟨r, _, hr, hrs, ?_, ?_, ?_⟩
  · rw [length_map, length_range']
  · rw [nodup_places_iff hindep, blocks_le_two_iff]
  · rw [byZeros_places_iff hindep, blocks_le_two_iff]

/-- A cipher that exchanges the block of zeros and the one that ends with a one. -/
def exchange : Equiv.Perm Blk := Equiv.swap blkclear (xorLast blkclear 1)

theorem exchange_independent : (setkey exchange 48).Independent := by
  have hsize : (setkey exchange 48).l.length - 1 = 3 := by decide +kernel
  have hcases : ∀ a b c : ZMod 2,
      a • (setkey exchange 48).entry 0 + b • (setkey exchange 48).entry 1 +
        c • (setkey exchange 48).entry 2 = 0 → a = 0 ∧ b = 0 ∧ c = 0 := by decide +kernel
  unfold Independent
  rw [hsize, Fintype.linearIndependent_iff]
  intro g hg
  rw [Fin.sum_univ_three] at hg
  obtain ⟨h0, h1, h2⟩ := hcases _ _ _ hg
  exact Fin.forall_fin_succ.mpr ⟨h0, Fin.forall_fin_two.mpr ⟨h1, h2⟩⟩

theorem offsets_distinct_two_blocks :
    ∃ r rs, (setkey exchange 48).start 7 = some r ∧
      (setkey exchange 48).offsets 7 32 = some rs ∧ rs.length = blocks 32 ∧
      (rs.Nodup ↔ 32 ≤ 32) ∧ ((setkey exchange 48).ByZeros r rs ↔ 32 ≤ 32) :=
  offsets_distinct_iff exchange (by decide) exchange_independent 7

/-- Three blocks of one message, the first and the last with the same offset. -/
theorem third_offset_is_first :
    (setkey exchange 48).Independent ∧
      ∃ a b, (setkey exchange 48).offsets 7 48 = some [a, b, a] := by
  refine ⟨exchange_independent, ?_⟩
  obtain ⟨r, -, hrs⟩ := @offsets_eq exchange 48 48 le_rfl 7
  refine ⟨(setkey exchange 48).place ffs r 1, (setkey exchange 48).place ffs r 2,
    hrs.trans ?_⟩
  have hrange : range' 1 (blocks 48) = [1, 2, 3] := rfl
  rw [hrange, map_cons, map_cons, map_singleton, place_three]

end Distinct

end Ocb

end SelfCertifyingFS.Crypt
