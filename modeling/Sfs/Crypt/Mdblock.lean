import Sfs.Foundations.Chunks
import Sfs.Foundations.XorBytes

/-!
# Hash functions over blocks

`mdblock` of `crypt/mdblock.C`, which collects a message into blocks of 64 bytes for a
hash function. The function, a parameter, consumes one block after the other; at the
end the message is padded, with its length in bits last. However the message is split
among the updates, the blocks of the padded message are consumed.
-/

namespace SelfCertifyingFS.Crypt

open Foundations List

/-- A block of the size `blocksize`. -/
abbrev MdBlk := Sized UInt8 64

/-- The state of `mdblock` and of the class that is derived from it. The bytes of the buffer are
not set before the first update. -/
structure Mdblock (σ : Type*) where
  count : UInt64
  buffer : MdBlk
  state : σ

namespace Mdblock

section Code

variable {σ : Type*} (consume : σ → MdBlk → σ) (buffer : MdBlk) (off : ℕ) (data : Bytes)

theorem length_memcpy : (overwrite buffer.1 off data).length = 64 := by
  rw [length_overwrite, buffer.2]

/-- `memcpy` into the buffer. -/
def memcpy : MdBlk :=
  ⟨overwrite buffer.1 off data, length_memcpy buffer off data⟩

def bcount (m : Mdblock σ) : ℕ := m.count.toNat % 64

/-- The loop over whole blocks of the data: the state, and the data that is left. -/
def consumeLoop : ℕ → σ → Bytes → σ × Bytes
  | 0, s, data => (s, data)
  | fuel + 1, s, data =>
      if h : 64 ≤ data.length then
        consumeLoop fuel (consume s (firstChunk data h)) (data.drop 64)
      else (s, data)

variable (m : Mdblock σ)

/-- The first bytes of the data fill up the buffer, if there is something in it. -/
def topUp (data : Bytes) : MdBlk × σ × Bytes :=
  if m.bcount ≠ 0 then
    let j := 64 - m.bcount
    let buffer := memcpy m.buffer m.bcount (data.take j)
    (buffer, consume m.state buffer, data.drop j)
  else (m.buffer, m.state, data)

/-- The method `update`. -/
def update (data : Bytes) : Mdblock σ :=
  let count := m.count + UInt64.ofNat data.length
  if m.bcount + data.length < 64 then
    { m with count := count, buffer := memcpy m.buffer m.bcount data }
  else
    let t := topUp consume m data
    let r := consumeLoop consume data.length t.2.1 t.2.2
    ⟨count, memcpy t.1 0 r.2, r.1⟩

def updatev (iov : List Bytes) : Mdblock σ := iov.foldl (update consume) m

/-- The padding bit: the object, and the index of the byte behind it in the buffer. In a buffer
without room for the length it is the start of a padding of its own, which is not counted. -/
def padBit (marker : UInt8) (m : Mdblock σ) : Mdblock σ × ℕ :=
  if m.bcount > 64 - 9 then
    let tmp := marker :: replicate (64 - m.bcount - 1) 0
    let m' := update consume m tmp
    ({ m' with count := m'.count - UInt64.ofNat (64 - m.bcount) }, 0)
  else ({ m with buffer := memcpy m.buffer m.bcount [marker] }, m.bcount + 1)

/-- What `finish_le` and `finish_be` have in common. -/
def finish (marker : UInt8) (lengthBytes : UInt64 → Bytes) (m : Mdblock σ) : Mdblock σ :=
  let p := padBit consume marker m
  let buffer := memcpy p.1.buffer p.2 (replicate (64 - 8 - p.2) 0)
  let count := p.1.count <<< 3
  let buffer := memcpy buffer (64 - 8) (lengthBytes count)
  ⟨count, buffer, consume p.1.state buffer⟩

def lengthLe (count : UInt64) : Bytes :=
  [0, 8, 16, 24, 32, 40, 48, 56].map fun (i : UInt64) => ((count >>> i) &&& 0xff).toUInt8

def lengthBe (count : UInt64) : Bytes :=
  [56, 48, 40, 32, 24, 16, 8, 0].map fun (i : UInt64) => ((count >>> i) &&& 0xff).toUInt8

def finishLe : Mdblock σ → Mdblock σ := finish consume 0x01 lengthLe

def finishBe : Mdblock σ → Mdblock σ := finish consume 0x80 lengthBe

end Code

/-- A message with its padding: a marker, zeros up to the last eight bytes of a block, and the
length in bits, modulo `2 ^ 64`. -/
def padded (marker : UInt8) (lengthBytes : ℕ → Bytes) (msg : Bytes) : Bytes :=
  msg ++ marker :: replicate ((119 - msg.length % 64) % 64) 0 ++
    lengthBytes (8 * msg.length % 2 ^ 64)

variable {σ : Type*} {consume : σ → MdBlk → σ} {s : σ} {m : Mdblock σ} {msg : Bytes}

/-- The whole blocks of a message have been consumed, and the rest of it is in the buffer. -/
structure Holds (consume : σ → MdBlk → σ) (s : σ) (m : Mdblock σ) (msg : Bytes)
    (whole : List MdBlk) (rest : Bytes) : Prop where
  count : m.count = UInt64.ofNat msg.length
  split : msg = joined whole ++ rest
  short : rest.length < 64
  state : m.state = whole.foldl consume s
  buffer : m.buffer.1.take rest.length = rest

variable {whole : List MdBlk} {rest : Bytes}

variable {buffer : MdBlk} {data : Bytes}

theorem take_memcpy (h : buffer.1.take rest.length = rest)
    (hlen : rest.length + data.length ≤ 64) :
    (memcpy buffer rest.length data).1.take (rest ++ data).length = rest ++ data := by
  have hfit : rest.length + data.length ≤ buffer.1.length := by rwa [buffer.2]
  rw [length_append]
  change (overwrite buffer.1 rest.length data).take (rest.length + data.length) = rest ++ data
  rw [take_overwrite hfit, h]

theorem memcpy_full (h : buffer.1.take rest.length = rest)
    (hlen : (rest ++ data).length = 64) :
    memcpy buffer rest.length data = ⟨rest ++ data, hlen⟩ := by
  apply Subtype.ext
  have htake := take_memcpy h (by simpa using hlen.le)
  rwa [hlen, take_of_length_le (memcpy buffer rest.length data).2.le] at htake

theorem consumeLoop_spec (s : σ) {fuel : ℕ} {data : Bytes} (hfuel : data.length ≤ fuel) :
    ∃ whole rest, data = joined whole ++ rest ∧ rest.length < 64 ∧
      consumeLoop consume fuel s data = (whole.foldl consume s, rest) := by
  induction fuel generalizing s data with
  | zero => exact ⟨[], data, rfl, by omega, rfl⟩
  | succ fuel ih =>
    by_cases h : 64 ≤ data.length
    · have hdrop : (data.drop 64).length ≤ fuel := by
        rw [length_drop]
        omega
      obtain ⟨whole, rest, hdata, hrest, hloop⟩ := ih (consume s (firstChunk data h)) hdrop
      refine ⟨firstChunk data h :: whole, rest, ?_, hrest, ?_⟩
      · calc data = data.take 64 ++ data.drop 64 := (take_append_drop 64 data).symm
          _ = data.take 64 ++ (joined whole ++ rest) := by rw [hdata]
          _ = joined (firstChunk data h :: whole) ++ rest := by
            rw [joined_cons, append_assoc]
            rfl
      · rw [consumeLoop, dif_pos h, hloop]
        rfl
    · refine ⟨[], data, rfl, by omega, ?_⟩
      rw [consumeLoop, dif_neg h]
      rfl

/-- Before the first update nothing has been consumed. -/
theorem holds_new (buffer : MdBlk) (s : σ) : Holds consume s ⟨0, buffer, s⟩ [] [] [] :=
  ⟨rfl, rfl, by decide, rfl, rfl⟩

theorem lengthBe_eq (count : UInt64) : lengthBe count = beBytes 8 count.toNat := by
  have hbyte : ∀ i, i.toNat < 64 →
      ((count >>> i) &&& 0xff).toUInt8 = UInt8.ofNat (count.toNat / 2 ^ i.toNat % 256) := by
    intro i hi
    apply UInt8.toNat_inj.mp
    rw [UInt64.toNat_toUInt8, UInt64.toNat_and, UInt64.toNat_shiftRight, Nat.mod_eq_of_lt hi,
      Nat.shiftRight_eq_div_pow]
    exact congrArg (· % 2 ^ 8) (Nat.and_two_pow_sub_one_eq_mod _ 8)
  simp only [lengthBe, map_cons]
  rw [hbyte 56 (by decide), hbyte 48 (by decide), hbyte 40 (by decide), hbyte 32 (by decide),
    hbyte 24 (by decide), hbyte 16 (by decide), hbyte 8 (by decide), hbyte 0 (by decide)]
  simp [beBytes, Nat.div_div_eq_div_mul]

theorem lengthLe_eq (count : UInt64) : lengthLe count = leBytes 8 count.toNat := by
  rw [leBytes, ← lengthBe_eq]
  rfl

theorem toNat_bitcount (n : ℕ) : (UInt64.ofNat n <<< 3).toNat = 8 * n % 2 ^ 64 := by
  have hthree : (3 : UInt64).toNat % 64 = 3 := rfl
  rw [UInt64.toNat_shiftLeft, UInt64.toNat_ofNat', hthree]
  omega

section

variable (h : Holds consume s m msg whole rest)

include h

theorem Holds.bcount : m.bcount = rest.length := by
  have hlen : msg.length = 64 * whole.length + rest.length := by
    rw [h.split, length_append, length_joined]
  have hshort := h.short
  rw [Mdblock.bcount, h.count, UInt64.toNat_ofNat']
  omega

theorem topUp_spec {data : Bytes} (hlen : 64 ≤ rest.length + data.length) :
    ∃ whole' data', joined whole' ++ data' = msg ++ data ∧ data'.length ≤ data.length ∧
      (topUp consume m data).2 = (whole'.foldl consume s, data') := by
  have hcount := h.bcount
  have hshort := h.short
  by_cases hzero : m.bcount ≠ 0
  · have hfull : (rest ++ data.take (64 - rest.length)).length = 64 := by
      rw [length_append, length_take_of_le (by omega)]
      omega
    refine ⟨whole ++ [⟨_, hfull⟩], data.drop (64 - rest.length), ?_, ?_, ?_⟩
    · simp [h.split]
    · rw [length_drop]
      omega
    · rw [topUp, if_pos hzero, hcount]
      dsimp only
      rw [memcpy_full h.buffer hfull, foldl_append, h.state]
      rfl
  · obtain rfl : rest = [] := length_eq_zero_iff.mp (by omega)
    refine ⟨whole, data, ?_, le_rfl, ?_⟩
    · rw [h.split, append_nil]
    · rw [topUp, if_neg hzero, h.state]

theorem Holds.update (data : Bytes) :
    ∃ whole' rest', Holds consume s (update consume m data) (msg ++ data) whole' rest' := by
  have hcount : m.count + UInt64.ofNat data.length = UInt64.ofNat (msg ++ data).length := by
    rw [h.count, length_append, UInt64.ofNat_add]
  by_cases hlt : m.bcount + data.length < 64
  · rw [Mdblock.update, if_pos hlt]
    rw [h.bcount] at hlt ⊢
    refine ⟨whole, rest ++ data, hcount, ?_, ?_, h.state, take_memcpy h.buffer hlt.le⟩
    · rw [h.split, append_assoc]
    · rwa [length_append]
  · obtain ⟨whole', data', hsplit, hdata, htop⟩ :=
      @topUp_spec σ consume s m msg whole rest h data (by rw [← h.bcount]; omega)
    obtain ⟨more, rest', hrest, hshort, hloop⟩ :=
      @consumeLoop_spec σ consume (whole'.foldl consume s) _ _ hdata
    refine ⟨whole' ++ more, rest', ?_⟩
    rw [Mdblock.update, if_neg hlt]
    dsimp only
    rw [htop, hloop]
    refine ⟨hcount, ?_, hshort, foldl_append.symm, ?_⟩
    · rw [← hsplit, hrest, joined_append, append_assoc]
    · exact @take_memcpy [] _ rest' rfl (by simpa using hshort.le)

theorem Holds.updatev (iov : List Bytes) :
    ∃ whole' rest', Holds consume s (updatev consume m iov) (msg ++ iov.flatten) whole' rest' := by
  induction iov generalizing m msg whole rest with
  | nil =>
    rw [flatten_nil, append_nil]
    exact ⟨whole, rest, h⟩
  | cons data iov ih =>
    obtain ⟨whole', rest', h'⟩ := h.update data
    obtain ⟨whole'', rest'', h''⟩ := ih h'
    refine ⟨whole'', rest'', ?_⟩
    rwa [append_assoc] at h''

/-! ### Padding -/

/-- After the padding bit, the whole blocks have been consumed, and the rest is in the buffer
with room for the length. -/
theorem padBit_spec (marker : UInt8) :
    ∃ whole' tail j, (padBit consume marker m).2 = tail.length ∧ tail.length ≤ 56 ∧
      (padBit consume marker m).1.count = UInt64.ofNat msg.length ∧
      (padBit consume marker m).1.state = whole'.foldl consume s ∧
      (padBit consume marker m).1.buffer.1.take tail.length = tail ∧
      joined whole' ++ tail = msg ++ marker :: replicate j 0 ∧
      j + (56 - tail.length) = (119 - msg.length % 64) % 64 := by
  have hcount := h.bcount
  have hshort := h.short
  have hmod : msg.length % 64 = rest.length := by
    rw [h.split, length_append, length_joined]
    omega
  by_cases hsplit : m.bcount > 64 - 9
  · rw [padBit, if_pos hsplit, hcount]
    have hfull : (rest ++ marker :: replicate (64 - rest.length - 1) 0).length = 64 := by
      rw [length_append, length_cons, length_replicate]
      omega
    obtain ⟨whole', rest', h'⟩ := h.update (marker :: replicate (64 - rest.length - 1) 0)
    -- The padding ends with a block, so nothing is left in the buffer.
    have hblocks : joined (whole ++ [⟨_, hfull⟩]) = joined whole' ++ rest' := by
      rw [← h'.split, h.split]
      simp
    have hwhole : whole' = whole ++ [⟨_, hfull⟩] := by
      rw [← chunks_joined_append whole' h'.short, ← hblocks, chunks_joined]
    refine ⟨whole', [], 64 - rest.length - 1, rfl, Nat.zero_le _, ?_, h'.state, rfl, ?_, ?_⟩
    · dsimp only
      rw [h'.count, length_append, length_cons, length_replicate,
        Nat.sub_add_cancel (by omega), UInt64.ofNat_add, UInt64.add_sub_cancel]
    · rw [hwhole, h.split]
      simp
    · rw [length_nil]
      omega
  · rw [padBit, if_neg hsplit, hcount]
    refine ⟨whole, rest ++ [marker], 0, ?_, ?_, h.count, h.state, ?_, ?_, ?_⟩
    · rw [length_append, length_singleton]
    · rw [length_append, length_singleton]
      omega
    · exact take_memcpy h.buffer (by rw [length_singleton]; omega)
    · rw [h.split, append_assoc]
      rfl
    · rw [length_append, length_singleton]
      omega

theorem Holds.finish (marker : UInt8) {lengthBytes : UInt64 → Bytes} {bytes : ℕ → Bytes}
    (hbytes : ∀ c, lengthBytes c = bytes c.toNat) (height : ∀ n, (bytes n).length = 8) :
    (finish consume marker lengthBytes m).state =
      (chunks 64 (padded marker bytes msg)).foldl consume s := by
  obtain ⟨whole', tail, j, hdp, htail, hcount, hstate, hbuffer, hsplit, hj⟩ := padBit_spec h marker
  have hzeros : (tail ++ replicate (64 - 8 - tail.length) (0 : UInt8)).length = 64 - 8 := by
    rw [length_append, length_replicate]
    omega
  have hblock : ((tail ++ replicate (64 - 8 - tail.length) (0 : UInt8)) ++
      bytes (8 * msg.length % 2 ^ 64)).length = 64 := by
    rw [length_append, hzeros, height]
  have hpadded : padded marker bytes msg = joined (whole' ++ [⟨_, hblock⟩]) := by
    calc padded marker bytes msg
        = (msg ++ marker :: replicate j 0) ++ (replicate (56 - tail.length) 0 ++
            bytes (8 * msg.length % 2 ^ 64)) := by
          rw [padded, ← hj, replicate_add]
          simp only [append_assoc, cons_append]
      _ = joined (whole' ++ [⟨_, hblock⟩]) := by
          rw [← hsplit]
          simp
  have hfill := take_memcpy hbuffer (by rw [← length_append, hzeros]; decide)
  have hfinal := memcpy_full hfill hblock
  rw [hzeros] at hfinal
  rw [hpadded, chunks_joined, foldl_append, ← hstate]
  unfold Mdblock.finish
  dsimp only
  rw [hbytes, hdp, hcount, toNat_bitcount, hfinal]
  rfl

end

theorem dvd_length_padded (marker : UInt8) {bytes : ℕ → Bytes} (height : ∀ n, (bytes n).length = 8)
    (msg : Bytes) : 64 ∣ (padded marker bytes msg).length := by
  rw [padded, length_append, length_append, length_cons, length_replicate, height]
  omega

/-- Whatever the updates are, what is consumed is the message with a padding that starts with
`0x80` and ends with the length high byte first, or starts with `0x01` and ends with the length
low byte first. -/
theorem finish_updatev (consume : σ → MdBlk → σ) (s : σ) (buffer : MdBlk) (iov : List Bytes) :
    (64 ∣ (padded 0x80 (beBytes 8) iov.flatten).length ∧
      (finishBe consume (updatev consume ⟨0, buffer, s⟩ iov)).state =
        (chunks 64 (padded 0x80 (beBytes 8) iov.flatten)).foldl consume s) ∧
      64 ∣ (padded 0x01 (leBytes 8) iov.flatten).length ∧
      (finishLe consume (updatev consume ⟨0, buffer, s⟩ iov)).state =
        (chunks 64 (padded 0x01 (leBytes 8) iov.flatten)).foldl consume s := by
  obtain ⟨whole, rest, h⟩ := (@holds_new σ consume buffer s).updatev iov
  refine ⟨⟨?_, ?_⟩, ?_, ?_⟩
  · exact dvd_length_padded _ (length_beBytes 8) _
  · exact h.finish 0x80 lengthBe_eq (length_beBytes 8)
  · exact dvd_length_padded _ (length_leBytes 8) _
  · exact h.finish 0x01 lengthLe_eq (length_leBytes 8)

theorem length_zero_chunk : (replicate 64 (0 : UInt8)).length = 64 := rfl

/-- The padding of `finish_le` does not start with `0x80`. -/
theorem finishLe_marker :
    (finishLe (fun (s : Bytes) b => s ++ b.1)
        (updatev (fun s b => s ++ b.1)
          ⟨0, ⟨replicate 64 0, length_zero_chunk⟩, []⟩ [])).state ≠
      (chunks 64 (padded 0x80 (leBytes 8) [])).foldl (fun s b => s ++ b.1) [] := by
  have h := @holds_new Bytes (fun s b => s ++ b.1) ⟨replicate 64 0, length_zero_chunk⟩ []
  rw [← h.finish 0x80 lengthLe_eq (length_leBytes 8)]
  decide

end Mdblock

end SelfCertifyingFS.Crypt
