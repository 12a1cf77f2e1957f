import Sfs.Crypt.Blowfish

/-!
# Sealed NFS file handles

`rpc_traverse` of `nfstrans.C` replaces a file handle by the encryption of its
length, a server number and its bytes, and back. The length and the server
number share one word, and the handle is padded with zeros to a whole number of
cipher blocks. Sealing and opening are inverse: the strings that open are the
seals.
-/

namespace SelfCertifyingFS.Nfs

open Foundations Crypt List Cbc64iv

def nfs3FhSize : ℕ := 64

def log2FhSize : UInt32 := 6

/-- `opaque data<NFS3_FHSIZE>`. -/
structure NfsFh3 where
  data : Bytes
  bounded : data.length ≤ nfs3FhSize
  deriving DecidableEq

def nfs3errXdev : ℤ := 18
def nfs3errStale : ℤ := 70
def nfs3errBadhandle : ℤ := 10001

inductive TransMode
  | encode
  | decode
  deriving DecidableEq, Repr

/-- The traversal object `fh3trans`. The hook may rewrite the handle and the
server number, and a nonzero result of it is an error. -/
structure Fh3trans where
  mode : TransMode
  cipher : Block64Cipher
  srvno : UInt32
  srvnoOk : Bool
  err : ℤ
  pretrans : Option (NfsFh3 → UInt32 → ℤ × NfsFh3 × UInt32)

/-- The decoding constructor, which leaves `srvno` as it finds it in memory. -/
def Fh3trans.opener (cipher : Block64Cipher) (srvno : UInt32)
    (pretrans : Option (NfsFh3 → UInt32 → ℤ × NfsFh3 × UInt32) := none) : Fh3trans :=
  { mode := .decode, cipher, srvno, srvnoOk := false, err := 0, pretrans }

/-- The object of the other constructor in encoding mode. That constructor also
asserts `srvno` to be below `2 ^ 26 - 1`; the traversal itself, whose hook may
choose any number, is studied for all of them. -/
def Fh3trans.sealer (cipher : Block64Cipher) (srvno : UInt32)
    (pretrans : Option (NfsFh3 → UInt32 → ℤ × NfsFh3 × UInt32) := none) : Fh3trans :=
  { mode := .encode, cipher, srvno, srvnoOk := true, err := 0, pretrans }

/-- `(n + 11) & ~7`: room for the header word and the handle, in blocks. -/
def sealedSize (n : ℕ) : ℕ := (n + 11) / 8 * 8

/-- Overwrite part of a buffer, as `memcpy` and `bzero` do. -/
def poke (buf : Bytes) (off : ℕ) (src : Bytes) : Bytes :=
  buf.take off ++ src ++ buf.drop (off + src.length)

/-- The header word: length in the low six bits, server number above. -/
def sealHeader (len : ℕ) (srvno : UInt32) : UInt32 :=
  UInt32.ofNat len ||| (srvno <<< log2FhSize)

variable (order : ByteOrder)

/-- The buffer before encryption. It starts as uninitialized memory. -/
def sealPlain (junk : ℕ → UInt8) (data : Bytes) (srvno : UInt32) : Bytes :=
  let size := sealedSize data.length
  let res := (range size).map junk
  let res := poke res (size - 7) (replicate 7 0)
  let res := poke res 0 (wordBytes order (sealHeader data.length srvno))
  poke res 4 data

/-- Encrypt a buffer in place, through its host words. -/
def encipherBuffer (c : Block64Cipher) (buf : Bytes) : Bytes :=
  wordsBytes order (Cbc64iv.encipherWords { c } (bytesWords order buf)).2

def decipherBuffer (c : Block64Cipher) (buf : Bytes) : Bytes :=
  wordsBytes order (Cbc64iv.decipherWords { c } (bytesWords order buf)).2

section Buffers

variable (order : ByteOrder) (c : Block64Cipher) {buf : Bytes} (h : 8 ∣ buf.length)
include h

theorem even_length_bytesWords : Even (bytesWords order buf).length := by
  rw [length_bytesWords, Nat.even_iff]
  omega

theorem length_encipherBuffer : (encipherBuffer order c buf).length = buf.length := by
  rw [encipherBuffer, length_wordsBytes,
    length_encipherWords _ (even_length_bytesWords order h), length_bytesWords]
  omega

theorem length_decipherBuffer : (decipherBuffer order c buf).length = buf.length := by
  rw [decipherBuffer, length_wordsBytes,
    length_decipherWords _ (even_length_bytesWords order h), length_bytesWords]
  omega

theorem decipherBuffer_encipherBuffer :
    decipherBuffer order c (encipherBuffer order c buf) = buf := by
  rw [decipherBuffer, encipherBuffer, bytesWords_wordsBytes,
    decipherWords_encipherWords _ (even_length_bytesWords order h),
    wordsBytes_bytesWords order buf (by omega)]

theorem encipherBuffer_decipherBuffer :
    encipherBuffer order c (decipherBuffer order c buf) = buf := by
  rw [encipherBuffer, decipherBuffer, bytesWords_wordsBytes,
    encipherWords_decipherWords _ (even_length_bytesWords order h),
    wordsBytes_bytesWords order buf (by omega)]

end Buffers

theorem sealedSize_le {n : ℕ} (h : n ≤ nfs3FhSize - 4) : sealedSize n ≤ nfs3FhSize := by
  simp only [sealedSize, nfs3FhSize] at *
  omega

theorem eight_dvd_sealedSize (n : ℕ) : 8 ∣ sealedSize n := Dvd.intro_left _ rfl

/-- The two overwrites leave nothing of the uninitialized memory. -/
theorem sealPlain_eq (order : ByteOrder) (junk : ℕ → UInt8) (data : Bytes) (srvno : UInt32) :
    sealPlain order junk data srvno = wordBytes order (sealHeader data.length srvno) ++ data ++
      replicate (sealedSize data.length - data.length - 4) 0 := by
  have hlo : sealedSize data.length - 7 ≤ 4 + data.length := by
    simp only [sealedSize]; omega
  have hsize : sealedSize data.length - 7 + 7 = sealedSize data.length := by
    simp only [sealedSize]; omega
  have hlen := length_wordBytes order (sealHeader data.length srvno)
  unfold sealPlain
  dsimp only
  generalize wordBytes order (sealHeader data.length srvno) = header at *
  generalize sealedSize data.length = size at *
  have hzero : poke ((range size).map junk) (size - 7) (replicate 7 0) =
      ((range size).map junk).take (size - 7) ++ replicate 7 0 := by
    simp [poke, hsize]
  have htail : (((range size).map junk).take (size - 7) ++
      replicate 7 0).drop (4 + data.length) = replicate (size - data.length - 4) 0 := by
    rw [drop_append, drop_eq_nil_of_le (by simp; omega), drop_replicate]
    simp
    omega
  have hhead : ∀ buf, poke (poke buf 0 header) 4 data =
      header ++ data ++ buf.drop (4 + data.length) := by
    intro buf
    simp [poke, drop_append, hlen]
  rw [hzero, hhead, htail]

theorem length_sealPlain (order : ByteOrder) (junk : ℕ → UInt8) (data : Bytes) (srvno : UInt32) :
    (sealPlain order junk data srvno).length = sealedSize data.length := by
  rw [sealPlain_eq]
  simp only [length_append, length_wordBytes, length_replicate, sealedSize]
  omega

/-! ## The header word -/

variable {len : ℕ} {srvno : UInt32}

theorem toNat_sealHeader (hlen : len < 64) (hsrv : srvno.toNat < 2 ^ 26) :
    (sealHeader len srvno).toNat = 64 * srvno.toNat + len := by
  have hshift : (srvno <<< log2FhSize).toNat = 2 ^ 6 * srvno.toNat := by
    rw [UInt32.toNat_shiftLeft]
    simp only [log2FhSize, UInt32.reduceToNat, Nat.reduceMod]
    omega
  rw [sealHeader, UInt32.toNat_or, hshift, UInt32.toNat_ofNat_of_lt' (show len < 2 ^ 32 by omega),
    Nat.or_comm, ← Nat.two_pow_add_eq_or_of_lt (by omega)]

theorem sealHeader_mod (hlen : len < 64) (hsrv : srvno.toNat < 2 ^ 26) :
    (sealHeader len srvno % 64).toNat = len := by
  rw [UInt32.toNat_mod, toNat_sealHeader hlen hsrv]
  simp only [UInt32.reduceToNat]
  omega

theorem sealHeader_shift (hlen : len < 64) (hsrv : srvno.toNat < 2 ^ 26) :
    sealHeader len srvno >>> log2FhSize = srvno := by
  apply UInt32.toNat_inj.mp
  rw [UInt32.toNat_shiftRight, toNat_sealHeader hlen hsrv]
  simp only [log2FhSize, UInt32.reduceToNat, Nat.reduceMod]
  omega

theorem toNat_header_srvno (snl : UInt32) : (snl >>> log2FhSize).toNat = snl.toNat / 64 := by
  simp [log2FhSize, Nat.shiftRight_eq_div_pow]

theorem header_srvno_lt (snl : UInt32) : (snl >>> log2FhSize).toNat < 2 ^ 26 := by
  have := snl.toNat_lt
  rw [toNat_header_srvno]
  omega

/-- Every word is the header of the length and the server number read from it. -/
theorem sealHeader_of_word (snl : UInt32) :
    sealHeader (snl % 64).toNat (snl >>> log2FhSize) = snl := by
  have hmod : (snl % 64).toNat = snl.toNat % 64 := by simp
  apply UInt32.toNat_inj.mp
  rw [toNat_sealHeader (by omega) (header_srvno_lt snl), toNat_header_srvno]
  omega

/-! ## The traversal -/

def Fh3trans.callPretrans (fht : Fh3trans) (fh : NfsFh3) (srvno : UInt32) :
    ℤ × NfsFh3 × UInt32 :=
  match fht.pretrans with
  | none => (0, fh, srvno)
  | some hook => hook fh srvno

/-- The `ENCODE` case of the switch. -/
def Fh3trans.encode (order : ByteOrder) (junk : ℕ → UInt8) (fht : Fh3trans) (fh : NfsFh3) :
    Bool × Fh3trans × NfsFh3 :=
  let hook := fht.callPretrans fh fht.srvno
  let fht := { fht with err := hook.1 }
  let fh := hook.2.1
  if hook.1 ≠ 0 then (false, fht, fh)
  else if h : fh.data.length ≤ nfs3FhSize - 4 then
    let plain := sealPlain order junk fh.data hook.2.2
    (true, fht, ⟨encipherBuffer order fht.cipher plain, by
      have hdvd : 8 ∣ plain.length := by
        simp only [plain, length_sealPlain]; exact eight_dvd_sealedSize _
      rw [length_encipherBuffer order _ hdvd]
      simpa only [plain, length_sealPlain] using sealedSize_le h⟩)
  else (false, { fht with err := nfs3errBadhandle }, fh)

/-- The checks of the `DECODE` case on a deciphered buffer: the handle and the
server number that it holds. -/
def readPlain (order : ByteOrder) (plain : Bytes) : Option (Bytes × UInt32) :=
  let snl := bytesWord order (plain.take 4)
  let len := (snl % 64).toNat
  if plain.length ≠ sealedSize len then none
  else if (plain.drop (4 + len)).take (plain.length - len - 4) ≠
      replicate (plain.length - len - 4) 0 then none
  else some ((plain.drop 4).take len, snl >>> log2FhSize)

theorem length_le_of_readPlain {order : ByteOrder} {plain data : Bytes}
    (h : readPlain order plain = some (data, srvno)) : data.length ≤ plain.length := by
  unfold readPlain at h
  simp only at h
  split_ifs at h
  simp only [Option.some.injEq, Prod.mk.injEq] at h
  rw [← h.1]
  simp

/-- The `DECODE` case of the switch. The buffer is deciphered in place, so a
rejected handle is left in its deciphered form. -/
def Fh3trans.decode (order : ByteOrder) (fht : Fh3trans) (fh : NfsFh3) :
    Bool × Fh3trans × NfsFh3 :=
  if h : 8 ∣ fh.data.length ∧ fh.data.length ≠ 0 then
    let plain := decipherBuffer order fht.cipher fh.data
    have hplain : plain.length ≤ nfs3FhSize := by
      simpa only [plain, length_decipherBuffer order _ h.1] using fh.bounded
    match hread : readPlain order plain with
    | none => (false, { fht with err := nfs3errStale }, ⟨plain, hplain⟩)
    | some (data, srvno) =>
        let hook := fht.callPretrans
          ⟨data, (length_le_of_readPlain hread).trans hplain⟩ srvno
        let fht := { fht with err := hook.1 }
        if hook.1 ≠ 0 then (false, fht, hook.2.1)
        else if fht.srvnoOk then
          if fht.srvno ≠ hook.2.2 then (false, { fht with err := nfs3errXdev }, hook.2.1)
          else (true, fht, hook.2.1)
        else (true, { fht with srvnoOk := true, srvno := hook.2.2 }, hook.2.1)
  else (false, { fht with err := nfs3errStale }, fh)

/-- `rpc_traverse (fh3trans &, nfs_fh3 &)`: the result, and the two objects as
the call leaves them. -/
def Fh3trans.traverse (order : ByteOrder) (junk : ℕ → UInt8) (fht : Fh3trans) (fh : NfsFh3) :
    Bool × Fh3trans × NfsFh3 :=
  if fht.err ≠ 0 then (false, fht, fh)
  else
    match fht.mode with
    | .encode => fht.encode order junk fh
    | .decode => fht.decode order fh

/-- What a traversal leaves does not depend on the uninitialized memory. -/
theorem traverse_initialized (order : ByteOrder) (junk junk' : ℕ → UInt8) (fht : Fh3trans)
    (fh : NfsFh3) : fht.traverse order junk fh = fht.traverse order junk' fh := by
  have hplain : sealPlain order junk = sealPlain order junk' := by
    funext data srvno
    rw [sealPlain_eq, sealPlain_eq]
  unfold Fh3trans.traverse Fh3trans.encode
  simp only [hplain]

/-! ## Sealing and opening -/

section Sealing

variable (order : ByteOrder) (cipher : Block64Cipher) (junk : ℕ → UInt8)

/-- What a seal carries under the cipher is what the checks read back. -/
theorem readPlain_sealPlain {data : Bytes} {srvno : UInt32}
    (hlen : data.length ≤ nfs3FhSize - 4) (hsrv : srvno.toNat < 2 ^ 26) :
    readPlain order (sealPlain order junk data srvno) = some (data, srvno) := by
  have hlt : data.length < 64 := by simp only [nfs3FhSize] at hlen; omega
  have hsize := length_sealPlain order junk data srvno
  rw [sealPlain_eq] at hsize ⊢
  have hword := length_wordBytes order (sealHeader data.length srvno)
  have htake : (wordBytes order (sealHeader data.length srvno) ++ data ++
      replicate (sealedSize data.length - data.length - 4) 0).take 4 =
        wordBytes order (sealHeader data.length srvno) := by
    rw [append_assoc, take_left' hword]
  unfold readPlain
  simp only [htake, bytesWord_wordBytes, sealHeader_mod hlt hsrv, sealHeader_shift hlt hsrv, hsize,
    ← drop_drop]
  simp

/-- Conversely, whatever passes the checks is the plaintext of a seal. -/
theorem sealPlain_of_readPlain {plain data : Bytes} {srvno : UInt32}
    (h : readPlain order plain = some (data, srvno)) (hbound : plain.length ≤ nfs3FhSize) :
    data.length ≤ nfs3FhSize - 4 ∧ srvno.toNat < 2 ^ 26 ∧
      sealPlain order junk data srvno = plain := by
  unfold readPlain at h
  dsimp only at h
  generalize hsnl : bytesWord order (plain.take 4) = snl at h
  split_ifs at h with hsize hpad
  simp only [not_not] at hsize hpad
  simp only [Option.some.injEq, Prod.mk.injEq] at h
  obtain ⟨hdata, rfl⟩ := h
  have hlen : data.length = (snl % 64).toNat := by
    rw [← hdata, length_take, length_drop, hsize]
    simp only [sealedSize]
    omega
  rw [← hlen] at hsize hpad hdata
  have hle : data.length + 4 ≤ plain.length := by rw [hsize]; simp only [sealedSize]; omega
  have hheader : wordBytes order (sealHeader data.length (snl >>> log2FhSize)) = plain.take 4 := by
    rw [hlen, sealHeader_of_word, ← hsnl, wordBytes_bytesWord order (by simp; omega)]
  refine ⟨?_, header_srvno_lt snl, ?_⟩
  · omega
  · have hzeros : plain.drop (4 + data.length) = replicate (plain.length - data.length - 4) 0 := by
      rw [← hpad, take_of_length_le (by simp; omega)]
    have hjoin : data ++ (plain.drop 4).drop data.length = plain.drop 4 := by
      calc data ++ (plain.drop 4).drop data.length
          = (plain.drop 4).take data.length ++ (plain.drop 4).drop data.length := by rw [hdata]
        _ = plain.drop 4 := take_append_drop _ _
    rw [sealPlain_eq, hheader, ← hsize, ← hzeros, ← drop_drop, append_assoc, hjoin,
      take_append_drop]

theorem traverse_sealer {fh : NfsFh3} (srvno : UInt32)
    (hlen : fh.data.length ≤ nfs3FhSize - 4) :
    ∃ sealed : NfsFh3,
      (Fh3trans.sealer cipher srvno).traverse order junk fh =
        (true, Fh3trans.sealer cipher srvno, sealed) ∧
      sealed.data = encipherBuffer order cipher (sealPlain order junk fh.data srvno) := by
  refine ⟨((Fh3trans.sealer cipher srvno).traverse order junk fh).2.2, ?_, ?_⟩ <;>
    simp [Fh3trans.traverse, Fh3trans.sealer, Fh3trans.encode, Fh3trans.callPretrans, hlen]

/-- Opening succeeds exactly when the deciphered buffer passes the checks. -/
theorem traverse_opener_iff (srvno0 : UInt32) (sealed fh : NfsFh3)
    (fht : Fh3trans) :
    (Fh3trans.opener cipher srvno0).traverse order junk sealed = (true, fht, fh) ↔
      8 ∣ sealed.data.length ∧ sealed.data.length ≠ 0 ∧ ∃ srvno,
        readPlain order (decipherBuffer order cipher sealed.data) = some (fh.data, srvno) ∧
        fht = { Fh3trans.opener cipher srvno0 with srvnoOk := true, srvno := srvno } := by
  have hpass : (Fh3trans.opener cipher srvno0).traverse order junk sealed =
      (Fh3trans.opener cipher srvno0).decode order sealed := by
    simp [Fh3trans.traverse, Fh3trans.opener]
  rw [hpass]
  unfold Fh3trans.decode
  by_cases h : 8 ∣ sealed.data.length ∧ sealed.data.length ≠ 0
  · rw [dif_pos h]
    dsimp only
    split
    · rename_i hread
      simp only [Fh3trans.opener] at hread ⊢
      simp [hread]
    · rename_i data srvno hread
      simp only [Fh3trans.opener, Fh3trans.callPretrans] at hread ⊢
      simp only [hread, ne_eq, not_true_eq_false, if_false, Bool.false_eq_true, Prod.mk.injEq,
        true_and, Option.some.injEq, h.1, h.2, not_false_eq_true]
      constructor
      · rintro ⟨rfl, rfl⟩
        exact ⟨srvno, ⟨rfl, rfl⟩, rfl⟩
      · rintro ⟨_, ⟨rfl, rfl⟩, rfl⟩
        exact ⟨rfl, rfl⟩
  · rw [dif_neg h]
    simp only [Prod.mk.injEq, Bool.false_eq_true, false_and, false_iff]
    exact fun hopen => h ⟨hopen.1, hopen.2.1⟩

/-- Sealing and opening are inverse: a seal opens to the handle and the server
number it was made from, and every byte string that opens is the seal of what
it opens to. -/
theorem seal_open_inverse (junk : ℕ → UInt8) (srvno0 : UInt32) :
    (∀ (fh : NfsFh3) (srvno : UInt32), fh.data.length ≤ nfs3FhSize - 4 → srvno.toNat < 2 ^ 26 →
      ∃ sealed, (Fh3trans.sealer cipher srvno).traverse order junk fh =
          (true, Fh3trans.sealer cipher srvno, sealed) ∧
        (Fh3trans.opener cipher srvno0).traverse order junk sealed =
          (true, { Fh3trans.opener cipher srvno0 with srvnoOk := true, srvno := srvno }, fh)) ∧
    (∀ (sealed fh : NfsFh3) (fht : Fh3trans),
      (Fh3trans.opener cipher srvno0).traverse order junk sealed = (true, fht, fh) →
        fh.data.length ≤ nfs3FhSize - 4 ∧ fht.srvno.toNat < 2 ^ 26 ∧
        (Fh3trans.sealer cipher fht.srvno).traverse order junk fh =
          (true, Fh3trans.sealer cipher fht.srvno, sealed)) := by
  constructor
  · intro fh srvno hlen hsrv
    obtain ⟨sealed, hseal, hdata⟩ := traverse_sealer order cipher junk srvno hlen
    have hplain := length_sealPlain order junk fh.data srvno
    have hdvd : 8 ∣ (sealPlain order junk fh.data srvno).length :=
      hplain ▸ eight_dvd_sealedSize _
    have hsize : sealed.data.length = sealedSize fh.data.length := by
      rw [hdata, length_encipherBuffer order cipher hdvd, hplain]
    refine ⟨sealed, hseal, (traverse_opener_iff order cipher junk srvno0 sealed fh _).mpr
      ⟨hsize ▸ eight_dvd_sealedSize _, by rw [hsize]; simp only [sealedSize]; omega,
        srvno, ?_, rfl⟩⟩
    rw [hdata, decipherBuffer_encipherBuffer order cipher hdvd]
    exact readPlain_sealPlain order junk hlen hsrv
  · intro sealed fh fht hopen
    obtain ⟨hdvd, _, srvno, hread, rfl⟩ :=
      (traverse_opener_iff order cipher junk srvno0 sealed fh fht).mp hopen
    have hbound : (decipherBuffer order cipher sealed.data).length ≤ nfs3FhSize := by
      rw [length_decipherBuffer order cipher hdvd]
      exact sealed.bounded
    obtain ⟨hlen, hsrv, hplain⟩ := sealPlain_of_readPlain order junk hread hbound
    obtain ⟨resealed, hseal, hdata⟩ := traverse_sealer order cipher junk srvno hlen
    have hsame : resealed = sealed := by
      cases resealed
      cases sealed
      simp only [NfsFh3.mk.injEq]
      simpa only [hplain, encipherBuffer_decipherBuffer order cipher hdvd] using hdata
    exact ⟨hlen, hsrv, hsame ▸ hseal⟩

end Sealing

/-- Both directions on a three-byte handle, the largest server number, a
little-endian host and the cipher that swaps the halves of a block. -/
theorem seal_open_inverse_at_swap :
    let cipher : Block64Cipher := Equiv.prodComm UInt32 UInt32
    let fh : NfsFh3 := ⟨[1, 2, 3], by decide⟩
    ∃ sealed, (Fh3trans.sealer cipher 67108863).traverse .little (fun _ => 255) fh =
        (true, Fh3trans.sealer cipher 67108863, sealed) ∧
      (Fh3trans.opener cipher 0).traverse .little (fun _ => 255) sealed =
        (true, { Fh3trans.opener cipher 0 with srvnoOk := true, srvno := 67108863 }, fh) ∧
      fh.data.length ≤ nfs3FhSize - 4 := by
  intro cipher fh
  have h := seal_open_inverse .little cipher (fun _ => 255) 0
  obtain ⟨sealed, hseal, hopen⟩ := h.1 fh 67108863 (by decide) (by decide)
  exact ⟨sealed, hseal, hopen, (h.2 sealed fh _ hopen).1⟩

end SelfCertifyingFS.Nfs
