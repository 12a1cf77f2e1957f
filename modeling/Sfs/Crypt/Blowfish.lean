import Sfs.Foundations.Ciphers

/-!
# Blowfish, and chaining it over buffers

`cbc64iv` keeps the last block of the ciphertext; its loops over host words are refined to
chaining over the list of blocks. The two directions of `blowfish` are one network of rounds
that takes the subkeys in the two orders, so that they undo each other whatever the boxes hold.
The byte interface of `cbc64iv` is refined to its word interface.
-/

namespace SelfCertifyingFS.Crypt

section

open Foundations

abbrev Block64 := UInt32 × UInt32

/-- A cipher object whose `decipher` inverts its `encipher`. -/
abbrev Block64Cipher := Equiv.Perm Block64

/-- The chaining state of one pass over a buffer. -/
structure Cbc64iv where
  c : Block64Cipher
  ivl : UInt32 := 0
  ivr : UInt32 := 0

namespace Cbc64iv

/-- One turn of the loop per two words. The words come in pairs, since the
caller's byte count is asserted to be a multiple of eight. -/
def encipherWords : Cbc64iv → List UInt32 → Cbc64iv × List UInt32
  | iv, d0 :: d1 :: dp =>
      let out := iv.c (iv.ivl ^^^ d0, iv.ivr ^^^ d1)
      let rest := encipherWords { iv with ivl := out.1, ivr := out.2 } dp
      (rest.1, out.1 :: out.2 :: rest.2)
  | iv, _ => (iv, [])

def decipherWords : Cbc64iv → List UInt32 → Cbc64iv × List UInt32
  | iv, d0 :: d1 :: dp =>
      let out := iv.c.symm (d0, d1)
      let rest := decipherWords { iv with ivl := d0, ivr := d1 } dp
      (rest.1, (out.1 ^^^ iv.ivl) :: (out.2 ^^^ iv.ivr) :: rest.2)
  | iv, _ => (iv, [])

end Cbc64iv

variable (a b : Block64)

def xorBlock : Block64 := (a.1 ^^^ b.1, a.2 ^^^ b.2)

theorem xorBlock_cancel_left : xorBlock (xorBlock a b) a = b := by
  ext <;> simp [xorBlock, UInt32.xor_comm, ← UInt32.xor_assoc]

theorem xorBlock_cancel_right : xorBlock a (xorBlock b a) = b := by
  ext <;> simp [xorBlock, UInt32.xor_comm b.1, UInt32.xor_comm b.2, ← UInt32.xor_assoc]

def toBlocks : List UInt32 → List Block64
  | d0 :: d1 :: dp => (d0, d1) :: toBlocks dp
  | _ => []

def ofBlocks (bs : List Block64) : List UInt32 := bs.flatMap fun b => [b.1, b.2]

@[simp] theorem toBlocks_ofBlocks (bs : List Block64) : toBlocks (ofBlocks bs) = bs := by
  induction bs with
  | nil => rfl
  | cons b bs ih =>
    change (b.1, b.2) :: toBlocks (ofBlocks bs) = _
    rw [ih]

theorem ofBlocks_toBlocks : ∀ ws : List UInt32, Even ws.length → ofBlocks (toBlocks ws) = ws
  | [], _ => rfl
  | [_], h => by simp at h
  | d0 :: d1 :: dp, h => by
      have htail : Even dp.length := by simpa [Nat.even_add_one] using h
      change d0 :: d1 :: ofBlocks (toBlocks dp) = _
      rw [ofBlocks_toBlocks dp htail]

@[simp] theorem length_ofBlocks (bs : List Block64) : (ofBlocks bs).length = 2 * bs.length := by
  induction bs with
  | nil => rfl
  | cons b bs ih =>
    change (ofBlocks bs).length + 1 + 1 = 2 * (bs.length + 1)
    omega

theorem length_toBlocks : ∀ ws : List UInt32, Even ws.length → 2 * (toBlocks ws).length = ws.length
  | [], _ => rfl
  | [_], h => by simp at h
  | d0 :: d1 :: dp, h => by
      have htail : Even dp.length := by simpa [Nat.even_add_one] using h
      have ih := length_toBlocks dp htail
      simp only [toBlocks, List.length_cons]
      omega

namespace Cbc64iv

theorem encipherWords_eq : ∀ (iv : Cbc64iv) (ws : List UInt32), (iv.encipherWords ws).2 =
    ofBlocks (chainEncipher xorBlock iv.c (iv.ivl, iv.ivr) (toBlocks ws))
  | _, [] | _, [_] => rfl
  | iv, d0 :: d1 :: dp => by
      simp only [encipherWords, toBlocks, chainEncipher]
      rw [encipherWords_eq]
      rfl

theorem decipherWords_eq : ∀ (iv : Cbc64iv) (ws : List UInt32), (iv.decipherWords ws).2 =
    ofBlocks (chainDecipher xorBlock iv.c (iv.ivl, iv.ivr) (toBlocks ws))
  | _, [] | _, [_] => rfl
  | iv, d0 :: d1 :: dp => by
      simp only [decipherWords, toBlocks, chainDecipher]
      rw [decipherWords_eq]
      rfl

variable (iv : Cbc64iv) {ws : List UInt32} (h : Even ws.length)

include h

theorem length_encipherWords : (iv.encipherWords ws).2.length = ws.length := by
  rw [encipherWords_eq, length_ofBlocks, length_chainEncipher, length_toBlocks ws h]

theorem length_decipherWords : (iv.decipherWords ws).2.length = ws.length := by
  rw [decipherWords_eq, length_ofBlocks, length_chainDecipher, length_toBlocks ws h]

theorem decipherWords_encipherWords : (iv.decipherWords (iv.encipherWords ws).2).2 = ws := by
  rw [decipherWords_eq, encipherWords_eq, toBlocks_ofBlocks,
    chainDecipher_chainEncipher _ xorBlock_cancel_left, ofBlocks_toBlocks ws h]

theorem encipherWords_decipherWords : (iv.encipherWords (iv.decipherWords ws).2).2 = ws := by
  rw [encipherWords_eq, decipherWords_eq, toBlocks_ofBlocks,
    chainEncipher_chainDecipher _ xorBlock_cancel_right, ofBlocks_toBlocks ws h]

end Cbc64iv

end

open Foundations List

def bfN : ℕ := 16

structure Blowfish where
  P : ℕ → UInt32
  S : Fin 4 → UInt8 → UInt32

/-- Two rounds of a network, one turn of the loop. -/
def feistelTurn (F : UInt32 → UInt32) (a b : UInt32) (x : Block64) : Block64 :=
  let xl := x.1 ^^^ a
  let xr := x.2 ^^^ F xl ^^^ b
  (xl ^^^ F xr, xr)

/-- The halves change places as the last two subkeys are mixed in. -/
def whiten (a b : UInt32) (x : Block64) : Block64 := (x.2 ^^^ b, x.1 ^^^ a)

def feistelTurns (F : UInt32 → UInt32) : ℕ → (ℕ → UInt32) → Block64 → Block64
  | 0, _, x => x
  | m + 1, p, x => feistelTurns F m (fun i => p (i + 2)) (feistelTurn F (p 0) (p 1) x)

variable (F : UInt32 → UInt32)

theorem feistelTurns_succ (m : ℕ) (p : ℕ → UInt32) (x : Block64) :
    feistelTurns F (m + 1) p x =
      feistelTurn F (p (2 * m)) (p (2 * m + 1)) (feistelTurns F m p x) := by
  induction m generalizing p x with
  | zero => rfl
  | succ m ih =>
    rw [feistelTurns, ih]
    rfl

theorem whiten_whiten (a b : UInt32) (x : Block64) : whiten b a (whiten a b x) = x := by
  simp [whiten, UInt32.xor_assoc]

/-- A turn with the last subkeys takes the whitening one turn back. -/
theorem feistelTurn_whiten (a b c d : UInt32) (x : Block64) :
    feistelTurn F d c (whiten c d (feistelTurn F a b x)) = whiten a b x := by
  have cancel : ∀ u v w : UInt32, u ^^^ v ^^^ w ^^^ v = u ^^^ w := by
    intro u v w
    rw [UInt32.xor_assoc u, UInt32.xor_comm v, ← UInt32.xor_assoc, UInt32.xor_assoc _ v,
      UInt32.xor_self, UInt32.xor_zero]
  have undo : ∀ u v : UInt32, u ^^^ v ^^^ v = u := fun u v => by simp [UInt32.xor_assoc]
  simp only [feistelTurn, whiten, undo, cancel]

theorem feistelTurns_reverse {m : ℕ} {p q : ℕ → UInt32}
    (h : ∀ i ≤ 2 * m + 1, q i = p (2 * m + 1 - i)) (x : Block64) :
    feistelTurns F m q (whiten (p (2 * m)) (p (2 * m + 1)) (feistelTurns F m p x)) =
      whiten (p 0) (p 1) x := by
  induction m generalizing q with
  | zero => rfl
  | succ m ih =>
    have hfirst : q 0 = p (2 * (m + 1) + 1) := h 0 (by omega)
    have hsecond : q 1 = p (2 * (m + 1)) := h 1 (by omega)
    rw [feistelTurns_succ F m p, feistelTurns, hfirst, hsecond, feistelTurn_whiten]
    apply ih
    intro i hi
    rw [h (i + 2) (by omega)]
    congr 1
    omega

namespace Blowfish

variable (k : Blowfish)

/-- `F`, with the sums taken modulo `2 ^ 32`. -/
def f (x : UInt32) : UInt32 :=
  ((k.S 0 (x >>> 24).toUInt8 + k.S 1 (x >>> 16 &&& 0xff).toUInt8) ^^^
    k.S 2 (x >>> 8 &&& 0xff).toUInt8) + k.S 3 (x &&& 0xff).toUInt8

variable (x : Block64)

def encipher : Block64 :=
  let x := feistelTurns k.f (bfN / 2) k.P x
  (x.2 ^^^ k.P (bfN + 1), x.1 ^^^ k.P bfN)

/-- The loop takes the subkeys from `P[BF_N + 1]` down to `P[2]`. -/
def decipher : Block64 :=
  let x := feistelTurns k.f (bfN / 2) (fun i => k.P (bfN + 1 - i)) x
  (x.2 ^^^ k.P 0, x.1 ^^^ k.P 1)

theorem decipher_encipher : k.decipher (k.encipher x) = x := by
  have hrev := feistelTurns_reverse k.f (m := 8) (q := fun i => k.P (17 - i))
    (fun _ _ => rfl) x
  exact (congrArg (whiten (k.P 1) (k.P 0)) hrev).trans (whiten_whiten _ _ x)

theorem encipher_decipher : k.encipher (k.decipher x) = x := by
  have hrev := feistelTurns_reverse k.f (m := 8) (p := fun i => k.P (17 - i)) (q := k.P)
    (fun i hi => congrArg k.P (by omega)) x
  exact (congrArg (whiten (k.P 16) (k.P 17)) hrev).trans (whiten_whiten _ _ x)

def cipher : Block64Cipher where
  toFun := k.encipher
  invFun := k.decipher
  left_inv := k.decipher_encipher
  right_inv := k.encipher_decipher

end Blowfish

namespace Cbc64iv

/-- `getint` reads the most significant byte first on every host. -/
def encipherBytes : Cbc64iv → Bytes → Cbc64iv × Bytes
  | iv, b0 :: b1 :: b2 :: b3 :: b4 :: b5 :: b6 :: b7 :: dp =>
      let out := iv.c (iv.ivl ^^^ bytesWord .big [b0, b1, b2, b3],
        iv.ivr ^^^ bytesWord .big [b4, b5, b6, b7])
      let rest := encipherBytes { iv with ivl := out.1, ivr := out.2 } dp
      (rest.1, wordBytes .big out.1 ++ wordBytes .big out.2 ++ rest.2)
  | iv, _ => (iv, [])

def decipherBytes : Cbc64iv → Bytes → Cbc64iv × Bytes
  | iv, b0 :: b1 :: b2 :: b3 :: b4 :: b5 :: b6 :: b7 :: dp =>
      let l := bytesWord .big [b0, b1, b2, b3]
      let r := bytesWord .big [b4, b5, b6, b7]
      let out := iv.c.symm (l, r)
      let rest := decipherBytes { iv with ivl := l, ivr := r } dp
      (rest.1, wordBytes .big (out.1 ^^^ iv.ivl) ++ wordBytes .big (out.2 ^^^ iv.ivr) ++ rest.2)
  | iv, _ => (iv, [])

/-- A buffer handed over piece by piece, the object keeping its state between the calls. -/
def pieces {α : Type} (f : Cbc64iv → List α → Cbc64iv × List α) :
    Cbc64iv → List (List α) → Cbc64iv × List α
  | iv, [] => (iv, [])
  | iv, p :: ps =>
      let out := f iv p
      let rest := pieces f out.1 ps
      (rest.1, out.2 ++ rest.2)

theorem pieces_eq {α : Type} {n : ℕ} {f : Cbc64iv → List α → Cbc64iv × List α}
    (hnil : ∀ iv, f iv [] = (iv, [])) (happ : ∀ iv xs ys, n ∣ xs.length →
      f iv (xs ++ ys) = ((f (f iv xs).1 ys).1, (f iv xs).2 ++ (f (f iv xs).1 ys).2))
    (iv : Cbc64iv) {ps : List (List α)} (h : ∀ p ∈ ps, n ∣ p.length) :
    pieces f iv ps = f iv ps.flatten := by
  induction ps generalizing iv with
  | nil => exact (hnil iv).symm
  | cons p ps ih =>
    rw [forall_mem_cons] at h
    rw [flatten_cons, happ iv p _ h.1, pieces, ih _ h.2]

theorem encipherWords_append : ∀ (iv : Cbc64iv) (ws vs : List UInt32), 2 ∣ ws.length →
    iv.encipherWords (ws ++ vs) = (((iv.encipherWords ws).1.encipherWords vs).1,
      (iv.encipherWords ws).2 ++ ((iv.encipherWords ws).1.encipherWords vs).2)
  | _, [], _, _ => rfl
  | _, [_], _, h => by simp at h
  | iv, d0 :: d1 :: dp, vs, h => by
      have htail : 2 ∣ dp.length := by simpa using h
      simp only [cons_append, encipherWords, encipherWords_append _ dp vs htail]

theorem decipherWords_append : ∀ (iv : Cbc64iv) (ws vs : List UInt32), 2 ∣ ws.length →
    iv.decipherWords (ws ++ vs) = (((iv.decipherWords ws).1.decipherWords vs).1,
      (iv.decipherWords ws).2 ++ ((iv.decipherWords ws).1.decipherWords vs).2)
  | _, [], _, _ => rfl
  | _, [_], _, h => by simp at h
  | iv, d0 :: d1 :: dp, vs, h => by
      have htail : 2 ∣ dp.length := by simpa using h
      simp only [cons_append, decipherWords, decipherWords_append _ dp vs htail]

/-- The last ciphertext block is what both directions keep. -/
theorem decipherWords_encipherWords_fst : ∀ (iv : Cbc64iv) (ws : List UInt32),
    (iv.decipherWords (iv.encipherWords ws).2).1 = (iv.encipherWords ws).1
  | _, [] | _, [_] => rfl
  | iv, d0 :: d1 :: dp => by
      exact decipherWords_encipherWords_fst _ dp

theorem wordsBytes_block (d0 d1 : UInt32) (dp : List UInt32) :
    ∃ b0 b1 b2 b3 b4 b5 b6 b7, wordsBytes .big (d0 :: d1 :: dp) =
      b0 :: b1 :: b2 :: b3 :: b4 :: b5 :: b6 :: b7 :: wordsBytes .big dp ∧
      bytesWord .big [b0, b1, b2, b3] = d0 ∧ bytesWord .big [b4, b5, b6, b7] = d1 := by
  obtain ⟨b0, b1, b2, b3, hl⟩ := length_eq_four.mp (length_wordBytes .big d0)
  obtain ⟨b4, b5, b6, b7, hr⟩ := length_eq_four.mp (length_wordBytes .big d1)
  refine ⟨b0, b1, b2, b3, b4, b5, b6, b7, ?_, hl ▸ bytesWord_wordBytes .big d0,
    hr ▸ bytesWord_wordBytes .big d1⟩
  simp only [wordsBytes, flatMap_cons, hl, hr, cons_append, nil_append]

theorem encipherBytes_wordsBytes : ∀ (iv : Cbc64iv) (ws : List UInt32),
    iv.encipherBytes (wordsBytes .big ws) =
      ((iv.encipherWords ws).1, wordsBytes .big (iv.encipherWords ws).2)
  | _, [] | _, [_] => rfl
  | iv, d0 :: d1 :: dp => by
      obtain ⟨b0, b1, b2, b3, b4, b5, b6, b7, hbytes, hl, hr⟩ := wordsBytes_block d0 d1 dp
      rw [hbytes, encipherBytes, hl, hr, encipherBytes_wordsBytes _ dp]
      rfl

theorem decipherBytes_wordsBytes : ∀ (iv : Cbc64iv) (ws : List UInt32),
    iv.decipherBytes (wordsBytes .big ws) =
      ((iv.decipherWords ws).1, wordsBytes .big (iv.decipherWords ws).2)
  | _, [] | _, [_] => rfl
  | iv, d0 :: d1 :: dp => by
      obtain ⟨b0, b1, b2, b3, b4, b5, b6, b7, hbytes, hl, hr⟩ := wordsBytes_block d0 d1 dp
      rw [hbytes, decipherBytes, hl, hr, decipherBytes_wordsBytes _ dp]
      rfl

/-- Pieces of whole blocks are the images of the words that `getint` reads in them. -/
theorem exists_words {ps : List Bytes} (h : ∀ p ∈ ps, 8 ∣ p.length) :
    ∃ qs : List (List UInt32), (∀ q ∈ qs, 2 ∣ q.length) ∧ qs.map (wordsBytes .big) = ps := by
  induction ps with
  | nil => exact ⟨[], by simp, rfl⟩
  | cons p ps ih =>
    rw [forall_mem_cons] at h
    obtain ⟨qs, hqs, rfl⟩ := ih h.2
    have hlen := length_bytesWords .big p
    refine ⟨bytesWords .big p :: qs, forall_mem_cons.mpr ⟨by omega, hqs⟩, ?_⟩
    rw [map_cons, wordsBytes_bytesWords .big p (by omega)]

theorem wordsBytes_append (ws vs : List UInt32) :
    wordsBytes .big (ws ++ vs) = wordsBytes .big ws ++ wordsBytes .big vs :=
  flatMap_append

theorem flatten_map_wordsBytes (qs : List (List UInt32)) :
    (qs.map (wordsBytes .big)).flatten = wordsBytes .big qs.flatten := by
  induction qs with
  | nil => rfl
  | cons q qs ih => rw [map_cons, flatten_cons, ih, flatten_cons, wordsBytes_append]

theorem pieces_wordsBytes {f : Cbc64iv → Bytes → Cbc64iv × Bytes}
    {g : Cbc64iv → List UInt32 → Cbc64iv × List UInt32}
    (hfg : ∀ iv ws, f iv (wordsBytes .big ws) = ((g iv ws).1, wordsBytes .big (g iv ws).2))
    (iv : Cbc64iv) (qs : List (List UInt32)) :
    pieces f iv (qs.map (wordsBytes .big)) =
      ((pieces g iv qs).1, wordsBytes .big (pieces g iv qs).2) := by
  induction qs generalizing iv with
  | nil => rfl
  | cons q qs ih => simp only [map_cons, pieces, hfg, ih, wordsBytes_append]

end Cbc64iv

open Cbc64iv

/-- Blowfish with any subkeys and boxes, chained over a buffer in pieces of whole blocks. The
words that stand for the bytes are those that `getint` reads, on every host. -/
theorem blowfish_chaining (k : Blowfish) (ivl ivr : UInt32) {ps : List Bytes}
    (h : ∀ p ∈ ps, 8 ∣ p.length) :
    let iv : Cbc64iv := ⟨k.cipher, ivl, ivr⟩
    let buf := ps.flatten
    let ws := bytesWords .big buf
    (∀ x, k.decipher (k.encipher x) = x) ∧
    (iv.decipherBytes (iv.encipherBytes buf).2 = ((iv.encipherBytes buf).1, buf) ∧
      pieces encipherBytes iv ps = iv.encipherBytes buf ∧
      pieces decipherBytes iv ps = iv.decipherBytes buf) ∧
    (iv.decipherWords (iv.encipherWords ws).2 = ((iv.encipherWords ws).1, ws) ∧
      pieces encipherWords iv (ps.map (bytesWords .big)) = iv.encipherWords ws ∧
      pieces decipherWords iv (ps.map (bytesWords .big)) = iv.decipherWords ws) ∧
    iv.encipherBytes buf = ((iv.encipherWords ws).1, wordsBytes .big (iv.encipherWords ws).2) ∧
    iv.decipherBytes buf =
      ((iv.decipherWords ws).1, wordsBytes .big (iv.decipherWords ws).2) := by
  intro iv buf ws
  obtain ⟨qs, hqs, rfl⟩ := exists_words h
  have hbuf : buf = wordsBytes .big ws := by
    simp only [ws, buf, flatten_map_wordsBytes, bytesWords_wordsBytes]
  have hws : ws = qs.flatten := by
    simp only [ws, buf, flatten_map_wordsBytes, bytesWords_wordsBytes]
  have heven : Even ws.length := by
    rw [hws, length_flatten, even_iff_two_dvd]
    exact dvd_sum (by simpa using hqs)
  have hmap : (qs.map (wordsBytes .big)).map (bytesWords .big) = qs := by
    simp [Function.comp_def]
  have henc : pieces encipherWords iv qs = iv.encipherWords ws :=
    hws ▸ pieces_eq (f := encipherWords) (fun _ => rfl) encipherWords_append iv hqs
  have hdec : pieces decipherWords iv qs = iv.decipherWords ws :=
    hws ▸ pieces_eq (f := decipherWords) (fun _ => rfl) decipherWords_append iv hqs
  have hround : iv.decipherWords (iv.encipherWords ws).2 = ((iv.encipherWords ws).1, ws) :=
    Prod.ext (decipherWords_encipherWords_fst iv ws) (decipherWords_encipherWords iv heven)
  rw [hmap, hbuf, pieces_wordsBytes encipherBytes_wordsBytes,
    pieces_wordsBytes decipherBytes_wordsBytes, henc, hdec, encipherBytes_wordsBytes,
    decipherBytes_wordsBytes, decipherBytes_wordsBytes, hround]
  exact ⟨k.decipher_encipher, ⟨rfl, rfl, rfl⟩, ⟨rfl, rfl, rfl⟩, rfl, rfl⟩

theorem blowfish_chaining_two_blocks :
    let iv : Cbc64iv := ⟨Blowfish.cipher ⟨fun _ => 0, fun _ _ => 0⟩, 0, 0⟩
    pieces encipherBytes iv [replicate 8 0, replicate 8 1] =
      iv.encipherBytes (replicate 8 0 ++ replicate 8 1) :=
  (@blowfish_chaining _ 0 0 [replicate 8 0, replicate 8 1] (by simp)).2.1.2.1

end SelfCertifyingFS.Crypt
