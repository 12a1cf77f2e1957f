import Sfs.Crypt.SfsCrypt
import Sfs.Foundations.XorBytes

/-!
# Padding of messages

`crypt/pad.C` turns a message into a number of a given size in bits, and back: for
encryption, for signatures, and for signatures from which the message is recovered.
SHA-1, the oracles that are made from it and the random bytes are parameters.
-/

namespace SelfCertifyingFS.Crypt

open Foundations Rpc List

/-- The code that padding calls. -/
structure PadEnv where
  sha1 : Bytes → FixedBytes 20
  /-- `sha1oracle_lookup`: the index, the length of the answer and the question. -/
  oracle : ℕ → ℕ → Bytes → Bytes
  length_oracle : ∀ idx len src, (oracle idx len src).length = len
  /-- `rnd.getbytes`. -/
  getbytes : ℕ → Bytes
  length_getbytes : ∀ n, (getbytes n).length = n

attribute [simp] PadEnv.length_oracle PadEnv.length_getbytes

def encGidx : ℕ := 1
def encHidx : ℕ := 2

def sigRndbytes : ℕ := 16
def sigMinpad : ℕ := 16
def sigGidx : ℕ := 3
def sigrGidx : ℕ := 4

def sha1Hashsize : ℕ := 20

/-- `0xff >> (-nbits & 7)`, the bits of the most significant byte that are used. -/
def msbmask (nbits : ℕ) : UInt8 := 0xff >>> UInt8.ofNat ((8 - nbits % 8) % 8)

def padbytes (nbits : ℕ) : ℕ := (nbits + 7) / 8

namespace PadEnv

variable (env : PadEnv)

/-- `pre_encrypt` behind its check of the size. -/
def oaep (msg : Bytes) (nbits : ℕ) : ℕ :=
  let msgzlen := msg.length + encZbytes
  let padsize := padbytes nbits - msgzlen
  let hp := maskLast (msbmask nbits) (env.getbytes padsize)
  let mp := env.oracle encGidx msgzlen hp
  let mp := xorInto mp msg
  let h := env.oracle encHidx padsize mp
  let hp := xorBytes hp h
  let hp := maskLast (msbmask nbits) hp
  leNat (mp ++ hp)

/-- `post_decrypt` behind its check of the size. -/
def unpad (m : ℤ) (msglen nbits : ℕ) : Option Bytes :=
  let msgzlen := msglen + encZbytes
  let padsize := padbytes nbits - msgzlen
  let msg := leBytes (padbytes nbits) m.natAbs
  let mp := msg.take msgzlen
  let hp := msg.drop msgzlen
  let h := env.oracle encHidx padsize mp
  let hp := xorBytes hp h
  let hp := maskLast (msbmask nbits) hp
  let g := env.oracle encGidx msgzlen hp
  let mp := xorBytes mp g
  if (mp.drop msglen).all (· = 0) then some (mp.take msglen) else none

/-- The padding that keys encrypt and decrypt with. -/
def padding : Padding := ⟨env.oaep, env.unpad⟩

variable (msg : Bytes)

/-- `pre_sign`; zero if it fails. The message is what the hash has been fed with before. -/
def preSign (nbits : ℕ) : ℕ :=
  if nbits / 8 < sigMinpad + sigRndbytes + sha1Hashsize then 0
  else
    let r := env.getbytes sigRndbytes
    let mp := (env.sha1 (msg ++ r)).1
    let padsize := padbytes nbits - sha1Hashsize
    let hp := env.oracle sigGidx padsize mp
    let hp := maskLast (msbmask nbits) hp
    let hp := xorInto hp r
    leNat (mp ++ hp)

def postVerify (s : ℤ) (nbits : ℕ) : Bool :=
  if nbits / 8 < sigMinpad + sigRndbytes + sha1Hashsize then false
  else
    let m := leBytes (padbytes nbits) s.natAbs
    let mp := m.take sha1Hashsize
    let hp := m.drop sha1Hashsize
    let padsize := padbytes nbits - sha1Hashsize
    let g := env.oracle sigGidx padsize mp
    let g := maskLast (msbmask nbits) g
    if hp.drop sigRndbytes ≠ g.drop sigRndbytes then false
    else
      let r := xorBytes (hp.take sigRndbytes) (g.take sigRndbytes)
      (env.sha1 (msg ++ r)).1 = mp

/-- `pre_sign_r`; zero if it fails. -/
def preSignR (nbits : ℕ) : ℕ :=
  if nbits / 8 < sigRndbytes + sha1Hashsize + max sigMinpad msg.length then 0
  else
    let r := env.getbytes sigRndbytes
    let mp := (env.sha1 (msg ++ r)).1
    let padsize := padbytes nbits - sha1Hashsize
    let hp := env.oracle sigrGidx padsize mp
    let hp := maskLast (msbmask nbits) hp
    let hp := xorInto hp r
    let hp := hp.take sigRndbytes ++ xorInto (hp.drop sigRndbytes) msg
    leNat (mp ++ hp)

def postVerifyR (s : ℤ) (msglen nbits : ℕ) : Option Bytes :=
  if nbits / 8 < sigRndbytes + sha1Hashsize + max sigMinpad msglen then none
  else
    let m := leBytes (padbytes nbits) s.natAbs
    let mp := m.take sha1Hashsize
    let hp := m.drop sha1Hashsize
    let padsize := padbytes nbits - sha1Hashsize
    let g := env.oracle sigrGidx padsize mp
    let g := maskLast (msbmask nbits) g
    let hp := xorBytes hp g
    if (hp.drop (sigRndbytes + msglen)).any (· ≠ 0) then none
    else
      let msg := (hp.drop sigRndbytes).take msglen
      if (env.sha1 (msg ++ hp.take sigRndbytes)).1 ≠ mp then none else some msg

end PadEnv

theorem msbmask_lt (nbits : ℕ) : (msbmask nbits).toNat < 2 ^ (8 - (8 - nbits % 8) % 8) := by
  have hall : ∀ r < 8, (0xff >>> UInt8.ofNat ((8 - r) % 8)).toNat <
      2 ^ (8 - (8 - r) % 8) := by decide
  exact hall _ (Nat.mod_lt _ (by decide))

/-- A number whose most significant byte is masked has the bits asked for. -/
theorem leNat_append_maskLast_lt {nbits : ℕ} {mp hp : Bytes} (hhp : hp ≠ [])
    (hlen : mp.length + hp.length = padbytes nbits) :
    leNat (mp ++ maskLast (msbmask nbits) hp) < 2 ^ nbits := by
  have hpos := length_pos_iff.mpr hhp
  have hne : mp ++ hp ≠ [] := append_ne_nil_of_right_ne_nil mp hhp
  rw [← maskLast_append _ mp hhp]
  calc leNat (maskLast (msbmask nbits) (mp ++ hp))
      < 2 ^ (8 * ((mp ++ hp).length - 1) + (8 - (8 - nbits % 8) % 8)) :=
        leNat_maskLast_lt (msbmask_lt nbits) hne
    _ = 2 ^ nbits := by
        rw [length_append, hlen, padbytes]
        congr 1
        unfold padbytes at hlen
        omega

theorem le_padbytes (nbits : ℕ) : nbits / 8 ≤ padbytes nbits := by
  unfold padbytes
  omega

/-- A padded number is read back as the two parts that it was made of. -/
theorem leBytes_append {n : ℕ} {mp hp : Bytes} (h : mp.length + hp.length = n) :
    (leBytes n (leNat (mp ++ hp) : ℤ).natAbs).take mp.length = mp ∧
      (leBytes n (leNat (mp ++ hp) : ℤ).natAbs).drop mp.length = hp := by
  rw [Int.natAbs_natCast, ← h, ← length_append, leBytes_leNat]
  exact ⟨take_left, drop_left⟩

namespace PadEnv

variable (env : PadEnv) {msg : Bytes} {nbits : ℕ}

theorem oaep_lt (h : msg.length + encZbytes < padbytes nbits) : env.oaep msg nbits < 2 ^ nbits := by
  apply leNat_append_maskLast_lt
  · apply ne_nil_of_length_pos
    simp only [length_xorBytes, length_maskLast, length_getbytes, length_oracle]
    omega
  · simp only [length_xorBytes, length_maskLast, length_getbytes, length_oracle, length_xorInto]
    omega

/-- The message and the seed are recovered in the opposite order in which they were hidden. -/
theorem unpad_oaep (h : msg.length + encZbytes ≤ padbytes nbits) :
    env.unpad (env.oaep msg nbits) msg.length nbits = some msg := by
  set msgzlen := msg.length + encZbytes with hmsgzlen
  set padsize := padbytes nbits - msgzlen with hpadsize
  set hp := maskLast (msbmask nbits) (env.getbytes padsize) with hhp
  set g := env.oracle encGidx msgzlen hp with hg
  set mp := xorInto g msg with hmp
  set hh := env.oracle encHidx padsize mp with hhh
  set hq := maskLast (msbmask nbits) (xorBytes hp hh) with hhq
  have hlenmp : mp.length = msgzlen := by simp [hmp, hg]
  have hlenhq : hq.length = padsize := by simp [hhq, hhp, hhh]
  have hlen : mp.length + hq.length = padbytes nbits := by omega
  obtain ⟨htake, hdrop⟩ := leBytes_append hlen
  have hoaep : env.oaep msg nbits = leNat (mp ++ hq) := rfl
  rw [hlenmp] at htake hdrop
  have hseed : maskLast (msbmask nbits) (xorBytes hq hh) = hp := by
    rw [maskLast_xorBytes _ (by simp [hhp, hhh]), xorBytes_cancel (by simp [hhp, hhh]),
      maskLast_maskLast]
  have hmessage : xorBytes mp g = msg ++ replicate encZbytes 0 := by
    rw [xorBytes_xorInto (by simp [hg, hmsgzlen])]
    simp [hg, hmsgzlen]
  rw [hoaep, unpad]
  rw [htake, hdrop, hseed, hmessage, take_left, if_pos (by simp)]

section

variable (h : sigMinpad + sigRndbytes + sha1Hashsize ≤ nbits / 8)

include h

theorem getbytes_lt : sigRndbytes < padbytes nbits - sha1Hashsize := by
  have hle := le_padbytes nbits
  have hsizes : sigRndbytes = 16 ∧ sigMinpad = 16 ∧ sha1Hashsize = 20 := ⟨rfl, rfl, rfl⟩
  omega

theorem preSign_lt : env.preSign msg nbits < 2 ^ nbits := by
  have hlt := getbytes_lt h
  rw [preSign, if_neg (not_lt.mpr h)]
  dsimp only
  rw [maskLast_xorInto _ (by simpa using hlt)]
  apply leNat_append_maskLast_lt
  · apply ne_nil_of_length_pos
    simp only [length_xorInto, length_oracle]
    omega
  · rw [length_xorInto, length_oracle, (env.sha1 _).2]
    change sha1Hashsize + _ = _
    omega

theorem postVerify_preSign : env.postVerify msg (env.preSign msg nbits) nbits = true := by
  have hlt := getbytes_lt h
  set r := env.getbytes sigRndbytes with hr
  set mp := (env.sha1 (msg ++ r)).1 with hmp
  set g := maskLast (msbmask nbits) (env.oracle sigGidx (padbytes nbits - sha1Hashsize) mp) with hg
  have hlenr : r.length = sigRndbytes := env.length_getbytes _
  have hlenmp : mp.length = sha1Hashsize := (env.sha1 _).2
  have hleng : g.length = padbytes nbits - sha1Hashsize := by simp [hg]
  have hlen : mp.length + (xorInto g r).length = padbytes nbits := by
    rw [length_xorInto]
    omega
  have hpre : env.preSign msg nbits = leNat (mp ++ xorInto g r) := by
    rw [preSign, if_neg (not_lt.mpr h)]
  obtain ⟨htake, hdrop⟩ := leBytes_append hlen
  rw [hlenmp] at htake hdrop
  have hbehind : (xorInto g r).drop sigRndbytes = g.drop sigRndbytes := drop_xorInto g r hlenr.le
  have hrandom : xorBytes ((xorInto g r).take sigRndbytes) (g.take sigRndbytes) = r := by
    have hall := congrArg (List.take sigRndbytes)
      (xorBytes_xorInto (by omega : r.length ≤ g.length))
    rw [xorBytes, take_zipWith, ← hlenr, take_left, hlenr] at hall
    exact hall
  rw [hpre, postVerify, if_neg (not_lt.mpr h)]
  dsimp only
  rw [htake, hdrop, if_neg (not_not.mpr hbehind), hrandom]
  exact decide_eq_true hmp.symm

end

section

variable (h : sigRndbytes + sha1Hashsize + max sigMinpad msg.length ≤ nbits / 8)

include h

/-- What `pre_sign_r` adds to the answer of the oracle fits into it, and leaves its last byte
alone if that has unused bits. -/
theorem recovery_sizes :
    sigRndbytes + msg.length ≤ padbytes nbits - sha1Hashsize ∧
      0 < padbytes nbits - sha1Hashsize ∧
      (sigRndbytes + msg.length = padbytes nbits - sha1Hashsize → 8 * padbytes nbits = nbits) := by
  have hsizes : sigRndbytes = 16 ∧ sigMinpad = 16 ∧ sha1Hashsize = 20 := ⟨rfl, rfl, rfl⟩
  unfold padbytes
  omega

theorem preSignR_eq :
    env.preSignR msg nbits =
      leNat ((env.sha1 (msg ++ env.getbytes sigRndbytes)).1 ++
        xorInto (maskLast (msbmask nbits) (env.oracle sigrGidx (padbytes nbits - sha1Hashsize)
          (env.sha1 (msg ++ env.getbytes sigRndbytes)).1)) (env.getbytes sigRndbytes ++ msg)) := by
  obtain ⟨hfit, -, -⟩ := recovery_sizes h
  have hlenr := env.length_getbytes sigRndbytes
  rw [preSignR, if_neg (not_lt.mpr h), xorInto_append, hlenr]
  rw [length_maskLast, length_oracle]
  omega

theorem preSignR_lt : env.preSignR msg nbits < 2 ^ nbits := by
  obtain ⟨hfit, hpos, hfull⟩ := recovery_sizes h
  have hlenmp : ∀ m, (env.sha1 m).1.length = sha1Hashsize := fun m => (env.sha1 m).2
  have hlen : ∀ m x, (env.sha1 m).1.length + (xorInto (maskLast (msbmask nbits)
      (env.oracle sigrGidx (padbytes nbits - sha1Hashsize) (env.sha1 m).1)) x).length =
        padbytes nbits := by
    intro m x
    rw [hlenmp, length_xorInto, length_maskLast, length_oracle]
    omega
  rw [env.preSignR_eq h]
  rcases Nat.lt_or_eq_of_le hfit with hlt | heq
  · rw [maskLast_xorInto _ (by simpa using hlt)]
    apply leNat_append_maskLast_lt
    · apply ne_nil_of_length_pos
      rw [length_xorInto, length_oracle]
      exact hpos
    · rw [hlenmp, length_xorInto, length_oracle]
      omega
  · -- all bits of the last byte are used
    have hbound := leNat_lt ((env.sha1 (msg ++ env.getbytes sigRndbytes)).1 ++
      xorInto (maskLast (msbmask nbits) (env.oracle sigrGidx (padbytes nbits - sha1Hashsize)
        (env.sha1 (msg ++ env.getbytes sigRndbytes)).1)) (env.getbytes sigRndbytes ++ msg))
    rw [length_append, hlen] at hbound
    calc _ < 256 ^ padbytes nbits := hbound
      _ = 2 ^ (8 * padbytes nbits) := by rw [pow_mul]; norm_num
      _ = 2 ^ nbits := by rw [hfull heq]

theorem postVerifyR_preSignR :
    env.postVerifyR (env.preSignR msg nbits) msg.length nbits = some msg := by
  obtain ⟨hfit, -, -⟩ := recovery_sizes h
  have hpre := env.preSignR_eq h
  set r := env.getbytes sigRndbytes with hr
  set mp := (env.sha1 (msg ++ r)).1 with hmp
  set g := maskLast (msbmask nbits) (env.oracle sigrGidx (padbytes nbits - sha1Hashsize) mp) with hg
  have hlenr : r.length = sigRndbytes := env.length_getbytes _
  have hlenmp : mp.length = sha1Hashsize := (env.sha1 _).2
  have hleng : g.length = padbytes nbits - sha1Hashsize := by simp [hg]
  have hlen : mp.length + (xorInto g (r ++ msg)).length = padbytes nbits := by
    have hle := le_padbytes nbits
    rw [length_xorInto]
    omega
  obtain ⟨htake, hdrop⟩ := leBytes_append hlen
  rw [hlenmp] at htake hdrop
  have hclear := xorBytes_xorInto (by rw [length_append]; omega : (r ++ msg).length ≤ g.length)
  have hrest : (r ++ msg ++ replicate (g.length - (r ++ msg).length) 0).drop
      (sigRndbytes + msg.length) = replicate (g.length - (r ++ msg).length) 0 := by
    rw [← hlenr, ← length_append, drop_left]
  rw [hpre, postVerifyR, if_neg (not_lt.mpr h)]
  dsimp only
  rw [htake, hdrop, hclear, hrest, if_neg (by simp), append_assoc, ← hlenr,
    drop_left, take_left, take_left, if_neg (not_not.mpr hmp.symm)]

end

end PadEnv

/-- The three paddings are undone, for all sizes in bits that the message fits into, and the
numbers have no more bits. -/
theorem pad_round_trips (env : PadEnv) (msg : Bytes) (nbits : ℕ) :
    (msg.length + encZbytes + encMinpad ≤ nbits / 8 →
      postDecrypt env.padding (preEncrypt env.padding msg nbits) msg.length nbits = some msg ∧
      0 ≤ preEncrypt env.padding msg nbits ∧ preEncrypt env.padding msg nbits < 2 ^ nbits) ∧
    (sigMinpad + sigRndbytes + sha1Hashsize ≤ nbits / 8 →
      env.postVerify msg (env.preSign msg nbits) nbits = true ∧
      env.preSign msg nbits < 2 ^ nbits) ∧
    (sigRndbytes + sha1Hashsize + max sigMinpad msg.length ≤ nbits / 8 →
      env.postVerifyR (env.preSignR msg nbits) msg.length nbits = some msg ∧
      env.preSignR msg nbits < 2 ^ nbits) := by
  refine ⟨?_, ?_, ?_⟩
  · intro h
    have hle := le_padbytes nbits
    have hsizes : encMinpad = 16 := rfl
    have hpre : preEncrypt env.padding msg nbits = (env.oaep msg nbits) :=
      if_neg (not_lt.mpr h)
    rw [hpre, postDecrypt, if_neg (not_lt.mpr h)]
    refine ⟨env.unpad_oaep (by omega), Int.natCast_nonneg _, ?_⟩
    exact_mod_cast env.oaep_lt (by omega)
  · intro h
    exact ⟨env.postVerify_preSign h, env.preSign_lt h⟩
  · intro h
    exact ⟨env.postVerifyR_preSignR h, env.preSignR_lt h⟩

def constantEnv : PadEnv where
  sha1 _ := ⟨replicate 20 5, rfl⟩
  oracle idx len _ := replicate len (UInt8.ofNat idx)
  length_oracle _ _ _ := List.length_replicate
  getbytes n := replicate n 0xa5
  length_getbytes _ := List.length_replicate

/-- Three bytes in 515 bits. -/
theorem pad_round_trips_constant :
    postDecrypt constantEnv.padding (preEncrypt constantEnv.padding [1, 2, 3] 515) 3 515 =
        some [1, 2, 3] ∧
      constantEnv.postVerify [1, 2, 3] (constantEnv.preSign [1, 2, 3] 515) 515 = true ∧
      constantEnv.postVerifyR (constantEnv.preSignR [1, 2, 3] 515) 3 515 = some [1, 2, 3] := by
  obtain ⟨henc, hsig, hrec⟩ := pad_round_trips constantEnv [1, 2, 3] 515
  exact ⟨(henc (by decide)).1, (hsig (by decide)).1, (hrec (by decide)).1⟩

end SelfCertifyingFS.Crypt
