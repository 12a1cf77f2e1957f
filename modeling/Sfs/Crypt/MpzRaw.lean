import Sfs.Async.Bitvec
import Sfs.Foundations.Limbs
import Sfs.Rpc.Xdr

/-!
# Large integers as bytes

The functions of `crypt/mpz_raw.C` on the limbs of a large integer, `mpz_umod_2exp` of
`crypt/mpz_misc.C`, which they use for negative numbers, and `xdr_mpz_t`. The size of a
limb and the byte order of the host are parameters.
-/

namespace SelfCertifyingFS.Crypt

open Foundations Rpc

/-- `mp_limb_t`. -/
abbrev Limb (L : ℕ) := Fin (256 ^ L)

section Limbs

variable {L : ℕ} (order : ByteOrder)

def limbBytes (v : Limb L) : Bytes :=
  match order with
  | .big => beBytes L v.val
  | .little => leBytes L v.val

def bytesLimb (bs : Bytes) : Limb L :=
  match order with
  | .big => Fin.ofNat (256 ^ L) (beNat bs)
  | .little => Fin.ofNat (256 ^ L) (leNat bs)

variable (L n : ℕ)

def lswap : ℕ := n / L * L + (L - 1 - n % L)

def lePos : ℕ :=
  match order with
  | .big => lswap L n
  | .little => n

def bePos : ℕ :=
  match order with
  | .big => n
  | .little => lswap L n

def copyLimb (L : ℕ) (sw : ℕ → ℕ) (src : Bytes) : Bytes :=
  (List.range L).map fun n => src.getD (sw n) 0

end Limbs

/-- `MP_INT`: limbs without leading zeros, and the sign of their number. -/
structure MpInt (L : ℕ) where
  neg : Bool
  limbs : List (Limb L)
  normal : ∀ h : limbs ≠ [], (limbs.getLast h).val ≠ 0
  sign : limbs = [] → neg = false

namespace MpInt

section Code

variable {L : ℕ}

def val (z : MpInt L) : ℤ := if z.neg then -(mag z.limbs : ℤ) else mag z.limbs

/-- The number of the limbs, without their leading zeros, as `_mpz_fixsize` leaves it. -/
def ofLimbs (limbs : List (Limb L)) : MpInt L :=
  ⟨false, trim limbs, trim_getLast limbs, fun _ => rfl⟩

theorem negated_sign (z : MpInt L) (h : z.limbs = []) : (!z.limbs.isEmpty && !z.neg) = false := by
  rw [h]
  rfl

/-- `_mp_size = - _mp_size`. -/
def negated (z : MpInt L) : MpInt L :=
  ⟨!z.limbs.isEmpty && !z.neg, z.limbs, z.normal, z.negated_sign⟩

/-- The loop of `mpz_sizeinbase2`. -/
def sizeinbase2Loop (limbs : List (Limb L)) : ℕ → ℕ
  | 0 => 0
  | i + 1 =>
      let v := (limbs.getD i 0).val
      if v ≠ 0 then 8 * L * i + Async.fls v else sizeinbase2Loop limbs i

def sizeinbase2 (z : MpInt L) : ℕ := sizeinbase2Loop z.limbs z.limbs.length

def rawsize (z : MpInt L) : ℕ :=
  let nbits := z.sizeinbase2
  if nbits ≠ 0 then (nbits >>> 3) + 1 else 0

/-- The mask for the highest limb of a number of `b` bits. The difference is unsigned. -/
def topMask (L b : ℕ) : ℕ := (256 ^ L - 1) >>> ((8 * L - b % (8 * L)) % (8 * L))

/-- The number of limbs for `b` bits. -/
def limbsFor (L b : ℕ) : ℕ := (b + (8 * L - 1)) / (8 * L)

variable (z : MpInt L) (b : ℕ)

/-- `mpz_tdiv_r_2exp` of the library, for a number that is not negative. -/
def tdivR2exp : MpInt L :=
  if z.limbs.length < limbsFor L b then z
  else ofLimbs (maskTop (topMask L b) (z.limbs.take (limbsFor L b)))

def umod2exp : MpInt L :=
  if z.neg then
    match negate (limbsFor L b) z.limbs with
    | none => ofLimbs []
    | some r => ofLimbs (maskTop (topMask L b) r)
  else z.tdivR2exp b

end Code

section Output

variable {L : ℕ}

/-- So many limbs copied, one after the other: their bytes, and the limbs that are left. -/
def copyOut (copy : Limb L → Bytes) : ℕ → List (Limb L) → List Bytes × List (Limb L)
  | k + 1, v :: sp =>
      let r := copyOut copy k sp
      (copy v :: r.1, r.2)
  | _, sp => ([], sp)

def spread : ℕ → ℕ → Bytes
  | 0, _ => []
  | n + 1, v => UInt8.ofNat v :: spread n (v >>> 8)

def spreadDown : ℕ → ℕ → Bytes
  | 0, _ => []
  | n + 1, v => spreadDown n (v >>> 8) ++ [UInt8.ofNat v]

/-- The last `n` bytes: a part of the next limb, or zeros. -/
def rawTail (spread : ℕ → ℕ → Bytes) (n : ℕ) : List (Limb L) → Bytes
  | [] => List.replicate n 0
  | v :: _ => if n < L then spread n v.val else List.replicate n 0

variable (order : ByteOrder) (size : ℕ) (limbs : List (Limb L))

def getRawmagLe : Bytes :=
  let r := copyOut (fun v => copyLimb L (lePos order L) (limbBytes order v)) (size / L) limbs
  let n := size - r.1.flatten.length
  r.1.flatten ++ rawTail spread n r.2

/-- `mpz_get_rawmag_be`: the buffer is filled from its end. -/
def getRawmagBe : Bytes :=
  let r := copyOut (fun v => copyLimb L (bePos order L) (limbBytes order v)) (size / L) limbs
  let n := size - r.1.reverse.flatten.length
  rawTail spreadDown n r.2 ++ r.1.reverse.flatten

def getRaw (z : MpInt L) : Bytes :=
  if z.neg then getRawmagBe order size (z.umod2exp (size * 8)).limbs
  else getRawmagBe order size z.limbs

end Output

section Input

variable {L : ℕ}

/-- Limbs copied from the start of a buffer, and the bytes that are left. -/
def copyIn (copy : Bytes → Limb L) : ℕ → Bytes → List (Limb L) × Bytes
  | 0, buf => ([], buf)
  | k + 1, buf =>
      let r := copyIn copy k (buf.drop L)
      (copy (buf.take L) :: r.1, r.2)

/-- Limbs copied from the end of a buffer, and the bytes that are left. -/
def copyInDown (copy : Bytes → Limb L) : ℕ → Bytes → List (Limb L) × Bytes
  | 0, buf => ([], buf)
  | k + 1, buf =>
      let r := copyInDown copy k (buf.take (buf.length - L))
      (copy (buf.drop (buf.length - L)) :: r.1, r.2)

/-- A limb from less bytes than it has, the highest one first. -/
def gather (bs : Bytes) : Limb L :=
  bs.foldl (fun v b => Fin.ofNat (256 ^ L) (v.val <<< 8 ||| b.toNat)) 0

variable (order : ByteOrder) (buf : Bytes)

def setRawmagLe : MpInt L :=
  let r := copyIn (fun bs => bytesLimb order (copyLimb L (lePos order L) bs)) (buf.length / L) buf
  ofLimbs (if r.2 ≠ [] then r.1 ++ [gather r.2.reverse] else r.1)

def setRawmagBe : MpInt L :=
  let r := copyInDown (fun bs => bytesLimb order (copyLimb L (bePos order L) bs))
    (buf.length / L) buf
  ofLimbs (if r.2 ≠ [] then r.1 ++ [gather r.2] else r.1)

/-- `mpz_set_raw` on the first bytes of a buffer. The first byte is read even if there is none:
then it is the one behind the buffer. -/
def setRaw (size : ℕ) (beyond : UInt8) : MpInt L :=
  let mp := setRawmagBe order (buf.take size)
  if buf.headD beyond &&& 0x80 ≠ 0 then (mp.negated.umod2exp (8 * size)).negated else mp

end Input

section Xdr

variable {L : ℕ} (order : ByteOrder)

/-- `xdr_mpz_t` with `XDR_ENCODE`. -/
def xdrPut (z : MpInt L) : Bytes :=
  let size := pad4 z.rawsize % 2 ^ 32
  xdrInt.put size ++ z.getRaw order size

/-- `xdr_mpz_t` with `XDR_DECODE`. -/
def xdrGet (beyond : UInt8) (bs : Bytes) : Option (MpInt L × Bytes) :=
  (xdrInt.get bs).bind fun p =>
    if 2 ^ 31 ≤ p.1 then none
    else (getPadded p.1 p.2).map fun q => (setRaw order p.2 p.1 beyond, q.2)

end Xdr

end MpInt

end SelfCertifyingFS.Crypt
