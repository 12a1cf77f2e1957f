import Sfs.Foundations.Scanner

/-!
# XDR

The external data representation of `arpc/xdrmisc.h`: every item occupies a
multiple of four bytes, lengths are big-endian words. Large integers are written
in two's complement behind their length, as in `crypt/xdr_mpz_t.C`.
-/

namespace SelfCertifyingFS.Rpc

open Foundations Wire Option List

def rpcInfinity : ℕ := 0x7fffffff

/-- `n + 3 & ~3`. -/
def pad4 (n : ℕ) : ℕ := (n + 3) / 4 * 4

theorem le_pad4 (n : ℕ) : n ≤ pad4 n := by
  unfold pad4
  omega

theorem pad4_lt (n : ℕ) : pad4 n < n + 4 := by
  unfold pad4
  omega

/-- Bytes followed by zeros up to the next word. -/
def padded (bs : Bytes) : Bytes := bs ++ replicate (pad4 bs.length - bs.length) 0

@[simp] theorem length_padded (bs : Bytes) : (padded bs).length = pad4 bs.length := by
  have h := le_pad4 bs.length
  rw [padded, length_append, length_replicate]
  omega

/-- `xdr_putint` and `xdr_getint`. -/
def xdrInt : Wire ℕ where
  put n := beBytes 4 n
  get bs := (takeBytes 4 bs).map fun p => (beNat p.1, p.2)

variable {n : ℕ} {z : ℤ}

theorem xdrInt_carries (h : n < 2 ^ 32) : xdrInt.Carries n := by
  intro rest
  have hn : n < 256 ^ 4 := by simpa using h
  simp only [xdrInt]
  rw [takeBytes_append (length_beBytes 4 n), map_some, beNat_beBytes hn]

/-- Padded bytes of a length known to both sides. -/
def getPadded (n : ℕ) (bs : Bytes) : Option (Bytes × Bytes) :=
  (takeBytes (pad4 n) bs).map fun p => (p.1.take n, p.2)

theorem getPadded_padded {bs : Bytes} (h : bs.length = n) (rest : Bytes) :
    getPadded n (padded bs ++ rest) = some (bs, rest) := by
  have hlen : (padded bs).length = pad4 n := by rw [length_padded, h]
  rw [getPadded, takeBytes_append hlen, map_some, padded, ← h, take_left]

/-- `rpc_opaque<n>`: exactly `n` bytes. -/
abbrev FixedBytes (n : ℕ) := {bs : Bytes // bs.length = n}

def xdrFixed (n : ℕ) : Wire (FixedBytes n) where
  put b := padded b.1
  get bs := (getPadded n bs).bind fun p => if h : p.1.length = n then some (⟨p.1, h⟩, p.2) else none

theorem xdrFixed_carries (b : FixedBytes n) : (xdrFixed n).Carries b := by
  intro rest
  simp only [xdrFixed]
  rw [getPadded_padded b.2, bind_some, dif_pos b.2]

/-- `rpc_str<max>`: a counted string, without zero bytes when read. -/
def xdrStr (max : ℕ) : Wire Bytes where
  put s := xdrInt.put s.length ++ padded s
  get bs := (xdrInt.get bs).bind fun p =>
    if p.1 > max then none
    else (getPadded p.1 p.2).bind fun q => if 0 ∈ q.1 then none else some q

theorem xdrStr_carries {max : ℕ} {s : Bytes} (hmax : max < 2 ^ 32) (hlen : s.length ≤ max)
    (hzero : 0 ∉ s) : (xdrStr max).Carries s := by
  intro rest
  have hint := xdrInt_carries (hlen.trans_lt hmax) (padded s ++ rest)
  simp only [xdrStr, append_assoc]
  rw [hint, bind_some, if_neg (not_lt.mpr hlen), getPadded_padded rfl, bind_some, if_neg hzero]

/-- `mpz_sizeinbase2`, the method `nbits` of large integers. -/
def nbits (z : ℤ) : ℕ := if z = 0 then 0 else z.natAbs.log2 + 1

/-- `mpz_rawsize`: room for the magnitude and a sign bit. -/
def rawsize (z : ℤ) : ℕ := if nbits z = 0 then 0 else nbits z / 8 + 1

theorem natAbs_lt_two_pow_nbits (z : ℤ) : z.natAbs < 2 ^ nbits z := by
  unfold nbits
  split_ifs with h
  · simp [h]
  · exact Nat.lt_log2_self

theorem nbits_le {k : ℕ} (h : z.natAbs < 2 ^ k) : nbits z ≤ k := by
  unfold nbits
  split_ifs with h0
  · exact Nat.zero_le k
  · exact (Nat.log2_lt (by omega)).mpr h

theorem rawsize_mono {w : ℤ} (h : z.natAbs ≤ w.natAbs) : rawsize z ≤ rawsize w := by
  have hle : nbits z ≤ nbits w := nbits_le (h.trans_lt (natAbs_lt_two_pow_nbits w))
  unfold rawsize
  split_ifs <;> omega

theorem pad4_mono {m : ℕ} (h : m ≤ n) : pad4 m ≤ pad4 n := by
  unfold pad4
  omega

theorem two_mul_natAbs_lt (z : ℤ) {k : ℕ} (hk : rawsize z ≤ k) : 2 * z.natAbs < 256 ^ k := by
  have hlt := natAbs_lt_two_pow_nbits z
  by_cases h0 : nbits z = 0
  · have hz : z.natAbs = 0 := by rw [h0] at hlt; omega
    rw [hz]
    exact Nat.pow_pos (by decide)
  · rw [rawsize, if_neg h0] at hk
    calc 2 * z.natAbs < 2 ^ (nbits z + 1) := by omega
      _ ≤ 2 ^ (8 * k) := Nat.pow_le_pow_right (by decide) (by omega)
      _ = 256 ^ k := by rw [pow_mul]; rfl

/-- `xdr_mpz_t`: the size is a 32-bit word, and must not look negative when read. -/
def xdrMpz : Wire ℤ where
  put z :=
    let size := pad4 (rawsize z) % 2 ^ 32
    xdrInt.put size ++ twosBytes size z
  get bs := (xdrInt.get bs).bind fun p =>
    if 2 ^ 31 ≤ p.1 then none
    else (getPadded p.1 p.2).map fun q => (twosInt q.1, q.2)

/-- The integer has an encoding that `xdr_mpz_t` reads back. -/
def MpzFits (z : ℤ) : Prop := pad4 (rawsize z) < 2 ^ 31

instance (z : ℤ) : Decidable (MpzFits z) := inferInstanceAs (Decidable (_ < _))

theorem MpzFits.mono {w : ℤ} (h : MpzFits w) (hle : z.natAbs ≤ w.natAbs) : MpzFits z :=
  (pad4_mono (rawsize_mono hle)).trans_lt h

theorem pad4_pad4 (n : ℕ) : pad4 (pad4 n) = pad4 n := by
  unfold pad4
  omega

theorem xdrMpz_put (h : MpzFits z) :
    xdrMpz.put z = xdrInt.put (pad4 (rawsize z)) ++ twosBytes (pad4 (rawsize z)) z := by
  have hmod : pad4 (rawsize z) % 2 ^ 32 = pad4 (rawsize z) := by
    unfold MpzFits at h
    exact Nat.mod_eq_of_lt (by omega)
  simp only [xdrMpz, hmod]

theorem length_xdrMpz_put (h : MpzFits z) : (xdrMpz.put z).length = 4 + pad4 (rawsize z) := by
  rw [xdrMpz_put h, length_append, length_twosBytes]
  exact congrArg (· + _) (length_beBytes 4 _)

theorem xdrMpz_carries (h : MpzFits z) : xdrMpz.Carries z := by
  intro rest
  set size := pad4 (rawsize z)
  have hsize : size < 2 ^ 31 := h
  have hint := xdrInt_carries (n := size) (by omega) (twosBytes size z ++ rest)
  have hraw : twosInt (twosBytes size z) = z := by
    have hbound : 2 * z.natAbs < 256 ^ size := two_mul_natAbs_lt z (le_pad4 _)
    have hcast : 256 ^ size = ((256 ^ size : ℕ) : ℤ) := rfl
    refine twosInt_twosBytes ?_ ?_ <;> rw [hcast] <;> omega
  -- the size is a multiple of four, so nothing follows the two's complement bytes
  have hpad : getPadded size (twosBytes size z ++ rest) = some (twosBytes size z, rest) := by
    rw [getPadded, pad4_pad4, takeBytes_append (length_twosBytes _ _), map_some,
      take_of_length_le (length_twosBytes _ _).le]
  rw [xdrMpz_put h, append_assoc]
  simp only [xdrMpz]
  rw [hint, bind_some, if_neg (not_le.mpr hsize), hpad, map_some, hraw]

section Messages

variable {α : Type*}

/-- `xdr2bytes` into a message of at most `RPC_INFINITY` bytes. -/
def xdr2bytes (w : Wire α) (a : α) : Option Bytes :=
  if (w.put a).length > rpcInfinity then none else some (w.put a)

/-- `bytes2xdr`: what follows the value is ignored. -/
def bytes2xdr (w : Wire α) (msg : Bytes) : Option α := (w.get msg).map Prod.fst

theorem xdr2bytes_of_length_le {w : Wire α} {a : α} (h : (w.put a).length ≤ rpcInfinity) :
    xdr2bytes w a = some (w.put a) :=
  if_neg (not_lt.mpr h)

theorem bytes2xdr_put {w : Wire α} {a : α} (h : w.Carries a) : bytes2xdr w (w.put a) = some a := by
  have hget := h []
  rw [append_nil] at hget
  rw [bytes2xdr, hget, map_some]

end Messages

end SelfCertifyingFS.Rpc
