import Sfs.Rpc.Xdr

/-!
# What both sides of the SRP protocol share

`srp_base` of `crypt/srp.h`: the group parameters with their cached check, the
session secret and the two hashes derived from it. Functions of the rest of the
library (SHA-1, the password encodings) are parameters. Where the source stops
the process, by an assertion or by a division by zero, the model returns `none`.
-/

namespace SelfCertifyingFS.Crypt

open Foundations Rpc

/-- `srp_hash`. -/
abbrev SrpHash := FixedBytes 20

inductive SrpRes
  | fail
  | next
  | setpwd
  | last
  | done
  deriving DecidableEq, Repr

/-- The code that the protocol calls, and the process-wide minimal size. -/
structure SrpEnv where
  sha1 : Bytes → SrpHash
  /-- The cost and the host name of an armored salt. -/
  pwDearmorsalt : Bytes → Option (ℕ × Bytes)
  /-- Password, salt and number of bits. -/
  pwGetint : Bytes → Bytes → ℕ → ℕ
  minprimsize : ℕ

/-- `mpz_powm`: a negative exponent needs an inverse of the base. -/
def powm (base exp mod : ℤ) : Option ℤ :=
  if mod = 0 then none
  else if 0 ≤ exp then some (base ^ exp.toNat % mod)
  else if Int.gcd base mod = 1 then some (Int.gcdA base mod ^ (-exp).toNat % mod)
  else none

theorem powm_of_pos {base exp mod : ℤ} (hmod : 0 < mod) (hexp : 0 ≤ exp) :
    powm base exp mod = some (base ^ exp.toNat % mod) := by
  rw [powm, if_neg hmod.ne', if_pos hexp]

theorem powm_nonneg {base exp mod p : ℤ} (h : powm base exp mod = some p) : 0 ≤ p := by
  unfold powm at h
  split_ifs at h with h0 hexp hgcd <;> simp only [Option.some.injEq] at h <;> subst h <;>
    exact Int.emod_nonneg _ h0

/-- `random_zn`, for the random number `r`. -/
def randomZn (n : ℤ) (r : ℕ) : Option ℤ := if 0 < n then some (r % n) else none

theorem randomZn_of_pos {n : ℤ} (h : 0 < n) (r : ℕ) : randomZn n r = some (r % n) := if_pos h

/-- The static variables `cache` and `lastpos`: moduli that have been tested, and
how often. -/
structure ParamCache where
  entries : Fin 2 → ℤ × ℕ
  lastpos : Fin 2

def ParamCache.start : ParamCache := ⟨fun _ => (0, 0), 0⟩

/-- The search of `checkparam` in the cache, and the primality test where it
finds nothing. The answer of `srpprime_test`, which is random, is an argument. -/
def ParamCache.test (prime : Bool) (c : ParamCache) (N : ℤ) (iter : ℕ) : Bool × ParamCache :=
  match [0, 1].find? fun i => (c.entries i).1 = N ∧ (c.entries i).2 ≥ iter ∧ N ≠ 0 with
  | some i => (true, { c with lastpos := i })
  | none =>
      if prime then
        (true, ⟨Function.update c.entries (c.lastpos + 1) (N, iter), c.lastpos + 1⟩)
      else (false, c)

/-- The static `checkparam`. -/
def checkparam (env : SrpEnv) (prime : Bool) (c : ParamCache) (N g : ℤ) (iter : ℕ) :
    Option (Bool × ParamCache) :=
  if nbits N < env.minprimsize then some (false, c)
  else if N = 0 then none
  else if g ≠ g.tmod N ∨ g = N - 1 then some (false, c)
  else match powm g (N.tdiv 2) N with
    | none => none
    | some p => if p ≠ N - 1 then some (false, c) else some (c.test prime N iter)

/-- What an accepted pair satisfies whatever the primality test has answered. The
base may be negative. -/
structure ParamsOk (N g : ℤ) : Prop where
  one_lt : 1 < N
  abs_lt : |g| < N
  half : g ^ (N / 2).toNat % N = N - 1

variable {N g : ℤ}

theorem paramsOk_of_checkparam {env : SrpEnv} {prime : Bool} {c c' : ParamCache} {iter : ℕ}
    (h : checkparam env prime c N g iter = some (true, c')) : ParamsOk N g := by
  unfold checkparam at h
  split_ifs at h with hsize hzero hg
  · simp at h
  · simp at h
  obtain ⟨hmod, hlast⟩ := not_or.mp hg
  have hgmod : g = g.tmod N := not_not.mp hmod
  cases hpow : powm g (N.tdiv 2) N with
  | none => simp [hpow] at h
  | some p =>
    by_cases hp : p = N - 1
    · subst hp
      have hN : 0 < N := by
        have hnonneg := powm_nonneg hpow
        omega
      have habs : |g| < N := by
        rw [hgmod, abs_lt]
        exact ⟨Int.lt_tmod_of_pos g hN, Int.tmod_lt_of_pos g hN⟩
      refine ⟨?_, habs, ?_⟩
      · -- modulo one every base is zero, which is the excluded value
        by_contra hone
        have hg0 : g = 0 := by
          rw [abs_lt] at habs
          omega
        omega
      · rw [Int.tdiv_eq_ediv_of_nonneg hN.le, powm_of_pos hN (by omega)] at hpow
        exact Option.some.inj hpow
    · simp [hpow, hp] at h

theorem ParamsOk.isCoprime (h : ParamsOk N g) : IsCoprime g N := by
  have hone := h.one_lt
  have hdiv := Int.mul_ediv_add_emod (g ^ (N / 2).toNat) N
  rw [h.half] at hdiv
  have hpow : IsCoprime (g ^ (N / 2).toNat) N := ⟨-1, g ^ (N / 2).toNat / N + 1, by linarith⟩
  exact (IsCoprime.pow_left_iff (by omega)).mp hpow

theorem ParamsOk.not_dvd_pow (h : ParamsOk N g) (n : ℕ) : ¬N ∣ g ^ n := by
  intro hdvd
  have hunit : IsUnit N := (h.isCoprime.pow_left).isUnit_of_dvd' hdvd dvd_rfl
  have hone := h.one_lt
  rcases Int.isUnit_iff.mp hunit with h1 | h1 <;> omega

/-! ## The state of either side -/

/-- The fields of `srp_base`. The user name and the salt are not null once they
are used. -/
structure SrpBase where
  salt : Bytes
  A : ℤ
  B : ℤ
  M : SrpHash
  H : SrpHash
  k : ℤ
  sessid : SrpHash
  user : Bytes
  S : ℤ
  N : ℤ
  g : ℤ

variable (env : SrpEnv) (s : SrpBase)

/-- The hash that proves knowledge of the secret to the server. -/
def SrpBase.hashM : SrpHash :=
  env.sha1 ((xdrFixed 20).put s.sessid ++ xdrMpz.put s.N ++ xdrMpz.put s.g ++
    (xdrStr rpcInfinity).put s.user ++ (xdrStr rpcInfinity).put s.salt ++ xdrMpz.put s.A ++
    xdrMpz.put s.B ++ xdrMpz.put s.S)

def SrpBase.hashH : SrpHash :=
  env.sha1 ((xdrFixed 20).put s.sessid ++ xdrMpz.put s.A ++ (xdrFixed 20).put s.M ++ xdrMpz.put s.S)

/-- `setS`: no encoding fails, as no string is null. -/
def SrpBase.setS (S : ℤ) : SrpBase :=
  let s := { s with S := S }
  let s := { s with M := s.hashM env }
  { s with H := s.hashH env }

/-- The multiplier: SRP-3 before version 6, SRP-6 from then on. -/
def srpK (version : ℤ) : ℤ := if version < 6 then 1 else 3

/-- `srp_msg1`: salt, modulus and base. -/
def srpMsg1 : Wire (Bytes × ℤ × ℤ) := (xdrStr rpcInfinity).pair (xdrMpz.pair xdrMpz)

/-- `srp_msg3`: the server's public value and its challenge. -/
def srpMsg3 : Wire (ℤ × ℤ) := xdrMpz.pair xdrMpz

/-- The result of a call and the message it leaves in `msgout`, if any. -/
structure SrpReply where
  res : SrpRes
  msgout : Option Bytes
  deriving DecidableEq

def SrpReply.fail : SrpReply := ⟨.fail, none⟩

theorem length_first_twenty (bs : Bytes) : ((bs ++ List.replicate 20 0).take 20).length = 20 := by
  simp

def sampleEnv : SrpEnv where
  sha1 bs := ⟨(bs ++ List.replicate 20 0).take 20, length_first_twenty bs⟩
  pwDearmorsalt _ := some (1, [])
  pwGetint pwd _ _ := pwd.length
  minprimsize := 0

def sampleHash : SrpHash := ⟨List.replicate 20 7, rfl⟩

end SelfCertifyingFS.Crypt
