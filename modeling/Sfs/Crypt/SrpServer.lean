import Sfs.Crypt.SrpBase
import Sfs.Foundations.Runs

/-!
# The SRP server

`srp_server` of `crypt/srp.C` reads the registered parameters, salt and verifier
of the user, sends the first three, and then answers two messages of the client:
its public value and the proof that it knows the session secret. The random
numbers that the server draws are arguments of the calls.
-/

namespace SelfCertifyingFS.Crypt

open Foundations Rpc Option Int
open Run (start)

/-! ## The registered information -/

structure SrpInfo where
  N : ℤ
  g : ℤ
  salt : Bytes
  v : ℤ

/-- `[A-Za-z0-9+/]`. -/
def isA64 (b : UInt8) : Bool := isUpper b || isLower b || isDigit b || b == 0x2b || b == 0x2f

/-- `[\w\.\-]`. -/
def isHostByte (b : UInt8) : Bool :=
  isUpper b || isLower b || isDigit b || b == 0x5f || b == 0x2e || b == 0x2d

/-- The third group of `srpinforx`: a cost, an armored string and a host name. -/
def scanSalt (s : Bytes) : Option (Bytes × Bytes) := do
  let (cost, s) ← run1 isDigit s
  let s ← lit (ascii "$") s
  let (armor, s) ← run1 isA64 s
  let s3 := runMax 2 (· == 0x3d) s
  let s ← lit (ascii "$") s3.2
  let s4 := run isHostByte s
  some (cost ++ ascii "$" ++ armor ++ s3.1 ++ ascii "$" ++ s4.1, s4.2)

/-- `srpinforx`, with the numbers of its groups. The final anchor also matches
before a last newline. -/
def srpinforx (info : Bytes) : Option SrpInfo := do
  let s ← lit (ascii "SRP,N=0x") info
  let (N, s) ← run1 isXdigit s
  let s ← lit (ascii ",g=0x") s
  let (g, s) ← run1 isXdigit s
  let s ← lit (ascii ",s=") s
  let (salt, s) ← scanSalt s
  let s ← lit (ascii ",v=0x") s
  let (v, s) ← run1 isXdigit s
  if s = [] ∨ s = [0x0a] then some ⟨hexValue N, hexValue g, salt, hexValue v⟩ else none

theorem scanSalt_append {s salt r : Bytes} (h : scanSalt s = some (salt, r)) :
    s = salt ++ r ∧ 0 ∉ salt := by
  simp only [scanSalt, bind_eq_bind, bind_eq_some_iff, Prod.exists] at h
  obtain ⟨cost, s1, hcost, s2, hlit, armor, s3, harmor, s4, hlit', rfl, rfl⟩ := h
  obtain ⟨rfl, hcost0⟩ := eq_append_of_run1 hcost
  obtain rfl := eq_append_of_lit hlit
  obtain ⟨rfl, harmor0⟩ := eq_append_of_run1 harmor
  have hrest := eq_append_of_lit hlit'
  constructor
  · have h3 := runMax_append 2 (· == 0x3d) s3
    have h₄ := run_append isHostByte s4
    rw [hrest] at h3
    simp only [List.append_assoc, h₄, h3]
  · simp only [List.mem_append, not_or]
    refine ⟨⟨⟨⟨⟨?_, by decide⟩, ?_⟩, ?_⟩, by decide⟩, ?_⟩
    · intro h0
      exact absurd (hcost0 0 h0) (by decide)
    · intro h0
      exact absurd (harmor0 0 h0) (by decide)
    · intro h0
      exact absurd (mem_runMax h0) (by decide)
    · intro h0
      exact absurd (mem_run h0) (by decide)

/-- What the pattern guarantees of a text of this length. -/
structure InfoOk (i : SrpInfo) (len : ℕ) : Prop where
  N_nonneg : 0 ≤ i.N
  g_nonneg : 0 ≤ i.g
  v_nonneg : 0 ≤ i.v
  sixteen_le : 16 ≤ len
  N_lt : i.N.natAbs < 16 ^ (len - 16)
  salt_no_zero : 0 ∉ i.salt
  salt_le : i.salt.length ≤ len

theorem infoOk_of_srpinforx {info : Bytes} {i : SrpInfo} (h : srpinforx info = some i) :
    InfoOk i info.length := by
  simp only [srpinforx, bind_eq_bind, bind_eq_some_iff, Prod.exists] at h
  obtain ⟨s1, h1, N, s2, hN, s3, h3, g, s4, hg, s5, h5, salt, s6, hsalt, s7, h7, v, s8, hv, hend⟩ :=
    h
  obtain rfl := eq_append_of_lit h1
  obtain ⟨rfl, hNhex⟩ := eq_append_of_run1 hN
  obtain rfl := eq_append_of_lit h3
  obtain ⟨rfl, -⟩ := eq_append_of_run1 hg
  obtain rfl := eq_append_of_lit h5
  obtain ⟨rfl, hzero⟩ := scanSalt_append hsalt
  split_ifs at hend
  have hi := some.inj hend
  subst hi
  have hlits : (ascii "SRP,N=0x").length = 8 ∧ (ascii ",g=0x").length = 5 ∧
      (ascii ",s=").length = 3 := by decide
  have hlen : N.length + 16 + salt.length ≤ (ascii "SRP,N=0x" ++ (N ++ (ascii ",g=0x" ++
      (g ++ (ascii ",s=" ++ (salt ++ s6)))))).length := by
    simp only [List.length_append, hlits.2.2]
    omega
  have hsalt_le := (Nat.le_add_left salt.length (N.length + 16)).trans hlen
  refine ⟨natCast_nonneg _, natCast_nonneg _, natCast_nonneg _, by omega, ?_, hzero, hsalt_le⟩
  calc (hexValue N : ℤ).natAbs = hexValue N := natAbs_natCast _
    _ < 16 ^ N.length := hexValue_lt hNhex
    _ ≤ _ := Nat.pow_le_pow_right (by decide) (by omega)

theorem InfoOk.pair_fits {i : SrpInfo} {len : ℕ} (h : InfoOk i len) (hlen : len ≤ rpcInfinity) :
    MpzFits i.N ∧ 2 * (4 + pad4 (rawsize i.N)) ≤ rpcInfinity := by
  have hbits : nbits i.N ≤ 4 * (len - 16) := by
    refine nbits_le (h.N_lt.trans_eq ?_)
    rw [pow_mul]
    rfl
  have hraw : rawsize i.N ≤ nbits i.N / 8 + 1 := by
    unfold rawsize
    split_ifs <;> omega
  have hpad := pad4_lt (rawsize i.N)
  unfold rpcInfinity at *
  constructor
  · unfold MpzFits
    omega
  · omega

/-! ## The machine -/

structure SrpServer extends SrpBase where
  phase : ℤ
  v : ℤ
  b : ℤ
  u : ℤ

namespace SrpServer

variable (env : SrpEnv)

/-- `init`. A null text of information fails as the empty one does. -/
def init (prime : Bool) (c : ParamCache) (s : SrpServer) (msgin : Bytes) (sid : SrpHash)
    (uu : Bytes) (info : Bytes) (version : ℤ) : Option (SrpServer × ParamCache × SrpReply) :=
  let s := { s with k := srpK version }
  if msgin ≠ [] ∨ info = [] then some (s, c, .fail)
  else match srpinforx info with
    | none => some (s, c, .fail)
    | some i =>
      match checkparam env prime c i.N i.g 1 with
      | none => none
      | some (false, c) => some ({ s with N := 0, g := 0 }, c, .fail)
      | some (true, c) =>
          let s := { s with
            N := i.N, g := i.g, user := uu, salt := i.salt, sessid := sid, v := i.v }
          match xdr2bytes srpMsg1 (s.salt, s.N, s.g) with
          | none => some (s, c, .fail)
          | some m => some ({ s with phase := 2 }, c, ⟨.next, some m⟩)

variable (s : SrpServer)

/-- `phase2`, with the random numbers for `b` and `u`. -/
def phase2 (rb ru : ℕ) (msgin : Bytes) : Option (SrpServer × SrpReply) :=
  match bytes2xdr xdrMpz msgin with
  | none => some (s, .fail)
  | some A =>
      let s := { s with A := A }
      if A = 0 then some (s, .fail)
      else do
        let b ← randomZn s.N rb
        let p ← powm s.g b s.N
        let u ← randomZn s.N ru
        let s := { s with b := b, B := (s.k * s.v + p).tmod s.N, u := u }
        match xdr2bytes srpMsg3 (s.B, s.u) with
        | none => some (s, .fail)
        | some m => some ({ s with phase := 4 }, ⟨.next, some m⟩)

/-- The session secret as it depends on the verifier. -/
def secret (v : ℤ) : Option ℤ := do
  let p ← powm v s.u s.N
  powm (s.A * p) s.b s.N

def phase4 (msgin : Bytes) : Option (SrpServer × SrpReply) :=
  match bytes2xdr (xdrFixed 20) msgin with
  | none => some (s, .fail)
  | some m => do
      let S ← s.secret s.v
      let s := { s with toSrpBase := s.toSrpBase.setS env S }
      if m ≠ s.M then some (s, .fail)
      else match xdr2bytes (xdrFixed 20) s.H with
        | none => some (s, .fail)
        | some h => some (s, ⟨.last, some h⟩)

/-- A message of the client, and the random numbers of the call. -/
structure Call where
  rb : ℕ
  ru : ℕ
  msgin : Bytes

def next (c : Call) : Option (SrpServer × SrpReply) :=
  let ophase := s.phase
  let s := { s with phase := -1 }
  if ophase = 2 then s.phase2 c.rb c.ru c.msgin
  else if ophase = 4 then s.phase4 env c.msgin
  else some (s, .fail)

/-- A call on a server whose process may have been stopped. -/
def step (s : Option SrpServer) (c : Call) : Option SrpServer × Option SrpReply :=
  match s with
  | none => (none, none)
  | some s =>
      match s.next env c with
      | none => (none, none)
      | some (s, r) => (some s, some r)

/-! ## What the calls establish -/

/-- A server that has sent its parameters and waits for the client's value. -/
structure Ready (s : SrpServer) : Prop where
  phase_eq : s.phase = 2
  params : ParamsOk s.N s.g
  g_nonneg : 0 ≤ s.g
  v_nonneg : 0 ≤ s.v
  k_nonneg : 0 ≤ s.k
  fits : MpzFits s.N
  room : 2 * (4 + pad4 (rawsize s.N)) ≤ rpcInfinity
  salt_no_zero : 0 ∉ s.salt
  salt_le : s.salt.length ≤ rpcInfinity

variable {env} {s s' : SrpServer}

variable {prime : Bool} {c c' : ParamCache} {msgin uu info : Bytes} {sid : SrpHash} {version : ℤ}
  {r : SrpReply}

/-- The only way for `init` to succeed. -/
theorem init_next
    (h : init env prime c s msgin sid uu info version = some (s', c', r)) (hr : r.res = .next) :
    ∃ i, srpinforx info = some i ∧ checkparam env prime c i.N i.g 1 = some (true, c') ∧
      r.msgout = some (srpMsg1.put (i.salt, i.N, i.g)) ∧
      s' = { s with k := srpK version, N := i.N, g := i.g, user := uu, salt := i.salt,
                    sessid := sid, v := i.v, phase := 2 } := by
  unfold init at h
  split_ifs at h with hin
  · cases h
    cases hr
  cases hi : srpinforx info with
  | none =>
    simp only [hi] at h
    cases h
    cases hr
  | some i =>
    simp only [hi] at h
    refine ⟨i, rfl, ?_⟩
    cases hcheck : checkparam env prime c i.N i.g 1 with
    | none => simp [hcheck] at h
    | some p =>
      obtain ⟨ok, c1⟩ := p
      cases ok with
      | false =>
        simp only [hcheck] at h
        cases h
        cases hr
      | true =>
        simp only [hcheck, xdr2bytes] at h
        split_ifs at h with hlen
        · cases h
          cases hr
        · cases h
          exact ⟨rfl, rfl, rfl⟩

theorem ready_of_init
    (h : init env prime c s msgin sid uu info version = some (s', c', r)) (hr : r.res = .next)
    (hlen : info.length ≤ rpcInfinity) : s'.Ready := by
  obtain ⟨i, hi, hcheck, -, rfl⟩ := init_next h hr
  have hinfo := infoOk_of_srpinforx hi
  obtain ⟨hfits, hroom⟩ := hinfo.pair_fits hlen
  refine ⟨rfl, paramsOk_of_checkparam hcheck, hinfo.g_nonneg, hinfo.v_nonneg, ?_, hfits, hroom,
    hinfo.salt_no_zero, hinfo.salt_le.trans hlen⟩
  simp only [srpK]
  split_ifs <;> decide

def answered (s : SrpServer) (rb ru : ℕ) (A : ℤ) : SrpServer :=
  { s with
    A := A
    b := rb % s.N
    B := (s.k * s.v + s.g ^ (rb % s.N).toNat % s.N) % s.N
    u := ru % s.N
    phase := 4 }

theorem Ready.N_pos (hs : s.Ready) : 0 < s.N := by
  have hone := hs.params.one_lt
  omega

theorem Ready.fits_of_lt (hs : s.Ready) {z : ℤ} (h0 : 0 ≤ z) (hz : z < s.N) :
    MpzFits z ∧ (xdrMpz.put z).length ≤ 4 + pad4 (rawsize s.N) := by
  have hle : z.natAbs ≤ s.N.natAbs := by omega
  have hfits := hs.fits.mono hle
  have hpad := pad4_mono (rawsize_mono hle)
  rw [length_xdrMpz_put hfits]
  exact ⟨hfits, by omega⟩

theorem Ready.next_phase2 (hs : s.Ready) {m : Bytes} {A : ℤ} (hm : bytes2xdr xdrMpz m = some A)
    (hA : A ≠ 0) (rb ru : ℕ) :
    s.next env ⟨rb, ru, m⟩ = some (s.answered rb ru A,
      ⟨.next, some (srpMsg3.put ((s.answered rb ru A).B, (s.answered rb ru A).u))⟩) := by
  have hN := hs.N_pos
  have hsum : 0 ≤ s.k * s.v + s.g ^ (rb % s.N).toNat % s.N :=
    add_nonneg (mul_nonneg hs.k_nonneg hs.v_nonneg) (emod_nonneg _ hN.ne')
  have hB := hs.fits_of_lt (emod_nonneg (s.k * s.v + s.g ^ (rb % s.N).toNat % s.N) hN.ne')
    (emod_lt_of_pos _ hN)
  have hu := hs.fits_of_lt (emod_nonneg ru hN.ne') (emod_lt_of_pos _ hN)
  have hlen : (srpMsg3.put ((s.k * s.v + s.g ^ (rb % s.N).toNat % s.N) % s.N,
      ru % s.N)).length ≤ rpcInfinity := by
    have hroom := hs.room
    simp only [srpMsg3, Wire.pair, List.length_append]
    omega
  simp only [next, hs.phase_eq, phase2, hm, if_neg hA, randomZn_of_pos hN,
    powm_of_pos hN (emod_nonneg rb hN.ne'), tmod_eq_emod_of_nonneg hsum,
    xdr2bytes_of_length_le hlen, bind_eq_bind, bind_some]
  rfl

/-! ## The session secret -/

theorem secret_eq (hN : 0 < s.N) (hb : 0 ≤ s.b) (hu : 0 ≤ s.u) (v : ℤ) :
    s.secret v = some ((s.A * v ^ s.u.toNat) ^ s.b.toNat % s.N) := by
  have hmod : (s.A * (v ^ s.u.toNat % s.N)) ^ s.b.toNat ≡ (s.A * v ^ s.u.toNat) ^ s.b.toNat
      [ZMOD s.N] := ((mod_modEq _ _).mul_left _).pow _
  rw [secret, powm_of_pos hN hu, bind_eq_bind, bind_some, powm_of_pos hN hb]
  exact congrArg some hmod

/-- The secret depends on the verifier unless an exponent is zero or the power of
the client's value vanishes. -/
theorem secret_constant_iff (hN : 0 < s.N) (hb : 0 ≤ s.b) (hu : 0 ≤ s.u) :
    (∃ c, ∀ v, s.secret v = c) ↔ s.b = 0 ∨ s.u = 0 ∨ s.N ∣ s.A ^ s.b.toNat := by
  constructor
  · rintro ⟨c, hc⟩
    by_contra hno
    obtain ⟨hb0, hu0, hdvd⟩ : s.b ≠ 0 ∧ s.u ≠ 0 ∧ ¬s.N ∣ s.A ^ s.b.toNat := by
      simpa only [not_or] using hno
    have hzero := (hc 0).trans (hc 1).symm
    have hbn : s.b.toNat ≠ 0 := by omega
    have hun : s.u.toNat ≠ 0 := by omega
    simp only [secret_eq hN hb hu, zero_pow hun, mul_zero, zero_pow hbn, one_pow, mul_one,
      Option.some.injEq] at hzero
    exact hdvd (dvd_of_emod_eq_zero hzero.symm)
  · rintro (h0 | h0 | hdvd)
    · refine ⟨some (1 % s.N), fun v => ?_⟩
      rw [secret_eq hN hb hu, h0, toNat_zero, pow_zero]
    · refine ⟨some (s.A ^ s.b.toNat % s.N), fun v => ?_⟩
      rw [secret_eq hN hb hu, h0, toNat_zero, pow_zero, mul_one]
    · refine ⟨some 0, fun v => ?_⟩
      rw [secret_eq hN hb hu, mul_pow, emod_eq_zero_of_dvd (hdvd.mul_right _)]

variable (env) in
theorem next_phase4 (hphase : s.phase = 4) {S : ℤ} (hS : s.secret s.v = some S) {m : Bytes}
    {M : SrpHash} (hm : bytes2xdr (xdrFixed 20) m = some M) (rb ru : ℕ) :
    s.next env ⟨rb, ru, m⟩ =
      if M ≠ (s.toSrpBase.setS env S).M then
        some ({ s with toSrpBase := s.toSrpBase.setS env S, phase := -1 }, .fail)
      else
        some ({ s with toSrpBase := s.toSrpBase.setS env S, phase := -1 },
          ⟨.last, some ((xdrFixed 20).put (s.toSrpBase.setS env S).H)⟩) := by
  have hS' : ({ s with phase := -1 } : SrpServer).secret s.v = some S := hS
  have hlen : ((xdrFixed 20).put (s.toSrpBase.setS env S).H).length ≤ rpcInfinity := by
    simp only [xdrFixed, length_padded, (s.toSrpBase.setS env S).H.2]
    decide
  simp only [next, hphase, phase4, hm, hS', bind_eq_bind, bind_some, xdr2bytes_of_length_le hlen]
  rfl

/-! ## Runs -/

abbrev ServerRun := Run (Option SrpServer) Call (Option SrpReply)

/-- The process has stopped, or the server is in no phase. -/
def Dead (r : ServerRun) : Prop := ∀ s ∈ r.state, s.phase = -1

def AcceptsNext (env : SrpEnv) (r : ServerRun) (c : Call) : Prop :=
  ∃ reply ∈ (step env r.state c).2, reply.res = .last

variable {r : ServerRun}

theorem phase_phase4 {m : Bytes} {reply : SrpReply} (h : s.phase4 env m = some (s', reply)) :
    s'.phase = s.phase := by
  unfold phase4 at h
  cases hm : bytes2xdr (xdrFixed 20) m with
  | none =>
    simp only [hm] at h
    cases h
    rfl
  | some M =>
    simp only [hm, bind_eq_bind, bind_eq_some_iff] at h
    obtain ⟨S, -, h⟩ := h
    split_ifs at h
    · cases h
      rfl
    · split at h <;> cases h <;> rfl

/-- Outside phase 2 every call leaves the server in no phase, and only phase 4
can succeed. -/
theorem phase_of_next {c : Call} {reply : SrpReply} (h2 : s.phase ≠ 2)
    (h : s.next env c = some (s', reply)) : s'.phase = -1 ∧ (s.phase ≠ 4 → reply.res ≠ .last) := by
  by_cases h4 : s.phase = 4
  · simp only [next, h4] at h
    exact ⟨phase_phase4 h, absurd h4⟩
  · simp only [next, if_neg h2, if_neg h4] at h
    obtain ⟨rfl, rfl⟩ := h
    exact ⟨rfl, fun _ hlast => by cases hlast⟩

theorem dead_of_phase_ne (hr : ∀ s ∈ r.state, s.phase ≠ 2) (c : Call) :
    Dead (r.next (step env) c) := by
  intro s' hs'
  cases hstate : r.state with
  | none => simp [Run.next, step, hstate] at hs'
  | some s =>
    cases hnext : s.next env c with
    | none => simp [Run.next, step, hstate, hnext] at hs'
    | some p =>
      simp only [Run.next, step, hstate, hnext, mem_some_iff] at hs'
      subst hs'
      exact (phase_of_next (hr s hstate) hnext).1

theorem Dead.not_acceptsNext (hr : Dead r) (c : Call) : ¬AcceptsNext env r c := by
  rintro ⟨reply, hreply, hlast⟩
  cases hstate : r.state with
  | none => simp [step, hstate] at hreply
  | some s =>
    cases hnext : s.next env c with
    | none => simp [step, hstate, hnext] at hreply
    | some p =>
      simp only [step, hstate, hnext, mem_some_iff] at hreply
      subst hreply
      have hphase := hr s hstate
      exact (phase_of_next (by omega) hnext).2 (by omega) hlast

theorem Dead.take (hr : Dead r) (calls : List Call) : Dead (r.take (step env) calls) := by
  refine Run.invariant hr (fun r c hr => ?_) calls
  refine dead_of_phase_ne (fun s hs => ?_) c
  have hphase := hr s hs
  omega

/-! ## Public values that vanish -/

/-- The property of a client's first call: a value that vanishes modulo `N` is
refused for good, and no later call succeeds with a secret that does not depend
on the verifier. -/
structure RefusesZero (env : SrpEnv) (s : SrpServer) (c : Call) : Prop where
  zero : ∀ A, bytes2xdr xdrMpz c.msgin = some A → s.N ∣ A →
    (step env (some s) c).2 = some .fail ∧
      ∀ calls c', ¬AcceptsNext env ((start (some s)).take (step env) (c :: calls)) c'
  secret : ∀ calls c', AcceptsNext env ((start (some s)).take (step env) (c :: calls)) c' →
    ∀ s' ∈ ((start (some s)).take (step env) (c :: calls)).state, ¬∃ S, ∀ v, s'.secret v = S

/-- The client's value is zero, or its power does not vanish and neither random
exponent is zero. -/
def UsableKey (s : SrpServer) (c : Call) : Prop :=
  ∀ A, bytes2xdr xdrMpz c.msgin = some A →
    A = 0 ∨ (c.rb : ℤ) % s.N ≠ 0 ∧ (c.ru : ℤ) % s.N ≠ 0 ∧ ¬s.N ∣ A ^ ((c.rb : ℤ) % s.N).toNat

variable (env) in
theorem Ready.step_fail (hs : s.Ready) {c : Call}
    (h : ∀ A, bytes2xdr xdrMpz c.msgin = some A → A = 0) :
    (step env (some s) c).2 = some .fail ∧ Dead ((start (some s)).next (step env) c) := by
  have hnext : ∃ s', s.next env c = some (s', .fail) ∧ s'.phase = -1 := by
    simp only [next, hs.phase_eq, phase2]
    cases hm : bytes2xdr xdrMpz c.msgin with
    | none => exact ⟨_, rfl, rfl⟩
    | some A =>
      simp only [if_pos (h A hm)]
      exact ⟨_, rfl, rfl⟩
  obtain ⟨s', hnext, hphase⟩ := hnext
  refine ⟨by simp only [step, hnext], fun s1 hs1 => ?_⟩
  simp only [Run.next, start, step, hnext, mem_some_iff] at hs1
  rw [← hs1, hphase]

variable (env) in
theorem Ready.state_answered (hs : s.Ready) {c : Call} {A : ℤ}
    (hm : bytes2xdr xdrMpz c.msgin = some A) (hA : A ≠ 0) :
    ((start (some s)).next (step env) c).state = some (s.answered c.rb c.ru A) := by
  have hnext : s.next env c = _ := hs.next_phase2 hm hA c.rb c.ru
  simp only [Run.next, start, step, hnext]

theorem Ready.constant_answered_iff (hs : s.Ready) (rb ru : ℕ) (A : ℤ) :
    (∃ S, ∀ v, (s.answered rb ru A).secret v = S) ↔
      (rb : ℤ) % s.N = 0 ∨ (ru : ℤ) % s.N = 0 ∨ s.N ∣ A ^ ((rb : ℤ) % s.N).toNat :=
  secret_constant_iff hs.N_pos (emod_nonneg _ hs.N_pos.ne') (emod_nonneg _ hs.N_pos.ne')

variable (env) in
theorem Ready.exists_acceptsNext (hs : s.Ready) (rb ru : ℕ) (A : ℤ)
    (hr : r.state = some (s.answered rb ru A)) : ∃ c', AcceptsNext env r c' := by
  have hphase : (s.answered rb ru A).phase = 4 := rfl
  obtain ⟨S, hS⟩ : ∃ S, (s.answered rb ru A).secret (s.answered rb ru A).v = some S :=
    ⟨_, secret_eq (s := s.answered rb ru A) hs.N_pos (emod_nonneg _ hs.N_pos.ne')
      (emod_nonneg _ hs.N_pos.ne') _⟩
  generalize s.answered rb ru A = s1 at *
  have hm := bytes2xdr_put (xdrFixed_carries (s1.toSrpBase.setS env S).M)
  have hnext := next_phase4 env hphase hS hm 0 0
  rw [if_neg (not_not.mpr rfl)] at hnext
  refine ⟨⟨0, 0, (xdrFixed 20).put (s1.toSrpBase.setS env S).M⟩,
    ⟨.last, some ((xdrFixed 20).put (s1.toSrpBase.setS env S).H)⟩, ?_, rfl⟩
  simp only [step, hr, hnext, mem_some_iff]

theorem Ready.refusesZero_iff (hs : s.Ready) (c : Call) : RefusesZero env s c ↔ UsableKey s c := by
  constructor
  · intro h A hm
    by_cases hA : A = 0
    · exact .inl hA
    have hstate := hs.state_answered env hm hA
    obtain ⟨c', hc'⟩ := hs.exists_acceptsNext env c.rb c.ru A hstate
    have hvaries := h.secret [] c' hc' _ hstate
    rw [hs.constant_answered_iff] at hvaries
    simp only [not_or] at hvaries
    exact .inr hvaries
  · intro h
    by_cases hfail : ∀ A, bytes2xdr xdrMpz c.msgin = some A → A = 0
    · obtain ⟨hreply, hdead⟩ := hs.step_fail env hfail
      have hnever : ∀ calls c',
          ¬AcceptsNext env ((start (some s)).take (step env) (c :: calls)) c' :=
        fun calls c' => (hdead.take calls).not_acceptsNext c'
      exact ⟨fun _ _ _ => ⟨hreply, hnever⟩, fun calls c' hc' => absurd hc' (hnever calls c')⟩
    · push Not at hfail
      obtain ⟨A, hm, hA⟩ := hfail
      have hstate := hs.state_answered env hm hA
      obtain ⟨hb, hu, hdvd⟩ := (h A hm).resolve_left hA
      refine ⟨fun A' hm' hdvd' => ?_, fun calls c' hc' => ?_⟩
      · -- a vanishing value has a vanishing power
        obtain rfl : A = A' := some.inj (hm.symm.trans hm')
        refine absurd (dvd_pow hdvd' ?_) hdvd
        have hnonneg := emod_nonneg c.rb hs.N_pos.ne'
        omega
      · cases calls with
        | nil =>
          intro s' hs'
          rw [Run.take_cons, Run.take_nil, hstate, mem_some_iff] at hs'
          rw [← hs', hs.constant_answered_iff, not_or, not_or]
          exact ⟨hb, hu, hdvd⟩
        | cons c1 calls =>
          -- phase 4 is left by the second call, whatever it answers
          have hdead : Dead (((start (some s)).next (step env) c).next (step env) c1) := by
            refine dead_of_phase_ne (fun s' hs' => ?_) c1
            rw [hstate, mem_some_iff] at hs'
            rw [← hs']
            exact (by decide : (4 : ℤ) ≠ 2)
          exact absurd hc' ((hdead.take calls).not_acceptsNext c')

/-- A server whose `init` has succeeded refuses public values that vanish, and
never accepts with a secret independent of the verifier, exactly for usable keys. -/
theorem refuses_zero_iff_usable {prime : Bool} {p p' : ParamCache} {s0 s : SrpServer}
    {msgin uu info : Bytes} {sid : SrpHash} {version : ℤ} {reply : SrpReply}
    (hlen : info.length ≤ rpcInfinity)
    (hinit : init env prime p s0 msgin sid uu info version = some (s, p', reply))
    (hnext : reply.res = .next) (c : Call) : RefusesZero env s c ↔ UsableKey s c :=
  (ready_of_init hinit hnext hlen).refusesZero_iff c

def blank : SrpServer :=
  ⟨⟨[], 0, 0, sampleHash, sampleHash, 1, sampleHash, [], 0, 0, 0⟩, -1, 0, 0, 0⟩

def sampleInfo : Bytes := ascii "SRP,N=0x17,g=0x5,s=1$AAAA$h,v=0x4"

/-- The state that `init` reaches on this information. -/
def sampleServer : SrpServer :=
  { blank with k := 3, N := 23, g := 5, user := ascii "u", salt := ascii "1$AAAA$h", v := 4,
               phase := 2 }

theorem init_sample : ∃ p reply, init sampleEnv true .start blank [] sampleHash (ascii "u")
    sampleInfo 6 = some (sampleServer, p, reply) ∧ reply.res = .next :=
  ⟨_, _, rfl, rfl⟩

theorem refuses_zero_iff_usable_two :
    RefusesZero sampleEnv sampleServer ⟨3, 5, xdrMpz.put 2⟩ ↔
      UsableKey sampleServer ⟨3, 5, xdrMpz.put 2⟩ := by
  obtain ⟨p, reply, hinit, hnext⟩ := init_sample
  exact refuses_zero_iff_usable (by decide) hinit hnext _

/-- The modulus itself is accepted as a public value; the secret is then zero for
every verifier. -/
theorem modulus_accepted_as_public_value :
    (∃ p reply, init sampleEnv true .start blank [] sampleHash (ascii "u") sampleInfo 6 =
      some (sampleServer, p, reply) ∧ reply.res = .next) ∧
    ¬RefusesZero sampleEnv sampleServer ⟨3, 5, xdrMpz.put 23⟩ := by
  refine ⟨init_sample, fun h => ?_⟩
  obtain ⟨p, reply, hinit, hnext⟩ := init_sample
  have hready := ready_of_init hinit hnext (by decide)
  have hm : bytes2xdr xdrMpz (xdrMpz.put 23) = some 23 := by decide
  have hreply := (h.zero 23 hm (by decide)).1
  have haccept : next sampleEnv _ _ = _ := hready.next_phase2 hm (by decide) 3 5
  simp [step, haccept, SrpReply.fail] at hreply

end SrpServer

end SelfCertifyingFS.Crypt
