import Sfs.Crypt.SrpBase
import Sfs.Foundations.Runs

/-!
# The SRP client

`srp_client` of `crypt/srp.C` receives the group parameters from the server. It
remembers the pair it has used last and checks a pair only if it differs from the
remembered one; a rejected pair is forgotten. An object may be used for several
sessions; the cache of checked moduli is shared with the rest of the process.
-/

namespace SelfCertifyingFS.Crypt

open Foundations Rpc Option

structure SrpClient extends SrpBase where
  phase : ℤ
  x : ℤ
  a : ℤ
  pwd : Option Bytes
  host : Option Bytes
  hostOk : Bool
  cost : ℕ

/-- The reply of a call, the pair that it has had accepted by `checkparam`, and
whether it has computed the public value `A`. -/
structure ClientOut where
  reply : SrpReply
  accepted : Option (ℤ × ℤ)
  computed : Bool
  deriving DecidableEq

/-- A client and the static cache. -/
structure ClientProc where
  client : SrpClient
  cache : ParamCache

namespace SrpClient

variable (env : SrpEnv)

def init (s : SrpClient) (sid : SrpHash) (uu : Bytes) (pp : Option Bytes) (version : ℤ) :
    SrpClient × SrpReply :=
  ({ s with
      k := srpK version, user := uu, pwd := pp, host := none, hostOk := false, sessid := sid,
      phase := 1 },
    ⟨.next, some []⟩)

/-- `N.nbits () - 1` as a `size_t`. -/
def pwBits (N : ℤ) : ℕ := if nbits N = 0 then 2 ^ 64 - 1 else nbits N - 1

/-- `phase1b`, with the random number for `a`. A null password stops the process
when it is hashed. -/
def phase1b (s : SrpClient) (ra : ℕ) : Option (SrpClient × SrpReply) := do
  let pwd ← s.pwd
  let s := { s with x := env.pwGetint pwd s.salt (pwBits s.N), pwd := none }
  let a ← randomZn s.N ra
  let A ← powm s.g a s.N
  let s := { s with a := a, A := A }
  match xdr2bytes xdrMpz A with
  | none => some (s, .fail)
  | some m => some ({ s with phase := 3 }, ⟨.next, some m⟩)

/-- The test at the head of `phase1a`: a pair other than the remembered one is
stored and checked, and both numbers are reset to zero if the check fails. The
first component says whether to go on. -/
def adopt (prime : Bool) (p : ClientProc) (N g : ℤ) :
    Option (Bool × ClientProc × Option (ℤ × ℤ)) :=
  let s := p.client
  if N ≠ s.N ∨ g ≠ s.g then
    match checkparam env prime p.cache N g 32 with
    | none => none
    | some (false, c) => some (false, ⟨{ s with N := 0, g := 0 }, c⟩, none)
    | some (true, c) => some (true, ⟨{ s with N := N, g := g }, c⟩, some (N, g))
  else some (true, p, none)

/-- The rest of `phase1a`, for the pair accepted in this call if there is one. -/
def useSalt (p : ClientProc) (accepted : Option (ℤ × ℤ)) (ra : ℕ) (salt : Bytes) :
    Option (ClientProc × ClientOut) :=
  let s := { p.client with salt := salt }
  match env.pwDearmorsalt salt with
  | none => some (⟨s, p.cache⟩, ⟨.fail, accepted, false⟩)
  | some (cost, host) =>
      let s := { s with cost := cost, host := some host }
      if s.pwd = none then
        some (⟨{ s with phase := 0x1b }, p.cache⟩, ⟨⟨.setpwd, none⟩, accepted, false⟩)
      else
        (s.phase1b env ra).map fun o => (⟨o.1, p.cache⟩, ⟨o.2, accepted, true⟩)

def phase1a (prime : Bool) (p : ClientProc) (ra : ℕ) (msgin : Bytes) :
    Option (ClientProc × ClientOut) :=
  match bytes2xdr srpMsg1 msgin with
  | none => some (p, ⟨.fail, none, false⟩)
  | some (salt, N, g) =>
      match adopt env prime p N g with
      | none => none
      | some (false, p, accepted) => some (p, ⟨.fail, accepted, false⟩)
      | some (true, p, accepted) => useSalt env p accepted ra salt

variable (s : SrpClient)

def secret (B u : ℤ) : Option ℤ := do
  let p ← powm s.g s.x s.N
  powm (B - s.k * p) (s.a + u * s.x) s.N

def phase3 (msgin : Bytes) : Option (SrpClient × SrpReply) :=
  match bytes2xdr srpMsg3 msgin with
  | none => some (s, .fail)
  | some (B, u) =>
      if B = 0 ∨ u = 0 then some (s, .fail)
      else do
        let s := { s with B := B }
        let S ← s.secret B u
        let s := { s with toSrpBase := s.toSrpBase.setS env S }
        match xdr2bytes (xdrFixed 20) s.M with
        | none => some (s, .fail)
        | some m => some ({ s with phase := 5 }, ⟨.next, some m⟩)

def phase5 (msgin : Bytes) : SrpClient × SrpReply :=
  match bytes2xdr (xdrFixed 20) msgin with
  | none => (s, .fail)
  | some m => if m ≠ s.H then (s, .fail) else ({ s with hostOk := true }, ⟨.done, none⟩)

/-- `next`, with the answer of a primality test and the random number for `a`. -/
def next (prime : Bool) (p : ClientProc) (ra : ℕ) (msgin : Bytes) :
    Option (ClientProc × ClientOut) :=
  let ophase := p.client.phase
  let s := { p.client with phase := -1 }
  if ophase = 1 then phase1a env prime ⟨s, p.cache⟩ ra msgin
  else if ophase = 0x1b then
    (s.phase1b env ra).map fun o => (⟨o.1, p.cache⟩, ⟨o.2, none, true⟩)
  else if ophase = 3 then
    (s.phase3 env msgin).map fun o => (⟨o.1, p.cache⟩, ⟨o.2, none, false⟩)
  else if ophase = 5 then
    let o := s.phase5 msgin
    some (⟨o.1, p.cache⟩, ⟨o.2, none, false⟩)
  else some (⟨s, p.cache⟩, ⟨.fail, none, false⟩)

end SrpClient

/-- What may happen to a client. Other objects change the cache as they like. -/
inductive ClientOp
  | init (sid : SrpHash) (uu : Bytes) (pp : Option Bytes) (version : ℤ)
  | setpwd (pp : Option Bytes)
  | next (prime : Bool) (ra : ℕ) (msgin : Bytes)
  | others (c : ParamCache)

/-- One event; nothing happens once the process has stopped. -/
def ClientProc.step (env : SrpEnv) (p : Option ClientProc) (op : ClientOp) :
    Option ClientProc × Option ClientOut :=
  match p, op with
  | none, _ => (none, none)
  | some p, .init sid uu pp version =>
      let o := p.client.init sid uu pp version
      (some ⟨o.1, p.cache⟩, some ⟨o.2, none, false⟩)
  | some p, .setpwd pp => (some ⟨{ p.client with pwd := pp }, p.cache⟩, none)
  | some p, .next prime ra msgin =>
      match SrpClient.next env prime p ra msgin with
      | none => (none, none)
      | some (p, out) => (some p, some out)
  | some p, .others c => (some ⟨p.client, c⟩, none)

/-! ## Parameters along a run -/

abbrev ClientRun := Run (Option ClientProc) ClientOp (Option ClientOut)

/-- The pairs that `checkparam` has accepted from this client so far. -/
def acceptedPairs (past : List (ClientOp × Option ClientOut)) : List (ℤ × ℤ) :=
  past.filterMap fun e => e.2.bind ClientOut.accepted

def SrpClient.pair (s : SrpClient) : ℤ × ℤ := (s.N, s.g)

/-- The client gets past phase 1: it asks for the password or computes `A`. -/
def ClientOut.Proceeds (out : ClientOut) : Prop := out.reply.res = .setpwd ∨ out.computed = true

variable (env : SrpEnv) (r : ClientRun)

/-- The property of one event: a client that gets past phase 1 uses a pair that
has been accepted. -/
def UsesAccepted (op : ClientOp) : Prop :=
  ∀ p ∈ (r.next (ClientProc.step env) op).state, ∀ out ∈ (ClientProc.step env r.state op).2,
    out.Proceeds → p.client.pair ∈ acceptedPairs (r.next (ClientProc.step env) op).past

/-- No parameter message with a valid salt carries the pair of zeros while the
client remembers this pair. -/
def NoZeroPair : ClientOp → Prop
  | .next _ _ msgin => ∀ p ∈ r.state, p.client.phase = 1 → p.client.pair = (0, 0) →
      ∀ salt, bytes2xdr srpMsg1 msgin = some (salt, 0, 0) → env.pwDearmorsalt salt = none
  | _ => True

namespace SrpClient

variable {env : SrpEnv} {ra : ℕ} {m : Bytes} {prime : Bool} {p p' : ClientProc} {out : ClientOut}
  {s s' : SrpClient} {reply : SrpReply}

theorem phase1b_spec (h : s.phase1b env ra = some (s', reply)) :
    s'.pair = s.pair ∧ (s'.phase = s.phase ∨ s'.phase = 3) ∧ reply.res ≠ .setpwd := by
  simp only [phase1b, bind_eq_bind, bind_eq_some_iff] at h
  obtain ⟨pwd, -, a, -, A, -, h⟩ := h
  split at h <;> cases h
  · exact ⟨rfl, .inl rfl, nofun⟩
  · exact ⟨rfl, .inr rfl, nofun⟩

theorem phase3_spec (h : s.phase3 env m = some (s', reply)) :
    s'.pair = s.pair ∧ (s'.phase = s.phase ∨ s'.phase = 5) ∧ reply.res ≠ .setpwd := by
  unfold phase3 at h
  split at h
  · cases h
    exact ⟨rfl, .inl rfl, nofun⟩
  · split_ifs at h
    · cases h
      exact ⟨rfl, .inl rfl, nofun⟩
    · simp only [bind_eq_bind, bind_eq_some_iff] at h
      obtain ⟨S, -, h⟩ := h
      split at h <;> cases h
      · exact ⟨rfl, .inl rfl, nofun⟩
      · exact ⟨rfl, .inr rfl, nofun⟩

theorem phase5_spec (s : SrpClient) (m : Bytes) :
    (s.phase5 m).1.pair = s.pair ∧ (s.phase5 m).1.phase = s.phase ∧
      (s.phase5 m).2.res ≠ .setpwd := by
  unfold phase5
  split
  · exact ⟨rfl, rfl, nofun⟩
  · split_ifs
    · exact ⟨rfl, rfl, nofun⟩
    · exact ⟨rfl, rfl, nofun⟩

/-- What a call does to the remembered pair. -/
inductive PairStep (env : SrpEnv) (s : SrpClient) (m : Bytes) (s' : SrpClient) (out : ClientOut) :
    Prop
  /-- It is kept; the client proceeds only if it was waiting for the password, or
  if the message repeats the pair. -/
  | kept (hpair : s'.pair = s.pair) (hout : out.accepted = none)
      (hwhy : s'.phase = 0x1b ∨ out.Proceeds → s.phase = 0x1b ∨ s.phase = 1 ∧
        ∃ salt, bytes2xdr srpMsg1 m = some (salt, s.N, s.g) ∧ env.pwDearmorsalt salt ≠ none)
  | accepted (hout : out.accepted = some s'.pair)
  | rejected (hpair : s'.pair = (0, 0)) (hout : out.accepted = none) (hphase : s'.phase ≠ 0x1b)
      (hstop : ¬out.Proceeds)

theorem adopt_cases {ok : Bool} {N g : ℤ} {acc : Option (ℤ × ℤ)}
    (h : adopt env prime p N g = some (ok, p', acc)) :
    p'.client.phase = p.client.phase ∧
    (ok = true ∧ p' = p ∧ acc = none ∧ N = p.client.N ∧ g = p.client.g ∨
      ok = true ∧ acc = some p'.client.pair ∨
      ok = false ∧ acc = none ∧ p'.client.pair = (0, 0)) := by
  simp only [adopt] at h
  split_ifs at h with hne
  · split at h <;> cases h
    · exact ⟨rfl, .inr (.inr ⟨rfl, rfl, rfl⟩)⟩
    · exact ⟨rfl, .inr (.inl ⟨rfl, rfl⟩)⟩
  · cases h
    rw [not_or, not_not, not_not] at hne
    exact ⟨rfl, .inl ⟨rfl, rfl, rfl, hne⟩⟩

theorem useSalt_spec {acc : Option (ℤ × ℤ)} {salt : Bytes} (hphase : p.client.phase = -1)
    (h : useSalt env p acc ra salt = some (p', out)) :
    p'.client.pair = p.client.pair ∧ out.accepted = acc ∧
      (p'.client.phase = 0x1b ∨ out.Proceeds → env.pwDearmorsalt salt ≠ none) := by
  simp only [useSalt] at h
  cases hsalt : env.pwDearmorsalt salt with
  | none =>
    simp only [hsalt] at h
    cases h
    refine ⟨rfl, rfl, ?_⟩
    rintro (hwait | hres | hcomp)
    · rw [hphase] at hwait
      cases hwait
    · cases hres
    · cases hcomp
  | some ch =>
    simp only [hsalt] at h
    split_ifs at h
    · cases h
      exact ⟨rfl, rfl, nofun⟩
    · obtain ⟨o, ho, hout⟩ := map_eq_some_iff.mp h
      cases hout
      exact ⟨(phase1b_spec ho).1, rfl, nofun⟩

theorem phase1a_pairStep (hphase : p.client.phase = -1)
    (h : phase1a env prime p ra m = some (p', out)) :
    PairStep env { p.client with phase := 1 } m p'.client out := by
  unfold phase1a at h
  cases hm : bytes2xdr srpMsg1 m with
  | none =>
    simp only [hm] at h
    cases h
    refine .kept rfl rfl ?_
    rintro (hwait | hres | hcomp)
    · rw [hphase] at hwait
      cases hwait
    · cases hres
    · cases hcomp
  | some msg =>
    obtain ⟨salt, N, g⟩ := msg
    simp only [hm] at h
    cases hadopt : adopt env prime p N g with
    | none => simp [hadopt] at h
    | some res =>
      obtain ⟨ok, p1, acc⟩ := res
      obtain ⟨hph, ⟨rfl, rfl, rfl, rfl, rfl⟩ | ⟨rfl, rfl⟩ | ⟨rfl, rfl, hzero⟩⟩ := adopt_cases hadopt
      · simp only [hadopt] at h
        obtain ⟨hpair, hacc, hgo⟩ := useSalt_spec hphase h
        exact .kept hpair hacc fun hwhy => .inr ⟨rfl, salt, hm, hgo hwhy⟩
      · simp only [hadopt] at h
        obtain ⟨hpair, hacc, -⟩ := useSalt_spec (hph.trans hphase) h
        exact .accepted (by rw [hacc, hpair])
      · simp only [hadopt] at h
        cases h
        refine .rejected hzero rfl ?_ nofun
        rw [hph, hphase]
        decide

theorem next_pairStep (h : next env prime p ra m = some (p', out)) :
    PairStep env p.client m p'.client out := by
  simp only [next] at h
  split_ifs at h with h1 h1b h3 h5
  · have hstep := phase1a_pairStep rfl h
    simpa only [← h1] using hstep
  · obtain ⟨o, ho, hout⟩ := map_eq_some_iff.mp h
    cases hout
    exact .kept (phase1b_spec ho).1 rfl fun _ => .inl h1b
  · obtain ⟨o, ho, hout⟩ := map_eq_some_iff.mp h
    cases hout
    obtain ⟨hpair, hph, hres⟩ := phase3_spec ho
    refine .kept hpair rfl ?_
    rintro (hwait | hset | hcomp)
    · rcases hph with hph | hph <;> rw [hph] at hwait <;> cases hwait
    · exact absurd hset hres
    · cases hcomp
  · obtain ⟨hpair, hph, hres⟩ := phase5_spec { p.client with phase := -1 } m
    cases h
    refine .kept hpair rfl ?_
    rintro (hwait | hset | hcomp)
    · rw [hph] at hwait
      cases hwait
    · exact absurd hset hres
    · cases hcomp
  · cases h
    exact .kept rfl rfl nofun

end SrpClient

/-! ## The invariant of the remembered pair -/

variable {env : SrpEnv}

/-- The remembered pair is the pair of zeros or has been accepted, and it has
been accepted if the client waits for the password. -/
structure PairVetted (r : ClientRun) : Prop where
  pair : ∀ p ∈ r.state, p.client.pair = (0, 0) ∨ p.client.pair ∈ acceptedPairs r.past
  waiting : ∀ p ∈ r.state, p.client.phase = 0x1b → p.client.pair ∈ acceptedPairs r.past

theorem mem_acceptedPairs_cons {past : List (ClientOp × Option ClientOut)} {pr : ℤ × ℤ}
    (h : pr ∈ acceptedPairs past) (e : ClientOp × Option ClientOut) :
    pr ∈ acceptedPairs (e :: past) := by
  unfold acceptedPairs at *
  rw [List.filterMap_cons]
  split
  · exact h
  · exact List.mem_cons_of_mem _ h

/-- What a step of the client gives for the invariant and for the property. -/
theorem PairVetted.next_of_pairStep {r : ClientRun} (hr : PairVetted r) {p p' : ClientProc}
    (hp : r.state = some p) {prime : Bool} {ra : ℕ} {m : Bytes} {out : ClientOut}
    (hguard : NoZeroPair env r (.next prime ra m))
    (hstep : SrpClient.PairStep env p.client m p'.client out) :
    (p'.client.pair = (0, 0) ∨
      p'.client.pair ∈ acceptedPairs ((.next prime ra m, some out) :: r.past)) ∧
    (p'.client.phase = 0x1b ∨ out.Proceeds →
      p'.client.pair ∈ acceptedPairs ((.next prime ra m, some out) :: r.past)) := by
  cases hstep with
  | kept hpair hout hwhy =>
    rw [hpair]
    refine ⟨(hr.pair p hp).imp_right fun h => mem_acceptedPairs_cons h _, fun hgo => ?_⟩
    rcases hwhy hgo with hwait | ⟨hphase, salt, hm, hsalt⟩
    · exact mem_acceptedPairs_cons (hr.waiting p hp hwait) _
    · rcases hr.pair p hp with hzero | hmem
      · -- the repeated pair is the pair of zeros, which the condition excludes
        obtain ⟨hN, hg⟩ := Prod.mk.inj hzero
        rw [hN, hg] at hm
        exact absurd (hguard p hp hphase hzero salt hm) hsalt
      · exact mem_acceptedPairs_cons hmem _
  | accepted hout =>
    refine ⟨.inr ?_, fun _ => ?_⟩ <;> simp [acceptedPairs, hout]
  | rejected hpair hout hphase hstop =>
    refine ⟨.inl hpair, ?_⟩
    rintro (hwait | hgo)
    · exact absurd hwait hphase
    · exact absurd hgo hstop

theorem PairVetted.next {r : ClientRun} (hr : PairVetted r) {op : ClientOp}
    (hguard : NoZeroPair env r op) :
    PairVetted (r.next (ClientProc.step env) op) ∧ UsesAccepted env r op := by
  cases hp : r.state with
  | none =>
    refine ⟨⟨?_, ?_⟩, ?_⟩ <;> intro p hp' <;>
      simp [Run.next, ClientProc.step, hp] at hp'
  | some p =>
    have hkeep := hr.pair p hp
    cases op with
    | init sid uu pp version =>
      refine ⟨⟨?_, ?_⟩, ?_⟩ <;> intro p' hp' <;>
        simp only [Run.next, ClientProc.step, hp, mem_some_iff] at hp' ⊢ <;> subst hp'
      · exact hkeep.imp_right fun h => mem_acceptedPairs_cons h _
      · exact nofun
      · rintro out rfl (hres | hcomp)
        · cases hres
        · cases hcomp
    | setpwd pp | others c =>
      refine ⟨⟨?_, ?_⟩, ?_⟩ <;> intro p' hp' <;>
        simp only [Run.next, ClientProc.step, hp, mem_some_iff] at hp' ⊢ <;> subst hp'
      · exact hkeep.imp_right fun h => mem_acceptedPairs_cons h _
      · exact fun hwait => mem_acceptedPairs_cons (hr.waiting p hp hwait) _
      · exact nofun
    | next prime ra m =>
      cases hnext : SrpClient.next env prime p ra m with
      | none =>
        refine ⟨⟨?_, ?_⟩, ?_⟩ <;> intro p' hp' <;>
          simp [Run.next, ClientProc.step, hp, hnext] at hp'
      | some o =>
        obtain ⟨hpair, hgo⟩ := hr.next_of_pairStep hp hguard (SrpClient.next_pairStep hnext)
        refine ⟨⟨?_, ?_⟩, ?_⟩ <;> intro p' hp' <;>
          simp only [Run.next, ClientProc.step, hp, hnext, mem_some_iff] at hp' ⊢ <;>
          subst hp'
        · exact hpair
        · exact fun hwait => hgo (.inl hwait)
        · rintro out' rfl hproc
          exact hgo (.inr hproc)

/-- A new client: no phase, and the pair of zeros. -/
def SrpClient.Fresh (s : SrpClient) : Prop := s.phase = -1 ∧ s.pair = (0, 0)

theorem PairVetted.start {p : ClientProc} (h : p.client.Fresh) :
    PairVetted (Run.start (some p)) where
  pair := by
    rintro p' ⟨⟩
    exact .inl h.2
  waiting := by
    rintro p' ⟨⟩ hwait
    rw [h.1] at hwait
    cases hwait

/-- In every run from a new client in which the pair of zeros never arrives while
it is the remembered pair, the client proceeds only with accepted parameters. -/
theorem uses_accepted_of_noZeroPair {p : ClientProc} (hp : p.client.Fresh) (before : List ClientOp)
    (op : ClientOp) (after : List ClientOp)
    (hguard : Run.Guarded (ClientProc.step env) (NoZeroPair env) (Run.start (some p))
      (before ++ op :: after)) :
    UsesAccepted env ((Run.start (some p)).take (ClientProc.step env) before) op := by
  obtain ⟨hvetted, hop⟩ :=
    Run.invariant_of_guarded (PairVetted.start hp) (fun _ _ hr hg => (hr.next hg).1) hguard
  exact (hvetted.next hop).2

def blankClient : ClientProc :=
  ⟨⟨⟨[], 0, 0, sampleHash, sampleHash, 1, sampleHash, [], 0, 0, 0⟩, -1, 0, 0, none, none, false, 0⟩,
    .start⟩

theorem uses_accepted_small_prime :
    UsesAccepted sampleEnv
      ((Run.start (some blankClient)).take (ClientProc.step sampleEnv)
        [.init sampleHash (ascii "u") none 6])
      (.next true 3 (srpMsg1.put (ascii "1$AAAA$h", 23, 5))) := by
  refine uses_accepted_of_noZeroPair ⟨rfl, rfl⟩ _ _ [] ⟨trivial, ?_, trivial⟩
  intro p _ _ _ salt hm
  cases hm

/-- A first message with modulus and base zero is not checked. -/
theorem zero_pair_unchecked :
    ¬UsesAccepted sampleEnv
      ((Run.start (some blankClient)).take (ClientProc.step sampleEnv)
        [.init sampleHash (ascii "u") none 6])
      (.next true 3 (srpMsg1.put (ascii "1$AAAA$h", 0, 0))) := by
  intro h
  have hmem := h _ rfl _ rfl (.inl rfl)
  revert hmem
  decide

end SelfCertifyingFS.Crypt
