import Sfs.Crypt.SrpClient
import Sfs.Crypt.SrpServer

/-!
# The SRP exchange

An honest client that knows the password behind the registered verifier and an
honest server derive the same session secret, and the exchange of messages
through both machines ends in success on both sides.
-/

namespace SelfCertifyingFS.Crypt

open Foundations Rpc Option Int SrpClient
open SrpBase (setS)

/-! ## The secret in a commutative monoid -/

/-- Both sides compute the power `b * (a + u * x)` of the base. -/
theorem agreed_power {G : Type*} [CommMonoid G] (g : G) (x a b u : ℕ) :
    (g ^ b) ^ (a + u * x) = (g ^ a * (g ^ x) ^ u) ^ b := by
  rw [← pow_mul g x u, ← pow_add, ← pow_mul, ← pow_mul]
  congr 1
  ring

/-- The client's base is the server's random power of `g`, although the
difference may be negative as an integer. -/
theorem blinded_modEq {N v w : ℤ} (k : ℤ) (hv : v ≡ w [ZMOD N]) (gb : ℤ) :
    (k * v + gb % N).tmod N - k * w ≡ gb [ZMOD N] := by
  have htmod : (k * v + gb % N).tmod N ≡ k * v + gb % N [ZMOD N] := by
    have hdiv := tmod_add_mul_tdiv (k * v + gb % N) N
    refine modEq_iff_dvd.mpr ⟨(k * v + gb % N).tdiv N, ?_⟩
    linarith
  calc (k * v + gb % N).tmod N - k * w
      ≡ k * v + gb % N - k * w [ZMOD N] := htmod.sub_right _
    _ ≡ k * w + gb - k * w [ZMOD N] := ((hv.mul_left k).add (mod_modEq _ _)).sub_right _
    _ = gb := by ring

/-- The arithmetic of the exchange, for the values as the two sides compute them. -/
theorem secrets_agree {N : ℤ} (hN : 0 < N) (g k : ℤ) {x a b u v A gb vu : ℤ} (hx : 0 ≤ x)
    (ha : 0 ≤ a) (hb : 0 ≤ b) (hu : 0 ≤ u) (hv : powm g x N = some v) (hA : powm g a N = some A)
    (hgb : powm g b N = some gb) (hvu : powm v u N = some vu) :
    powm ((k * v + gb).tmod N - k * v) (a + u * x) N = powm (A * vu) b N := by
  have hexp : 0 ≤ a + u * x := add_nonneg ha (mul_nonneg hu hx)
  rw [powm_of_pos hN hx, Option.some.injEq] at hv
  rw [powm_of_pos hN ha, Option.some.injEq] at hA
  rw [powm_of_pos hN hb, Option.some.injEq] at hgb
  rw [powm_of_pos hN hu, Option.some.injEq] at hvu
  rw [powm_of_pos hN hexp, powm_of_pos hN hb, Option.some.injEq]
  have hexps : (a + u * x).toNat = a.toNat + u.toNat * x.toNat := by
    rw [toNat_add ha (mul_nonneg hu hx), toNat_mul hu hx]
  have hbase : (k * v + gb).tmod N - k * v ≡ g ^ b.toNat [ZMOD N] := by
    rw [← hgb]
    exact blinded_modEq k Int.ModEq.rfl _
  have hvx : v ≡ g ^ x.toNat [ZMOD N] := hv ▸ mod_modEq _ _
  calc ((k * v + gb).tmod N - k * v) ^ (a + u * x).toNat
      ≡ (g ^ b.toNat) ^ (a + u * x).toNat [ZMOD N] := hbase.pow _
    _ = (g ^ a.toNat * (g ^ x.toNat) ^ u.toNat) ^ b.toNat := by rw [hexps, agreed_power]
    _ ≡ (A * vu) ^ b.toNat [ZMOD N] := by
        refine (Int.ModEq.mul ?_ ?_).pow _
        · exact hA ▸ (mod_modEq _ _).symm
        · exact hvu ▸ ((hvx.symm.pow _).trans (mod_modEq _ _).symm)

/-! ## Messages and hashes -/

variable {s : SrpServer}

theorem SrpServer.Ready.msg1_carried (hs : s.Ready) :
    bytes2xdr srpMsg1 (srpMsg1.put (s.salt, s.N, s.g)) = some (s.salt, s.N, s.g) := by
  have habs := abs_lt.mp hs.params.abs_lt
  have hg : MpzFits s.g := hs.fits.mono (by omega)
  refine bytes2xdr_put (Wire.Carries.pair ?_ (Wire.Carries.pair ?_ ?_))
  · exact xdrStr_carries (by decide) hs.salt_le hs.salt_no_zero
  · exact xdrMpz_carries hs.fits
  · exact xdrMpz_carries hg

theorem SrpServer.Ready.power_carried (hs : s.Ready) (n : ℕ) :
    bytes2xdr xdrMpz (xdrMpz.put (s.g ^ n % s.N)) = some (s.g ^ n % s.N) ∧
      xdr2bytes xdrMpz (s.g ^ n % s.N) = some (xdrMpz.put (s.g ^ n % s.N)) := by
  obtain ⟨hfits, hlen⟩ := hs.fits_of_lt (emod_nonneg (s.g ^ n) hs.N_pos.ne')
    (emod_lt_of_pos _ hs.N_pos)
  have hroom := hs.room
  exact ⟨bytes2xdr_put (xdrMpz_carries hfits), xdr2bytes_of_length_le (by omega)⟩

theorem SrpServer.Ready.msg3_carried (hs : s.Ready) (rb ru : ℕ) (A : ℤ) :
    bytes2xdr srpMsg3 (srpMsg3.put ((s.answered rb ru A).B, (s.answered rb ru A).u)) =
      some ((s.answered rb ru A).B, (s.answered rb ru A).u) := by
  have hN := hs.N_pos
  refine bytes2xdr_put (Wire.Carries.pair (xdrMpz_carries ?_) (xdrMpz_carries ?_))
  · exact (hs.fits_of_lt (emod_nonneg _ hN.ne') (emod_lt_of_pos _ hN)).1
  · exact (hs.fits_of_lt (emod_nonneg _ hN.ne') (emod_lt_of_pos _ hN)).1

/-- The fields that the hashes depend on, besides the secret, are the same. -/
structure SameSession (c s : SrpBase) : Prop where
  sessid : c.sessid = s.sessid
  N : c.N = s.N
  g : c.g = s.g
  user : c.user = s.user
  salt : c.salt = s.salt
  A : c.A = s.A
  B : c.B = s.B

theorem SameSession.hashes {envC envS : SrpEnv} (hsha : envC.sha1 = envS.sha1) {c s : SrpBase}
    (h : SameSession c s) (S : ℤ) :
    (c.setS envC S).M = (s.setS envS S).M ∧ (c.setS envC S).H = (s.setS envS S).H := by
  constructor <;>
    simp only [setS, SrpBase.hashM, SrpBase.hashH, hsha, h.sessid, h.N, h.g, h.user, h.salt,
      h.A, h.B]

/-! ## The client's first answer -/

namespace SrpClient

variable {env : SrpEnv} {prime : Bool} {p : ClientProc} {N g : ℤ}

/-- The caller of the machine: it asks for the password when told to, and makes
the call again. -/
def authmore (env : SrpEnv) (prime : Bool) (p : ClientProc) (ra : ℕ) (more pw : Bytes) :
    Option (ClientProc × ClientOut) :=
  match next env prime p ra more with
  | none => none
  | some (p, out) =>
      if out.reply.res = .setpwd then
        next env prime ⟨{ p.client with pwd := some pw }, p.cache⟩ ra more
      else some (p, out)

/-- The pair is the remembered one, or the check accepts it. -/
def Admits (env : SrpEnv) (prime : Bool) (p : ClientProc) (N g : ℤ) : Prop :=
  p.client.pair = (N, g) ∨ ∃ c, checkparam env prime p.cache N g 32 = some (true, c)

theorem adopt_of_admits (h : Admits env prime p N g) :
    ∃ c acc, adopt env prime p N g = some (true, ⟨{ p.client with N := N, g := g }, c⟩, acc) := by
  by_cases hpair : p.client.pair = (N, g)
  · obtain ⟨rfl, rfl⟩ := Prod.mk.inj hpair
    exact ⟨p.cache, none, by simp [adopt]⟩
  · obtain ⟨c, hc⟩ := h.resolve_left hpair
    have hne : N ≠ p.client.N ∨ g ≠ p.client.g := by
      by_contra hno
      rw [not_or, not_not, not_not] at hno
      exact hpair (by rw [pair, hno.1, hno.2])
    exact ⟨c, some (N, g), by simp only [adopt, if_pos hne, hc]⟩

/-- The state of a client that has sent its public value. -/
def sent (env : SrpEnv) (c : SrpClient) (ra : ℕ) (pw : Bytes) : SrpClient :=
  { c with
    x := env.pwGetint pw c.salt (pwBits c.N)
    pwd := none
    a := ra % c.N
    A := c.g ^ (ra % c.N).toNat % c.N
    phase := 3 }

variable (env) in
theorem phase1b_eq {c : SrpClient} {s : SrpServer} (hs : s.Ready) (hN : c.N = s.N) (hg : c.g = s.g)
    {pw : Bytes} (hpwd : c.pwd = some pw) (ra : ℕ) :
    c.phase1b env ra =
      some (c.sent env ra pw, ⟨.next, some (xdrMpz.put (c.sent env ra pw).A)⟩) := by
  have hpos : 0 < c.N := hN ▸ hs.N_pos
  have hsend : xdr2bytes xdrMpz (c.g ^ (ra % c.N).toNat % c.N) =
      some (xdrMpz.put (c.g ^ (ra % c.N).toNat % c.N)) := by
    rw [hN, hg]
    exact (hs.power_carried _).2
  simp only [phase1b, hpwd, bind_eq_bind, bind_some, randomZn_of_pos hpos,
    powm_of_pos hpos (emod_nonneg ra hpos.ne'), hsend]
  rfl

theorem next_eq_useSalt {p' : ClientProc} {salt m : Bytes} {acc : Option (ℤ × ℤ)}
    (hphase : p.client.phase = 1) (hm : bytes2xdr srpMsg1 m = some (salt, N, g))
    (hadopt : adopt env prime ⟨{ p.client with phase := -1 }, p.cache⟩ N g = some (true, p', acc))
    (ra : ℕ) : next env prime p ra m = useSalt env p' acc ra salt := by
  simp only [next, if_pos hphase, phase1a, hm, hadopt]

theorem next_eq_phase1b (hphase : p.client.phase = 0x1b) (ra : ℕ) (m : Bytes) :
    next env prime p ra m = (({ p.client with phase := -1 } : SrpClient).phase1b env ra).map
      fun o => (⟨o.1, p.cache⟩, ⟨o.2, none, true⟩) := by
  simp only [next, hphase]
  rfl

/-- With the right parameters and a valid salt the client sends its public value,
whether it has the password from the start or asks for it. -/
theorem authmore_eq {s : SrpServer} (hs : s.Ready) (hphase : p.client.phase = 1)
    (hadmits : Admits env prime p s.N s.g) {pw : Bytes}
    (hpwd : p.client.pwd = none ∨ p.client.pwd = some pw) (hsalt : env.pwDearmorsalt s.salt ≠ none)
    (ra : ℕ) :
    ∃ cache acc cost host,
      authmore env prime p ra (srpMsg1.put (s.salt, s.N, s.g)) pw =
        some (⟨({ p.client with
            N := s.N, g := s.g, salt := s.salt, cost := cost, host := host } : SrpClient).sent
              env ra pw, cache⟩,
          ⟨⟨.next, some (xdrMpz.put (s.g ^ (ra % s.N).toNat % s.N))⟩, acc, true⟩) := by
  obtain ⟨⟨cost, host⟩, hch⟩ := Option.ne_none_iff_exists'.mp hsalt
  have hadmits' : Admits env prime ⟨{ p.client with phase := -1 }, p.cache⟩ s.N s.g := hadmits
  obtain ⟨c, acc, hadopt⟩ := adopt_of_admits hadmits'
  have hfirst := next_eq_useSalt hphase hs.msg1_carried hadopt ra
  rcases hpwd with hnone | hsome
  · -- the first call asks for the password, the second one is in phase 0x1b
    refine ⟨c, none, cost, some host, ?_⟩
    simp only [useSalt, hch, if_pos hnone] at hfirst
    have hsecond := phase1b_eq env (c := { p.client with
      N := s.N, g := s.g, salt := s.salt, cost := cost, host := some host, phase := -1,
      pwd := some pw }) hs rfl rfl rfl ra
    simp only [authmore, hfirst]
    rw [next_eq_phase1b rfl, hsecond]
    rfl
  · refine ⟨c, acc, cost, some host, ?_⟩
    have hne : p.client.pwd ≠ none := by
      rw [hsome]
      exact some_ne_none pw
    simp only [useSalt, hch, if_neg hne] at hfirst
    have hsend := phase1b_eq env (c := { p.client with
      N := s.N, g := s.g, salt := s.salt, cost := cost, host := some host, phase := -1 }) hs rfl rfl
      hsome ra
    rw [hsend] at hfirst
    simp only [authmore, hfirst]
    rfl

theorem length_hash_put (h : SrpHash) : ((xdrFixed 20).put h).length ≤ rpcInfinity := by
  simp only [xdrFixed, length_padded, h.2]
  decide

variable (env) in
theorem next_phase3 (prime : Bool) (hphase : p.client.phase = 3) {m : Bytes} {B u S : ℤ}
    (hm : bytes2xdr srpMsg3 m = some (B, u)) (hB : B ≠ 0) (hu : u ≠ 0)
    (hS : p.client.secret B u = some S) (ra : ℕ) :
    next env prime p ra m =
      some (⟨{ p.client with
          toSrpBase := setS env { p.client.toSrpBase with B := B } S
          phase := 5 }, p.cache⟩,
        ⟨⟨.next, some ((xdrFixed 20).put
          (setS env { p.client.toSrpBase with B := B } S).M)⟩, none, false⟩) := by
  have hS' : ({ p.client with phase := -1, B := B } : SrpClient).secret B u = some S := hS
  have hne : ¬(B = 0 ∨ u = 0) := not_or.mpr ⟨hB, hu⟩
  simp only [next, hphase, phase3, hm, if_neg hne, hS', xdr2bytes_of_length_le (length_hash_put _)]
  rfl

variable (env) in
theorem next_phase5 (prime : Bool) (hphase : p.client.phase = 5) {m : Bytes}
    (hm : bytes2xdr (xdrFixed 20) m = some p.client.H) (ra : ℕ) :
    next env prime p ra m =
      some (⟨{ p.client with phase := -1, hostOk := true }, p.cache⟩,
        ⟨⟨.done, none⟩, none, false⟩) := by
  simp only [next, hphase, phase5, hm]
  simp

end SrpClient

/-! ## The whole exchange -/

/-- The random numbers of one exchange, and the answers of the client's primality
test. -/
structure Coins where
  prime : Bool
  ra : ℕ
  rb : ℕ
  ru : ℕ

/-- Every message is delivered; the result has the final states and what the last
call on each side returned. -/
def exchange (envC envS : SrpEnv) (coins : Coins) (p : ClientProc) (s : SrpServer)
    (msg1 pw : Bytes) : Option ((ClientProc × SrpRes) × (SrpServer × SrpRes)) := do
  let (p, outA) ← authmore envC coins.prime p coins.ra msg1 pw
  let msg2 ← outA.reply.msgout
  let (s, replyB) ← s.next envS ⟨coins.rb, coins.ru, msg2⟩
  let msg3 ← replyB.msgout
  let (p, outM) ← next envC coins.prime p coins.ra msg3
  let msg4 ← outM.reply.msgout
  let (s, replyH) ← s.next envS ⟨coins.rb, coins.ru, msg4⟩
  let msg5 ← replyH.msgout
  let (p, out) ← next envC coins.prime p coins.ra msg5
  some ((p, out.reply.res), (s, replyH.res))

/-- Both sides are satisfied and hold the same secret. -/
structure Completed (o : (ClientProc × SrpRes) × (SrpServer × SrpRes)) : Prop where
  client_done : o.1.2 = .done
  server_last : o.2.2 = .last
  host_ok : o.1.1.client.hostOk = true
  S_eq : o.1.1.client.S = o.2.1.S
  M_eq : o.1.1.client.M = o.2.1.M
  H_eq : o.1.1.client.H = o.2.1.H

/-- In the states after the public values the two secrets are the same. -/
theorem secret_eq_answered {c : SrpClient} (hs : s.Ready) (hN : c.N = s.N) (hg : c.g = s.g)
    (hk : c.k = s.k) (hx : 0 ≤ c.x) (hv : powm s.g c.x s.N = some s.v) (ra rb ru : ℕ)
    (ha : c.a = ra % s.N) {A : ℤ} (hA : A = s.g ^ ((ra : ℤ) % s.N).toNat % s.N) :
    c.secret (s.answered rb ru A).B (s.answered rb ru A).u = (s.answered rb ru A).secret s.v := by
  have hpos := hs.N_pos
  have hmod : ∀ r, 0 ≤ (r : ℤ) % s.N := fun r => emod_nonneg _ hpos.ne'
  have hsum : 0 ≤ s.k * s.v + s.g ^ (rb % s.N).toNat % s.N :=
    add_nonneg (mul_nonneg hs.k_nonneg hs.v_nonneg) (emod_nonneg _ hpos.ne')
  have hagree := secrets_agree hpos s.g s.k hx (hmod ra) (hmod rb) (hmod ru) hv
    (powm_of_pos hpos (hmod ra)) (powm_of_pos hpos (hmod rb)) (powm_of_pos hpos (hmod ru))
  rw [tmod_eq_emod_of_nonneg hsum, ← hA] at hagree
  have hclient : c.secret (s.answered rb ru A).B (s.answered rb ru A).u =
      powm ((s.k * s.v + s.g ^ (rb % s.N).toNat % s.N) % s.N - s.k * s.v)
        (ra % s.N + (ru : ℤ) % s.N * c.x) s.N := by
    rw [secret, hN, hg, hv, hk, ha]
    rfl
  rw [hclient, hagree, SrpServer.secret]
  have hvu : powm s.v (s.answered rb ru A).u (s.answered rb ru A).N = _ :=
    powm_of_pos hpos (hmod ru)
  rw [hvu]
  rfl

theorem exchange_completed {envC envS : SrpEnv} (hsha : envC.sha1 = envS.sha1) (hs : s.Ready)
    {p : ClientProc} {coins : Coins} {pw : Bytes} (hphase : p.client.phase = 1)
    (hk : p.client.k = s.k) (hsid : p.client.sessid = s.sessid) (huser : p.client.user = s.user)
    (hadmits : SrpClient.Admits envC coins.prime p s.N s.g)
    (hpwd : p.client.pwd = none ∨ p.client.pwd = some pw) (hsalt : envC.pwDearmorsalt s.salt ≠ none)
    (hv : powm s.g (envC.pwGetint pw s.salt (pwBits s.N)) s.N = some s.v)
    (hB : (s.k * s.v + s.g ^ ((coins.rb : ℤ) % s.N).toNat % s.N) % s.N ≠ 0)
    (hu : (coins.ru : ℤ) % s.N ≠ 0) :
    ∃ o, exchange envC envS coins p s (srpMsg1.put (s.salt, s.N, s.g)) pw = some o ∧
      Completed o := by
  have hpos := hs.N_pos
  generalize hA : s.g ^ (coins.ra % s.N).toNat % s.N = A
  have hA0 : A ≠ 0 := by
    rintro rfl
    exact hs.params.not_dvd_pow _ (dvd_of_emod_eq_zero hA)
  -- the client's public value
  obtain ⟨cache, acc, cost, host, hauth⟩ := authmore_eq hs hphase hadmits hpwd hsalt coins.ra
  rw [hA] at hauth
  generalize hc : ({ p.client with
    N := s.N, g := s.g, salt := s.salt, cost := cost, host := host } : SrpClient).sent envC
      coins.ra pw = c at hauth
  -- the server's answer
  have hmsg2 : bytes2xdr xdrMpz (xdrMpz.put A) = some A := hA ▸ (hs.power_carried _).1
  have hphase2 : s.next envS _ = _ := hs.next_phase2 hmsg2 hA0 coins.rb coins.ru
  set s' := s.answered coins.rb coins.ru A with hs'
  -- the common secret
  obtain ⟨S, hS⟩ : ∃ S, s'.secret s.v = some S :=
    ⟨_, SrpServer.secret_eq (s := s') hpos
      (emod_nonneg _ hpos.ne') (emod_nonneg _ hpos.ne') _⟩
  have hSc : c.secret s'.B s'.u = some S := by
    subst hc
    rw [← hS]
    refine secret_eq_answered hs rfl rfl ?_ ?_ ?_ coins.ra coins.rb coins.ru rfl hA.symm
    · exact hk
    · exact natCast_nonneg _
    · exact hv
  have hsame : SameSession { c.toSrpBase with B := s'.B } s'.toSrpBase := by
    subst hc
    exact ⟨hsid, rfl, rfl, huser, rfl, hA, rfl⟩
  obtain ⟨hM, hH⟩ := hsame.hashes hsha S
  have hc3 : c.phase = 3 := by
    subst hc
    rfl
  have hphase3 := next_phase3 envC coins.prime (p := ⟨c, cache⟩) hc3
    (hs.msg3_carried coins.rb coins.ru A) hB hu hSc coins.ra
  rw [← hs'] at hphase3
  -- both proofs are the same
  have hproof : bytes2xdr (xdrFixed 20) ((xdrFixed 20).put
      (setS envC { c.toSrpBase with B := s'.B } S).M) =
      some (s'.toSrpBase.setS envS S).M := by
    rw [hM]
    exact bytes2xdr_put (xdrFixed_carries _)
  have hphase4 := SrpServer.next_phase4 envS rfl hS hproof
    coins.rb coins.ru
  rw [if_neg (not_not.mpr rfl), ← hH] at hphase4
  have hphase5 := next_phase5 envC coins.prime (p := ⟨{ c with
    toSrpBase := setS envC { c.toSrpBase with B := s'.B } S,
    phase := 5 }, cache⟩) rfl (bytes2xdr_put (xdrFixed_carries _)) coins.ra
  apply Exists.intro
  constructor
  · simp only [exchange, hauth, hphase2, hphase3, hphase4, hphase5, bind_eq_bind, bind_some]
    rfl
  · exact ⟨rfl, rfl, rfl, rfl, hM, hH⟩

/-- The two computations of the secret are equal, as the code evaluates them. -/
def SecretsAgree (N g k x a b u : ℤ) : Prop :=
  ∃ v A gb vu, powm g x N = some v ∧ powm g a N = some A ∧ powm g b N = some gb ∧
    powm v u N = some vu ∧
    powm ((k * v + gb).tmod N - k * v) (a + u * x) N = powm (A * vu) b N

/-- What a client and a server need to have in common for an exchange. The server
has been initialised with the information of the user, the client object may have
any past. -/
structure HonestPair (envC envS : SrpEnv) (c : ClientProc) (coins : Coins) (pp : Option Bytes)
    (pw : Bytes) (s : SrpServer) : Prop where
  /-- The hash function is the same. -/
  sha1_eq : envC.sha1 = envS.sha1
  /-- The client takes the parameters and the salt. -/
  admits : SrpClient.Admits envC coins.prime c s.N s.g
  salt_ok : envC.pwDearmorsalt s.salt ≠ none
  /-- The password is given at once or on demand. -/
  pwd_eq : pp = none ∨ pp = some pw
  /-- The verifier is the one of the password. -/
  verifier : powm s.g (envC.pwGetint pw s.salt (pwBits s.N)) s.N = some s.v
  /-- The challenge that the client receives is not zero. -/
  B_ne : (s.k * s.v + s.g ^ ((coins.rb : ℤ) % s.N).toNat % s.N) % s.N ≠ 0
  u_ne : (coins.ru : ℤ) % s.N ≠ 0

/-- The secrets agree for all numbers, and every exchange between an initialised
server and an honest client ends with success on both sides. -/
theorem honest_exchange_succeeds :
    (∀ N g k x a b u : ℤ, 0 < N → 0 ≤ x → 0 ≤ a → 0 ≤ b → 0 ≤ u → SecretsAgree N g k x a b u) ∧
    ∀ (envC envS : SrpEnv) (prime : Bool) (q q' : ParamCache) (s0 s : SrpServer) (sid : SrpHash)
      (uu info : Bytes) (version : ℤ) (reply : SrpReply) (c : ClientProc) (coins : Coins)
      (pp : Option Bytes) (pw : Bytes), info.length ≤ rpcInfinity →
      SrpServer.init envS prime q s0 [] sid uu info version = some (s, q', reply) →
      reply.res = .next → HonestPair envC envS c coins pp pw s →
      ∃ msg1 o, reply.msgout = some msg1 ∧
        exchange envC envS coins ⟨(c.client.init sid uu pp version).1, c.cache⟩ s msg1 pw =
          some o ∧ Completed o := by
  constructor
  · intro N g k x a b u hN hx ha hb hu
    have hv : powm g x N = _ := powm_of_pos hN hx
    have hA : powm g a N = _ := powm_of_pos hN ha
    have hgb : powm g b N = _ := powm_of_pos hN hb
    have hvu : powm (g ^ x.toNat % N) u N = _ := powm_of_pos hN hu
    exact ⟨_, _, _, _, hv, hA, hgb, hvu, secrets_agree hN g k hx ha hb hu hv hA hgb hvu⟩
  · intro envC envS prime q q' s0 s sid uu info version reply c coins pp pw hlen hinit hnext h
    have hs := SrpServer.ready_of_init hinit hnext hlen
    obtain ⟨i, -, -, hmsg, hstate⟩ := SrpServer.init_next hinit hnext
    have hmsg1 : reply.msgout = some (srpMsg1.put (s.salt, s.N, s.g)) := by
      rw [hmsg, hstate]
    obtain ⟨o, ho, hdone⟩ := exchange_completed
      (p := ⟨(c.client.init sid uu pp version).1, c.cache⟩)
      h.sha1_eq hs rfl (by rw [hstate]; rfl) (by rw [hstate]; rfl) (by rw [hstate]; rfl) h.admits
      h.pwd_eq h.salt_ok h.verifier h.B_ne h.u_ne
    exact ⟨_, o, hmsg1, ho, hdone⟩

open SrpServer in
theorem honest_exchange_succeeds_sample : SecretsAgree 23 5 3 4 2 3 5 ∧ ∃ msg1 o,
    exchange sampleEnv sampleEnv ⟨true, 2, 3, 5⟩
      ⟨(blankClient.client.init sampleHash (ascii "u") none 6).1, blankClient.cache⟩ sampleServer
      msg1 (ascii "pass") = some o ∧ Completed o := by
  refine ⟨honest_exchange_succeeds.1 23 5 3 4 2 3 5 (by decide) (by decide) (by decide) (by decide)
    (by decide), ?_⟩
  obtain ⟨q, reply, hinit, hnext⟩ := init_sample
  obtain ⟨msg1, o, -, ho⟩ := honest_exchange_succeeds.2 sampleEnv sampleEnv true .start q blank
    sampleServer sampleHash (ascii "u") sampleInfo 6 reply blankClient ⟨true, 2, 3, 5⟩ none
    (ascii "pass") (by decide) hinit hnext
    ⟨rfl, .inr ⟨_, rfl⟩, nofun, .inl rfl, by decide, by decide, by decide⟩
  exact ⟨msg1, o, ho⟩

end SelfCertifyingFS.Crypt
