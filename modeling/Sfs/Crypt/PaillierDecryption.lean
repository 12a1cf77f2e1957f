import Sfs.Crypt.Paillier

/-!
# Decryption of Paillier ciphertexts

A ciphertext has a logarithm modulo the square of either prime, the plaintext; the
operations on ciphertexts add and multiply logarithms, and decryption finds the
logarithm modulo both primes and combines them. This holds for every key made from
two primes, if the values for the decryption have inverses.
-/

namespace SelfCertifyingFS.Crypt

open Foundations Rpc Option Int PaillierPriv Dvd
open PaillierPub (new)

section Keys

variable (p q : ℕ) (fast : Bool) (a : ℕ) (g gn : ℤ)

/-- The exponent of the decryption modulo `l`. -/
def halfExp (l : ℕ) : ℕ := if fast then a else l - 1

def paillierKey : PaillierPriv where
  n := p * q
  g := g
  fast := fast
  nsq := p * q * (p * q)
  gn := gn
  p := p
  q := q
  a := a
  p1 := p - 1
  q1 := q - 1
  psq := p * p
  qsq := q * q
  rp := invert q p
  rq := invert p q
  twoP := 2 ^ nbits p
  twoQ := 2 ^ nbits q
  lp := invert p (2 ^ nbits p)
  lq := invert q (2 ^ nbits q)
  hp := invert (basisLog p (halfExp fast a p) g) p
  hq := invert (basisLog q (halfExp fast a q) g) q

/-- A ciphertext of `m`: its logarithm is `m` modulo either prime. -/
structure Opens (c m : ℤ) : Prop where
  left : HasLog p (halfExp fast a p) (basisLog p (halfExp fast a p) g) c m
  right : HasLog q (halfExp fast a q) (basisLog q (halfExp fast a q) g) c m

variable {p q fast a g gn}

theorem powm_halfExp {l : ℕ} (hl : l.Prime) (c : ℤ) :
    powm c (if fast then (a : ℤ) else (l : ℤ) - 1) (l * l) =
      some (c ^ halfExp fast a l % (l * l)) := by
  have hpos : (0 : ℤ) < l := by exact_mod_cast hl.pos
  have hexp : (if fast then (a : ℤ) else l - 1) = (halfExp fast a l) := by
    rw [halfExp]
    split_ifs
    · rfl
    · push_cast [hl.one_le]
      ring
  rw [hexp, powm_of_pos (mul_pos hpos hpos) (natCast_nonneg _), toNat_natCast]

theorem PaillierPriv.init_eq (hp : p.Prime) (hq : q.Prime) (hpq : p < q) :
    init ⟨p * q, g, fast, p * q * (p * q), gn⟩ p q a = some (paillierKey p q fast a g gn) := by
  have hlt : (p : ℤ) < q := by exact_mod_cast hpq
  rw [init, if_pos hlt]
  rw [powm_halfExp hp, powm_halfExp hq]
  rfl

variable (fast a g gn) in
theorem PaillierPriv.crt_spec (hp : p.Prime) (hq : q.Prime) (hpq : p < q) {mp mq : ℤ} (hmp : 0 ≤ mp)
    (hmq : 0 ≤ mq) :
    let m := (paillierKey p q fast a g gn).crt mp mq
    (0 ≤ m ∧ m < p * q) ∧ m ≡ mp [ZMOD p] ∧ m ≡ mq [ZMOD q] := by
  intro m
  have hp0 : (0 : ℤ) < p := by exact_mod_cast hp.pos
  have hq0 : (0 : ℤ) < q := by exact_mod_cast hq.pos
  have hn : (0 : ℤ) < p * q := mul_pos hp0 hq0
  have hcop : Int.gcd p q = 1 := (Nat.coprime_primes hp hq).mpr hpq.ne
  set sp := (mp * invert q p * q).tmod (p * q) with hsp
  set sq := (mq * invert p q * p).tmod (p * q) with hsq
  have hsp0 : 0 ≤ sp := tmod_nonneg _ (mul_nonneg (mul_nonneg hmp (invert_nonneg _ hp0)) hq0.le)
  have hsq0 : 0 ≤ sq := tmod_nonneg _ (mul_nonneg (mul_nonneg hmq (invert_nonneg _ hq0)) hp0.le)
  have hspn : sp < p * q := tmod_lt_of_pos _ hn
  have hsqn : sq < p * q := tmod_lt_of_pos _ hn
  set x := mp * invert q p * q + mq * invert p q * p with hx
  have hm : m = if sp + sq ≥ p * q then sp + sq - p * q else sp + sq := rfl
  have hmod : m ≡ x [ZMOD p * q] := by
    have hsum : sp + sq ≡ x [ZMOD p * q] := (tmod_modEq _ _).add (tmod_modEq _ _)
    rw [hm]
    split_ifs
    · calc sp + sq - p * q = sp + sq + p * q * (-1) := by ring
        _ ≡ sp + sq [ZMOD p * q] := modEq_add_fac_self
        _ ≡ x [ZMOD p * q] := hsum
    · exact hsum
  refine ⟨?_, ?_, ?_⟩
  · rw [hm]
    split_ifs <;> omega
  · calc m ≡ x [ZMOD p] := hmod.of_dvd (intro _ rfl)
      _ = mp * (q * invert q p) + p * (mq * invert p q) := by rw [hx]; ring
      _ ≡ mp * (q * invert q p) [ZMOD p] := modEq_add_fac_self
      _ ≡ mp * 1 [ZMOD p] := (mul_invert_modEq (Int.gcd_comm q p ▸ hcop)).mul_left mp
      _ = mp := mul_one mp
  · calc m ≡ x [ZMOD q] := hmod.of_dvd (intro_left _ rfl)
      _ = mq * (p * invert p q) + q * (mp * invert q p) := by rw [hx]; ring
      _ ≡ mq * (p * invert p q) [ZMOD q] := modEq_add_fac_self
      _ ≡ mq * 1 [ZMOD q] := (mul_invert_modEq hcop).mul_left mq
      _ = mq := mul_one mq

/-- The primes, and the two values that `init` inverts. -/
structure Invertible (p q : ℕ) (fast : Bool) (a : ℕ) (g : ℤ) : Prop where
  hp : p.Prime
  hq : q.Prime
  lt : p < q
  left : Int.gcd (basisLog p (halfExp fast a p) g) p = 1
  right : Int.gcd (basisLog q (halfExp fast a q) g) q = 1

theorem PaillierPriv.D_spec (h : Invertible p q fast a g) {c m : ℤ} (hc : Opens p q fast a g c m) :
    (paillierKey p q fast a g gn).D c = some (m % (p * q)) := by
  obtain ⟨hp, hq, hpq, hinvp, hinvq⟩ := h
  obtain ⟨⟨hyp0, hip0⟩, hleft⟩ := half_spec hp hinvp hc.left
  obtain ⟨⟨hyq0, hiq0⟩, hright⟩ := half_spec hq hinvq hc.right
  set yp := paillierL (invert p (2 ^ nbits p)) (2 ^ nbits p) (c ^ halfExp fast a p % (p * p))
  set yq := paillierL (invert q (2 ^ nbits q)) (2 ^ nbits q) (c ^ halfExp fast a q % (q * q))
  set mp := (yp.tmod p * invert (basisLog p (halfExp fast a p) g) p).tmod p with hmp
  set mq := (yq * invert (basisLog q (halfExp fast a q) g) q).tmod q with hmq
  have hD : (paillierKey p q fast a g gn).D c =
      (powm c (if fast then a else (q : ℤ) - 1) (q * q)).bind fun x =>
        (powm c (if fast then a else (p : ℤ) - 1) (p * p)).map fun y =>
          (paillierKey p q fast a g gn).crt
            (((paillierL (invert p (2 ^ nbits p)) (2 ^ nbits p) y).tmod p *
              invert (basisLog p (halfExp fast a p) g) p).tmod p)
            ((paillierL (invert q (2 ^ nbits q)) (2 ^ nbits q) x *
              invert (basisLog q (halfExp fast a q) g) q).tmod q) := rfl
  have hmp0 : 0 ≤ mp := tmod_nonneg _ (mul_nonneg (tmod_nonneg _ hyp0) hip0)
  have hmq0 : 0 ≤ mq := tmod_nonneg _ (mul_nonneg hyq0 hiq0)
  obtain ⟨⟨h0, hlt⟩, hmodp, hmodq⟩ := crt_spec fast a g gn hp hq hpq hmp0 hmq0
  rw [hD, powm_halfExp hq, bind_some, powm_halfExp hp, map_some]
  have hmp' : mp ≡ m [ZMOD p] := ((tmod_modEq _ _).trans ((tmod_modEq _ _).mul_right _)).trans hleft
  have hmq' : mq ≡ m [ZMOD q] := (tmod_modEq _ _).trans hright
  have hcop : (p : ℤ).natAbs.Coprime (q : ℤ).natAbs := (Nat.coprime_primes hp hq).mpr hpq.ne
  have hmod : (paillierKey p q fast a g gn).crt mp mq ≡ m [ZMOD p * q] :=
    (modEq_and_modEq_iff_modEq_mul hcop).mp ⟨hmodp.trans hmp', hmodq.trans hmq'⟩
  rw [← hmod, emod_eq_of_lt h0 hlt]

end Keys

section Ciphertexts

variable {p q : ℕ} {fast : Bool} {a : ℕ} {g gn c c' m m' : ℤ}

namespace Opens

section

variable (h : Opens p q fast a g c m)

include h

theorem congr (hc : c' ≡ c [ZMOD p * q * (p * q)]) : Opens p q fast a g c' m :=
  ⟨h.left.congr (hc.of_dvd ⟨q * q, by ring⟩), h.right.congr (hc.of_dvd ⟨p * p, by ring⟩)⟩

theorem congr_log (hm : m' ≡ m [ZMOD p * q]) : Opens p q fast a g c m' :=
  ⟨h.left.congr_log (hm.of_dvd (intro _ rfl)), h.right.congr_log (hm.of_dvd (intro_left _ rfl))⟩

theorem mul (h' : Opens p q fast a g c' m') : Opens p q fast a g (c * c') (m + m') :=
  ⟨h.left.mul h'.left, h.right.mul h'.right⟩

theorem pow (k : ℕ) : Opens p q fast a g (c ^ k) (k * m) := ⟨h.left.pow k, h.right.pow k⟩

theorem inverse (hc : c * c' ≡ 1 [ZMOD p * q * (p * q)]) : Opens p q fast a g c' (-m) :=
  ⟨h.left.inverse (hc.of_dvd ⟨q * q, by ring⟩), h.right.inverse (hc.of_dvd ⟨p * p, by ring⟩)⟩

end

theorem add (gn : ℤ) (h : Opens p q fast a g c m) (h' : Opens p q fast a g c' m') :
    Opens p q fast a g ((paillierKey p q fast a g gn).add c c') (m + m') :=
  (h.mul h').congr (tmod_modEq _ _)

end Opens

/-- What the basis of a key has to be. -/
structure PaillierBasis (p q : ℕ) (fast : Bool) (a : ℕ) (g gn : ℤ) : Prop
    extends Invertible p q fast a g where
  pos : fast = true → 0 < a
  left_one : g ^ halfExp fast a p ≡ 1 [ZMOD p]
  right_one : g ^ halfExp fast a q ≡ 1 [ZMOD q]
  gn_eq : fast = true → gn ≡ g ^ (p * q) [ZMOD p * q * (p * q)]

namespace PaillierBasis

variable (h : PaillierBasis p q fast a g gn)

include h

theorem nsq_pos : (0 : ℤ) < p * q * (p * q) := by
  have := h.hp.pos
  have := h.hq.pos
  positivity

theorem halfExp_pos {l : ℕ} (hl : l.Prime) : 0 < halfExp fast a l := by
  have := hl.two_le
  have hpos := h.pos
  unfold halfExp
  split_ifs with hfast
  · exact hpos hfast
  · omega

theorem opens_basis : Opens p q fast a g g 1 :=
  ⟨hasLog_basis h.hp (ne_two_of_gcd_basisLog h.left) h.left_one,
    hasLog_basis h.hq (ne_two_of_gcd_basisLog h.right) h.right_one⟩

theorem gcd_eq_one (hc : Opens p q fast a g c m) : Int.gcd c (p * q * (p * q)) = 1 := by
  rw [← isCoprime_iff_gcd_eq_one]
  have hp := hc.left.isCoprime (h.halfExp_pos h.hp)
  have hq := hc.right.isCoprime (h.halfExp_pos h.hq)
  exact (hp.mul_right hq).mul_right (hp.mul_right hq)

theorem opens_mask {r : ℤ} (hr0 : 0 < r) (hr : IsCoprime r ((p : ℤ) * q)) :
    ∃ x, (if fast then powm gn r (p * q * (p * q)) else powm r (p * q) (p * q * (p * q))) =
      some x ∧ Opens p q fast a g x 0 := by
  have hn : (0 : ℤ) ≤ p * q := by positivity
  cases hfast : fast with
  | true =>
    rw [powm_of_pos h.nsq_pos hr0.le]
    refine ⟨_, rfl, ?_⟩
    subst hfast
    have hzero : Opens p q true a g (g ^ (p * q)) 0 :=
      ⟨h.opens_basis.left.pow_multiple (by push_cast; exact intro _ rfl),
        h.opens_basis.right.pow_multiple (by push_cast; exact intro_left _ rfl)⟩
    have hpow := hzero.pow r.toNat
    apply hpow.congr
    exact (mod_modEq _ _).trans ((h.gn_eq rfl).pow _)
  | false =>
    rw [powm_of_pos h.nsq_pos hn]
    refine ⟨_, rfl, ?_⟩
    have hzero : Opens p q false a g (r ^ (p * q)) 0 :=
      ⟨hasLog_pow_modulus h.hp (hr.of_isCoprime_of_dvd_right (intro _ rfl)) (intro _ rfl),
        hasLog_pow_modulus h.hq (hr.of_isCoprime_of_dvd_right (intro_left _ rfl))
          (intro_left _ rfl)⟩
    exact hzero.congr (mod_modEq _ _)

theorem encrypt_spec {msg r : ℤ} (hmsg0 : 0 ≤ msg) (hmsg : msg < p * q) (hr0 : 0 < r)
    (hr : IsCoprime r ((p : ℤ) * q)) :
    ∃ c, (paillierKey p q fast a g gn).encrypt msg r = some (some c) ∧
      Opens p q fast a g c msg := by
  obtain ⟨x, hx, hzero⟩ := h.opens_mask hr0 hr
  have henc : (paillierKey p q fast a g gn).encrypt msg r =
      if msg ≥ p * q then some none
      else
        (if fast then powm gn r (p * q * (p * q)) else powm r (p * q) (p * q * (p * q))).bind
          fun m => (powm g msg (p * q * (p * q))).map fun gm =>
            some ((m * gm).tmod (p * q * (p * q))) := rfl
  rw [henc, if_neg (not_le.mpr hmsg), hx, powm_of_pos h.nsq_pos hmsg0]
  refine ⟨_, rfl, ?_⟩
  have hpow : Opens p q fast a g (g ^ msg.toNat % (p * q * (p * q))) msg := by
    have hlog := h.opens_basis.pow msg.toNat
    rw [toNat_of_nonneg hmsg0, mul_one] at hlog
    exact hlog.congr (mod_modEq _ _)
  have hprod := (hzero.mul hpow).congr (tmod_modEq _ _)
  rwa [zero_add] at hprod

theorem mult_spec (hc : Opens p q fast a g c m) (cons : ℤ) :
    ∃ d, (paillierKey p q fast a g gn).mult c cons = some d ∧ Opens p q fast a g d (cons * m) := by
  have hmult : (paillierKey p q fast a g gn).mult c cons = powm c cons (p * q * (p * q)) := rfl
  rw [hmult]
  rcases le_or_gt 0 cons with hcons | hcons
  · rw [powm_of_pos h.nsq_pos hcons]
    refine ⟨_, rfl, ?_⟩
    have hpow := hc.pow cons.toNat
    rw [toNat_of_nonneg hcons] at hpow
    exact hpow.congr (mod_modEq _ _)
  · have hgcd := h.gcd_eq_one hc
    rw [powm, if_neg h.nsq_pos.ne', if_neg (not_le.mpr hcons), if_pos hgcd]
    refine ⟨_, rfl, ?_⟩
    have hinv : c * Int.gcdA c (p * q * (p * q)) ≡ 1 [ZMOD p * q * (p * q)] := by
      have hbezout := gcd_eq_gcd_ab c (p * q * (p * q))
      rw [modEq_iff_dvd]
      exact ⟨Int.gcdB c (p * q * (p * q)), by linarith⟩
    have hpow := (hc.inverse hinv).pow (-cons).toNat
    have hlog : ((-cons).toNat : ℤ) * -m = cons * m := by
      rw [toNat_of_nonneg (by omega)]
      ring
    rw [hlog] at hpow
    exact hpow.congr (mod_modEq _ _)

end PaillierBasis

end Ciphertexts

section Making

variable {p q a : ℕ} {g gn : ℤ}

theorem PaillierPub.new_slow (hp : p.Prime) (hq : q.Prime) :
    new (p * q) none = some ⟨p * q, 2, false, p * q * (p * q), 0⟩ := by
  have hn : (p : ℤ) * q ≠ 0 := by
    have := hp.pos
    have := hq.pos
    positivity
  rw [new, nbits, if_neg hn, if_neg (Nat.succ_ne_zero _)]

theorem PaillierPub.new_fast (hp : p.Prime) (hq : q.Prime) (g : ℤ) :
    new (p * q) (some g) =
      some ⟨p * q, g, true, p * q * (p * q), g ^ (p * q) % (p * q * (p * q))⟩ := by
  have hn : (0 : ℤ) < p * q := by
    have := hp.pos
    have := hq.pos
    positivity
  have hexp : ((p : ℤ) * q).toNat = p * q := by
    rw [← Nat.cast_mul, toNat_natCast]
  rw [new, nbits, if_neg hn.ne', if_neg (Nat.succ_ne_zero _),
    powm_of_pos (mul_pos hn hn) hn.le, map_some, hexp]

variable {n1 n2 n : ℤ} {key : PaillierPriv}

theorem PaillierPriv.makeSlow_spec (h : makeSlow n1 n2 = some key) :
    ∃ p q : ℕ, p.Prime ∧ q.Prime ∧ p < q ∧ key = paillierKey p q false 0 2 0 := by
  have hnew : ∀ {p q : ℕ}, p.Prime → q.Prime → p < q →
      newSlow p q none = some (paillierKey p q false 0 2 0) := by
    intro p q hp hq hpq
    rw [newSlow, getD_none, PaillierPub.new_slow hp hq]
    exact init_eq hp hq hpq
  unfold makeSlow at h
  split_ifs at h with hbad hlt
  all_goals
    push Not at hbad
    obtain ⟨hne, h1, h2, hp, hq⟩ := hbad
    have e1 : n1.toNat = n1 := toNat_of_nonneg (by omega)
    have e2 : n2.toNat = n2 := toNat_of_nonneg (by omega)
    rw [← e1, ← e2] at h
  · rw [hnew hp hq (by omega)] at h
    exact ⟨_, _, hp, hq, by omega, (Option.some.inj h).symm⟩
  · rw [hnew hq hp (by omega)] at h
    exact ⟨_, _, hq, hp, by omega, (Option.some.inj h).symm⟩

/-- The basis of a fast key is a power of two whose own power `a` has an exponent that both
orders divide. -/
theorem paillierGen_spec (hn : 0 < n) (hp : p.Prime) (hq : q.Prime) {a' : ℤ}
    (h : paillierGen p q n a' = some g) :
    ∃ a b : ℕ, a' = a ∧ a.Prime ∧ g ≡ 2 ^ b [ZMOD n] ∧ p - 1 ∣ b * a ∧ q - 1 ∣ b * a := by
  have e1 : (p : ℤ) - 1 = (p - 1 : ℕ) := by push_cast [hp.one_le]; ring
  have e2 : (q : ℤ) - 1 = (q - 1 : ℕ) := by push_cast [hq.one_le]; ring
  have hk : ((p - 1) * ((q : ℤ) - 1)).tdiv (Int.gcd (p - 1) ((q : ℤ) - 1)) =
      (Nat.lcm (p - 1) (q - 1) : ℕ) := by
    rw [e1, e2]
    rfl
  unfold paillierGen at h
  dsimp only at h
  rw [hk] at h
  split_ifs at h with hprime hmod
  push Not at hprime hmod
  obtain ⟨-, -, ha⟩ := hprime
  have hpos := ha.pos
  have e3 : a'.toNat = a' := toNat_of_nonneg (by omega)
  rw [← e3, ← ofNat_tmod] at hmod
  have hdvd : a'.toNat ∣ Nat.lcm (p - 1) (q - 1) := Nat.dvd_of_mod_eq_zero (by exact_mod_cast hmod)
  obtain ⟨b, hb⟩ := hdvd
  have hexp : ((Nat.lcm (p - 1) (q - 1) : ℕ) : ℤ).tdiv a' = b := by
    rw [← e3, ← ofNat_tdiv, hb, Nat.mul_div_cancel_left b hpos]
  rw [hexp, powm_of_pos hn (natCast_nonneg b)] at h
  refine ⟨a'.toNat, b, e3.symm, ha, ?_, ?_, ?_⟩
  · rw [← Option.some.inj h]
    exact mod_modEq _ _
  · rw [mul_comm, ← hb]
    exact Nat.dvd_lcm_left _ _
  · rw [mul_comm, ← hb]
    exact Nat.dvd_lcm_right _ _

/-- The basis has an order that divides `a`, modulo an odd prime of the key. -/
theorem pow_basis_modEq_one {l b : ℕ} (hl : l.Prime) (hl2 : l ≠ 2) (hn : (l : ℤ) ∣ n)
    (hg : g ≡ 2 ^ b [ZMOD n]) (hdvd : l - 1 ∣ b * a) : g ^ a ≡ 1 [ZMOD l] := by
  have hcop : IsCoprime (2 : ℤ) l := by
    exact_mod_cast Nat.isCoprime_iff_coprime.mpr
      ((Nat.coprime_primes Nat.prime_two hl).mpr (hl2.symm))
  obtain ⟨c, hc⟩ := hdvd
  calc g ^ a ≡ (2 ^ b) ^ a [ZMOD l] := (hg.of_dvd hn).pow a
    _ = (2 ^ (l - 1)) ^ c := by rw [← pow_mul, hc, pow_mul]
    _ ≡ 1 ^ c [ZMOD l] := (Int.ModEq.pow_card_sub_one_eq_one hl hcop).pow c
    _ = 1 := one_pow c

theorem PaillierPriv.makeFast_spec {a' : ℤ} (h : makeFast n1 n2 a' = some key) :
    ∃ (p q a b : ℕ) (g : ℤ), p.Prime ∧ q.Prime ∧ p < q ∧ a.Prime ∧
      key = paillierKey p q true a g (g ^ (p * q) % (p * q * (p * q))) ∧
      g ≡ 2 ^ b [ZMOD p * q] ∧ p - 1 ∣ b * a ∧ q - 1 ∣ b * a := by
  have hnew : ∀ {p q : ℕ} (a : ℕ) g, p.Prime → q.Prime → p < q →
      newFast p q a g (some (p * q)) =
        some (paillierKey p q true a g (g ^ (p * q) % (p * q * (p * q)))) := by
    intro p q a g hp hq hpq
    rw [newFast, getD_some, PaillierPub.new_fast hp hq]
    exact init_eq hp hq hpq
  have hbad : ¬ (n1 = n2 ∨ n1 ≤ 1 ∨ n2 ≤ 1 ∨ ¬ n1.toNat.Prime ∨ ¬ n2.toNat.Prime ∨
      ¬ a'.toNat.Prime) := by
    intro hbad
    rw [makeFast, if_pos hbad] at h
    cases h
  rw [makeFast, if_neg hbad] at h
  push Not at hbad
  obtain ⟨hne, h1, h2, hp, hq, -⟩ := hbad
  have e1 : n1.toNat = n1 := toNat_of_nonneg (by omega)
  have e2 : n2.toNat = n2 := toNat_of_nonneg (by omega)
  obtain ⟨g, hgen, h⟩ := Option.bind_eq_some_iff.mp h
  rw [← e1, ← e2] at hgen h
  have hn : (0 : ℤ) < n1.toNat * n2.toNat := mul_pos (by omega) (by omega)
  obtain ⟨a, b, rfl, ha, hg, hd1, hd2⟩ := paillierGen_spec hn hp hq hgen
  split_ifs at h with hlt
  · have hpq : n1.toNat < n2.toNat := by exact_mod_cast hlt
    rw [hnew a g hp hq hpq] at h
    exact ⟨_, _, a, b, g, hp, hq, hpq, ha, (Option.some.inj h).symm, hg, hd1, hd2⟩
  · have hqp : n2.toNat < n1.toNat := by omega
    rw [mul_comm (n1.toNat : ℤ)] at h hg
    rw [hnew a g hq hp hqp] at h
    exact ⟨_, _, a, b, g, hq, hp, hqp, ha, (Option.some.inj h).symm, hg, hd2, hd1⟩

/-- Both kinds of keys have a proper basis if the values that `init` inverts have inverses. -/
theorem PaillierPriv.exists_basis (h : makeSlow n1 n2 = some key ∨
      ∃ a, makeFast n1 n2 a = some key) (hp : Int.gcd (paillierL key.lp key.twoP
      (key.g ^ (if key.fast then key.a else key.p1).toNat % key.psq)) key.p = 1)
    (hq : Int.gcd (paillierL key.lq key.twoQ
      (key.g ^ (if key.fast then key.a else key.q1).toNat % key.qsq)) key.q = 1) :
    ∃ (p q : ℕ) (fast : Bool) (a : ℕ) (g gn : ℤ), key = paillierKey p q fast a g gn ∧
      PaillierBasis p q fast a g gn := by
  have hexp : ∀ {l : ℕ} fast (a : ℕ), l.Prime →
      (if fast then (a : ℤ) else l - 1).toNat = halfExp fast a l := by
    intro l fast a hl
    rw [halfExp]
    split_ifs
    · exact toNat_natCast a
    · omega
  rcases h with h | ⟨a', h⟩
  · obtain ⟨p, q, hpp, hqp, hpq, rfl⟩ := makeSlow_spec h
    change Int.gcd (paillierL _ _ (2 ^ (if false then ((0 : ℕ) : ℤ) else p - 1).toNat % _)) p
      = 1 at hp
    change Int.gcd (paillierL _ _ (2 ^ (if false then ((0 : ℕ) : ℤ) else q - 1).toNat % _)) q
      = 1 at hq
    rw [hexp false 0 hpp] at hp
    rw [hexp false 0 hqp] at hq
    have hone : ∀ {l : ℕ}, l.Prime → l ≠ 2 → 2 ^ halfExp false 0 l ≡ 1 [ZMOD l] := by
      intro l hl hl2
      apply Int.ModEq.pow_card_sub_one_eq_one hl
      exact_mod_cast Nat.isCoprime_iff_coprime.mpr
        ((Nat.coprime_primes Nat.prime_two hl).mpr (hl2.symm))
    exact ⟨p, q, false, 0, 2, 0, rfl,
      { hp := hpp, hq := hqp, lt := hpq, left := hp, right := hq, pos := by simp
        left_one := hone hpp (ne_two_of_gcd_basisLog hp)
        right_one := hone hqp (ne_two_of_gcd_basisLog hq)
        gn_eq := by simp }⟩
  · obtain ⟨p, q, a, b, g, hpp, hqp, hpq, ha, rfl, hg, hd1, hd2⟩ := makeFast_spec h
    exact ⟨p, q, true, a, g, _, rfl,
      { hp := hpp, hq := hqp, lt := hpq, left := hp, right := hq, pos := fun _ => ha.pos
        left_one := pow_basis_modEq_one hpp (ne_two_of_gcd_basisLog hp) (intro _ rfl) hg hd1
        right_one := pow_basis_modEq_one hqp (ne_two_of_gcd_basisLog hq) (intro_left _ rfl) hg hd2
        gn_eq := fun _ => mod_modEq _ _ }⟩

theorem Homomorphic.plaintext_bounds (hn : 0 < n) {x : Homomorphic} (h : x.Proper n) :
    0 ≤ x.plaintext n ∧ x.plaintext n < n := by
  cases x with
  | encrypt msg r => exact h.1
  | add x y | mult x cons => exact ⟨emod_nonneg _ hn.ne', emod_lt_of_pos _ hn⟩

theorem PaillierBasis.exists_ciphertext {fast : Bool} (h : PaillierBasis p q fast a g gn)
    {x : Homomorphic} (hx : x.Proper (p * q)) :
    ∃ c, x.ciphertext (paillierKey p q fast a g gn).toPaillierPub = some c ∧
      Opens p q fast a g c (x.plaintext (p * q)) := by
  induction x with
  | encrypt msg r =>
    obtain ⟨⟨hm0, hm⟩, ⟨hr0, -⟩, hr⟩ := hx
    obtain ⟨c, hc, hopens⟩ := h.encrypt_spec hm0 hm hr0 hr
    refine ⟨c, ?_, hopens⟩
    rw [Homomorphic.ciphertext, hc]
    rfl
  | add x y ihx ihy =>
    obtain ⟨c, hc, hcx⟩ := ihx hx.1
    obtain ⟨d, hd, hdy⟩ := ihy hx.2
    refine ⟨_, ?_, (hcx.add gn hdy).congr_log (mod_modEq _ _)⟩
    rw [Homomorphic.ciphertext, hc, bind_some, hd, map_some]
  | mult x cons ih =>
    obtain ⟨c, hc, hcx⟩ := ih hx
    obtain ⟨d, hd, hopens⟩ := h.mult_spec hcx cons
    refine ⟨d, ?_, hopens.congr_log (mod_modEq _ _)⟩
    rw [Homomorphic.ciphertext, hc, bind_some, hd]

/-- Decryption inverts encryption, and turns products and powers of ciphertexts into sums and
multiples of plaintexts. -/
theorem paillier_decrypts {n1 n2 : ℤ} {key : PaillierPriv}
    (hkey : makeSlow n1 n2 = some key ∨
      ∃ a, makeFast n1 n2 a = some key) (hp : Int.gcd (paillierL key.lp key.twoP
      (key.g ^ (if key.fast then key.a else key.p1).toNat % key.psq)) key.p = 1)
    (hq : Int.gcd (paillierL key.lq key.twoQ
      (key.g ^ (if key.fast then key.a else key.q1).toNat % key.qsq)) key.q = 1) {x : Homomorphic}
    (hx : x.Proper key.n) :
    ∃ c, x.ciphertext key.toPaillierPub = some c ∧ key.D c = some (x.plaintext key.n) := by
  obtain ⟨p, q, fast, a, g, gn, rfl, hbasis⟩ := exists_basis hkey hp hq
  have hn : (0 : ℤ) < p * q := by
    have := hbasis.hp.pos
    have := hbasis.hq.pos
    positivity
  obtain ⟨c, hc, hopens⟩ := hbasis.exists_ciphertext hx
  obtain ⟨h0, hlt⟩ := Homomorphic.plaintext_bounds hn hx
  refine ⟨c, hc, ?_⟩
  rw [PaillierPriv.D_spec hbasis.toInvertible hopens, emod_eq_of_lt h0 hlt]
  rfl

/-- The slow key of three and five, and three times a sum taken away. -/
theorem paillier_decrypts_three_five :
    ∃ key, makeSlow 5 3 = some key ∧
      ∃ c, (((Homomorphic.encrypt 4 2).add (.encrypt 7 7)).mult (-3)).ciphertext
        key.toPaillierPub = some c ∧ key.D c = some 12 := by
  have hkey : makeSlow 5 3 = some (paillierKey 3 5 false 0 2 0) := by
    decide +kernel
  refine ⟨_, hkey, ?_⟩
  have hx : (((Homomorphic.encrypt 4 2).add (.encrypt 7 7)).mult (-3)).Proper
      (paillierKey 3 5 false 0 2 0).n := by
    refine ⟨⟨by decide, by decide, ?_⟩, by decide, by decide, ?_⟩
    · exact ⟨-7, 1, by decide⟩
    · exact ⟨-2, 1, by decide⟩
  exact paillier_decrypts (.inl hkey) (by decide +kernel) (by decide +kernel) hx

end Making

end SelfCertifyingFS.Crypt
