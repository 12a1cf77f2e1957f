import Mathlib.Data.List.GetD
import Sfs.Crypt.MpzRaw

/-!
# Large integers survive as bytes

What the loops over limbs compute: the bytes of the magnitude in either order, the
remainder of a negative number, and the two's complement in both directions. A number
comes back from its bytes if the buffer has room for it and its sign; with `xdr_mpz_t`,
if its size fits into 31 bits.
-/

namespace SelfCertifyingFS.Crypt

open Foundations Rpc List Nat Option

variable {L : ℕ} {order : ByteOrder}

/-! ### Copies -/

theorem copyLimb_self {src : Bytes} (h : src.length = L) : copyLimb L (fun n => n) src = src := by
  apply ext_getElem
  · simp [copyLimb, h]
  · intro i hi _
    have hlt : i < src.length := by simpa [copyLimb, h] using hi
    simp [copyLimb, hlt]

theorem copyLimb_lswap {src : Bytes} (h : src.length = L) :
    copyLimb L (lswap L) src = src.reverse := by
  apply ext_getElem
  · simp [copyLimb, h]
  · intro i hi _
    have hlt : i < L := by simpa [copyLimb] using hi
    have hswap : lswap L i = L - 1 - i := by
      rw [lswap, div_eq_of_lt hlt, mod_eq_of_lt hlt, Nat.zero_mul, Nat.zero_add]
    have hback : L - 1 - i < src.length := by omega
    have hget : src.getD (L - 1 - i) 0 = src[L - 1 - i] := getD_eq_getElem src 0 hback
    simp [copyLimb, hswap, h, -getD_eq_getElem?_getD, hget]

theorem copyLimb_lePos (v : Limb L) :
    copyLimb L (lePos order L) (limbBytes order v) = leBytes L v.val := by
  cases order with
  | big => exact copyLimb_lswap (length_beBytes L v.val)
  | little => exact copyLimb_self (length_leBytes L v.val)

theorem copyLimb_bePos (v : Limb L) :
    copyLimb L (bePos order L) (limbBytes order v) = (leBytes L v.val).reverse := by
  cases order with
  | big => exact (copyLimb_self (length_beBytes L v.val)).trans (reverse_reverse _).symm
  | little => exact copyLimb_lswap (length_leBytes L v.val)

theorem bytesLimb_lePos {bs : Bytes} (h : bs.length = L) :
    (bytesLimb order (copyLimb L (lePos order L) bs) : Limb L).val = leNat bs := by
  have hlt : leNat bs < 256 ^ L := h ▸ leNat_lt bs
  cases order with
  | big =>
    change beNat (copyLimb L (lswap L) bs) % 256 ^ L = leNat bs
    rw [copyLimb_lswap h]
    exact mod_eq_of_lt hlt
  | little =>
    change leNat (copyLimb L (fun n => n) bs) % 256 ^ L = leNat bs
    rw [copyLimb_self h, mod_eq_of_lt hlt]

theorem bytesLimb_bePos {bs : Bytes} (h : bs.length = L) :
    (bytesLimb order (copyLimb L (bePos order L) bs) : Limb L) =
      bytesLimb order (copyLimb L (lePos order L) bs.reverse) := by
  have hrev : bs.reverse.length = L := by rw [length_reverse, h]
  cases order with
  | big =>
    change bytesLimb .big (copyLimb L (fun n => n) bs) = bytesLimb .big (copyLimb L (lswap L) _)
    rw [copyLimb_self h, copyLimb_lswap hrev, reverse_reverse]
  | little =>
    change bytesLimb .little (copyLimb L (lswap L) bs) =
      bytesLimb .little (copyLimb L (fun n => n) _)
    rw [copyLimb_self hrev, copyLimb_lswap h]

namespace MpInt

variable {z : MpInt L} {b k : ℕ} {buf bs : Bytes}

/-! ### Output -/

theorem spread_eq (n v : ℕ) : spread n v = leBytes n v := by
  induction n generalizing v with
  | zero => rfl
  | succ n ih =>
    have hbyte : UInt8.ofNat v = UInt8.ofNat (v % 256) := by
      apply UInt8.toNat_inj.mp
      simp
    rw [spread, leBytes_succ, ih, shiftRight_eq_div_pow, ← hbyte]

theorem spreadDown_eq (n v : ℕ) : spreadDown n v = (spread n v).reverse := by
  induction n generalizing v with
  | zero => rfl
  | succ n ih => rw [spreadDown, spread, reverse_cons, ih]

variable (limbs : List (Limb L))

theorem rawTail_eq {n : ℕ} (hn : n < L) :
    rawTail spread n limbs = leBytes n (mag limbs) := by
  cases limbs with
  | nil => exact (leBytes_zero n).symm
  | cons v limbs =>
    have hpow : 256 ^ L * mag limbs = 256 ^ n * (256 ^ (L - n) * mag limbs) := by
      rw [← Nat.mul_assoc, ← pow_add, Nat.add_sub_cancel' hn.le]
    rw [rawTail, if_pos hn, spread_eq, mag_cons, hpow, leBytes_add_mul]

theorem copyOut_eq {n : ℕ} (hn : n < L) :
    let r := copyOut (fun v => leBytes L v.val) k limbs
    r.1.flatten ++ rawTail spread (L * k + n - r.1.flatten.length) r.2 =
      leBytes (L * k + n) (mag limbs) := by
  induction k generalizing limbs with
  | zero =>
    have hcopy : copyOut (fun v => leBytes L v.val) 0 limbs = ([], limbs) := by
      cases limbs <;> rfl
    rw [hcopy]
    simpa using rawTail_eq limbs hn
  | succ k ih =>
    cases limbs with
    | nil => exact (leBytes_zero _).symm
    | cons v limbs =>
      have hsize : L * (k + 1) + n = L + (L * k + n) := by ring
      have hlen : ∀ m, L + (L * k + n) - (L + m) = L * k + n - m := fun m => by omega
      rw [copyOut, mag_cons, hsize, leBytes_limb _ _ _ _ v.isLt, ← ih limbs]
      dsimp only
      rw [flatten_cons, length_append, length_leBytes, hlen, append_assoc]

/-- `mpz_get_rawmag_le` writes the low bytes of the magnitude. -/
theorem getRawmagLe_eq (hL : 0 < L) (size : ℕ) :
    getRawmagLe order size limbs = leBytes size (mag limbs) := by
  have hsize : L * (size / L) + size % L = size := div_add_mod size L
  have h := @copyOut_eq L (size / L) limbs (size % L) (mod_lt size hL)
  rw [hsize] at h
  simp only [getRawmagLe, copyLimb_lePos]
  exact h

theorem copyOut_reverse (copy : Limb L → Bytes) (k : ℕ) :
    copyOut (fun v => (copy v).reverse) k limbs =
      ((copyOut copy k limbs).1.map List.reverse, (copyOut copy k limbs).2) := by
  induction k generalizing limbs with
  | zero => cases limbs <;> rfl
  | succ k ih =>
    cases limbs with
    | nil => rfl
    | cons v limbs => rw [copyOut, ih]; rfl

theorem rawTail_reverse (n : ℕ) :
    rawTail spreadDown n limbs = (rawTail spread n limbs).reverse := by
  cases limbs with
  | nil => exact List.reverse_replicate.symm
  | cons v limbs =>
    unfold rawTail
    split_ifs
    · exact spreadDown_eq n v.val
    · exact List.reverse_replicate.symm

/-- `mpz_get_rawmag_be` writes the same bytes the other way round. -/
theorem getRawmagBe_eq_reverse (size : ℕ) :
    getRawmagBe order size limbs = (getRawmagLe order size limbs).reverse := by
  simp only [getRawmagBe, getRawmagLe, copyLimb_lePos, copyLimb_bePos]
  rw [copyOut_reverse _ (fun v => leBytes L v.val)]
  rw [← reverse_flatten, length_reverse, reverse_append, rawTail_reverse]

theorem getRawmagBe_eq (hL : 0 < L) (size : ℕ) :
    getRawmagBe order size limbs = beBytes size (mag limbs) := by
  rw [getRawmagBe_eq_reverse, getRawmagLe_eq _ hL, leBytes, reverse_reverse]

/-! ### Input -/

theorem gather_eq (h : bs.length ≤ L) : (gather bs : Limb L).val = beNat bs := by
  induction bs using List.reverseRecOn with
  | nil => rfl
  | append_singleton bs b ih =>
    have hlen : bs.length + 1 ≤ L := by simpa using h
    have hb : b.toNat < 2 ^ 8 := b.toNat_lt
    have hlt : beNat bs * 256 + b.toNat < 256 ^ L := by
      have hall := beNat_lt (bs ++ [b])
      rw [beNat_append_singleton, length_append] at hall
      exact hall.trans_le (Nat.pow_le_pow_right (by decide) hlen)
    have hstep : (gather (bs ++ [b]) : Limb L) =
        Fin.ofNat (256 ^ L) ((gather bs : Limb L).val <<< 8 ||| b.toNat) := by
      unfold gather
      rw [foldl_append]
      rfl
    rw [hstep, ih (by omega), ← shiftLeft_add_eq_or_of_lt hb, shiftLeft_eq, beNat_append_singleton]
    exact mod_eq_of_lt hlt

theorem copyIn_spec {copy : Bytes → Limb L} (hcopy : ∀ bs, bs.length = L → (copy bs).val = leNat bs)
    (h : L * k ≤ buf.length) :
    (copyIn copy k buf).1.length = k ∧ (copyIn copy k buf).2 = buf.drop (L * k) ∧
      mag (copyIn copy k buf).1 = leNat (buf.take (L * k)) := by
  induction k generalizing buf with
  | zero => simp [copyIn, leNat]
  | succ k ih =>
    have hsize : L * (k + 1) = L + L * k := by ring
    rw [hsize] at h ⊢
    obtain ⟨hlen, hrest, hmag⟩ := @ih (buf.drop L) (by rw [length_drop]; omega)
    refine ⟨?_, ?_, ?_⟩
    · rw [copyIn, length_cons, hlen]
    · rw [copyIn, hrest, drop_drop]
    · have htake : (buf.take L).length = L := length_take_of_le (by omega)
      rw [copyIn, mag_cons, hmag, hcopy _ htake, take_add, leNat_append, htake]

/-- `mpz_set_rawmag_le` reads the number, without leading zeros. -/
theorem mag_setRawmagLe (hL : 0 < L) (buf : Bytes) :
    mag (setRawmagLe order buf : MpInt L).limbs = leNat buf := by
  have hsize : L * (buf.length / L) ≤ buf.length := mul_div_le _ _
  obtain ⟨hlen, hrest, hmag⟩ := @copyIn_spec L _ _
    (fun bs => bytesLimb order (copyLimb L (lePos order L) bs)) (fun _ => bytesLimb_lePos) hsize
  set size := L * (buf.length / L)
  have hsplit : leNat buf = leNat (buf.take size) + 256 ^ size * leNat (buf.drop size) := by
    have happend := leNat_append (buf.take size) (buf.drop size)
    rwa [take_append_drop, length_take_of_le hsize] at happend
  have hshort : (buf.drop size).length ≤ L := by
    rw [length_drop]
    have hmod := div_add_mod buf.length L
    have hlt := mod_lt buf.length hL
    omega
  change mag (trim _) = leNat buf
  rw [mag_trim, hrest, hsplit]
  split_ifs with hnil
  · rw [mag_append, mag_cons, hmag, hlen, gather_eq (by rwa [length_reverse]), ← pow_mul]
    rfl
  · rw [hmag, not_not.mp hnil]
    rfl

theorem copyInDown_eq (copy : Bytes → Limb L) (h : L * k ≤ buf.length) :
    copyInDown copy k buf =
      ((copyIn (fun bs => copy bs.reverse) k buf.reverse).1,
        (copyIn (fun bs => copy bs.reverse) k buf.reverse).2.reverse) := by
  induction k generalizing buf with
  | zero => simp [copyInDown, copyIn]
  | succ k ih =>
    have hsize : L * (k + 1) = L + L * k := by ring
    have htake : (buf.take (buf.length - L)).reverse = buf.reverse.drop L := by
      rw [reverse_take, Nat.sub_sub_self (by omega)]
    have hdrop : (buf.reverse.take L).reverse = buf.drop (buf.length - L) := by
      rw [take_reverse, reverse_reverse]
    rw [copyInDown, copyIn, ih (by rw [length_take]; omega), htake]
    rw [hdrop]

theorem copyIn_congr {f g : Bytes → Limb L} (hfg : ∀ bs, bs.length = L → f bs = g bs)
    (h : L * k ≤ buf.length) : copyIn f k buf = copyIn g k buf := by
  induction k generalizing buf with
  | zero => rfl
  | succ k ih =>
    have hsize : L * (k + 1) = L + L * k := by ring
    rw [copyIn, copyIn, ih (by rw [length_drop]; omega), hfg _ (length_take_of_le (by omega))]

/-- `mpz_set_rawmag_be` reads the same number from the bytes the other way round. -/
theorem setRawmagBe_eq (buf : Bytes) :
    (setRawmagBe order buf : MpInt L) = setRawmagLe order buf.reverse := by
  have hsize : L * (buf.length / L) ≤ buf.length := mul_div_le _ _
  have hcopy : ∀ bs, bs.length = L →
      (bytesLimb order (copyLimb L (bePos order L) bs.reverse) : Limb L) =
        bytesLimb order (copyLimb L (lePos order L) bs) := by
    intro bs hbs
    rw [bytesLimb_bePos (by rwa [length_reverse]), reverse_reverse]
  unfold setRawmagBe setRawmagLe
  rw [copyInDown_eq _ hsize, copyIn_congr hcopy (by rwa [length_reverse]), length_reverse]
  simp only [ne_eq, reverse_eq_nil_iff]

theorem mag_setRawmagBe (hL : 0 < L) (buf : Bytes) :
    mag (setRawmagBe order buf : MpInt L).limbs = beNat buf := by
  rw [setRawmagBe_eq, mag_setRawmagLe hL, leNat, reverse_reverse]

/-! ### Values -/

theorem val_ofLimbs : (ofLimbs limbs).val = mag limbs :=
  congrArg Nat.cast (mag_trim limbs)

theorem val_of_not_neg (h : z.neg = false) : z.val = mag z.limbs := by
  rw [val, h]
  rfl

theorem val_of_neg (h : z.neg = true) : z.val = -(mag z.limbs : ℤ) := by
  rw [val, h]
  rfl

theorem natAbs_val (z : MpInt L) : z.val.natAbs = mag z.limbs := by
  unfold val
  split_ifs <;> simp

theorem val_negated (z : MpInt L) : z.negated.val = -z.val := by
  cases hlimbs : z.limbs with
  | nil =>
    have hneg : z.negated.neg = false := z.negated_sign hlimbs
    rw [val_of_not_neg hneg, val_of_not_neg (z.sign hlimbs)]
    change (mag z.limbs) = -(mag z.limbs : ℤ)
    rw [hlimbs]
    rfl
  | cons v limbs =>
    have hneg : z.negated.neg = !z.neg := by
      change (!z.limbs.isEmpty && !z.neg) = !z.neg
      rw [hlimbs]
      rfl
    cases hz : z.neg with
    | false =>
      rw [val_of_neg (hneg.trans (by rw [hz]; rfl)), val_of_not_neg hz]
      rfl
    | true =>
      rw [val_of_not_neg (hneg.trans (by rw [hz]; rfl)), val_of_neg hz, neg_neg]
      rfl

/-! ### Remainder -/

/-- The limbs for `b` bits, with the mask for the highest one. -/
theorem two_pow_eq_limbs (hL : 0 < L) (hb : 0 < b) :
    0 < limbsFor L b ∧ ∃ w, topMask L b = 2 ^ w - 1 ∧
      (256 ^ L) ^ (limbsFor L b - 1) * 2 ^ w = 2 ^ b ∧ 2 ^ b ∣ (256 ^ L) ^ limbsFor L b := by
  have hbase : 256 ^ L = 2 ^ (8 * L) := by rw [pow_mul]; rfl
  have hbits : 0 < 8 * L := by omega
  obtain ⟨s, hs⟩ : ∃ s, s = (8 * L - b % (8 * L)) % (8 * L) := ⟨_, rfl⟩
  have hlt : s < 8 * L := hs ▸ mod_lt _ hbits
  have hsum : 8 * L * limbsFor L b = b + s := hs ▸ mul_div_round_up hbits b
  have hN : 0 < limbsFor L b := by
    apply Nat.pos_of_ne_zero
    intro hzero
    rw [hzero] at hsum
    omega
  refine ⟨hN, 8 * L - s, ?_, ?_, ?_⟩
  · rw [topMask, hbase, ← hs, ones_shiftRight hlt.le]
  · have hpred : 8 * L * limbsFor L b = 8 * L * (limbsFor L b - 1) + 8 * L := by
      rw [← mul_succ, succ_eq_add_one, Nat.sub_add_cancel hN]
    rw [hbase, ← pow_mul, ← pow_add]
    congr 1
    omega
  · rw [hbase, ← pow_mul, hsum]
    exact pow_dvd_pow 2 (Nat.le_add_right b s)

theorem val_tdivR2exp (hL : 0 < L) (hz : z.neg = false) (b : ℕ) :
    (z.tdivR2exp b).val = z.val % 2 ^ b := by
  have hcast : z.val % 2 ^ b = ((mag z.limbs % 2 ^ b : ℕ) : ℤ) := by
    rw [val_of_not_neg hz]
    norm_cast
  rcases Nat.eq_zero_or_pos b with rfl | hb
  · have hzero : limbsFor L 0 = 0 := div_eq_of_lt (by omega)
    rw [tdivR2exp, hzero, hcast, pow_zero, mod_one]
    rfl
  · obtain ⟨hN, w, hmask, hpow, hdvd⟩ := two_pow_eq_limbs hL hb
    rw [tdivR2exp]
    split_ifs with hlen
    · -- The number is too short to be reduced.
      have hlt : mag z.limbs < 2 ^ b := by
        calc mag z.limbs < (256 ^ L) ^ z.limbs.length := mag_lt z.limbs
          _ ≤ (256 ^ L) ^ (limbsFor L b - 1) :=
            Nat.pow_le_pow_right (Nat.pow_pos (by decide)) (by omega)
          _ ≤ 2 ^ b := hpow ▸ Nat.le_mul_of_pos_right _ (Nat.two_pow_pos w)
      rw [hcast, mod_eq_of_lt hlt, val_of_not_neg hz]
    · have htake : (z.limbs.take (limbsFor L b)).length = limbsFor L b :=
        length_take_of_le (not_lt.mp hlen)
      have hne : z.limbs.take (limbsFor L b) ≠ [] := ne_nil_of_length_pos (by omega)
      rw [val_ofLimbs, hmask, mag_maskTop w hne, htake, hpow, mag_take, mod_mod_of_dvd _ hdvd,
        hcast]

theorem val_umod2exp_of_neg (hL : 0 < L) (hz : z.neg = true) (hb : 0 < b) :
    (z.umod2exp b).val = z.val % 2 ^ b := by
  obtain ⟨hN, w, hmask, hpow, hdvd⟩ := two_pow_eq_limbs hL hb
  obtain ⟨hnone, hsome⟩ := negate_spec (limbsFor L b) z.limbs
  have hmag := div_add_mod (mag z.limbs) ((256 ^ L) ^ limbsFor L b)
  rw [← mag_take] at hmag
  rw [val_of_neg hz]
  cases hneg : negate (limbsFor L b) z.limbs with
  | none =>
    rw [hnone hneg] at hmag
    have hdiv : (2 ^ b : ℤ) ∣ mag z.limbs := by
      rw [← hmag]
      exact_mod_cast hdvd.mul_right _
    rw [umod2exp, if_pos hz, hneg, Int.emod_eq_zero_of_dvd (hdiv.neg_right)]
    rfl
  | some r =>
    obtain ⟨hlen, hsum, -⟩ := hsome r hneg
    have hne : r ≠ [] := ne_nil_of_length_pos (by omega)
    -- What the loops leave differs from the negative number by a multiple.
    have hdiv : (2 ^ b) ∣ mag r - -(mag z.limbs : ℤ) := by
      have hnat : 2 ^ b ∣ mag r + mag z.limbs := by
        rw [← hmag, Nat.add_left_comm, hsum]
        exact (hdvd.mul_right _).add hdvd
      rw [sub_neg_eq_add]
      exact_mod_cast hnat
    simp only [umod2exp, hz, hneg, if_true]
    rw [val_ofLimbs, hmask, mag_maskTop w hne, hlen, hpow]
    exact Int.emod_eq_emod_iff_emod_sub_eq_zero.mpr (Int.emod_eq_zero_of_dvd hdiv)

/-- `mpz_umod_2exp` is the remainder, for every sign. -/
theorem val_umod2exp (hL : 0 < L) (z : MpInt L) (b : ℕ) : (z.umod2exp b).val = z.val % 2 ^ b := by
  cases hz : z.neg with
  | false =>
    have hcode : z.umod2exp b = z.tdivR2exp b := by simp [umod2exp, hz]
    rw [hcode, val_tdivR2exp hL hz]
  | true =>
    rcases Nat.eq_zero_or_pos b with rfl | hb
    · have hzero : limbsFor L 0 = 0 := div_eq_of_lt (by omega)
      have hneg : negate (limbsFor L 0) z.limbs = none := by rw [hzero, negate.eq_def]
      rw [umod2exp, if_pos hz, hneg, pow_zero, Int.emod_one]
      rfl
    · exact val_umod2exp_of_neg hL hz hb

/-! ### Sizes -/

/-- `mpz_sizeinbase2` is the number of bits. -/
theorem sizeinbase2_eq (z : MpInt L) : z.sizeinbase2 = nbits z.val := by
  have hplace : ∀ n, (256 ^ L) ^ n = 2 ^ (8 * L * n) := by
    intro n
    rw [pow_mul, pow_mul]
    rfl
  have hzero : z.val = 0 ↔ mag z.limbs = 0 := by rw [← natAbs_val, Int.natAbs_eq_zero]
  unfold sizeinbase2 nbits
  rcases eq_nil_or_concat' z.limbs with hnil | ⟨init, v, hlimbs⟩
  · rw [if_pos (hzero.mpr (by rw [hnil, mag_nil])), hnil]
    rfl
  · have hv : v.val ≠ 0 := by
      have hlast := z.normal (by rw [hlimbs]; simp)
      simpa [hlimbs] using hlast
    set k := 8 * L * init.length
    have hmag : mag z.limbs = mag init + 2 ^ k * v.val := by
      rw [hlimbs, mag_append, mag_cons, mag_nil, Nat.mul_zero, Nat.add_zero, hplace]
    have hinit : mag init < 2 ^ k := hplace init.length ▸ mag_lt init
    have hlow := log2_self_le hv
    have hhigh : v.val < 2 ^ (v.val.log2 + 1) := lt_log2_self
    have hne : mag z.limbs ≠ 0 := by
      have hpos := Nat.mul_pos (Nat.two_pow_pos k) (Nat.pos_of_ne_zero hv)
      omega
    have hlog : (mag z.limbs).log2 = k + v.val.log2 := by
      rw [log2_eq_iff hne, Nat.add_assoc, pow_add, pow_add, hmag]
      constructor
      · exact (Nat.mul_le_mul_left _ hlow).trans (Nat.le_add_left _ _)
      · calc mag init + 2 ^ k * v.val < 2 ^ k + 2 ^ k * v.val := Nat.add_lt_add_right hinit _
          _ = 2 ^ k * (v.val + 1) := by ring
          _ ≤ 2 ^ k * 2 ^ (v.val.log2 + 1) := Nat.mul_le_mul_left _ hhigh
    have hlen : z.limbs.length = init.length + 1 := by rw [hlimbs]; simp
    have hget : (z.limbs.getD init.length 0).val = v.val := by rw [hlimbs]; simp
    rw [if_neg (fun h => hne (hzero.mp h)), natAbs_val, hlog, hlen, sizeinbase2Loop, hget,
      if_pos hv, Async.fls, if_neg hv, Nat.add_assoc]

theorem rawsize_eq (z : MpInt L) : z.rawsize = Rpc.rawsize z.val := by
  unfold rawsize Rpc.rawsize
  rw [sizeinbase2_eq]
  dsimp only
  rw [shiftRight_eq_div_pow]
  split_ifs <;> first | rfl | contradiction

/-! ### Complement -/

theorem beBytes_mod (k n : ℕ) : beBytes k (n % 256 ^ k) = beBytes k n := by
  have hle : leBytes k n = leBytes k (n % 256 ^ k) := by
    rw [← leBytes_add_mul k (n % 256 ^ k) (n / 256 ^ k), mod_add_div]
  exact (reverse_injective hle).symm

/-- `mpz_get_raw` writes the two's complement. -/
theorem getRaw_eq (hL : 0 < L) (size : ℕ) (z : MpInt L) :
    z.getRaw order size = twosBytes size z.val := by
  have hbits : (2 : ℤ) ^ (size * 8) = 256 ^ size := by
    rw [Nat.mul_comm, pow_mul]
    norm_num
  unfold getRaw twosBytes
  cases hz : z.neg with
  | true =>
    have hmag : mag (z.umod2exp (size * 8)).limbs = (z.val % 256 ^ size).toNat := by
      rw [← natAbs_val, val_umod2exp hL, hbits]
      omega
    rw [if_pos rfl, getRawmagBe_eq _ hL, hmag]
  | false =>
    have hmag : (z.val % 256 ^ size).toNat = mag z.limbs % 256 ^ size := by
      rw [val_of_not_neg hz]
      exact_mod_cast Int.toNat_natCast _
    rw [if_neg Bool.false_ne_true, getRawmagBe_eq _ hL, hmag, beBytes_mod]

theorem sign_byte (b : UInt8) : b &&& 0x80 ≠ 0 ↔ 128 ≤ b.toNat := by
  revert b
  apply forall_byte
  decide +kernel

theorem beNat_cons_bounds (b : UInt8) (bs : Bytes) :
    b.toNat * 256 ^ bs.length ≤ beNat (b :: bs) ∧
      beNat (b :: bs) < (b.toNat + 1) * 256 ^ bs.length := by
  have hlt := beNat_lt bs
  have hval : beNat (b :: bs) = beNat bs + 256 ^ bs.length * b.toNat := by
    have h := leNat_append bs.reverse [b]
    have hone : leNat [b] = b.toNat := by simp [leNat, beNat]
    rw [hone] at h
    simpa [leNat] using h
  rw [Nat.add_mul, Nat.mul_comm]
  omega

/-- `mpz_set_raw` reads the two's complement. -/
theorem val_setRaw (hL : 0 < L) (bs rest : Bytes) (beyond : UInt8) :
    (setRaw order (bs ++ rest) bs.length beyond : MpInt L).val = twosInt bs := by
  have hbits : (2 : ℤ) ^ (8 * bs.length) = 256 ^ bs.length := by
    rw [pow_mul]
    norm_num
  have hmp : (setRawmagBe order bs : MpInt L).val = beNat bs := by
    rw [← mag_setRawmagBe hL]
    rfl
  have hneg : ((setRawmagBe order bs : MpInt L).negated.umod2exp (8 * bs.length)).negated.val =
      -(-(beNat bs) % 256 ^ bs.length) := by
    rw [val_negated, val_umod2exp hL, val_negated, hmp, hbits]
  have hcode : (setRaw order (bs ++ rest) bs.length beyond : MpInt L).val =
      if (bs ++ rest).headD beyond &&& 0x80 ≠ 0 then -(-(beNat bs : ℤ) % 256 ^ bs.length)
      else beNat bs := by
    unfold setRaw
    rw [take_left' rfl, ← hneg, ← hmp]
    split_ifs <;> rfl
  rw [hcode]
  cases bs with
  | nil =>
    -- No byte belongs to the number, and the sign makes no difference.
    split_ifs <;> rfl
  | cons b bs =>
    obtain ⟨hlow, hhigh⟩ := beNat_cons_bounds b bs
    have hlen : 256 ^ (b :: bs).length = 256 * 256 ^ bs.length := by
      rw [length_cons, pow_succ, Nat.mul_comm]
    have hall := beNat_lt (b :: bs)
    have hsign : (b :: bs ++ rest).headD beyond &&& 0x80 ≠ 0 ↔
        ¬ 2 * beNat (b :: bs) < 256 ^ (b :: bs).length := by
      rw [cons_append, headD_cons, sign_byte]
      constructor
      · intro hb
        have hmul := Nat.mul_le_mul_right (256 ^ bs.length) hb
        omega
      · intro hle
        by_contra hb
        have hmul : (b.toNat + 1) * 256 ^ bs.length ≤ 128 * 256 ^ bs.length :=
          Nat.mul_le_mul_right _ (by omega)
        omega
    unfold twosInt
    by_cases hneg : 2 * beNat (b :: bs) < 256 ^ (b :: bs).length
    · rw [if_neg (fun h => hsign.mp h hneg), if_pos hneg]
    · have hval : -(beNat (b :: bs) : ℤ) % 256 ^ (b :: bs).length =
          256 ^ (b :: bs).length - beNat (b :: bs) := by
        rw [← Int.add_emod_right, Int.emod_eq_of_lt] <;> zify at hall hneg <;> omega
      rw [if_pos (hsign.mpr hneg), if_neg hneg, hval, neg_sub]

/-! ### Round trip -/

theorem twosInt_twosBytes_of_rawsize {z : ℤ} (h : Rpc.rawsize z ≤ k) :
    twosInt (twosBytes k z) = z := by
  have hbound := two_mul_natAbs_lt z h
  have hcast : 256 ^ k = ((256 ^ k : ℕ) : ℤ) := by rfl
  apply twosInt_twosBytes
  · omega
  · omega

theorem val_setRaw_getRaw (hL : 0 < L) {size : ℕ} (h : z.rawsize ≤ size) (beyond : UInt8) :
    (setRaw order (z.getRaw order size) size beyond : MpInt L).val = z.val := by
  have hread := @val_setRaw L order hL (twosBytes size z.val) [] beyond
  rw [append_nil, length_twosBytes] at hread
  rw [getRaw_eq hL, hread, twosInt_twosBytes_of_rawsize (z.rawsize_eq ▸ h)]

theorem exists_mpInt (hL : 0 < L) (n : ℤ) : ∃ z : MpInt L, z.val = n := by
  refine ⟨setRaw .little (twosBytes (Rpc.rawsize n) n ++ [])
    (twosBytes (Rpc.rawsize n) n).length 0, ?_⟩
  rw [val_setRaw hL, twosInt_twosBytes_of_rawsize le_rfl]

theorem xdrPut_eq (hL : 0 < L) (z : MpInt L) : z.xdrPut order = xdrMpz.put z.val := by
  simp only [xdrPut, rawsize_eq, getRaw_eq hL, xdrMpz]

/-- What `xdr_mpz_t` reads, as an integer. -/
theorem xdrGet_eq (hL : 0 < L) (beyond : UInt8) (bs : Bytes) :
    (xdrGet order beyond bs : Option (MpInt L × Bytes)).map (fun p => (p.1.val, p.2)) =
      xdrMpz.get bs := by
  unfold xdrGet xdrMpz
  rw [map_bind]
  refine congrArg _ (funext fun p => ?_)
  rw [Function.comp_apply]
  split_ifs with hbig
  · rfl
  · unfold getPadded Wire.takeBytes
    split_ifs with hlen
    · have hsize : p.1 ≤ p.2.length := (le_pad4 p.1).trans hlen
      have hread := @val_setRaw L order hL (p.2.take p.1) (p.2.drop p.1) beyond
      rw [take_append_drop, length_take_of_le hsize] at hread
      have htake : (p.2.take (pad4 p.1)).take p.1 = p.2.take p.1 := by
        rw [take_take, Nat.min_eq_left (le_pad4 p.1)]
      simp only [map_some, hread, htake]
    · rfl

/-- An encoding whose size does not fit is refused, or it is that of another number. -/
theorem fits_of_xdrMpz_get {z : ℤ} (h : xdrMpz.get (xdrMpz.put z) = some (z, [])) : MpzFits z := by
  obtain ⟨size, hsize⟩ : ∃ size, size = pad4 (Rpc.rawsize z) % 2 ^ 32 := ⟨_, rfl⟩
  have hlt : size < 2 ^ 32 := hsize ▸ mod_lt _ (by decide)
  have hput : xdrMpz.put z = xdrInt.put size ++ twosBytes size z := by
    rw [hsize]
    rfl
  have hint := xdrInt_carries hlt (twosBytes size z)
  rw [hput] at h
  simp only [xdrMpz] at h
  rw [hint, bind_some] at h
  split_ifs at h with hbig
  obtain ⟨q, hq, hval⟩ := map_eq_some_iff.mp h
  have hbytes : q.1 = twosBytes size z := by
    have hpad : pad4 size = size := by
      rw [hsize]
      unfold pad4
      omega
    rw [getPadded, hpad, Wire.takeBytes, if_pos (length_twosBytes size z).ge, map_some] at hq
    obtain rfl := some.inj hq
    rw [take_take, Nat.min_self, take_of_length_le (length_twosBytes size z).le]
  have hz : twosInt (twosBytes size z) = z := by
    rw [← hbytes]
    exact (Prod.mk.inj hval).1
  -- A number of so many bytes has hardly more bits.
  have habs : z.natAbs < 2 ^ (8 * size + 1) := by
    have hnat := beNat_lt (twosBytes size z)
    have hpow : 256 ^ size = 2 ^ (8 * size) := by rw [pow_mul]; rfl
    rw [length_twosBytes] at hnat
    have hcast : 256 ^ size = ((2 ^ (8 * size) : ℕ) : ℤ) := by rw [← hpow]; rfl
    rw [← hz, twosInt, length_twosBytes]
    split_ifs <;> omega
  have hraw : Rpc.rawsize z ≤ size + 1 := by
    have hbits := nbits_le habs
    unfold Rpc.rawsize
    split_ifs <;> omega
  unfold MpzFits
  have hpad := pad4_lt (Rpc.rawsize z)
  omega

theorem mpz_xdr_iff (hL : 0 < L) (z : MpInt L) (beyond : UInt8) :
    (xdrGet order beyond (z.xdrPut order) : Option (MpInt L × Bytes)).map
        (fun p => (p.1.val, p.2)) = some (z.val, []) ↔ pad4 z.rawsize < 2 ^ 31 := by
  rw [xdrGet_eq hL, xdrPut_eq hL, rawsize_eq]
  constructor
  · exact fits_of_xdrMpz_get
  · intro hfits
    have hcarries := xdrMpz_carries hfits []
    rwa [append_nil] at hcarries

/-- Integers as bytes, for every size of limbs and byte order of the host: the two's complement
comes back from every buffer that has room, the magnitude is written in both orders modulo the
size, and the external representation comes back if its size is less than `2 ^ 31`. -/
theorem mpz_bytes_round_trip {L : ℕ} (hL : 0 < L) (order : ByteOrder) (z : MpInt L) :
    (∀ size, z.rawsize ≤ size → ∀ beyond,
      (setRaw order (z.getRaw order size) size beyond : MpInt L).val = z.val) ∧
      (∀ size, getRawmagLe order size z.limbs = (getRawmagBe order size z.limbs).reverse ∧
        (getRawmagBe order size z.limbs).length = size ∧
        beNat (getRawmagBe order size z.limbs) = z.val.natAbs % 256 ^ size) ∧
      ∀ beyond, (xdrGet order beyond (z.xdrPut order) : Option (MpInt L × Bytes)).map
        (fun p => (p.1.val, p.2)) = some (z.val, []) ↔ pad4 z.rawsize < 2 ^ 31 := by
  refine ⟨fun size hsize beyond => ?_, fun size => ⟨?_, ?_, ?_⟩, fun beyond => ?_⟩
  · exact val_setRaw_getRaw hL hsize beyond
  · rw [getRawmagBe_eq_reverse, reverse_reverse]
  · rw [getRawmagBe_eq _ hL, length_beBytes]
  · rw [getRawmagBe_eq _ hL, natAbs_val, ← beBytes_mod,
      beNat_beBytes (mod_lt _ (Nat.pow_pos (by decide)))]
  · exact mpz_xdr_iff hL z beyond

theorem mpz_bytes_round_trip_eight :
    ∃ z : MpInt 8, z.val = -300 ∧
      (setRaw .little (z.getRaw .little 2) 2 0 : MpInt 8).val = z.val := by
  obtain ⟨z, hz⟩ := @exists_mpInt 8 (by decide) (-300)
  have hsize : z.rawsize ≤ 2 := by
    rw [rawsize_eq, hz]
    decide
  exact ⟨z, hz, (mpz_bytes_round_trip (by decide) .little z).1 2 hsize 0⟩

theorem xdrGet_of_large (beyond : UInt8) (hlow : 2 ^ 31 ≤ pad4 z.rawsize)
    (hhigh : pad4 z.rawsize < 2 ^ 32) :
    (xdrGet order beyond (z.xdrPut order) : Option (MpInt L × Bytes)) = none := by
  have hmod : pad4 z.rawsize % 2 ^ 32 = pad4 z.rawsize := mod_eq_of_lt hhigh
  have hint := xdrInt_carries hhigh (z.getRaw order (pad4 z.rawsize))
  simp only [xdrPut, hmod, xdrGet]
  rw [hint, bind_some, if_pos hlow]

theorem nbits_two_pow (k : ℕ) : nbits (2 ^ k) = k + 1 := by
  have habs : ((2 : ℤ) ^ k).natAbs = 2 ^ k := by rfl
  rw [nbits, if_neg (by positivity), habs, log2_two_pow]

/-- An integer of two gigabytes has an external representation that is refused. -/
theorem xdr_large_refused :
    ∃ z : MpInt 8, z.val = 2 ^ (2 ^ 34) ∧
      (xdrGet .little 0 (z.xdrPut .little) : Option (MpInt 8 × Bytes)) = none := by
  obtain ⟨k, hk⟩ : ∃ k, k = 2 ^ 34 := ⟨_, rfl⟩
  rw [← hk]
  obtain ⟨z, hz⟩ := @exists_mpInt 8 (by decide) (2 ^ k)
  have hsize : z.rawsize = (k + 1) / 8 + 1 := by
    rw [rawsize_eq, hz, Rpc.rawsize, nbits_two_pow, if_neg (succ_ne_zero k)]
  have hpad : pad4 z.rawsize = 2 ^ 31 + 4 := by
    rw [hsize, hk]
    rfl
  exact ⟨z, hz, xdrGet_of_large 0 (by omega) (by omega)⟩

end MpInt

end SelfCertifyingFS.Crypt
