import Sfs.Async.Bbuddy
import Sfs.Foundations.Buddy
import Sfs.Foundations.Runs

/-!
# Runs of the buddy allocator

Each bit vector stands for the finite set of the free positions of its level. The
free blocks of all levels and the blocks in use tile the managed area; every loop of
the allocator is a sequence of moves of such a tiling.
-/

namespace SelfCertifyingFS.Async

open Foundations Option Function Nat Finset Bbuddy

/-- The bit vector has `nb` bits, and those of the positions in `S` are set. -/
structure Bbfree.Holds (b : Bbfree) (nb : ℕ) (S : Finset ℕ) : Prop where
  nbits : b.nbits = nb
  nmaps : b.nmaps = (nb + 63) / 64
  bits : ∀ pos < b.nmaps * 64, bitAt b.map pos = decide (pos ∈ S)
  inside : ∀ pos ∈ S, pos < nb
  cnt : b.cnt = S.card
  hint : b.hint = 0 ∨ b.hint < b.nmaps

namespace Bbfree.Holds

variable {b : Bbfree} {nb pos : ℕ} {S : Finset ℕ}

theorem new : Bbfree.new.Holds 0 ∅ where
  nbits := rfl
  nmaps := rfl
  bits _ h := absurd h (Nat.not_lt_zero _)
  inside _ h := absurd h (notMem_empty _)
  cnt := rfl
  hint := .inl rfl

section

variable (h : b.Holds nb S)

include h

theorem lt_nmaps (hpos : pos < nb) : pos < b.nmaps * 64 := by
  have := h.nmaps
  omega

theorem bitAt_eq (hpos : pos < nb) : bitAt b.map pos = decide (pos ∈ S) :=
  h.bits pos (h.lt_nmaps hpos)

theorem init (junk : ℕ → MapT) {nb' : ℕ} (hle : nb ≤ nb') :
    ∃ b', b.init junk nb' = some b' ∧ b'.Holds nb' S := by
  have hmaps := h.nmaps
  refine ⟨_, if_pos (h.nbits ▸ hle), rfl, rfl, ?_, fun p hp => (h.inside p hp).trans_le hle,
    h.cnt, ?_⟩
  · intro p hp
    simp only [h.nbits] at hp ⊢
    rw [bitAt_rangeClr _ (by omega)]
    by_cases hold : p < nb
    · have hword : p / 64 < (nb + 63) / 64 := by omega
      have hin : ¬(nb ≤ p ∧ p < (nb' + 63) / 64 * 64) := by omega
      rw [bitAt, if_pos hword, decide_eq_false hin, Bool.not_false, Bool.and_true]
      exact h.bitAt_eq hold
    · have hin : nb ≤ p ∧ p < (nb' + 63) / 64 * 64 := by omega
      rw [decide_eq_true hin, Bool.not_true, Bool.and_false]
      exact (decide_eq_false fun hmem => hold (h.inside p hmem)).symm
  · refine h.hint.imp_right fun hlt => ?_
    simp only
    omega

theorem getbit (hpos : pos < nb) : b.getbit pos = some (decide (pos ∈ S)) := by
  rw [Bbfree.getbit, if_pos (h.nbits ▸ hpos), h.bitAt_eq hpos]

theorem setbit (hpos : pos < nb) (hnew : pos ∉ S) :
    ∃ b', b.setbit pos = some b' ∧ b'.Holds nb (insert pos S) := by
  have hclear : b.map (pos / 64) &&& 1#64 <<< (pos % 64) = 0 := by
    rw [bitAt_eq_false_iff, h.bitAt_eq hpos, decide_eq_false hnew]
  refine ⟨_, if_pos ⟨h.nbits ▸ hpos, hclear⟩, h.nbits, h.nmaps, ?_, ?_, ?_, ?_⟩
  · intro p hp
    have hbit := bitAt_update_or b.map pos p
    rw [h.bits p hp] at hbit
    rw [Bool.eq_iff_iff]
    exact (congrArg (· = true) hbit).to_iff.trans (by simp [or_comm])
  · intro p hp
    rcases mem_insert.mp hp with rfl | hp
    · exact hpos
    · exact h.inside p hp
  · rw [card_insert_of_notMem hnew, ← h.cnt]
  · have := h.lt_nmaps hpos
    simp only
    split_ifs
    · omega
    · exact h.hint

theorem clrbit (hold : pos ∈ S) : ∃ b', b.clrbit pos = some b' ∧ b'.Holds nb (S.erase pos) := by
  have hpos := h.inside pos hold
  have hset : b.map (pos / 64) &&& 1#64 <<< (pos % 64) ≠ 0 := by
    rw [Ne, bitAt_eq_false_iff, h.bitAt_eq hpos, decide_eq_true hold]
    exact Bool.true_eq_false_eq_False
  refine ⟨_, if_pos ⟨h.nbits ▸ hpos, hset⟩, h.nbits, h.nmaps, ?_, ?_, ?_, h.hint⟩
  · intro p hp
    have hbit := bitAt_update_and b.map pos p
    rw [h.bits p hp] at hbit
    rw [Bool.eq_iff_iff]
    exact (congrArg (· = true) hbit).to_iff.trans (by simp [and_comm])
  · intro p hp
    exact h.inside p (mem_of_mem_erase hp)
  · rw [card_erase_of_mem hold, ← h.cnt]

/-- In a word that is not zero the position of a free block is found. -/
theorem mem_of_ffs {i : ℕ} (hi : i < b.nmaps) (hword : b.map i ≠ 0) :
    i * 64 + ffs (b.map i).toNat - 1 ∈ S := by
  obtain ⟨hbit, hpos, hle⟩ := getLsbD_ffs hword
  have hdiv : (i * 64 + ffs (b.map i).toNat - 1) / 64 = i := by omega
  have hmod : (i * 64 + ffs (b.map i).toNat - 1) % 64 = ffs (b.map i).toNat - 1 := by omega
  apply of_decide_eq_true
  rw [← h.bits _ (by omega), bitAt, hdiv, hmod, hbit]

theorem findbit :
    ∃ r b', b.findbit = some (r, b') ∧ b'.Holds nb S ∧ ∀ pos, r = some pos → pos ∈ S := by
  have hmaps := h.nmaps
  have hbits := h.nbits
  unfold Bbfree.findbit
  by_cases hempty : b.cnt = 0 ∨ b.nbits = 0
  · rw [if_pos hempty]
    exact ⟨none, b, rfl, h, by simp⟩
  · rw [if_neg hempty]
    by_cases hhint : b.map b.hint ≠ 0
    · rw [if_pos hhint]
      refine ⟨_, b, rfl, h, ?_⟩
      rintro _ ⟨⟩
      exact h.mem_of_ffs (by have := h.hint; omega) hhint
    · rw [if_neg hhint]
      -- some bit is set, so the search through all words does not fail
      obtain ⟨p, hp⟩ : S.Nonempty := Finset.card_pos.mp (by have := h.cnt; omega)
      have hword : b.map (p / 64) ≠ 0 := by
        intro hzero
        have hbit := h.bitAt_eq (h.inside p hp)
        rw [bitAt, hzero, getLsbD_zero_word, decide_eq_true hp] at hbit
        cases hbit
      have hmem : p / 64 ∈ List.range b.nmaps := by
        have := h.lt_nmaps (h.inside p hp)
        exact List.mem_range.mpr (by omega)
      cases hfind : (List.range b.nmaps).find? (fun i => b.map i ≠ 0) with
      | none =>
        exact absurd (decide_eq_true hword) (List.find?_eq_none.mp hfind _ hmem)
      | some i =>
        have hi := List.mem_range.mp (List.mem_of_find?_eq_some hfind)
        have hne : b.map i ≠ 0 := by simpa using List.find?_some hfind
        refine ⟨_, _, rfl, { h with hint := .inr hi }, ?_⟩
        rintro _ ⟨⟩
        exact h.mem_of_ffs hi hne

end

end Bbfree.Holds

variable (F : ℕ → Finset ℕ)

/-- The free blocks, given the free positions of each level. -/
def freeBlocks : Set Block := {x | x.pos ∈ F x.log}

theorem freeBlocks_insert (sn pos : ℕ) :
    freeBlocks (update F sn (insert pos (F sn))) = insert ⟨sn, pos⟩ (freeBlocks F) := by
  ext ⟨log, p⟩
  by_cases hlog : log = sn <;> simp [freeBlocks, update_apply, hlog]

theorem freeBlocks_erase (sn pos : ℕ) :
    freeBlocks (update F sn ((F sn).erase pos)) = freeBlocks F \ {⟨sn, pos⟩} := by
  ext ⟨log, p⟩
  by_cases hlog : log = sn <;> simp [freeBlocks, update_apply, hlog, and_comm]

namespace Bbuddy

theorem min_le_level (b : Bbuddy) {len : ℕ} : b.log2minalloc ≤ b.level len := by
  unfold level
  split_ifs
  · exact le_rfl
  · omega

theorem splitDown_zero (sni pos : ℕ) (b : Bbuddy) : splitDown 0 sni pos b = none := by
  induction sni generalizing pos b with
  | zero => rfl
  | succ sni ih =>
    rw [splitDown]
    cases b.setbit sni (pos <<< 1 + 1) with
    | none => rfl
    | some b' => exact ih (pos <<< 1) b'

/-- The vectors are sized for the area below `lim`. The area below `area` is tiled by
the blocks they contain, which `F` lists by levels, and by the blocks `held`. -/
structure Tiled (b : Bbuddy) (lim area : ℕ) (F : ℕ → Finset ℕ) (held : List Block) : Prop where
  levels : ∀ sn, b.log2minalloc ≤ sn → sn ≤ b.log2maxalloc →
    (b.freemaps (sn - b.log2minalloc)).Holds (lim / 2 ^ sn) (F sn)
  tiling : Tiling area (freeBlocks F) held
  within : area ≤ lim
  aligned : 2 ^ b.log2maxalloc ∣ lim

namespace Tiled

variable {b : Bbuddy} {lim area sn pos : ℕ} {F : ℕ → Finset ℕ} {held : List Block}

theorem fm_eq (hlo : b.log2minalloc ≤ sn) (hhi : sn ≤ b.log2maxalloc) :
    b.fm sn = some (b.freemaps (sn - b.log2minalloc)) := if_pos ⟨hlo, hhi⟩

section

variable (h : b.Tiled lim area F held)

include h

theorem pos_lt {x : Block} (hx : x ∈ freeBlocks F ∨ x ∈ held) : x.pos < lim / 2 ^ x.log := by
  have hstop : (x.pos + 1) * 2 ^ x.log ≤ area := h.tiling.inside x hx
  exact (Nat.le_div_iff_mul_le (Nat.two_pow_pos x.log)).mpr (hstop.trans h.within)

theorem buddy_lt (hhi : sn < b.log2maxalloc) (hlt : pos < lim / 2 ^ sn) :
    pos ^^^ 1 < lim / 2 ^ sn := by
  have hdvd : 2 ^ sn * 2 ∣ lim := pow_succ 2 sn ▸ (pow_dvd_pow 2 hhi).trans h.aligned
  obtain ⟨m, rfl⟩ := hdvd
  rw [Nat.mul_assoc, Nat.mul_div_cancel_left _ (Nat.two_pow_pos sn)] at hlt ⊢
  have := Block.xor_one pos
  omega

theorem levels_put {bf : Bbfree} {S : Finset ℕ} (hlo : b.log2minalloc ≤ sn)
    (hbf : bf.Holds (lim / 2 ^ sn) S) (sn' : ℕ)
    (hlo' : b.log2minalloc ≤ sn') (hhi' : sn' ≤ b.log2maxalloc) :
    (update b.freemaps (sn - b.log2minalloc) bf (sn' - b.log2minalloc)).Holds
      (lim / 2 ^ sn') (update F sn S sn') := by
  by_cases heq : sn' = sn
  · subst heq
    rw [update_self, update_self]
    exact hbf
  · rw [update_of_ne (by omega), update_of_ne heq]
    exact h.levels sn' hlo' hhi'

variable (hlo : b.log2minalloc ≤ sn) (hhi : sn ≤ b.log2maxalloc)

include hlo hhi

theorem clrbit (hfree : pos ∈ F sn) : ∃ fm, b.clrbit sn pos = some { b with freemaps := fm } ∧
      Tiled { b with freemaps := fm } lim area (update F sn ((F sn).erase pos))
        (⟨sn, pos⟩ :: held) := by
  obtain ⟨bf, hclr, hbf⟩ := (h.levels sn hlo hhi).clrbit hfree
  refine ⟨(b.putFm sn bf).freemaps, ?_, h.levels_put hlo hbf, ?_, h.within, h.aligned⟩
  · simp only [Bbuddy.clrbit, fm_eq hlo hhi, hclr, bind_eq_bind, bind_some]
    rfl
  · rw [freeBlocks_erase]
    exact h.tiling.take hfree

theorem findbit : ∃ r fm, b.findbit sn = some (r, { b with freemaps := fm }) ∧
      Tiled { b with freemaps := fm } lim area F held ∧ ∀ pos, r = some pos → pos ∈ F sn := by
  obtain ⟨r, bf, hfind, hbf, hr⟩ := (h.levels sn hlo hhi).findbit
  refine ⟨r, (b.putFm sn bf).freemaps, ?_, ⟨?_, h.tiling, h.within, h.aligned⟩, hr⟩
  · simp only [Bbuddy.findbit, fm_eq hlo hhi, hfind, bind_eq_bind, bind_some]
    rfl
  · have hlevels := h.levels_put hlo hbf
    rwa [update_eq_self] at hlevels

theorem getbit (hlt : pos < lim / 2 ^ sn) : b.getbit sn pos = some (decide (pos ∈ F sn)) := by
  simp only [Bbuddy.getbit, fm_eq hlo hhi]
  exact (h.levels sn hlo hhi).getbit hlt

end

theorem setbit (h : b.Tiled lim area F (⟨sn, pos⟩ :: held)) (hlo : b.log2minalloc ≤ sn)
    (hhi : sn ≤ b.log2maxalloc) :
    ∃ fm F', b.setbit sn pos = some { b with freemaps := fm } ∧
      Tiled { b with freemaps := fm } lim area F' held := by
  have hnew : pos ∉ F sn := h.tiling.not_free
  have hlt : pos < lim / 2 ^ sn := h.pos_lt (.inr List.mem_cons_self)
  obtain ⟨bf, hset, hbf⟩ := (h.levels sn hlo hhi).setbit hlt hnew
  refine ⟨(b.putFm sn bf).freemaps, _, ?_, h.levels_put hlo hbf, ?_, h.within, h.aligned⟩
  · simp only [Bbuddy.setbit, fm_eq hlo hhi, hset, bind_eq_bind, bind_some]
    rfl
  · rw [freeBlocks_insert]
    exact h.tiling.give

variable {k sni : ℕ}

/-- Merging gives the block back, as part of a larger one if its buddy was free. -/
theorem mergeUp (h : b.Tiled lim area F (⟨sni, pos⟩ :: held)) (hlo : b.log2minalloc ≤ sni)
    (hk : sni + k = b.log2maxalloc) :
    ∃ fm F', mergeUp k sni pos b = some { b with freemaps := fm } ∧
      Tiled { b with freemaps := fm } lim area F' held := by
  induction k generalizing b sni pos F with
  | zero =>
    obtain rfl : sni = b.log2maxalloc := hk
    exact h.setbit hlo le_rfl
  | succ k ih =>
    have hhi : sni ≤ b.log2maxalloc := by omega
    have hlt : pos < lim / 2 ^ sni := h.pos_lt (.inr List.mem_cons_self)
    have hbuddy := h.buddy_lt (by omega) hlt
    rw [mergeUp, h.getbit hlo hhi hbuddy, bind_eq_bind, bind_some]
    by_cases hfree : pos ^^^ 1 ∈ F sni
    · obtain ⟨fm, hclr, h'⟩ := h.clrbit hlo hhi hfree
      rw [if_pos (decide_eq_true hfree), hclr]
      have hparent : Tiled { b with freemaps := fm } lim area
          (update F sni ((F sni).erase (pos ^^^ 1)))
          (⟨sni + 1, pos >>> 1⟩ :: held) := by
        refine ⟨h'.levels, ?_, h'.within, h'.aligned⟩
        rw [freeBlocks_erase]
        exact h.tiling.merge hfree
      exact ih hparent (le_succ_of_le hlo) (by simp only; omega)
    · rw [if_neg (by simpa using hfree)]
      exact h.setbit hlo hhi

theorem splitDown (h : b.Tiled lim area F (⟨sni, pos⟩ :: held)) (hlo : b.log2minalloc ≤ sn)
    (hpos : 0 < sn) (hle : sn ≤ sni) (hhi : sni ≤ b.log2maxalloc) :
    ∃ pos' fm F', splitDown sn sni pos b = some (pos', { b with freemaps := fm }) ∧
      Tiled { b with freemaps := fm } lim area F' (⟨sn, pos'⟩ :: held) := by
  induction sni generalizing b pos F with
  | zero => omega
  | succ sni ih =>
    rw [splitDown]
    by_cases hge : sni ≥ sn
    · rw [if_pos hge]
      have hhalves : b.Tiled lim area F (Block.upper sni pos :: Block.lower sni pos :: held) :=
        { h with tiling := h.tiling.halve }
      have hshl : pos <<< 1 = 2 * pos := by rw [shiftLeft_eq, Nat.mul_comm]
      obtain ⟨fm, F', hset, h'⟩ := hhalves.setbit (hlo.trans hge) (le_of_succ_le hhi)
      rw [hshl, hset]
      exact ih h' hlo hge (le_of_succ_le hhi)
    · obtain rfl : sn = sni + 1 := by omega
      rw [if_neg hge]
      exact ⟨pos, b.freemaps, F, rfl, h⟩

/-- The search through the levels above ends, and what it finds is free. -/
theorem searchUp (h : b.Tiled lim area F held) (hlo : b.log2minalloc ≤ sni)
    (hk : sni + k = b.log2maxalloc) :
    ∃ r fm, searchUp k sni b = some (r, { b with freemaps := fm }) ∧
      Tiled { b with freemaps := fm } lim area F held ∧
      ∀ sn pos, r = some (sn, pos) → sni < sn ∧ sn ≤ b.log2maxalloc ∧ pos ∈ F sn := by
  induction k generalizing b sni with
  | zero => exact ⟨none, b.freemaps, rfl, h, by simp⟩
  | succ k ih =>
    have hlo' : b.log2minalloc ≤ sni + 1 := le_succ_of_le hlo
    obtain ⟨r, fm, hfind, h', hr⟩ := h.findbit hlo' (by omega)
    rw [searchUp, hfind]
    cases r with
    | some pos =>
      refine ⟨_, fm, rfl, h', ?_⟩
      rintro _ _ ⟨⟩
      exact ⟨lt_succ_self sni, by omega, hr pos rfl⟩
    | none =>
      obtain ⟨r, fm', hsearch, h'', hr'⟩ := ih h' hlo' (by simp only; omega)
      refine ⟨r, fm', hsearch, h'', fun sn pos hsome => ?_⟩
      obtain ⟨hlt, hle, hmem⟩ := hr' sn pos hsome
      exact ⟨by omega, hle, hmem⟩

theorem dealloc {len : ℕ} (h : b.Tiled lim area F (⟨b.level len, pos⟩ :: held))
    (hmax : b.log2maxalloc < 31) (hlevel : b.level len ≤ b.log2maxalloc) :
    ∃ fm F', b.dealloc (pos * 2 ^ b.level len) len =
        some { b with freemaps := fm, spaceleft := b.spaceleft + 2 ^ b.level len } ∧
      Tiled { b with freemaps := fm, spaceleft := b.spaceleft + 2 ^ b.level len }
        lim area F' held := by
  have hshr : (pos * 2 ^ b.level len) >>> b.level len = pos := by
    rw [shiftRight_eq_div_pow, Nat.mul_div_cancel _ (Nat.two_pow_pos _)]
  have hshl : oneShl (b.level len) = some (2 ^ b.level len) := if_pos (hlevel.trans_lt hmax)
  simp only [Bbuddy.dealloc, if_neg (not_lt.mpr hlevel), hshr, shiftLeft_eq, hshl]
  have h' : Tiled { b with spaceleft := b.spaceleft + 2 ^ b.level len } lim area F
      (⟨b.level len, pos⟩ :: held) := ⟨h.levels, h.tiling, h.within, h.aligned⟩
  exact h'.mergeUp b.min_le_level (Nat.add_sub_cancel' hlevel)

/-- A request has no result only if it is for a single address; else it is refused or
takes a block of its level. -/
theorem alloc (h : b.Tiled lim area F held) (hmax : b.log2maxalloc < 31) (n : ℕ) :
    (b.level n = 0 ∧ b.alloc n = none) ∨
      (∃ fm, b.alloc n = some (none, { b with freemaps := fm }) ∧
        Tiled { b with freemaps := fm } lim area F held) ∨
      ∃ pos fm F', b.level n ≤ b.log2maxalloc ∧
        b.alloc n = some (some (pos * 2 ^ b.level n),
          { b with freemaps := fm, spaceleft := b.spaceleft - 2 ^ b.level n }) ∧
        Tiled { b with freemaps := fm, spaceleft := b.spaceleft - 2 ^ b.level n } lim area F'
          (⟨b.level n, pos⟩ :: held) := by
  unfold Bbuddy.alloc
  by_cases hbig : b.level n > b.log2maxalloc
  · simp only [if_pos hbig]
    exact .inr (.inl ⟨b.freemaps, rfl, h⟩)
  have hhi : b.level n ≤ b.log2maxalloc := not_lt.mp hbig
  have hshl : oneShl (b.level n) = some (2 ^ b.level n) := if_pos (hhi.trans_lt hmax)
  obtain ⟨r, fm, hfind, h', hr⟩ := h.findbit b.min_le_level hhi
  simp only [if_neg hbig, hfind, bind_eq_bind]
  cases r with
  | some pos =>
    obtain ⟨fm', hclr, h''⟩ := h'.clrbit b.min_le_level hhi (hr pos rfl)
    refine .inr (.inr ⟨pos, fm', _, hhi, ?_, h''.levels, h''.tiling, h''.within, h''.aligned⟩)
    simp only [hclr, hshl, bind_some, shiftLeft_eq]
    rfl
  | none =>
    obtain ⟨r, fm', hsearch, h'', hr'⟩ := h'.searchUp b.min_le_level (Nat.add_sub_cancel' hhi)
    simp only [hsearch, bind_some]
    cases r with
    | none => exact .inr (.inl ⟨fm', rfl, h''⟩)
    | some found =>
      obtain ⟨sni, pos⟩ := found
      obtain ⟨hlt, hle, hmem⟩ := hr' sni pos rfl
      obtain ⟨fm1, hclr, h1⟩ := h''.clrbit (b.min_le_level.trans hlt.le) hle hmem
      simp only [hclr, bind_some]
      by_cases hzero : b.level n = 0
      · simp only [hzero, splitDown_zero, bind_none]
        exact .inl ⟨trivial, trivial⟩
      · obtain ⟨pos', fm2, F2, hsplit, h2⟩ :=
          h1.splitDown b.min_le_level (Nat.pos_of_ne_zero hzero) hlt.le hle
        refine .inr (.inr ⟨pos', fm2, F2, hhi, ?_, h2.levels, h2.tiling, h2.within, h2.aligned⟩)
        simp only [hsplit, hshl, shiftLeft_eq]
        rfl

/-- The vectors grow level by level; their contents stay. -/
theorem initMaps_levels {lim' : ℕ} (junk : ℕ → ℕ → MapT) (hlim : lim ≤ lim')
    (hlo : b.log2minalloc ≤ sn) (hk : sn + k = b.log2maxalloc + 1)
    (h : ∀ sn', b.log2minalloc ≤ sn' → sn' ≤ b.log2maxalloc →
      (b.freemaps (sn' - b.log2minalloc)).Holds ((if sn' < sn then lim' else lim) / 2 ^ sn')
        (F sn')) :
    ∃ fm, initMaps junk k sn (lim' / 2 ^ sn) b = some { b with freemaps := fm } ∧
      ∀ sn', b.log2minalloc ≤ sn' → sn' ≤ b.log2maxalloc →
        (fm (sn' - b.log2minalloc)).Holds (lim' / 2 ^ sn') (F sn') := by
  induction k generalizing b sn with
  | zero =>
    refine ⟨b.freemaps, rfl, fun sn' hlo' hhi' => ?_⟩
    have h' := h sn' hlo' hhi'
    rwa [if_pos (by omega)] at h'
  | succ k ih =>
    have hhi : sn ≤ b.log2maxalloc := by omega
    have hold := h sn hlo hhi
    rw [if_neg (lt_irrefl sn)] at hold
    obtain ⟨bf, hinit, hbf⟩ := hold.init (junk sn) (Nat.div_le_div_right hlim)
    have hshr : (lim' / 2 ^ sn) >>> 1 = lim' / 2 ^ (sn + 1) := by
      rw [shiftRight_one, Nat.div_div_eq_div_mul, pow_succ]
    rw [initMaps, fm_eq hlo hhi, bind_eq_bind, bind_some, hinit, hshr]
    have hlo1 : (b.putFm sn bf).log2minalloc ≤ sn + 1 := le_succ_of_le hlo
    apply ih hlo1
    · simp only [putFm]
      omega
    · intro sn' hlo' hhi'
      simp only [putFm] at hlo' hhi' ⊢
      by_cases heq : sn' = sn
      · subst heq
        rw [update_self, if_pos (lt_succ_self _)]
        exact hbf
      · have hiff : sn' < sn + 1 ↔ sn' < sn := by omega
        rw [update_of_ne (by omega)]
        simp only [hiff]
        exact h sn' hlo' hhi'

/-- The new blocks of the largest size are freed one after the other. -/
theorem fillUp {ts p q fuel : ℕ} (h : b.Tiled ts (p * 2 ^ b.log2maxalloc) F held)
    (hts : ts = q * 2 ^ b.log2maxalloc) (hmax : b.log2maxalloc < 31)
    (hmin : b.log2minalloc ≤ b.log2maxalloc) (hpq : p ≤ q) (hfuel : q - p < fuel) :
    ∃ fm F' space, fillUp (2 ^ b.log2maxalloc) ts fuel (p * 2 ^ b.log2maxalloc) b =
        some { b with freemaps := fm, spaceleft := space } ∧
      space = b.spaceleft + (ts - p * 2 ^ b.log2maxalloc : ℤ) ∧
      Tiled { b with freemaps := fm, spaceleft := space } ts ts F' held := by
  induction fuel generalizing b p F with
  | zero => omega
  | succ fuel ih =>
    rw [fillUp]
    by_cases heq : p = q
    · subst heq
      rw [if_neg (by omega)]
      refine ⟨b.freemaps, F, b.spaceleft, rfl, ?_, hts ▸ h⟩
      rw [hts]
      push_cast
      ring
    · have hlt : p * 2 ^ b.log2maxalloc < ts :=
        hts ▸ Nat.mul_lt_mul_of_pos_right (by omega) (Nat.two_pow_pos _)
      have hle : (p + 1) * 2 ^ b.log2maxalloc ≤ ts := hts ▸ Nat.mul_le_mul_right _ (by omega)
      have hlevel : b.level (2 ^ b.log2maxalloc) = b.log2maxalloc := by
        rw [level, log2c_two_pow, if_neg (not_lt.mpr hmin)]
      have hgrow : b.Tiled ts ((p + 1) * 2 ^ b.log2maxalloc) F
          (⟨b.level (2 ^ b.log2maxalloc), p⟩ :: held) := by
        rw [hlevel]
        exact ⟨h.levels, h.tiling.grow, hle, h.aligned⟩
      obtain ⟨fm, F', hdealloc, h'⟩ := hgrow.dealloc hmax hlevel.le
      simp only [hlevel] at hdealloc h'
      rw [if_pos hlt, hdealloc, ← succ_mul]
      obtain ⟨fm', F'', space, hfill, hspace, h''⟩ := ih h' hts hmax hmin (by omega) (by omega)
      refine ⟨fm', F'', space, hfill, ?_, h''⟩
      rw [hspace]
      push_cast
      ring

/-- A total size is a multiple of the largest size, so no small blocks are left over. -/
theorem alignUp {o fuel : ℕ} (hmax : b.log2maxalloc < 31) (ho : 2 ^ b.log2maxalloc ∣ o) :
    Bbuddy.alignUp (fuel + 1) o b = some (o, b) := by
  simp only [Bbuddy.alignUp, if_pos (le_ffs_sub_one hmax ho)]

theorem settotsize (h : b.Tiled b.totsize b.totsize F held) (hmax : b.log2maxalloc < 31)
    (hmin : b.log2minalloc ≤ b.log2maxalloc) (junk : ℕ → ℕ → MapT) {ts : ℕ} (hts : b.totsize ≤ ts) :
    ∃ fm F' ts' space, b.settotsize junk ts =
        some { b with totsize := ts', freemaps := fm, spaceleft := space } ∧
      space = b.spaceleft + (ts' - b.totsize : ℤ) ∧
      Tiled { b with totsize := ts', freemaps := fm, spaceleft := space } ts' ts' F' held := by
  obtain ⟨p, hp⟩ := h.aligned
  obtain ⟨q, hq⟩ : 2 ^ b.log2maxalloc ∣ ts - ts % 2 ^ b.log2maxalloc := dvd_sub_mod ts
  rw [Nat.mul_comm] at hp hq
  set ts' := q * 2 ^ b.log2maxalloc
  have hpos := Nat.two_pow_pos b.log2maxalloc
  -- rounding does not go below the old size, which is a multiple as well
  have hpq : p ≤ q := by
    have hlt : ts < (q + 1) * 2 ^ b.log2maxalloc := by
      rw [succ_mul]
      omega
    have := Nat.lt_of_mul_lt_mul_right ((hp ▸ hts).trans_lt hlt)
    omega
  have hle : b.totsize ≤ ts' := hp ▸ Nat.mul_le_mul_right _ hpq
  have hold : ∀ sn, b.log2minalloc ≤ sn → sn ≤ b.log2maxalloc →
      (b.freemaps (sn - b.log2minalloc)).Holds
        ((if sn < b.log2minalloc then ts' else b.totsize) / 2 ^ sn) (F sn) := by
    intro sn hlo hhi
    rw [if_neg (not_lt.mpr hlo)]
    exact h.levels sn hlo hhi
  have hk : b.log2minalloc + (b.log2maxalloc + 1 - b.log2minalloc) = b.log2maxalloc + 1 := by
    omega
  obtain ⟨fm, hinit, hlevels⟩ := initMaps_levels junk hle le_rfl hk hold
  have h' : Tiled { b with freemaps := fm } ts' (p * 2 ^ b.log2maxalloc) F held :=
      ⟨hlevels, hp ▸ h.tiling, hp ▸ hle, Dvd.intro_left q rfl⟩
  simp only [Bbuddy.settotsize, oneShl, if_pos hmax, bind_eq_bind, bind_some, hq, if_pos hle,
    shiftRight_eq_div_pow, hinit]
  by_cases hgrow : b.totsize < ts'
  · have hfuel : q - p < ts' + 1 := by
      have := Nat.le_mul_of_pos_right q hpos
      omega
    obtain ⟨fm', F', space, hfill, hspace, h''⟩ := h'.fillUp rfl hmax hmin hpq hfuel
    have halign : Bbuddy.alignUp (ts' + 1) b.totsize { b with freemaps := fm } =
        some (b.totsize, { b with freemaps := fm }) := by
      apply alignUp
      · exact hmax
      · exact h.aligned
    simp only [← hp] at hfill
    simp only [if_pos hgrow, halign, bind_some, hfill]
    refine ⟨fm', F', ts', space, rfl, ?_, h''.levels, h''.tiling, le_rfl, h''.aligned⟩
    rw [hspace, hp]
    push_cast
    ring
  · rw [if_neg hgrow]
    have heq : b.totsize = ts' := by omega
    refine ⟨fm, F, ts', b.spaceleft, rfl, ?_, hlevels, heq ▸ h.tiling, le_rfl, Dvd.intro_left q rfl⟩
    rw [heq]
    ring

end Tiled

end Bbuddy

/-- An allocator and its live blocks, each with the length that was asked for. -/
structure BuddyState where
  bb : Bbuddy
  live : List (ℕ × ℕ)

inductive BuddyOp
  | alloc (n : ℕ)
  | dealloc (off len : ℕ)
  | settotsize (junk : ℕ → ℕ → MapT) (ts : ℕ)

namespace BuddyState

variable (s : BuddyState)

def size (len : ℕ) : ℕ := 2 ^ s.bb.level len

/-- A live block at this offset, of the same rounded size. -/
def isAt (off len : ℕ) (e : ℕ × ℕ) : Bool :=
  decide (e.1 = off ∧ s.bb.level e.2 = s.bb.level len)

/-- One call. Without a result the program has stopped. -/
def step : BuddyOp → Option BuddyState
  | .alloc n => do
    match ← s.bb.alloc n with
    | (some off, bb) => return ⟨bb, (off, n) :: s.live⟩
    | (none, bb) => return ⟨bb, s.live⟩
  | .dealloc off len => do
    return ⟨← s.bb.dealloc off len, s.live.eraseP (s.isAt off len)⟩
  | .settotsize junk ts => do
    return ⟨← s.bb.settotsize junk ts, s.live⟩

/-- Only live blocks are freed, and the area only grows. -/
def Allowed : BuddyOp → Prop
  | .alloc _ => True
  | .dealloc off len => ∃ e ∈ s.live, s.isAt off len e = true
  | .settotsize _ ts => s.bb.gettotsize ≤ ts

instance (s : BuddyState) (op : BuddyOp) : Decidable (s.Allowed op) :=
  match op with
  | .alloc _ => inferInstanceAs (Decidable True)
  | .dealloc off len => inferInstanceAs (Decidable (∃ e ∈ s.live, s.isAt off len e = true))
  | .settotsize _ ts => inferInstanceAs (Decidable (s.bb.gettotsize ≤ ts))

/-- The live blocks are large enough, aligned to their sizes, inside the area and
disjoint, and they account for the space that is not left. -/
structure Accounts (s : BuddyState) : Prop where
  fits : ∀ e ∈ s.live, e.2 ≤ s.size e.2
  aligned : ∀ e ∈ s.live, s.size e.2 ∣ e.1
  inside : ∀ e ∈ s.live, e.1 + s.size e.2 ≤ s.bb.gettotsize
  apart : s.live.Pairwise fun e e' => e.1 + s.size e.2 ≤ e'.1 ∨ e'.1 + s.size e'.2 ≤ e.1
  space : s.bb.space = s.bb.gettotsize - ((s.live.map fun e => s.size e.2).sum : ℕ)

/-- The block of the buddy system at an offset. -/
def blockOf (b : Bbuddy) (e : ℕ × ℕ) : Block := ⟨b.level e.2, e.1 / 2 ^ b.level e.2⟩

/-- The live blocks and the free ones tile the area. -/
structure Inv (s : BuddyState) : Prop where
  min_le : s.bb.log2minalloc ≤ s.bb.log2maxalloc
  max_lt : s.bb.log2maxalloc < 31
  tiled : ∃ F, s.bb.Tiled s.bb.totsize s.bb.totsize F (s.live.map (blockOf s.bb))
  level_le : ∀ e ∈ s.live, s.bb.level e.2 ≤ s.bb.log2maxalloc
  aligned : ∀ e ∈ s.live, e.1 = (blockOf s.bb e).start
  space : s.bb.spaceleft + ((s.live.map fun e => s.size e.2).sum : ℕ) = s.bb.totsize

variable {s : BuddyState}

theorem Inv.accounts (h : s.Inv) : s.Accounts := by
  obtain ⟨F, htiled⟩ := h.tiled
  have hstop : ∀ e ∈ s.live, (blockOf s.bb e).stop = e.1 + s.size e.2 := by
    intro e he
    rw [Block.stop_eq, ← h.aligned e he]
    rfl
  refine ⟨?_, ?_, ?_, ?_, ?_⟩
  · intro e _
    by_cases hzero : e.2 = 0
    · rw [hzero]
      exact Nat.zero_le _
    · apply ((log2c_le_iff hzero).mp le_rfl).trans
      apply Nat.pow_le_pow_right Nat.two_pos
      unfold level
      split_ifs
      · omega
      · exact le_rfl
  · intro e he
    rw [h.aligned e he]
    exact Dvd.intro_left _ rfl
  · intro e he
    rw [← hstop e he]
    exact htiled.tiling.inside _ (.inr (List.mem_map_of_mem he))
  · have hpair := List.pairwise_map.mp htiled.tiling.held_apart
    refine hpair.imp_of_mem fun {e e'} he he' hap => ?_
    rw [Block.Apart, hstop e he, hstop e' he', ← h.aligned e he, ← h.aligned e' he'] at hap
    exact hap
  · have := h.space
    simp only [Bbuddy.space, Bbuddy.gettotsize]
    omega

theorem Inv.alloc (h : s.Inv) (n : ℕ) :
    (s.bb.log2minalloc = 0 ∧ s.step (.alloc n) = none) ∨
      ∃ s', s.step (.alloc n) = some s' ∧ s'.Inv ∧ s'.bb.log2minalloc = s.bb.log2minalloc := by
  obtain ⟨F, htiled⟩ := h.tiled
  rcases htiled.alloc h.max_lt n with ⟨hzero, hnone⟩ | ⟨fm, hrefused, htiled'⟩ |
    ⟨pos, fm, F', hlevel, hok, htiled'⟩
  · refine .inl ⟨?_, ?_⟩
    · have hle : s.bb.log2minalloc ≤ s.bb.level n := s.bb.min_le_level
      omega
    · simp only [step, hnone, bind_eq_bind, bind_none]
  · refine .inr ⟨⟨{ s.bb with freemaps := fm }, s.live⟩, ?_, ?_, rfl⟩
    · simp only [step, hrefused]
      rfl
    · exact { h with tiled := ⟨F, htiled'⟩ }
  · refine .inr ⟨⟨{ s.bb with freemaps := fm, spaceleft := s.bb.spaceleft - 2 ^ s.bb.level n },
      (pos * 2 ^ s.bb.level n, n) :: s.live⟩, ?_, ?_, rfl⟩
    · simp only [step, hok]
      rfl
    · have hblock : blockOf s.bb (pos * 2 ^ s.bb.level n, n) = ⟨s.bb.level n, pos⟩ := by
        simp only [blockOf, Nat.mul_div_cancel _ (Nat.two_pow_pos _)]
      refine ⟨h.min_le, h.max_lt, ⟨F', ?_⟩, ?_, ?_, ?_⟩
      · rw [← hblock] at htiled'
        exact htiled'
      · rintro e (_ | ⟨_, he⟩)
        · exact hlevel
        · exact h.level_le e he
      · rintro e (_ | ⟨_, he⟩)
        · exact (congrArg Block.start hblock).symm
        · exact h.aligned e he
      · have := h.space
        simp only [List.map_cons, List.sum_cons, size, cast_add, cast_pow] at this ⊢
        rw [← this]
        simp only [level]
        ring

theorem Inv.dealloc (h : s.Inv) {off len : ℕ} (hallowed : s.Allowed (.dealloc off len)) :
    ∃ s', s.step (.dealloc off len) = some s' ∧ s'.Inv ∧
      s'.bb.log2minalloc = s.bb.log2minalloc := by
  obtain ⟨F, htiled⟩ := h.tiled
  obtain ⟨e, he, hat⟩ := hallowed
  obtain ⟨a, l1, l2, -, hat, hlive, herase⟩ := List.exists_of_eraseP he hat
  obtain ⟨rfl, hlevel⟩ := of_decide_eq_true hat
  have ha : a ∈ s.live := by simp [hlive]
  have hperm : s.live.Perm (a :: (l1 ++ l2)) := hlive ▸ List.perm_middle
  have hsub : ∀ c ∈ l1 ++ l2, c ∈ s.live := fun c hc => hperm.mem_iff.mpr (.tail a hc)
  -- the block is held on its own, and the others with their levels
  have hheld : s.bb.Tiled s.bb.totsize s.bb.totsize F
      (⟨s.bb.level len, a.1 / 2 ^ s.bb.level len⟩ :: (l1 ++ l2).map (blockOf s.bb)) := by
    have htiling := htiled.tiling.perm (hperm.map (blockOf s.bb))
    rw [List.map_cons, blockOf, hlevel] at htiling
    exact { htiled with tiling := htiling }
  have hoff : a.1 / 2 ^ s.bb.level len * 2 ^ s.bb.level len = a.1 := by
    rw [← hlevel]
    exact (h.aligned a ha).symm
  obtain ⟨fm, F', hok, htiled'⟩ := hheld.dealloc h.max_lt (hlevel ▸ h.level_le a ha)
  rw [hoff] at hok
  refine ⟨⟨{ s.bb with freemaps := fm, spaceleft := s.bb.spaceleft + 2 ^ s.bb.level len },
    l1 ++ l2⟩, ?_, ⟨h.min_le, h.max_lt, ⟨F', htiled'⟩, ?_, ?_, ?_⟩, rfl⟩
  · simp only [step, hok, herase]
    rfl
  · exact fun c hc => h.level_le c (hsub c hc)
  · exact fun c hc => h.aligned c (hsub c hc)
  · have hsum : (s.live.map fun e => s.size e.2).sum =
        s.size a.2 + ((l1 ++ l2).map fun e => s.size e.2).sum := by
      rw [(hperm.map _).sum_eq, List.map_cons, List.sum_cons]
    have := h.space
    rw [hsum, size, hlevel, cast_add, cast_pow] at this
    rw [← this]
    simp only [size, level]
    ring

theorem Inv.settotsize (h : s.Inv) {junk : ℕ → ℕ → MapT} {ts : ℕ}
    (hallowed : s.Allowed (.settotsize junk ts)) :
    ∃ s', s.step (.settotsize junk ts) = some s' ∧ s'.Inv ∧
      s'.bb.log2minalloc = s.bb.log2minalloc := by
  obtain ⟨F, htiled⟩ := h.tiled
  obtain ⟨fm, F', ts', space, hok, hspace, htiled'⟩ :=
    htiled.settotsize h.max_lt h.min_le junk hallowed
  refine ⟨⟨{ s.bb with totsize := ts', freemaps := fm, spaceleft := space }, s.live⟩, ?_,
    ⟨h.min_le, h.max_lt, ⟨F', htiled'⟩, h.level_le, h.aligned, ?_⟩, rfl⟩
  · simp only [step, hok]
    rfl
  · have := h.space
    simp only [size, level] at this ⊢
    omega

/-- A new allocator, unless the sizes are out of order or the largest does not fit
into an `int`. -/
theorem Inv.new (junk : ℕ → ℕ → MapT) (ts minalloc maxalloc : ℕ) :
    ((log2c minalloc ≤ log2c maxalloc → 31 ≤ log2c maxalloc) ∧
        Bbuddy.new junk ts minalloc maxalloc = none) ∨
      ∃ b, Bbuddy.new junk ts minalloc maxalloc = some b ∧ Inv ⟨b, []⟩ ∧
        b.log2minalloc = log2c minalloc := by
  unfold Bbuddy.new
  by_cases hmin : log2c minalloc ≤ log2c maxalloc
  · rw [if_pos hmin]
    by_cases hmax : log2c maxalloc < 31
    · right
      have h : Inv ⟨⟨0, log2c minalloc, log2c maxalloc, fun _ => Bbfree.new, 0⟩, []⟩ := by
        refine ⟨hmin, hmax, ⟨fun _ => ∅, ?_, ?_, le_rfl, dvd_zero _⟩, by simp, by simp, rfl⟩
        · intro sn _ _
          rw [Nat.zero_div]
          exact Bbfree.Holds.new
        · rw [show freeBlocks (fun _ => ∅) = ∅ by simp [freeBlocks]]
          exact Tiling.nil
      have hgrow : Allowed ⟨⟨0, log2c minalloc, log2c maxalloc, fun _ => Bbfree.new, 0⟩, []⟩
          (.settotsize junk ts) := Nat.zero_le ts
      obtain ⟨s', hstep, hinv, hsame⟩ := h.settotsize hgrow
      obtain ⟨b, hb, hs'⟩ := bind_eq_some_iff.mp hstep
      obtain rfl := some.inj hs'
      exact ⟨b, hb, hinv, hsame⟩
    · left
      refine ⟨fun _ => not_lt.mp hmax, ?_⟩
      simp only [Bbuddy.settotsize, oneShl, if_neg hmax, bind_eq_bind, bind_none]
  · rw [if_neg hmin]
    exact .inl ⟨fun h => absurd h hmin, rfl⟩

/-- A call on an allocator that may have stopped the program. -/
def stepAll (s : Option BuddyState) (op : BuddyOp) : Option BuddyState × Unit :=
  (s.bind fun s => s.step op, ())

/-- While the program runs, its calls are allowed. -/
def Careful (r : Run (Option BuddyState) BuddyOp Unit) (op : BuddyOp) : Prop :=
  match r.state with
  | some s => s.Allowed op
  | none => True

instance (r : Run (Option BuddyState) BuddyOp Unit) (op : BuddyOp) : Decidable (Careful r op) :=
  match h : r.state with
  | some s => decidable_of_iff (s.Allowed op) (by rw [Careful, h])
  | none => .isTrue (by rw [Careful, h]; trivial)

/-- A program that has just built an allocator. -/
def launch (junk : ℕ → ℕ → MapT) (ts minalloc maxalloc : ℕ) :
    Run (Option BuddyState) BuddyOp Unit :=
  .start ((Bbuddy.new junk ts minalloc maxalloc).map fun b => ⟨b, []⟩)

/-- The program has stopped only if the sizes are unusual. -/
def RunInv (minalloc maxalloc : ℕ) (r : Run (Option BuddyState) BuddyOp Unit) : Prop :=
  match r.state with
  | some s => s.Inv ∧ s.bb.log2minalloc = log2c minalloc
  | none => ¬(2 ≤ minalloc ∧ minalloc ≤ maxalloc ∧ maxalloc ≤ 2 ^ 30)

theorem runInv_launch (junk : ℕ → ℕ → MapT) (ts minalloc maxalloc : ℕ) :
    RunInv minalloc maxalloc (launch junk ts minalloc maxalloc) := by
  rcases Inv.new junk ts minalloc maxalloc with ⟨hsizes, hnone⟩ | ⟨b, hb, hinv, hmin⟩
  · simp only [launch, hnone, map_none]
    rintro ⟨htwo, hle, hmax⟩
    have hmono : log2c minalloc ≤ log2c maxalloc :=
      (log2c_le_iff (by omega)).mpr (hle.trans ((log2c_le_iff (by omega)).mp le_rfl))
    have hsmall : log2c maxalloc ≤ 30 := (log2c_le_iff (by omega)).mpr hmax
    omega
  · simp only [launch, hb, map_some]
    exact ⟨hinv, hmin⟩

theorem runInv_next {minalloc maxalloc : ℕ} (r : Run (Option BuddyState) BuddyOp Unit)
    (op : BuddyOp) (h : RunInv minalloc maxalloc r) (hop : Careful r op) :
    RunInv minalloc maxalloc (r.next stepAll op) := by
  obtain ⟨state, past⟩ := r
  cases state with
  | none => exact h
  | some s =>
    obtain ⟨hinv, hmin⟩ := h
    have hnext : (s.bb.log2minalloc = 0 ∧ s.step op = none) ∨
        ∃ s', s.step op = some s' ∧ s'.Inv ∧ s'.bb.log2minalloc = s.bb.log2minalloc := by
      cases op with
      | alloc n => exact hinv.alloc n
      | dealloc off len => exact .inr (hinv.dealloc hop)
      | settotsize junk ts => exact .inr (hinv.settotsize hop)
    rcases hnext with ⟨hzero, hnone⟩ | ⟨s', hs', hinv', hsame⟩
    · simp only [Run.next, stepAll, bind_some, hnone]
      rintro ⟨htwo, -, -⟩
      have hle : minalloc ≤ 2 ^ 0 := (log2c_le_iff (by omega)).mp (by omega)
      omega
    · simp only [Run.next, stepAll, bind_some, hs']
      exact ⟨hinv', hsame.trans hmin⟩

/-- Along every run of allocations, deallocations of live blocks and growths, the live
blocks are aligned to their rounded sizes, inside the area and disjoint, and the free
space is the total size less the rounded sizes of the live blocks. No call stops the
program if the smallest size is at least 2 and the largest at most `2 ^ 30`. -/
theorem buddy_runs (junk : ℕ → ℕ → MapT) (ts minalloc maxalloc : ℕ) (ops : List BuddyOp)
    (hops : Run.Guarded stepAll Careful (launch junk ts minalloc maxalloc) ops) :
    (∀ s, ((launch junk ts minalloc maxalloc).take stepAll ops).state = some s → s.Accounts) ∧
      (2 ≤ minalloc → minalloc ≤ maxalloc → maxalloc ≤ 2 ^ 30 →
        ((launch junk ts minalloc maxalloc).take stepAll ops).state ≠ none) := by
  have h : RunInv minalloc maxalloc ((launch junk ts minalloc maxalloc).take stepAll ops) :=
    Run.invariant_take (runInv_launch junk ts minalloc maxalloc) runInv_next hops
  refine ⟨fun s hs => ?_, fun htwo hle hmax hnone => ?_⟩
  · rw [RunInv, hs] at h
    exact h.1.accounts
  · rw [RunInv, hnone] at h
    exact h ⟨htwo, hle, hmax⟩

theorem buddy_runs_three_blocks :
    ∃ s, ((launch (fun _ _ => 5) 20 2 8).take stepAll
        [.alloc 3, .alloc 7, .alloc 2, .dealloc 8 4, .settotsize (fun _ _ => 9) 30]).state =
          some s ∧ s.Accounts := by
  have h := buddy_runs (fun _ _ => 5) 20 2 8
    [.alloc 3, .alloc 7, .alloc 2, .dealloc 8 4, .settotsize (fun _ _ => 9) 30]
    ⟨by decide, by decide, by decide, by decide, by decide, trivial⟩
  obtain ⟨s, hs⟩ := Option.ne_none_iff_exists'.mp (h.2 (by decide) (by decide) (by decide))
  exact ⟨s, hs, h.1 s hs⟩

end BuddyState

end SelfCertifyingFS.Async
