import Mathlib.Data.Nat.Bitwise
import Mathlib.Tactic

/-!
# Blocks of a binary buddy system

A block of level `log` has `2 ^ log` addresses and starts at a multiple of its
size. A block of a higher level consists of two buddies. A tiling divides an area
into free blocks and blocks that somebody holds; the four moves of a buddy system
(take a free block, give it back, split it, join it with its free buddy) keep it.
-/

namespace SelfCertifyingFS.Foundations

open List

structure Block where
  log : ℕ
  pos : ℕ
  deriving DecidableEq, Repr

namespace Block

variable (b : Block)

def size : ℕ := 2 ^ b.log

def start : ℕ := b.pos * 2 ^ b.log

def stop : ℕ := (b.pos + 1) * 2 ^ b.log

/-- The two blocks have no address in common. -/
def Apart (a b : Block) : Prop := a.stop ≤ b.start ∨ b.stop ≤ a.start

instance : DecidableRel Apart := fun _ _ => inferInstanceAs (Decidable (_ ∨ _))

/-- The lower and the upper half of a block one level higher. -/
def lower (log pos : ℕ) : Block := ⟨log, 2 * pos⟩

def upper (log pos : ℕ) : Block := ⟨log, 2 * pos + 1⟩

variable (b : Block)

/-- The other half. -/
def buddy : Block := ⟨b.log, b.pos ^^^ 1⟩

def parent : Block := ⟨b.log + 1, b.pos / 2⟩

theorem stop_eq : b.stop = b.start + b.size := by
  simp only [stop, start, size]
  ring

theorem size_pos : 0 < b.size := Nat.two_pow_pos b.log

theorem start_lt_stop : b.start < b.stop := by
  have := b.size_pos
  have := b.stop_eq
  omega

theorem Apart.symm {a b : Block} (h : a.Apart b) : b.Apart a := Or.symm h

theorem not_apart_self (b : Block) : ¬b.Apart b := by
  have := b.start_lt_stop
  rintro (h | h)
  · omega
  · omega

theorem halves (log pos : ℕ) :
    (lower log pos).start = (⟨log + 1, pos⟩ : Block).start ∧
      (lower log pos).stop = (upper log pos).start ∧
      (upper log pos).stop = (⟨log + 1, pos⟩ : Block).stop := by
  refine ⟨?_, ?_, ?_⟩
  · simp only [lower, start]
    ring
  · simp only [lower, upper, start, stop]
  · simp only [upper, stop]
    ring

theorem xor_one (n : ℕ) :
    (n = 2 * (n / 2) ∧ n ^^^ 1 = 2 * (n / 2) + 1) ∨
      (n = 2 * (n / 2) + 1 ∧ n ^^^ 1 = 2 * (n / 2)) := by
  have hdiv : (n ^^^ 1) / 2 = n / 2 := by
    have h := Nat.shiftRight_xor_distrib (i := 1) (a := n) (b := 1)
    simpa [Nat.shiftRight_one] using h
  have hmod : (n ^^^ 1) % 2 = (n + 1) % 2 := by
    rw [Nat.xor_mod_two_eq]
  omega

theorem buddy_cases (b : Block) :
    (b = lower b.log (b.pos / 2) ∧ b.buddy = upper b.log (b.pos / 2)) ∨
      (b = upper b.log (b.pos / 2) ∧ b.buddy = lower b.log (b.pos / 2)) := by
  obtain ⟨log, pos⟩ := b
  simp only [lower, upper, buddy, mk.injEq, true_and]
  exact xor_one pos

end Block

/-- The area below `area` is divided into the free blocks and the blocks `held`. -/
structure Tiling (area : ℕ) (free : Set Block) (held : List Block) : Prop where
  inside : ∀ b, b ∈ free ∨ b ∈ held → b.stop ≤ area
  free_apart : ∀ a ∈ free, ∀ b ∈ free, a ≠ b → a.Apart b
  mixed_apart : ∀ a ∈ free, ∀ b ∈ held, a.Apart b
  held_apart : held.Pairwise Block.Apart
  covers : ∀ n < area, ∃ b, (b ∈ free ∨ b ∈ held) ∧ b.start ≤ n ∧ n < b.stop

namespace Tiling

open Block

variable {area : ℕ} {free : Set Block} {held held' : List Block} {b : Block}

theorem nil : Tiling 0 ∅ [] where
  inside := by simp
  free_apart := by simp
  mixed_apart := by simp
  held_apart := .nil
  covers n hn := absurd hn (Nat.not_lt_zero n)

theorem perm (h : Tiling area free held) (hp : held.Perm held') : Tiling area free held' where
  inside a ha := h.inside a (ha.imp_right hp.mem_iff.mpr)
  free_apart := h.free_apart
  mixed_apart a ha c hc := h.mixed_apart a ha c (hp.mem_iff.mpr hc)
  held_apart := (hp.pairwise_iff fun hab => hab.symm).mp h.held_apart
  covers n hn := by
    obtain ⟨c, hc, hn⟩ := h.covers n hn
    exact ⟨c, hc.imp_right hp.mem_iff.mp, hn⟩

theorem not_free (h : Tiling area free (b :: held)) : b ∉ free := fun hb =>
  b.not_apart_self (h.mixed_apart b hb b mem_cons_self)

theorem take (h : Tiling area free held) (hb : b ∈ free) :
    Tiling area (free \ {b}) (b :: held) where
  inside a ha := by
    apply h.inside a
    rcases ha with ha | ha
    · exact .inl ha.1
    · rcases List.mem_cons.mp ha with rfl | ha
      · exact .inl hb
      · exact .inr ha
  free_apart a ha c hc := h.free_apart a ha.1 c hc.1
  mixed_apart a ha c hc := by
    rcases List.mem_cons.mp hc with rfl | hc
    · exact h.free_apart a ha.1 c hb ha.2
    · exact h.mixed_apart a ha.1 c hc
  held_apart := h.held_apart.cons fun c hc => h.mixed_apart b hb c hc
  covers n hn := by
    obtain ⟨c, hc, hn⟩ := h.covers n hn
    refine ⟨c, ?_, hn⟩
    by_cases hcb : c = b
    · exact .inr (hcb ▸ mem_cons_self)
    · exact hc.imp (fun hc => ⟨hc, hcb⟩) (mem_cons_of_mem b)

theorem give (h : Tiling area free (b :: held)) : Tiling area (insert b free) held where
  inside a ha := by
    apply h.inside a
    rcases ha with (rfl | ha) | ha
    · exact .inr mem_cons_self
    · exact .inl ha
    · exact .inr (mem_cons_of_mem b ha)
  free_apart a ha c hc hac := by
    rcases ha with rfl | ha
    · rcases hc with rfl | hc
      · exact absurd rfl hac
      · exact (h.mixed_apart c hc a mem_cons_self).symm
    · rcases hc with rfl | hc
      · exact h.mixed_apart a ha c mem_cons_self
      · exact h.free_apart a ha c hc hac
  mixed_apart a ha c hc := by
    rcases ha with rfl | ha
    · exact rel_of_pairwise_cons h.held_apart hc
    · exact h.mixed_apart a ha c (mem_cons_of_mem b hc)
  held_apart := h.held_apart.of_cons
  covers n hn := by
    obtain ⟨c, hc, hn⟩ := h.covers n hn
    refine ⟨c, ?_, hn⟩
    rcases hc with hc | hc
    · exact .inl (.inr hc)
    · rcases List.mem_cons.mp hc with rfl | hc
      · exact .inl (.inl rfl)
      · exact .inr hc

variable {log pos : ℕ}

theorem halve (h : Tiling area free (⟨log + 1, pos⟩ :: held)) :
    Tiling area free (upper log pos :: lower log pos :: held) := by
  obtain ⟨hstart, hmid, hstop⟩ := halves log pos
  have hlow := (lower log pos).start_lt_stop
  have hup := (upper log pos).start_lt_stop
  refine ⟨?_, h.free_apart, ?_, ?_, ?_⟩
  · intro a ha
    have hparent := h.inside ⟨log + 1, pos⟩ (.inr mem_cons_self)
    simp only [mem_cons] at ha
    rcases ha with ha | rfl | rfl | ha
    · exact h.inside a (.inl ha)
    · omega
    · omega
    · exact h.inside a (.inr (mem_cons_of_mem _ ha))
  · intro a ha c hc
    have hparent := h.mixed_apart a ha ⟨log + 1, pos⟩ mem_cons_self
    simp only [mem_cons] at hc
    simp only [Apart] at hparent ⊢
    rcases hc with rfl | rfl | hc
    · omega
    · omega
    · exact h.mixed_apart a ha c (mem_cons_of_mem _ hc)
  · have hrel : ∀ c ∈ held, (⟨log + 1, pos⟩ : Block).Apart c := fun c hc =>
      rel_of_pairwise_cons h.held_apart hc
    simp only [Apart] at hrel
    refine .cons ?_ (.cons ?_ h.held_apart.of_cons)
    · intro c hc
      simp only [Apart]
      rcases List.mem_cons.mp hc with rfl | hc
      · omega
      · have := hrel c hc
        omega
    · intro c hc
      have := hrel c hc
      simp only [Apart]
      omega
  · intro n hn
    obtain ⟨c, hc, hlo, hhi⟩ := h.covers n hn
    by_cases hcp : c = ⟨log + 1, pos⟩
    · subst hcp
      by_cases hn : n < (lower log pos).stop
      · exact ⟨lower log pos, by simp, by omega, hn⟩
      · exact ⟨upper log pos, by simp, by omega, by omega⟩
    · refine ⟨c, ?_, hlo, hhi⟩
      simp only [mem_cons] at hc ⊢
      tauto

theorem join (h : Tiling area free (upper log pos :: lower log pos :: held)) :
    Tiling area free (⟨log + 1, pos⟩ :: held) := by
  obtain ⟨hstart, hmid, hstop⟩ := halves log pos
  have hup : upper log pos ∈ upper log pos :: lower log pos :: held := mem_cons_self
  have hlow : lower log pos ∈ upper log pos :: lower log pos :: held := by simp
  have hrest : ∀ c ∈ held, c ∈ upper log pos :: lower log pos :: held := fun c hc => by simp [hc]
  -- a block beside both halves is beside the whole, since it is not empty
  have hwhole : ∀ c : Block, c.Apart (upper log pos) → c.Apart (lower log pos) →
      c.Apart ⟨log + 1, pos⟩ := by
    intro c hc hc'
    have := c.start_lt_stop
    simp only [Apart] at hc hc' ⊢
    omega
  refine ⟨?_, h.free_apart, ?_, ?_, ?_⟩
  · intro a ha
    rcases ha with ha | ha
    · exact h.inside a (.inl ha)
    · rcases List.mem_cons.mp ha with rfl | ha
      · exact hstop ▸ h.inside _ (.inr hup)
      · exact h.inside a (.inr (hrest a ha))
  · intro a ha c hc
    rcases List.mem_cons.mp hc with rfl | hc
    · exact hwhole a (h.mixed_apart a ha _ hup) (h.mixed_apart a ha _ hlow)
    · exact h.mixed_apart a ha c (hrest c hc)
  · refine .cons (fun c hc => ?_) h.held_apart.of_cons.of_cons
    apply Apart.symm
    apply hwhole c
    · exact (rel_of_pairwise_cons h.held_apart (mem_cons_of_mem _ hc)).symm
    · exact (rel_of_pairwise_cons h.held_apart.of_cons hc).symm
  · intro n hn
    obtain ⟨c, hc, hlo, hhi⟩ := h.covers n hn
    simp only [mem_cons] at hc
    rcases hc with hc | rfl | rfl | hc
    · exact ⟨c, .inl hc, hlo, hhi⟩
    · exact ⟨_, .inr mem_cons_self, by
        have := (lower log pos).start_lt_stop
        omega, by omega⟩
    · exact ⟨_, .inr mem_cons_self, by omega, by
        have := (upper log pos).start_lt_stop
        omega⟩
    · exact ⟨c, .inr (mem_cons_of_mem _ hc), hlo, hhi⟩

theorem merge (h : Tiling area free (b :: held)) (hb : b.buddy ∈ free) :
    Tiling area (free \ {b.buddy}) (b.parent :: held) := by
  have htake := h.take hb
  rcases b.buddy_cases with ⟨hself, hbuddy⟩ | ⟨hself, hbuddy⟩
  · apply join
    rw [← hself, ← hbuddy]
    exact htake
  · apply join
    rw [← hself, ← hbuddy]
    exact htake.perm (.swap ..)

theorem grow (h : Tiling (pos * 2 ^ log) free held) :
    Tiling ((pos + 1) * 2 ^ log) free (⟨log, pos⟩ :: held) := by
  have hend : (⟨log, pos⟩ : Block).start = pos * 2 ^ log := rfl
  have hstop : (⟨log, pos⟩ : Block).stop = (pos + 1) * 2 ^ log := rfl
  have hlt := (⟨log, pos⟩ : Block).start_lt_stop
  have hbefore : ∀ c, c ∈ free ∨ c ∈ held → c.Apart ⟨log, pos⟩ := fun c hc => .inl (h.inside c hc)
  refine ⟨?_, h.free_apart, ?_, ?_, ?_⟩
  · intro a ha
    rcases ha with ha | ha
    · have := h.inside a (.inl ha)
      omega
    · rcases List.mem_cons.mp ha with rfl | ha
      · exact le_rfl
      · have := h.inside a (.inr ha)
        omega
  · intro a ha c hc
    rcases List.mem_cons.mp hc with rfl | hc
    · exact hbefore a (.inl ha)
    · exact h.mixed_apart a ha c hc
  · exact .cons (fun c hc => (hbefore c (.inr hc)).symm) h.held_apart
  · intro n hn
    by_cases hn' : n < pos * 2 ^ log
    · obtain ⟨c, hc, hcn⟩ := h.covers n hn'
      exact ⟨c, hc.imp_right (mem_cons_of_mem _), hcn⟩
    · exact ⟨_, .inr mem_cons_self, by omega, by omega⟩

end Tiling

end SelfCertifyingFS.Foundations
