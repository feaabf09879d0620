import Rivid.Core.Rng
import Rivid.Core.SeedTime
import Rivid.Lib.BitMix

/-!
# The states of the seeded generator

Every step of SplitMix64 and of Xoshiro256** can be undone.  So the words a seed
expands to are not all zero, two seeds expand to different words, and neither is
lost by drawing: a state that is not all zero never becomes so, and two states
that differ go on differing.
-/

namespace Rivid

open Rng

namespace SplitMix64

/-- What the generator makes of its state to return it. -/
def mix (state : U64) : U64 :=
  let z := (state ^^^ (state >>> 30)) * 0xBF58476D1CE4E5B9
  let z := (z ^^^ (z >>> 27)) * 0x94D049BB133111EB
  z ^^^ (z >>> 31)

theorem next_eq (sm : SplitMix64) :
    sm.next = (mix (sm.state + 0x9E3779B97F4A7C15), ⟨sm.state + 0x9E3779B97F4A7C15⟩) := rfl

theorem mix_injective : Function.Injective mix := by
  have hfirst : (0xBF58476D1CE4E5B9 : U64) * 0x96DE1B173F119089 = 1 := by decide
  have hsecond : (0x94D049BB133111EB : U64) * 0x319642B2D24D8EC3 = 1 := by decide
  intro x y h
  have h₁ := BitMix.xor_ushiftRight_injective (by decide) h
  have h₂ := BitMix.mul_right_injective hsecond h₁
  have h₃ := BitMix.xor_ushiftRight_injective (by decide) h₂
  have h₄ := BitMix.mul_right_injective hfirst h₃
  exact BitMix.xor_ushiftRight_injective (by decide) h₄

theorem mix_eq_zero_iff {state : U64} : mix state = 0 ↔ state = 0 :=
  mix_injective.eq_iff' rfl

end SplitMix64

namespace DeterministicRng

/-- The state that would only ever give zeros. -/
def zero : DeterministicRng := ⟨0, 0, 0, 0⟩

/-! ## Seeding -/

theorem s0_new (seed : U64) : (new seed).s0 = SplitMix64.mix (seed + 0x9E3779B97F4A7C15) :=
  congrArg Prod.fst (SplitMix64.next_eq ⟨seed⟩)

theorem s1_new (seed : U64) : (new seed).s1 =
    SplitMix64.mix (seed + 0x9E3779B97F4A7C15 + 0x9E3779B97F4A7C15) :=
  congrArg Prod.fst (SplitMix64.next_eq ⟨seed + 0x9E3779B97F4A7C15⟩)

/-- The first two words are not both zero. -/
theorem new_ne_zero (seed : U64) : new seed ≠ zero := by
  intro h
  have hs0 := congrArg s0 h
  have hs1 := congrArg s1 h
  rw [s0_new, show zero.s0 = 0 from rfl, SplitMix64.mix_eq_zero_iff] at hs0
  rw [s1_new, show zero.s1 = 0 from rfl, SplitMix64.mix_eq_zero_iff, hs0] at hs1
  exact absurd hs1 (by decide)

/-- The first word tells the seed. -/
theorem new_injective : Function.Injective new := by
  intro a b h
  have hs0 := congrArg s0 h
  rw [s0_new, s0_new] at hs0
  exact BitMix.add_right_injective _ (SplitMix64.mix_injective hs0)

/-! ## Drawing -/

/-- The state after a draw. -/
def nextState (rng : DeterministicRng) : DeterministicRng := rng.nextXoshiro.2

/-- A draw can be undone: the last word gives back `s3 ^^^ s1`, with it the first one
`s0`, and the second and third together `s1`. -/
theorem nextState_injective : Function.Injective nextState := by
  rintro ⟨a0, a1, a2, a3⟩ ⟨b0, b1, b2, b3⟩ h
  simp only [nextState, nextXoshiro, mk.injEq] at h
  obtain ⟨h0, h1, h2, h3⟩ := h
  have h31 : a3 ^^^ a1 = b3 ^^^ b1 := BitMix.rotateLeft_injective (by decide) h3
  rw [h31, BitVec.xor_left_inj] at h0
  have hshift : ∀ x y z : U64, (x ^^^ z) ^^^ (z ^^^ y) = x ^^^ y := by
    intro x y z
    rw [BitVec.xor_assoc, ← BitVec.xor_assoc z, BitVec.xor_self, BitVec.zero_xor]
  have h12 : a1 ^^^ (a1 <<< 17) = b1 ^^^ (b1 <<< 17) := by
    have hsum := congrArg₂ (· ^^^ ·) h1 h2
    rwa [hshift, hshift] at hsum
  have ha1 : a1 = b1 := BitMix.xor_shiftLeft_injective (by decide) h12
  rw [ha1, BitVec.xor_right_inj, h0, BitVec.xor_left_inj] at h1
  rw [ha1, BitVec.xor_left_inj] at h31
  rw [h0, ha1, h1, h31]

theorem nextState_zero : nextState zero = zero := by decide

theorem skip_succ (rng : DeterministicRng) (n : ℕ) :
    skip rng (n + 1) = nextState (skip rng n) := rfl

theorem skip_injective (n : ℕ) : Function.Injective fun rng : DeterministicRng ↦ skip rng n := by
  induction n with
  | zero => exact Function.injective_id
  | succ n ih => exact nextState_injective.comp ih

theorem skip_zero (n : ℕ) : skip zero n = zero := by
  induction n with
  | zero => rfl
  | succ n ih => rw [skip_succ, ih, nextState_zero]

/-- **The seeded generator.**  It never reaches the state that is all zero, a draw
loses nothing of the state, and two seeds never come to the same state. -/
theorem seeded_streams :
    (∀ (seed : U64) (n : ℕ), skip (new seed) n ≠ zero) ∧
      Function.Injective nextState ∧
      ∀ seed seed' : U64, seed ≠ seed' → ∀ n, skip (new seed) n ≠ skip (new seed') n := by
  refine ⟨fun seed n h ↦ ?_, nextState_injective, fun seed seed' hne n h ↦ ?_⟩
  · rw [← skip_zero n] at h
    exact new_ne_zero seed (skip_injective n h)
  · exact hne (new_injective (skip_injective n h))

end DeterministicRng

end Rivid
