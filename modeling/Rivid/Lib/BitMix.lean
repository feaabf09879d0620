import Mathlib.Data.BitVec
import Mathlib.Logic.Function.Basic

/-!
# Invertible steps on machine words

The steps that mix the bits of a word without losing any: the word combined by
exclusive or with a shift of itself, multiplication by a constant that has an inverse,
and rotation.  Each is injective at every width, so what is composed of them is.
-/

namespace BitMix

variable {w : ℕ}

/-- The top bits of `x ^^^ (x >>> k)` are those of `x`, and each bit below is found from
the one `k` places above. -/
theorem xor_ushiftRight_injective {k : ℕ} (hk : 0 < k) :
    Function.Injective fun x : BitVec w ↦ x ^^^ (x >>> k) := by
  intro x y h
  have hbit : ∀ n i, w ≤ i + n → x.getLsbD i = y.getLsbD i := by
    intro n
    induction n with
    | zero =>
        intro i hi
        rw [BitVec.getLsbD_of_ge x i hi, BitVec.getLsbD_of_ge y i hi]
    | succ n ih =>
        intro i hi
        have habove := ih (k + i) (by omega)
        have hxor := congrArg (BitVec.getLsbD · i) h
        simp only [BitVec.getLsbD_xor, BitVec.getLsbD_ushiftRight, habove] at hxor
        exact Bool.xor_left_inj.mp hxor
  exact BitVec.eq_of_getLsbD_eq fun i hi ↦ hbit w i (Nat.le_add_left w i)

/-- The low bits of `x ^^^ (x <<< k)` are those of `x`, and each bit above is found from
the one `k` places below. -/
theorem xor_shiftLeft_injective {k : ℕ} (hk : 0 < k) :
    Function.Injective fun x : BitVec w ↦ x ^^^ (x <<< k) := by
  intro x y h
  refine BitVec.eq_of_getLsbD_eq fun i hi ↦ ?_
  induction i using Nat.strong_induction_on with
  | _ i ih =>
      have hxor := congrArg (BitVec.getLsbD · i) h
      simp only [BitVec.getLsbD_xor, BitVec.getLsbD_shiftLeft] at hxor
      by_cases hlow : i < k
      · simpa [hlow] using hxor
      · rw [ih (i - k) (by omega) (by omega)] at hxor
        exact Bool.xor_left_inj.mp hxor

/-- Multiplication by a constant with an inverse. -/
theorem mul_right_injective {c d : BitVec w} (h : c * d = 1) :
    Function.Injective fun x : BitVec w ↦ x * c := by
  refine Function.LeftInverse.injective (g := fun x ↦ x * d) fun x ↦ ?_
  dsimp only
  rw [mul_assoc, h, mul_one]

theorem add_right_injective (c : BitVec w) : Function.Injective fun x : BitVec w ↦ x + c :=
  add_left_injective c

/-- A rotation by less than the width moves every bit to a place of its own. -/
theorem rotateLeft_injective {r : ℕ} (hr : r < w) :
    Function.Injective fun x : BitVec w ↦ x.rotateLeft r := by
  intro x y h
  have hrotated : ∀ i, (x.rotateLeft r).getLsbD i = (y.rotateLeft r).getLsbD i :=
    fun i ↦ congrArg (BitVec.getLsbD · i) h
  simp only [BitVec.getLsbD_rotateLeft_of_le hr] at hrotated
  refine BitVec.eq_of_getLsbD_eq fun i hi ↦ ?_
  by_cases hwrap : i + r < w
  · have hi' := hrotated (i + r)
    have hhigh : ¬ i + r < r := by omega
    simpa [hwrap, hhigh] using hi'
  · have hi' := hrotated (i + r - w)
    have hlow : i + r - w < r := by omega
    have hback : w - r + (i + r - w) = i := by omega
    simpa [hlow, hback] using hi'

end BitMix
