import Mathlib.Data.Nat.Digits.Lemmas
import Rivid.Lib.Checked
import Rivid.Lib.Positional

/-!
# Conversion between bases with a growing vector of digits

Text in base `m` becomes a number in base `b` digit by digit: multiply what there is
by `m`, add the digit, and append what is left of the carry.  The vector, low end
first, holds the digits of the number read so far, so it never has a zero at its high
end (`sweep_mulAddStep`).  `sweep_map` carries this to words on which a pass computes
the same numbers.

Big-endian strings whose first digit is not zero are the numerals of their values
(`digits_value_of_head`).
-/

namespace Positional

variable {b m : ℕ}

/-- One digit of a pass: `carry + d * m` split at `b`. -/
def mulAddStep (b m carry d : ℕ) : ℕ × ℕ := ((carry + d * m) % b, (carry + d * m) / b)

/-- A pass over the digits of `n`, followed by the digits of the carry, leaves those of
`n * m + carry`. -/
theorem sweep_mulAddStep (hb : 1 < b) (hm : 0 < m) (n carry : ℕ) :
    (sweep (mulAddStep b m) carry (b.digits n)).1 ++
        b.digits (sweep (mulAddStep b m) carry (b.digits n)).2 = b.digits (n * m + carry) := by
  induction n using Nat.strong_induction_on generalizing carry with
  | _ n ih =>
      rcases Nat.eq_zero_or_pos n with rfl | hn
      · simp [sweep]
      · have hprod : 0 < n * m := Nat.mul_pos hn hm
        have hnum : n * m + carry = carry + n % b * m + b * (n / b * m) := by
          conv_lhs => rw [← Nat.mod_add_div n b]
          ring
        have hmod : (n * m + carry) % b = (carry + n % b * m) % b := by
          rw [hnum, Nat.add_mul_mod_self_left]
        have hdiv : (n * m + carry) / b = n / b * m + (carry + n % b * m) / b := by
          rw [hnum, Nat.add_mul_div_left _ _ (Nat.zero_lt_of_lt hb), Nat.add_comm]
        have hrest := ih (n / b) (Nat.div_lt_self hn hb) ((carry + n % b * m) / b)
        rw [Nat.digits_def' hb hn, Nat.digits_def' hb (Nat.add_pos_left hprod carry), hmod, hdiv,
          ← hrest]
        rfl

/-! ## Numerals without a leading zero -/

/-- The value of the digits of a number, most significant first. -/
theorem value_reverse_digits (b n : ℕ) : value b (b.digits n).reverse = n := by
  rw [value, List.reverse_reverse, Nat.ofDigits_digits]

theorem digits_value_of_head (hb : 1 < b) {ds : List ℕ} (hlt : ∀ d ∈ ds, d < b)
    (hhead : ds.head? ≠ some 0) : (b.digits (value b ds)).reverse = ds := by
  have hdigits : b.digits (value b ds) = ds.reverse := by
    refine Nat.digits_ofDigits b hb ds.reverse (fun d hd ↦ hlt d (List.mem_reverse.mp hd)) ?_
    intro hne hlast
    rw [List.getLast_reverse] at hlast
    exact hhead (hlast ▸ List.head?_eq_some_head _)
  rw [hdigits, List.reverse_reverse]

theorem head?_reverse_digits (b n : ℕ) : (b.digits n).reverse.head? ≠ some 0 := by
  rw [List.head?_reverse]
  rcases Nat.eq_zero_or_pos n with rfl | hn
  · simp
  · have hne : b.digits n ≠ [] := Nat.digits_ne_nil_iff_ne_zero.mpr hn.ne'
    rw [List.getLast?_eq_some_getLast hne, ne_eq, Option.some.injEq]
    exact Nat.getLast_digit_ne_zero b hn.ne'

end Positional

/-! ## Passes that compute the same -/

section Sweep

universe u v

variable {α σ : Type u} {β τ : Type v} {f : σ → α → α × σ} {g : τ → β → β × τ} {r : α → β}
  {q : σ → τ} {I : σ → Prop} {P : α → Prop}

/-- A pass computes what another one does when each round does, under an invariant. -/
theorem sweep_map (step : ∀ s a, I s → P a →
      g (q s) (r a) = (r (f s a).1, q (f s a).2) ∧ I (f s a).2)
    {s : σ} {l : List α} (hs : I s) (hl : ∀ a ∈ l, P a) :
    sweep g (q s) (l.map r) = ((sweep f s l).1.map r, q (sweep f s l).2) := by
  induction l generalizing s with
  | nil => rfl
  | cons a l ih =>
      obtain ⟨ha, hl⟩ := List.forall_mem_cons.mp hl
      obtain ⟨hround, hnext⟩ := step s a hs ha
      rw [List.map_cons, sweep, hround, ih hnext hl]
      rfl

end Sweep
