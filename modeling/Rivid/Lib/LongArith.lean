import Rivid.Lib.Positional
import Mathlib.Tactic.Linarith

/-!
# Long arithmetic by a small number

Two school algorithms on big-endian digit strings in base `b`: dividing by a
small divisor from the most significant digit down, and multiplying by a small
factor while adding a carry from the least significant digit up.  Both are
described by their effect on the value of the string.
-/

namespace Positional

variable {b d m : ℕ}

/-- Long division by `d`, entering with remainder `rem`: the quotient digits and
the remainder left at the end. -/
def divSmall (b d : ℕ) : ℕ → List ℕ → List ℕ × ℕ
  | rem, [] => ([], rem)
  | rem, x :: xs =>
      let rest := divSmall b d ((rem * b + x) % d) xs
      ((rem * b + x) / d :: rest.1, rest.2)

@[simp] theorem length_divSmall (rem : ℕ) (xs : List ℕ) :
    (divSmall b d rem xs).1.length = xs.length := by
  induction xs generalizing rem with
  | nil => rfl
  | cons x xs ih => simp [divSmall, ih]

theorem divSmall_rem_lt {rem : ℕ} (hr : rem < d) (xs : List ℕ) :
    (divSmall b d rem xs).2 < d := by
  induction xs generalizing rem with
  | nil => exact hr
  | cons x xs ih => exact ih (Nat.mod_lt _ (Nat.zero_lt_of_lt hr))

/-- Long division loses nothing: quotient times divisor plus remainder. -/
theorem value_divSmall (rem : ℕ) (xs : List ℕ) :
    value b (divSmall b d rem xs).1 * d + (divSmall b d rem xs).2 =
      rem * b ^ xs.length + value b xs := by
  induction xs generalizing rem with
  | nil => simp [divSmall]
  | cons x xs ih =>
      have h := ih ((rem * b + x) % d)
      have hdiv : (rem * b + x) / d * d + (rem * b + x) % d = rem * b + x := Nat.div_add_mod' _ _
      simp only [divSmall, value_cons, length_divSmall, List.length_cons]
      calc ((rem * b + x) / d * b ^ xs.length + value b (divSmall b d ((rem * b + x) % d) xs).1) * d
            + (divSmall b d ((rem * b + x) % d) xs).2
          = (rem * b + x) / d * d * b ^ xs.length
            + (value b (divSmall b d ((rem * b + x) % d) xs).1 * d
              + (divSmall b d ((rem * b + x) % d) xs).2) := by ring
        _ = ((rem * b + x) / d * d + (rem * b + x) % d) * b ^ xs.length + value b xs := by
            rw [h]; ring
        _ = rem * b ^ (xs.length + 1) + (x * b ^ xs.length + value b xs) := by
            rw [hdiv]; ring

/-- The quotient and the remainder, as numbers. -/
theorem divSmall_spec (hd : 0 < d) (xs : List ℕ) :
    value b (divSmall b d 0 xs).1 = value b xs / d ∧ (divSmall b d 0 xs).2 = value b xs % d := by
  have h : value b (divSmall b d 0 xs).1 * d + (divSmall b d 0 xs).2 = value b xs := by
    simpa using value_divSmall 0 xs
  have hlt : (divSmall b d 0 xs).2 < d := divSmall_rem_lt hd xs
  rw [Nat.mul_comm] at h
  rw [← h]
  constructor
  · rw [Nat.mul_add_div hd, Nat.div_eq_of_lt hlt, Nat.add_zero]
  · rw [Nat.mul_add_mod, Nat.mod_eq_of_lt hlt]

/-- Multiplication by `m` with an added carry: the product digits and the carry out. -/
def mulAddSmall (b m carry : ℕ) : List ℕ → List ℕ × ℕ
  | [] => ([], carry)
  | x :: xs =>
      let rest := mulAddSmall b m carry xs
      ((x * m + rest.2) % b :: rest.1, (x * m + rest.2) / b)

@[simp] theorem length_mulAddSmall (carry : ℕ) (xs : List ℕ) :
    (mulAddSmall b m carry xs).1.length = xs.length := by
  induction xs with
  | nil => rfl
  | cons x xs ih => simp [mulAddSmall, ih]

theorem mulAddSmall_digit_lt (hb : 0 < b) (carry : ℕ) (xs : List ℕ) :
    ∀ y ∈ (mulAddSmall b m carry xs).1, y < b := by
  induction xs with
  | nil => simp [mulAddSmall]
  | cons x xs ih =>
      intro y hy
      rcases List.mem_cons.mp hy with rfl | hy
      · exact Nat.mod_lt _ hb
      · exact ih y hy

/-- A carry below the factor stays below it. -/
theorem mulAddSmall_carry_lt {carry : ℕ} (hc : carry < m) {xs : List ℕ} (h : ∀ x ∈ xs, x < b) :
    (mulAddSmall b m carry xs).2 < m := by
  induction xs with
  | nil => exact hc
  | cons x xs ih =>
      have hx := h x (by simp)
      have ih' := ih fun y hy ↦ h y (by simp [hy])
      simp only [mulAddSmall]
      rw [Nat.div_lt_iff_lt_mul (Nat.zero_lt_of_lt hx)]
      calc x * m + (mulAddSmall b m carry xs).2 < x * m + m := by omega
        _ = (x + 1) * m := by ring
        _ ≤ b * m := Nat.mul_le_mul_right _ hx
        _ = m * b := Nat.mul_comm _ _

/-- Carry out and product digits together denote the multiple plus the carry in. -/
theorem value_mulAddSmall (carry : ℕ) (xs : List ℕ) :
    (mulAddSmall b m carry xs).2 * b ^ xs.length + value b (mulAddSmall b m carry xs).1 =
      value b xs * m + carry := by
  induction xs with
  | nil => simp [mulAddSmall]
  | cons x xs ih =>
      simp only [mulAddSmall, value_cons, length_mulAddSmall, List.length_cons]
      have hdiv := Nat.div_add_mod' (x * m + (mulAddSmall b m carry xs).2) b
      calc (x * m + (mulAddSmall b m carry xs).2) / b * b ^ (xs.length + 1)
            + ((x * m + (mulAddSmall b m carry xs).2) % b * b ^ xs.length
              + value b (mulAddSmall b m carry xs).1)
          = ((x * m + (mulAddSmall b m carry xs).2) / b * b
              + (x * m + (mulAddSmall b m carry xs).2) % b) * b ^ xs.length
            + value b (mulAddSmall b m carry xs).1 := by ring
        _ = x * m * b ^ xs.length + (value b xs * m + carry) := by rw [hdiv, ← ih]; ring
        _ = (x * b ^ xs.length + value b xs) * m + carry := by ring

/-- There is no carry out exactly when the result still fits, and then the
product digits denote it. -/
theorem mulAddSmall_spec (hb : 0 < b) (carry : ℕ) (xs : List ℕ) :
    ((mulAddSmall b m carry xs).2 = 0 ↔ value b xs * m + carry < b ^ xs.length) ∧
      ((mulAddSmall b m carry xs).2 = 0 →
        value b (mulAddSmall b m carry xs).1 = value b xs * m + carry) := by
  have h := value_mulAddSmall (b := b) (m := m) carry xs
  have hlt := value_lt (mulAddSmall_digit_lt (m := m) hb carry xs)
  rw [length_mulAddSmall] at hlt
  refine ⟨⟨fun h0 ↦ ?_, fun hfit ↦ ?_⟩, fun h0 ↦ ?_⟩
  · rw [h0] at h
    omega
  · by_contra hne
    have : 1 * b ^ xs.length ≤ (mulAddSmall b m carry xs).2 * b ^ xs.length :=
      Nat.mul_le_mul_right _ (Nat.pos_of_ne_zero hne)
    omega
  · rw [h0] at h
    omega

end Positional
