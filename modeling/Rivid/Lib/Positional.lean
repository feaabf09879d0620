import Mathlib.Data.Nat.Digits.Defs
import Mathlib.Data.List.Lex
import Mathlib.Tactic.Ring

/-!
# Fixed-width positional numerals, most significant digit first

Mathlib's `Nat.digits` and `Nat.ofDigits` are little-endian and of variable
width.  Text encodings of fixed-size identifiers are the opposite on both
counts, so this file develops big-endian numerals of a given width: `digits b n v`
lists the `n` low digits of `v` in base `b`, `value b ds` is the number a digit
string denotes.

The results a codec needs are the two round trips (`value_digits`,
`digits_value`), the splitting and regrouping laws (`digits_add`,
`flatMap_digits`) that let an encoder work on groups of digits, and
`value_lt_value_iff`: on digit strings of one length the numerical order is the
lexicographic order.
-/

namespace Positional

variable {b : ℕ}

/-! ## Lexicographic order of concatenations -/

section Lex

variable {α β : Type*} [LT α] [LT β]

/-- Concatenations whose heads have one length compare by the heads first. -/
theorem append_lt_append_iff {l₁ l₂ r₁ r₂ : List α} (h : l₁.length = l₂.length) :
    l₁ ++ r₁ < l₂ ++ r₂ ↔ l₁ < l₂ ∨ l₁ = l₂ ∧ r₁ < r₂ := by
  induction l₁ generalizing l₂ with
  | nil =>
      have hl : l₂ = [] := List.length_eq_zero_iff.mp h.symm
      subst hl
      simp [List.not_lt_nil]
  | cons a l₁ ih =>
      cases l₂ with
      | nil => simp at h
      | cons c l₂ =>
          simp only [List.cons_append, List.cons_lt_cons_iff, List.cons.injEq,
            ih (Nat.succ.inj h)]
          tauto

/-- Recoding symbol by symbol keeps the lexicographic order when it keeps the
order of the symbols. -/
theorem map_lt_map_iff {f : α → β} {p : α → Prop} {l m : List α}
    (hlt : ∀ x y, p x → p y → (f x < f y ↔ x < y))
    (hinj : ∀ x y, p x → p y → f x = f y → x = y)
    (hl : ∀ x ∈ l, p x) (hm : ∀ x ∈ m, p x) : l.map f < m.map f ↔ l < m := by
  induction l generalizing m with
  | nil =>
      cases m with
      | nil => simp
      | cons y m => simp
  | cons x l ih =>
      cases m with
      | nil => simp [List.not_lt_nil]
      | cons y m =>
          have hx : p x := hl x (by simp)
          have hy : p y := hm y (by simp)
          have ih' := ih (m := m) (fun z hz ↦ hl z (by simp [hz])) (fun z hz ↦ hm z (by simp [hz]))
          have heq : f x = f y ↔ x = y := ⟨hinj x y hx hy, congrArg f⟩
          simp only [List.map_cons, List.cons_lt_cons_iff, hlt x y hx hy, heq, ih']

end Lex

/-! ## The value of a digit string -/

/-- The number a digit string denotes in base `b`, most significant digit first. -/
def value (b : ℕ) (ds : List ℕ) : ℕ := Nat.ofDigits b ds.reverse

@[simp] theorem value_nil : value b [] = 0 := rfl

@[simp] theorem value_append (l m : List ℕ) :
    value b (l ++ m) = value b l * b ^ m.length + value b m := by
  rw [value, List.reverse_append, Nat.ofDigits_append, List.length_reverse]
  unfold value
  ring

@[simp] theorem value_singleton (d : ℕ) : value b [d] = d := Nat.ofDigits_singleton

theorem value_cons (d : ℕ) (ds : List ℕ) :
    value b (d :: ds) = d * b ^ ds.length + value b ds := by
  rw [← List.singleton_append, value_append, value_singleton]

theorem value_concat (ds : List ℕ) (d : ℕ) : value b (ds ++ [d]) = value b ds * b + d := by
  simp

theorem value_replicate_zero (n : ℕ) : value b (List.replicate n 0) = 0 := by
  rw [value, List.reverse_replicate, Nat.ofDigits_replicate_zero]

/-- A string of `n` digits is below `b ^ n`. -/
theorem value_lt {ds : List ℕ} (h : ∀ d ∈ ds, d < b) : value b ds < b ^ ds.length := by
  induction ds with
  | nil => simp
  | cons d ds ih =>
      have hd : d < b := h d (by simp)
      have ih' := ih fun x hx ↦ h x (by simp [hx])
      rw [value_cons, List.length_cons, pow_succ]
      calc d * b ^ ds.length + value b ds
          < d * b ^ ds.length + b ^ ds.length := by omega
        _ = (d + 1) * b ^ ds.length := by ring
        _ ≤ b * b ^ ds.length := Nat.mul_le_mul_right _ hd
        _ = b ^ ds.length * b := Nat.mul_comm _ _

/-- On digit strings of one length, numerical order is lexicographic order. -/
theorem value_lt_value_iff {l m : List ℕ} (hlen : l.length = m.length)
    (hl : ∀ d ∈ l, d < b) (hm : ∀ d ∈ m, d < b) : value b l < value b m ↔ l < m := by
  induction l generalizing m with
  | nil =>
      have hm0 : m = [] := List.length_eq_zero_iff.mp hlen.symm
      subst hm0
      simp
  | cons d l ih =>
      cases m with
      | nil => simp at hlen
      | cons e m =>
          have hlen' : l.length = m.length := Nat.succ.inj hlen
          have hl' : ∀ x ∈ l, x < b := fun x hx ↦ hl x (by simp [hx])
          have hm' : ∀ x ∈ m, x < b := fun x hx ↦ hm x (by simp [hx])
          have hvl := value_lt hl'
          have hvm := value_lt hm'
          rw [value_cons, value_cons, List.cons_lt_cons_iff, ← ih hlen' hl' hm', hlen']
          rw [hlen'] at hvl
          rcases Nat.lt_trichotomy d e with h | h | h
          · have hmul : (d + 1) * b ^ m.length ≤ e * b ^ m.length := Nat.mul_le_mul_right _ h
            rw [Nat.add_mul] at hmul
            constructor
            · exact fun _ ↦ Or.inl h
            · intro _
              omega
          · subst h
            simp
          · have hmul : (e + 1) * b ^ m.length ≤ d * b ^ m.length := Nat.mul_le_mul_right _ h
            rw [Nat.add_mul] at hmul
            constructor
            · intro _
              omega
            · rintro (h' | ⟨h', -⟩) <;> omega

/-- Digit strings of one length with the same value are equal. -/
theorem value_inj {l m : List ℕ} (hlen : l.length = m.length)
    (hl : ∀ d ∈ l, d < b) (hm : ∀ d ∈ m, d < b) (h : value b l = value b m) : l = m := by
  rcases lt_trichotomy l m with hlt | heq | hgt
  · exact absurd h (Nat.ne_of_lt ((value_lt_value_iff hlen hl hm).mpr hlt))
  · exact heq
  · exact absurd h (Nat.ne_of_gt ((value_lt_value_iff hlen.symm hm hl).mpr hgt))

/-! ## The digits of a number -/

/-- The `n` low digits of `v` in base `b`, most significant first. -/
def digits (b : ℕ) : ℕ → ℕ → List ℕ
  | 0, _ => []
  | n + 1, v => digits b n (v / b) ++ [v % b]

@[simp] theorem digits_zero (v : ℕ) : digits b 0 v = [] := rfl

theorem digits_succ (n v : ℕ) : digits b (n + 1) v = digits b n (v / b) ++ [v % b] := rfl

@[simp] theorem length_digits (n v : ℕ) : (digits b n v).length = n := by
  induction n generalizing v with
  | zero => rfl
  | succ n ih => simp [digits_succ, ih]

theorem lt_of_mem_digits (hb : 0 < b) {n v d : ℕ} (h : d ∈ digits b n v) : d < b := by
  induction n generalizing v with
  | zero => simp at h
  | succ n ih =>
      rw [digits_succ, List.mem_append, List.mem_singleton] at h
      rcases h with h | rfl
      · exact ih h
      · exact Nat.mod_lt _ hb

/-- Reading back `n` digits of `v` gives `v` modulo `b ^ n`. -/
theorem value_digits_mod (n v : ℕ) : value b (digits b n v) = v % b ^ n := by
  induction n generalizing v with
  | zero => simp [Nat.mod_one]
  | succ n ih =>
      rw [digits_succ, value_concat, ih, pow_succ', Nat.mod_mul, Nat.mul_comm, Nat.add_comm]

theorem value_digits {n v : ℕ} (h : v < b ^ n) : value b (digits b n v) = v := by
  rw [value_digits_mod, Nat.mod_eq_of_lt h]

/-- Writing out the value of a digit string gives the string back. -/
theorem digits_value (hb : 0 < b) {ds : List ℕ} (h : ∀ d ∈ ds, d < b) :
    digits b ds.length (value b ds) = ds :=
  value_inj (length_digits _ _) (fun _ hd ↦ lt_of_mem_digits hb hd) h
    (value_digits (value_lt h))

/-- Numerals of one width are ordered as the numbers they denote. -/
theorem digits_lt_digits_iff (hb : 0 < b) {n v w : ℕ} (hv : v < b ^ n) (hw : w < b ^ n) :
    digits b n v < digits b n w ↔ v < w := by
  rw [← value_lt_value_iff (by simp) (fun _ hd ↦ lt_of_mem_digits hb hd)
    (fun _ hd ↦ lt_of_mem_digits hb hd), value_digits hv, value_digits hw]

/-- A numeral splits into its high and its low digits. -/
theorem digits_add (m n v : ℕ) :
    digits b (m + n) v = digits b m (v / b ^ n) ++ digits b n v := by
  induction n generalizing v with
  | zero => simp
  | succ n ih =>
      rw [← Nat.add_assoc, digits_succ, ih, digits_succ, List.append_assoc, pow_succ',
        Nat.div_div_eq_div_mul]

/-- Only the low `n` digits matter. -/
theorem digits_mod (n v : ℕ) : digits b n (v % b ^ n) = digits b n v := by
  induction n generalizing v with
  | zero => rfl
  | succ n ih =>
      have hdiv : v % b ^ (n + 1) / b = v / b % b ^ n := by
        rw [pow_succ', Nat.mod_mul_right_div_self]
      have hmod : v % b ^ (n + 1) % b = v % b :=
        Nat.mod_mod_of_dvd _ (Dvd.intro_left (b ^ n) rfl)
      rw [digits_succ, digits_succ, hdiv, ih, hmod]

/-- Writing every digit of a base-`b ^ k` numeral with `k` digits of base `b`
gives the base-`b` numeral: an encoder may emit `k` characters at a time. -/
theorem flatMap_digits (k n v : ℕ) :
    (digits (b ^ k) n v).flatMap (digits b k) = digits b (n * k) v := by
  induction n generalizing v with
  | zero => simp
  | succ n ih =>
      rw [digits_succ, List.flatMap_append, ih, List.flatMap_singleton, digits_mod,
        Nat.succ_mul, digits_add]

/-- Regrouping `k` digits of base `b` into one of base `b ^ k` keeps the value. -/
theorem value_flatMap_digits {k : ℕ} {ds : List ℕ} (h : ∀ d ∈ ds, d < b ^ k) :
    value b (ds.flatMap (digits b k)) = value (b ^ k) ds := by
  induction ds with
  | nil => rfl
  | cons d ds ih =>
      have hlen : (ds.flatMap (digits b k)).length = k * ds.length := by
        simp [List.length_flatMap, Nat.mul_comm]
      rw [List.flatMap_cons, value_append, value_cons, ih fun x hx ↦ h x (by simp [hx]),
        value_digits (h d (by simp)), hlen, pow_mul]

end Positional
