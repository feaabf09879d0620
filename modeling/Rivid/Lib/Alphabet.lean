import Rivid.Lib.Positional
import Mathlib.Data.List.Forall2

/-!
# Alphabets and the texts of numbers

An `Alphabet` of size `b` writes each digit of base `b` as a symbol and reads
symbols back.  Reading may accept more symbols than are written (an encoding
that ignores letter case, for instance); `fold` sends every accepted symbol to
the one that is written for its digit.

`text` writes a number with a fixed count of symbols and `parse` reads a
string of symbols as a number.  They are mutually inverse up to `fold`
(`parse_text`, `text_parse`), `parse` accepts exactly the strings over the
alphabet (`parse_isSome_iff`), and when the symbols are ordered as their digits
the texts are ordered as the numbers (`text_lt_text_iff`).
-/

universe u

/-- Symbols for the digits of base `b`. -/
structure Alphabet (α : Type u) (b : ℕ) where
  /-- The symbol written for a digit. -/
  char : ℕ → α
  /-- The digit read from a symbol, if it is in the alphabet. -/
  digit : α → Option ℕ
  /-- The symbol that is written for the digit an accepted symbol stands for. -/
  fold : α → α
  digit_char : ∀ d < b, digit (char d) = some d
  digit_lt : ∀ c d, digit c = some d → d < b
  char_digit : ∀ c d, digit c = some d → char d = fold c

namespace Alphabet

open Positional

variable {α : Type u} {b : ℕ} (A : Alphabet α b)

/-! ## Writing -/

/-- The text of `v` with `n` symbols. -/
def text (n v : ℕ) : List α := (digits b n v).map A.char

@[simp] theorem length_text (n v : ℕ) : (A.text n v).length = n := by simp [text]

/-- Every symbol written is the symbol of some digit. -/
theorem exists_of_mem_text (hb : 0 < b) {n v : ℕ} {c : α} (h : c ∈ A.text n v) :
    ∃ d < b, A.char d = c := by
  obtain ⟨d, hd, rfl⟩ := List.mem_map.mp h
  exact ⟨d, lt_of_mem_digits hb hd, rfl⟩

theorem text_add (m n v : ℕ) : A.text (m + n) v = A.text m (v / b ^ n) ++ A.text n v := by
  simp only [text, digits_add, List.map_append]

/-- The text of a number put together from a high and a low part. -/
theorem text_mul_add {m n u v : ℕ} (h : v < b ^ n) :
    A.text (m + n) (u * b ^ n + v) = A.text m u ++ A.text n v := by
  have hpos : 0 < b ^ n := Nat.zero_lt_of_lt h
  have hdiv : (u * b ^ n + v) / b ^ n = u := by
    rw [Nat.mul_comm, Nat.mul_add_div hpos, Nat.div_eq_of_lt h, Nat.add_zero]
  have hmod : (u * b ^ n + v) % b ^ n = v % b ^ n := Nat.mul_add_mod_self_right u (b ^ n) v
  rw [text_add, hdiv, text, text, text, ← digits_mod n (u * b ^ n + v), hmod, digits_mod]

/-- Distinct digits have distinct symbols. -/
theorem char_inj {d e : ℕ} (hd : d < b) (he : e < b) (h : A.char d = A.char e) : d = e := by
  have h' := A.digit_char e he
  rw [← h, A.digit_char d hd] at h'
  exact Option.some.inj h'

/-- Symbols ordered as their digits make texts ordered as their numbers. -/
theorem text_lt_text_iff [LT α] (hb : 0 < b)
    (hlt : ∀ d e, d < b → e < b → (A.char d < A.char e ↔ d < e))
    {n v w : ℕ} (hv : v < b ^ n) (hw : w < b ^ n) : A.text n v < A.text n w ↔ v < w := by
  rw [text, text, map_lt_map_iff (p := (· < b)) hlt (fun _ _ ↦ A.char_inj)
    (fun _ hd ↦ lt_of_mem_digits hb hd) (fun _ hd ↦ lt_of_mem_digits hb hd),
    digits_lt_digits_iff hb hv hw]

/-! ## Reading -/

/-- The number a string of symbols stands for, if every symbol is in the alphabet. -/
def parse (s : List α) : Option ℕ := (s.mapM A.digit).map (value b)

@[simp] theorem parse_nil : A.parse [] = some 0 := rfl

theorem mapM_digit_cons (c : α) (s : List α) : (c :: s).mapM A.digit =
    (A.digit c).bind fun d ↦ (s.mapM A.digit).map (d :: ·) := by
  simp only [List.mapM_cons, Option.pure_def, Option.bind_eq_bind]
  cases A.digit c with
  | none => rfl
  | some d => cases s.mapM A.digit <;> rfl

/-- The digits of an accepted string: one a symbol, each in range, each read from its symbol. -/
theorem mapM_digit_eq_some {s : List α} {ds : List ℕ} (h : s.mapM A.digit = some ds) :
    ds.length = s.length ∧ (∀ d ∈ ds, d < b) ∧ ds.map A.char = s.map A.fold := by
  induction s generalizing ds with
  | nil =>
      obtain rfl : ds = [] := by simpa using h.symm
      simp
  | cons c s ih =>
      rw [mapM_digit_cons, Option.bind_eq_some_iff] at h
      obtain ⟨d, hd, h⟩ := h
      obtain ⟨es, hes, rfl⟩ := Option.map_eq_some_iff.mp h
      obtain ⟨hlen, hlt, hmap⟩ := ih hes
      refine ⟨by simp [hlen], ?_, by simp [hmap, A.char_digit c d hd]⟩
      intro x hx
      rcases List.mem_cons.mp hx with rfl | hx
      · exact A.digit_lt c x hd
      · exact hlt x hx

theorem mapM_digit_map_char {ds : List ℕ} (h : ∀ d ∈ ds, d < b) :
    (ds.map A.char).mapM A.digit = some ds := by
  induction ds with
  | nil => rfl
  | cons d ds ih =>
      rw [List.map_cons, mapM_digit_cons, A.digit_char d (h d (by simp)),
        ih fun x hx ↦ h x (by simp [hx])]
      rfl

/-- A string is accepted iff each of its symbols is. -/
theorem parse_isSome_iff {s : List α} :
    (A.parse s).isSome ↔ ∀ c ∈ s, (A.digit c).isSome := by
  rw [parse, Option.isSome_map]
  induction s with
  | nil => simp
  | cons c s ih =>
      rw [mapM_digit_cons, List.forall_mem_cons, ← ih]
      cases A.digit c <;> simp

/-- An accepted string of `n` symbols stands for a number below `b ^ n`. -/
theorem parse_lt {s : List α} {v : ℕ} (h : A.parse s = some v) : v < b ^ s.length := by
  obtain ⟨ds, hds, rfl⟩ := Option.map_eq_some_iff.mp h
  obtain ⟨hlen, hlt, -⟩ := A.mapM_digit_eq_some hds
  rw [← hlen]
  exact value_lt hlt

theorem parse_text (hb : 0 < b) {n v : ℕ} (h : v < b ^ n) : A.parse (A.text n v) = some v := by
  rw [parse, text, A.mapM_digit_map_char fun _ hd ↦ lt_of_mem_digits hb hd, Option.map_some,
    value_digits h]

/-- Writing what was read gives the string back, up to `fold`. -/
theorem text_parse {s : List α} {v : ℕ} (h : A.parse s = some v) :
    A.text s.length v = s.map A.fold := by
  obtain ⟨ds, hds, rfl⟩ := Option.map_eq_some_iff.mp h
  obtain ⟨hlen, hlt, hmap⟩ := A.mapM_digit_eq_some hds
  cases ds with
  | nil => rw [← hlen, ← hmap]; rfl
  | cons d ds =>
      have hb : 0 < b := Nat.zero_lt_of_lt (hlt d (by simp))
      rw [text, ← hlen, digits_value hb hlt, hmap]

/-- A concatenation is read as its parts. -/
theorem parse_append (s t : List α) : A.parse (s ++ t) =
    (A.parse s).bind fun v ↦ (A.parse t).map (v * b ^ t.length + ·) := by
  simp only [parse, List.mapM_append, Option.bind_eq_bind, Option.pure_def]
  cases s.mapM A.digit with
  | none => rfl
  | some ds =>
      cases ht : t.mapM A.digit with
      | none => rfl
      | some es => simp [(A.mapM_digit_eq_some ht).1]

theorem parse_cons (c : α) (s : List α) : A.parse (c :: s) =
    (A.digit c).bind fun d ↦ (A.parse s).map (d * b ^ s.length + ·) := by
  rw [parse, parse, mapM_digit_cons]
  cases A.digit c with
  | none => rfl
  | some d =>
      cases hs : s.mapM A.digit with
      | none => rfl
      | some ds => simp [value_cons, (A.mapM_digit_eq_some hs).1]

/-- Canonical strings of one length are ordered as the numbers they stand for. -/
theorem parse_lt_parse_iff [LT α] (hb : 0 < b)
    (hlt : ∀ d e, d < b → e < b → (A.char d < A.char e ↔ d < e))
    {s t : List α} {v w : ℕ} (hlen : s.length = t.length) (hs : A.parse s = some v)
    (ht : A.parse t = some w) : s.map A.fold < t.map A.fold ↔ v < w := by
  rw [← A.text_parse hs, ← A.text_parse ht, hlen]
  exact A.text_lt_text_iff hb hlt (hlen ▸ A.parse_lt hs) (A.parse_lt ht)

end Alphabet
