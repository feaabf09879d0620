import Rivid.Lib.Chunks
import Rivid.Lib.Machine

/-!
# Records packed into a buffer

Records that all take `n` elements lie in a buffer one behind the other.  Looking at a
stretch of the buffer that starts between two records, or writing records over it, is
looking at, or writing over, a stretch of the list of records.
-/

namespace Packed

open Chunks

variable {α β ρ : Type*} {enc : α → List β} {n : ℕ}

/-- The buffer that holds the records `xs`. -/
def pack (enc : α → List β) (xs : List α) : List β := xs.flatMap enc

@[simp] theorem pack_nil : pack enc [] = [] := rfl

theorem pack_append (xs ys : List α) : pack enc (xs ++ ys) = pack enc xs ++ pack enc ys :=
  List.flatMap_append

@[simp] theorem pack_singleton (x : α) : pack enc [x] = enc x := List.flatMap_singleton ..

section Width

variable (henc : ∀ x, (enc x).length = n)
include henc

theorem length_pack (xs : List α) : (pack enc xs).length = n * xs.length := by
  rw [pack, List.length_flatMap]
  simp [henc, Nat.mul_comm]

theorem take_pack (xs : List α) (i : ℕ) : (pack enc xs).take (n * i) = pack enc (xs.take i) := by
  rcases Nat.le_total i xs.length with hi | hi
  · have hlen : (pack enc (xs.take i)).length = n * i := by
      rw [length_pack henc, List.length_take, Nat.min_eq_left hi]
    conv_lhs => rw [← List.take_append_drop i xs, pack_append]
    exact List.take_left' hlen
  · have hlen : (pack enc xs).length ≤ n * i := by
      rw [length_pack henc]
      exact Nat.mul_le_mul_left n hi
    rw [List.take_of_length_le hlen, List.take_of_length_le hi]

theorem drop_pack (xs : List α) (i : ℕ) : (pack enc xs).drop (n * i) = pack enc (xs.drop i) := by
  rcases Nat.le_total i xs.length with hi | hi
  · have hlen : (pack enc (xs.take i)).length = n * i := by
      rw [length_pack henc, List.length_take, Nat.min_eq_left hi]
    conv_lhs => rw [← List.take_append_drop i xs, pack_append]
    exact List.drop_left' hlen
  · have hlen : (pack enc xs).length ≤ n * i := by
      rw [length_pack henc]
      exact Nat.mul_le_mul_left n hi
    rw [List.drop_eq_nil_of_le hlen, List.drop_eq_nil_of_le hi, pack_nil]

/-- Writing records over the records of a buffer. -/
theorem overwrite_pack (xs ys : List α) (i : ℕ) :
    overwrite (pack enc xs) (n * i) (pack enc ys) = pack enc (overwrite xs i ys) := by
  rw [overwrite, overwrite, pack_append, pack_append, ← take_pack henc, ← drop_pack henc,
    length_pack henc, Nat.mul_add]

/-- A stretch that is as long as `m` records holds `m` records. -/
theorem window_pack {xs : List α} {i m len : ℕ}
    (h : (((pack enc xs).drop (n * i)).take len).length = n * m) :
    ((pack enc xs).drop (n * i)).take len = pack enc ((xs.drop i).take m) := by
  have hlen : ((pack enc xs).drop (n * i)).take len =
      ((pack enc xs).drop (n * i)).take (n * m) := by
    rw [← h, List.length_take, ← List.take_eq_take_min]
  rw [hlen, drop_pack henc, take_pack henc]

/-- A loop that writes records over the first ones of a buffer. -/
theorem fillLoop_pack {g : ρ → α × ρ} {count : ℕ} {xs : List α} (h : count ≤ xs.length)
    (rng : ρ) : (fillLoop n (fun rng ↦ (enc (g rng).1, (g rng).2)) count (pack enc xs) rng).1 =
      pack enc (((List.range count).map fun i ↦ (g (sourceAfter g rng i)).1) ++ xs.drop count) := by
  have hfits : n * count ≤ (pack enc xs).length := by
    rw [length_pack henc]
    exact Nat.mul_le_mul_left n h
  have hmade : ∀ rng, ((fun rng ↦ (enc (g rng).1, (g rng).2)) rng).1.length = n :=
    fun rng ↦ henc (g rng).1
  have hmap : pack enc ((List.range count).map fun i ↦ (g (sourceAfter g rng i)).1) =
      (List.range count).flatMap fun i ↦ enc (g (sourceAfter g rng i)).1 := List.flatMap_map ..
  rw [fillLoop_eq_append hmade hfits, drop_pack henc, pack_append, hmap]
  rfl

end Width

/-- Writing over a stretch what stands there changes nothing. -/
theorem overwrite_window (buf : List β) (i len : ℕ) :
    overwrite buf i ((buf.drop i).take len) = buf := by
  rw [overwrite, List.length_take, List.length_drop]
  have hrest : buf.drop (i + min len (buf.length - i)) = (buf.drop i).drop len := by
    rw [List.drop_drop]
    rcases Nat.le_total len (buf.length - i) with hle | hle
    · rw [Nat.min_eq_left hle]
    · rw [List.drop_eq_nil_of_le (by omega), List.drop_eq_nil_of_le (by omega)]
  rw [hrest, List.take_append_drop, List.take_append_drop]

end Packed
