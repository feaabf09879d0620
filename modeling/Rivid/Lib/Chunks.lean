import Mathlib.Data.List.Basic
import Mathlib.Logic.Function.Iterate

/-!
# Loops that draw from a source

A loop draws from a source in each round and pushes what it makes to a list, or writes it
over the chunks of a buffer one after the other.  Both see the source in the same states,
so they make the same things; a chunk that is not written keeps its content.
-/

namespace Chunks

variable {α β ρ : Type*}

/-! ## Pushing -/

/-- The source behind `n` rounds. -/
def sourceAfter (f : ρ → β × ρ) (rng : ρ) (n : ℕ) : ρ := (fun rng ↦ (f rng).2)^[n] rng

theorem sourceAfter_succ (f : ρ → β × ρ) (rng : ρ) (n : ℕ) :
    sourceAfter f rng (n + 1) = (f (sourceAfter f rng n)).2 :=
  Function.iterate_succ_apply' _ n rng

/-- `for _ in 0..n` with a push. -/
def pushLoop (f : ρ → β × ρ) (n : ℕ) (rng : ρ) : List β × ρ :=
  (List.range n).foldl (fun st _ ↦ let x := f st.2; (st.1 ++ [x.1], x.2)) ([], rng)

theorem pushLoop_eq (f : ρ → β × ρ) (n : ℕ) (rng : ρ) : pushLoop f n rng =
    ((List.range n).map fun i ↦ (f (sourceAfter f rng i)).1, sourceAfter f rng n) := by
  induction n with
  | zero => rfl
  | succ n ih =>
      rw [pushLoop, List.range_succ, List.foldl_append, ← pushLoop, ih, List.map_append,
        sourceAfter_succ]
      rfl

/-! ## Writing over chunks -/

/-- Copy `x` over what stands at `k`. -/
def overwrite (buf : List α) (k : ℕ) (x : List α) : List α :=
  buf.take k ++ (x ++ buf.drop (k + x.length))

theorem length_overwrite {buf x : List α} {k : ℕ} (h : k + x.length ≤ buf.length) :
    (overwrite buf k x).length = buf.length := by
  rw [overwrite, List.length_append, List.length_append, List.length_take, List.length_drop]
  omega

theorem getElem?_overwrite {buf x : List α} {k : ℕ} (h : k + x.length ≤ buf.length) (p : ℕ) :
    (overwrite buf k x)[p]? = if k ≤ p ∧ p < k + x.length then x[p - k]? else buf[p]? := by
  have hk : (buf.take k).length = k := by rw [List.length_take]; omega
  rw [overwrite]
  by_cases hlt : p < k
  · rw [List.getElem?_append_left (by omega), List.getElem?_take_of_lt hlt, if_neg (by omega)]
  · rw [List.getElem?_append_right (by omega), hk]
    by_cases hin : p < k + x.length
    · rw [List.getElem?_append_left (by omega), if_pos (by omega)]
    · rw [List.getElem?_append_right (by omega), List.getElem?_drop, if_neg (by omega)]
      congr 1
      omega

/-- The `i`-th chunk of `n` elements. -/
def chunk (n : ℕ) (buf : List α) (i : ℕ) : List α := (buf.drop (n * i)).take n

theorem getElem?_chunk (n : ℕ) (buf : List α) (i q : ℕ) :
    (chunk n buf i)[q]? = if q < n then buf[n * i + q]? else none := by
  rw [chunk, List.getElem?_take, List.getElem?_drop]

/-- Writing over a chunk changes this chunk and no other. -/
theorem chunk_overwrite {n i : ℕ} {buf x : List α} (hx : x.length = n)
    (h : n * (i + 1) ≤ buf.length) (j : ℕ) :
    chunk n (overwrite buf (n * i) x) j = if j = i then x else chunk n buf j := by
  have hfits : n * i + x.length ≤ buf.length := by rw [hx]; exact h
  apply List.ext_getElem?
  intro q
  rw [getElem?_chunk]
  by_cases hq : q < n
  · rw [if_pos hq, getElem?_overwrite hfits]
    by_cases hji : j = i
    · subst hji
      rw [if_pos rfl, if_pos (by omega), Nat.add_sub_cancel_left]
    · have hout : ¬ (n * i ≤ n * j + q ∧ n * j + q < n * i + x.length) := by
        rintro ⟨hle, hlt⟩
        rcases Nat.lt_or_gt_of_ne hji with hlt' | hlt'
        · have := Nat.mul_le_mul_left n (Nat.succ_le_of_lt hlt')
          rw [Nat.mul_succ] at this
          omega
        · have := Nat.mul_le_mul_left n (Nat.succ_le_of_lt hlt')
          rw [Nat.mul_succ] at this
          omega
      rw [if_neg hji, if_neg hout, getElem?_chunk, if_pos hq]
  · rw [if_neg hq]
    by_cases hji : j = i
    · rw [if_pos hji, List.getElem?_eq_none (by omega)]
    · rw [if_neg hji, getElem?_chunk, if_neg hq]

/-- `for chunk in buf.chunks_exact_mut(n)`, for the first `count` chunks. -/
def fillLoop (n : ℕ) (f : ρ → List α × ρ) (count : ℕ) (buf : List α) (rng : ρ) : List α × ρ :=
  (List.range count).foldl (fun st i ↦ let x := f st.2; (overwrite st.1 (n * i) x.1, x.2))
    (buf, rng)

theorem fillLoop_succ (n : ℕ) (f : ρ → List α × ρ) (count : ℕ) (buf : List α) (rng : ρ) :
    fillLoop n f (count + 1) buf rng =
      (overwrite (fillLoop n f count buf rng).1 (n * count) (f (fillLoop n f count buf rng).2).1,
        (f (fillLoop n f count buf rng).2).2) := by
  rw [fillLoop, List.range_succ, List.foldl_append]
  rfl

section Fill

variable {n count : ℕ} {f : ρ → List α × ρ} {buf : List α}

theorem snd_fillLoop (buf : List α) (rng : ρ) :
    (fillLoop n f count buf rng).2 = sourceAfter f rng count := by
  induction count with
  | zero => rfl
  | succ count ih => rw [fillLoop_succ, sourceAfter_succ, ih]

theorem length_fillLoop (hf : ∀ rng, (f rng).1.length = n) (h : n * count ≤ buf.length) (rng : ρ) :
    (fillLoop n f count buf rng).1.length = buf.length := by
  induction count with
  | zero => rfl
  | succ count ih =>
      rw [Nat.mul_succ] at h
      have hlen := ih (by omega)
      rw [fillLoop_succ, length_overwrite (by rw [hf, hlen]; exact h), hlen]

/-- Each chunk up to the last one written is what its round made. -/
theorem chunk_fillLoop (hf : ∀ rng, (f rng).1.length = n) (h : n * count ≤ buf.length) (rng : ρ)
    (j : ℕ) : chunk n (fillLoop n f count buf rng).1 j =
      if j < count then (f (sourceAfter f rng j)).1 else chunk n buf j := by
  induction count with
  | zero => rfl
  | succ count ih =>
      have hle : n * count ≤ buf.length :=
        Nat.le_trans (Nat.mul_le_mul_left n (Nat.le_succ count)) h
      have hfits : n * (count + 1) ≤ (fillLoop n f count buf rng).1.length := by
        rw [length_fillLoop hf hle]
        exact h
      rw [fillLoop_succ, chunk_overwrite (hf _) hfits, ih hle, snd_fillLoop]
      by_cases hj : j = count
      · rw [if_pos hj, if_pos (by omega), hj]
      · rw [if_neg hj]
        by_cases hlt : j < count
        · rw [if_pos hlt, if_pos (by omega)]
        · rw [if_neg hlt, if_neg (by omega)]

theorem length_flatMap_range (hf : ∀ rng, (f rng).1.length = n) (rng : ρ) (count : ℕ) :
    ((List.range count).flatMap fun i ↦ (f (sourceAfter f rng i)).1).length = n * count := by
  rw [List.length_flatMap]
  simp [hf, Nat.mul_comm]

/-- What the rounds made stands in front of the rest. -/
theorem fillLoop_eq_append (hf : ∀ rng, (f rng).1.length = n) (h : n * count ≤ buf.length)
    (rng : ρ) : (fillLoop n f count buf rng).1 =
      ((List.range count).flatMap fun i ↦ (f (sourceAfter f rng i)).1) ++ buf.drop (n * count) := by
  induction count with
  | zero => rfl
  | succ count ih =>
      rw [Nat.mul_succ] at h
      have hmade : ((List.range count).flatMap fun i ↦ (f (sourceAfter f rng i)).1).length =
          n * count := length_flatMap_range hf rng count
      have hdrop : (((List.range count).flatMap fun i ↦ (f (sourceAfter f rng i)).1) ++
          buf.drop (n * count)).drop (n * count + n) = buf.drop (n * count + n) := by
        rw [List.drop_append, hmade, List.drop_eq_nil_of_le (by omega), List.nil_append,
          List.drop_drop]
        congr 1
        omega
      rw [fillLoop_succ, ih (by omega), snd_fillLoop, overwrite, hf, List.take_left' hmade, hdrop,
        List.range_succ, List.flatMap_append, List.flatMap_singleton, List.append_assoc,
        Nat.mul_succ]

end Fill

end Chunks
