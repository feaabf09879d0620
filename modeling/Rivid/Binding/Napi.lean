import Rivid.Core.Ulid
import Rivid.Lib.CompareSort

/-!
# The Node binding: comparing and sorting

Both functions decode every string they are given and order by the decoded
value; an error of the engine becomes an error of the binding with its message.
-/

namespace Rivid.Napi

inductive Status where
  | invalidArg
deriving DecidableEq, Repr

/-- An error of the binding. -/
structure NapiError where
  status : Status
  reason : String
deriving DecidableEq, Repr

/-- Maps engine errors onto binding errors. -/
def toNapi (e : Error) : NapiError := ⟨.invalidArg, e.display⟩

/-- Compares two ULIDs by their full 128-bit value. Returns `-1`, `0` or `1`. -/
def compare (a b : Str) : Except NapiError ℤ := do
  let o ← (Ulid.compare a b).mapError toNapi
  match o with
  | .lt => return -1
  | .eq => return 0
  | .gt => return 1

/-- Returns the ULIDs sorted ascending by value; every element must decode. -/
def sort (ids : List Str) : Except NapiError (List Str) := do
  let decoded ← ids.mapM fun s ↦ ((Crockford.decodeChars s).map fun v ↦ (v, s)).mapError toNapi
  return (decoded.mergeSort fun p q ↦ decide (p.1 ≤ q.1)).map fun p ↦ p.2

/-- The value a string decodes to, or 0. -/
def valueOf (s : Str) : U128 :=
  match Crockford.decodeChars s with
  | .ok v => v
  | .error _ => 0

theorem valueOf_of_ok {s : Str} {v : U128} (h : Crockford.decodeChars s = .ok v) :
    valueOf s = v := by
  rw [valueOf, h]

/-! ## Comparing -/

/-- The sign by which a comparator's result is read. -/
def signOrdering (n : ℤ) : Ordering := if n < 0 then .lt else if n = 0 then .eq else .gt

/-- On strings that decode, the comparison of the values. -/
theorem compare_of_ok {a b : Str} {v w : U128} (ha : Crockford.decodeChars a = .ok v)
    (hb : Crockford.decodeChars b = .ok w) :
    compare a b = .ok (if v < w then -1 else if v = w then 0 else 1) := by
  rw [compare, Ulid.compare, ha, hb]
  simp only [ok_bind, Ulid.cmpU128]
  split
  · rfl
  · split <;> rfl

/-- A string that does not decode makes the comparison throw, on either side. -/
theorem compare_error {a b : Str}
    (h : (¬ ∃ v, Crockford.decodeChars a = .ok v) ∨ ¬ ∃ w, Crockford.decodeChars b = .ok w) :
    ∃ e, compare a b = .error e := by
  rw [compare, Ulid.compare]
  cases ha : Crockford.decodeChars a with
  | error e => exact ⟨toNapi e, rfl⟩
  | ok v =>
      cases hb : Crockford.decodeChars b with
      | error e => exact ⟨toNapi e, rfl⟩
      | ok w =>
          rcases h with h | h
          · exact absurd ⟨v, ha⟩ h
          · exact absurd ⟨w, hb⟩ h

/-- The sign of the comparison is the order of the values. -/
theorem signOrdering_compare {a b : Str} {n : ℤ} (h : compare a b = .ok n) :
    Ord.compare (valueOf a).toNat (valueOf b).toNat = signOrdering n := by
  have hok : (∃ v, Crockford.decodeChars a = .ok v) ∧ ∃ w, Crockford.decodeChars b = .ok w := by
    by_contra hno
    obtain ⟨e, he⟩ := compare_error (not_and_or.mp hno)
    rw [he] at h
    cases h
  obtain ⟨⟨v, hv⟩, w, hw⟩ := hok
  rw [compare_of_ok hv hw, Except.ok.injEq] at h
  rw [valueOf_of_ok hv, valueOf_of_ok hw, ← h]
  rcases BitVec.lt_trichotomy v w with hlt | rfl | hgt
  · rw [if_pos hlt, compare_lt_iff_lt.mpr (BitVec.lt_def.mp hlt)]
    rfl
  · rw [if_neg (BitVec.lt_irrefl v), if_pos rfl, compare_eq_iff_eq.mpr rfl]
    rfl
  · have hne : v ≠ w := fun he ↦ BitVec.lt_irrefl w (he ▸ hgt)
    rw [if_neg (BitVec.lt_asymm hgt), if_neg hne, compare_gt_iff_gt.mpr (BitVec.lt_def.mp hgt)]
    rfl

/-! ## Sorting -/

/-- The stable order of the values. -/
def valueLe (a b : Str) : Bool := decide ((valueOf a).toNat ≤ (valueOf b).toNat)

/-- An array all of whose elements decode is returned in the stable order of the values. -/
theorem sort_of_ok {ids : List Str} (h : ∀ s ∈ ids, ∃ v, Crockford.decodeChars s = .ok v) :
    sort ids = .ok (ids.mergeSort valueLe) := by
  have hdecode : ids.mapM (fun s ↦
      ((Crockford.decodeChars s).map fun v ↦ (v, s)).mapError toNapi) =
      .ok (ids.map fun s ↦ (valueOf s, s)) := by
    induction ids with
    | nil => rfl
    | cons s ids ih =>
        obtain ⟨v, hv⟩ := h s (by simp)
        rw [List.mapM_cons, ih fun t ht ↦ h t (by simp [ht]), List.map_cons, valueOf_of_ok hv, hv]
        rfl
  have hsort : (ids.mergeSort valueLe).map (fun s ↦ (valueOf s, s)) =
      (ids.map fun s ↦ (valueOf s, s)).mergeSort fun p q ↦ decide (p.1 ≤ q.1) :=
    List.map_mergeSort fun _ _ _ _ ↦ rfl
  rw [sort, hdecode, ok_bind, ← hsort, List.map_map]
  exact congrArg Except.ok (List.map_id _)

end Rivid.Napi
