import Rivid.Core.Ulid
import Rivid.Core.Sortable
import Rivid.Core.Convert

/-!
# One order for all representations

An identifier is stored as ULID text, sortable text, UUID text in either case,
or as its 16 bytes.  Each of these forms is ordered bytewise as the 128-bit
value, so a column sorts the same way whichever of them it holds.
-/

namespace Rivid

/-- The stored forms of a 128-bit identifier. -/
inductive Representation where
  | ulid
  | sortable
  | uuid
  | uuidUpper
  | bytes
deriving DecidableEq, Repr

namespace Representation

/-- An identifier in its stored form. -/
def text : Representation → U128 → Str
  | ulid, v => Crockford.encodeString v
  | sortable, v => Sortable.encodeString v
  | uuid, v => Convert.formatHyphenatedLower (Convert.toBeBytes v)
  | uuidUpper, v => Convert.toUppercase (Convert.formatHyphenatedLower (Convert.toBeBytes v))
  | bytes, v => (Convert.toBeBytes v).val

/-- Every stored form is ordered as the value. -/
theorem text_lt_text_iff (r : Representation) (a b : U128) : r.text a < r.text b ↔ a < b := by
  cases r with
  | ulid => exact Crockford.encodeString_lt_iff
  | sortable => exact Sortable.encodeString_lt_iff
  | uuid => exact Convert.formatHyphenatedLower_lt_iff
  | uuidUpper =>
      rw [text, text, Convert.toUppercase_lt_iff
        (fun _ ↦ Convert.mem_of_mem_formatHyphenatedLower)
        (fun _ ↦ Convert.mem_of_mem_formatHyphenatedLower)]
      exact Convert.formatHyphenatedLower_lt_iff
  | bytes => exact beBytes_lt_iff (n := 16)

theorem text_le_text_iff (r : Representation) (a b : U128) : r.text a ≤ r.text b ↔ a ≤ b := by
  rw [← BitVec.not_lt, ← text_lt_text_iff r b a]
  exact List.not_lt.symm

/-- Sorting a column of texts sorts the identifiers behind them. -/
theorem mergeSort_map_text (r : Representation) (column : List U128) :
    (column.map r.text).mergeSort (fun s t ↦ decide (s ≤ t)) =
      (column.mergeSort fun a b ↦ decide (a ≤ b)).map r.text := by
  refine (List.map_mergeSort ?_).symm
  intro a _ b _
  exact decide_eq_decide.mpr (text_le_text_iff r a b).symm

end Representation

/-- **The text forms are order-isomorphic to the value.**  ULID text, sortable
text, lower-case UUID text, the upper-case UUID text converted from the ULID and
the raw bytes of two identifiers are ordered as their values, and so a column in
any of these forms is sorted into the order of its values. -/
theorem text_forms_order :
    (∀ a b : U128,
      (a < b ↔ Crockford.encodeString a < Crockford.encodeString b) ∧
      (a < b ↔ Sortable.encodeString a < Sortable.encodeString b) ∧
      (a < b ↔ Convert.formatHyphenatedLower (Convert.toBeBytes a) <
        Convert.formatHyphenatedLower (Convert.toBeBytes b)) ∧
      (∃ ua ub, Convert.ulidToUuid (Crockford.encodeString a) = .ok ua ∧
        Convert.ulidToUuid (Crockford.encodeString b) = .ok ub ∧ (a < b ↔ ua < ub)) ∧
      (a < b ↔ (Convert.toBeBytes a).val < (Convert.toBeBytes b).val)) ∧
    ∀ (r : Representation) (column : List U128),
      (column.map r.text).mergeSort (fun s t ↦ decide (s ≤ t)) =
        (column.mergeSort fun a b ↦ decide (a ≤ b)).map r.text := by
  refine ⟨fun a b ↦ ⟨?_, ?_, ?_, ⟨_, _, Convert.ulidToUuid_encodeString a,
    Convert.ulidToUuid_encodeString b, ?_⟩, ?_⟩, Representation.mergeSort_map_text⟩
  · exact (Representation.text_lt_text_iff .ulid a b).symm
  · exact (Representation.text_lt_text_iff .sortable a b).symm
  · exact (Representation.text_lt_text_iff .uuid a b).symm
  · exact (Representation.text_lt_text_iff .uuidUpper a b).symm
  · exact (Representation.text_lt_text_iff .bytes a b).symm

end Rivid
