import Rivid.Binding.Napi
import Rivid.Core.KsuidDecode
import Rivid.Lib.CompareSort

/-!
# The Node binding: comparing and sorting KSUIDs

The sort decodes every string and orders by the 20 bytes.  Since the text of a KSUID is
ordered as its bytes, this is the plain sort of the strings, and the one that an array sort
makes with `compareKsuid` as its comparator.  The first string that does not decode decides
what is thrown.
-/

namespace Rivid.Napi

/-- Compares two KSUIDs by their full 160-bit value. Returns `-1`, `0` or `1`. -/
def compareKsuid (a b : Str) : Except NapiError ℤ := do
  let o ← (Ksuid.compare a b).mapError toNapi
  match o with
  | .lt => return -1
  | .eq => return 0
  | .gt => return 1

/-- Returns the KSUIDs sorted ascending by value. -/
def sortKsuid (ids : List Str) : Except NapiError (List Str) := do
  let decoded ← ids.mapM fun s ↦ ((Ksuid.parse s).map fun v ↦ (v, s)).mapError toNapi
  return (decoded.mergeSort fun p q ↦ decide (¬ q.1.bytes.val < p.1.bytes.val)).map fun p ↦ p.2

/-- `compareKsuid` as a comparator: the sign of its result. -/
def ksuidOrdering (a b : Str) : Except NapiError Ordering := (compareKsuid a b).map signOrdering

/-- The error of a string that is not a KSUID. -/
def refusal (s : Str) : Option Error :=
  match Ksuid.parse s with
  | .error e => some e
  | .ok _ => none

/-- The order of the strings. -/
def stringLe (s t : Str) : Bool := decide (¬ t < s)

namespace KsuidSort

/-! ## Decoding -/

theorem parse_of_refusal {s : Str} (h : refusal s = none) : ∃ k, Ksuid.parse s = .ok k := by
  rw [refusal] at h
  split at h
  · cases h
  · rename_i k hk
    exact ⟨k, hk⟩

theorem refusal_of_parse {s : Str} {k : Ksuid} (h : Ksuid.parse s = .ok k) : refusal s = none := by
  rw [refusal, h]

theorem parse_of_refusal_some {s : Str} {e : Error} (h : refusal s = some e) :
    Ksuid.parse s = .error e := by
  rw [refusal] at h
  split at h
  · rename_i e' he
    cases h
    exact he
  · cases h

/-- The text of what a string decodes to. -/
theorem encode_of_parse {s : Str} {k : Ksuid} (h : Ksuid.parse s = .ok k) : k.encode = s :=
  Ksuid.encodeString_of_decodeBytes (Ksuid.parse_eq_ok_iff.mp h)

/-- Strings that decode are ordered as their bytes. -/
theorem lt_iff_of_parse {s t : Str} {a b : Ksuid} (hs : Ksuid.parse s = .ok a)
    (ht : Ksuid.parse t = .ok b) : s < t ↔ a.bytes.val < b.bytes.val := by
  rw [← encode_of_parse hs, ← encode_of_parse ht]
  exact Ksuid.encodeString_lt_iff

/-- The first string that is refused decides. -/
theorem mapM_parse_error {ids : List Str} {e : Error} (h : ids.findSome? refusal = some e) :
    ids.mapM (fun s ↦ ((Ksuid.parse s).map fun v ↦ (v, s)).mapError toNapi) =
      .error (toNapi e) := by
  induction ids with
  | nil => cases h
  | cons s ids ih =>
      rw [List.mapM_cons]
      cases hs : refusal s with
      | some x =>
          rw [List.findSome?_cons, hs, Option.some.injEq] at h
          rw [parse_of_refusal_some hs, h]
          rfl
      | none =>
          obtain ⟨k, hk⟩ := parse_of_refusal hs
          rw [List.findSome?_cons, hs] at h
          rw [ih h, hk]
          rfl

theorem mapM_parse_ok {ids : List Str} (h : ∀ s ∈ ids, ∃ k, Ksuid.parse s = .ok k) :
    ∃ decoded, ids.mapM (fun s ↦ ((Ksuid.parse s).map fun v ↦ (v, s)).mapError toNapi) =
        .ok decoded ∧ decoded.map Prod.snd = ids ∧ ∀ p ∈ decoded, Ksuid.parse p.2 = .ok p.1 := by
  induction ids with
  | nil => exact ⟨[], rfl, rfl, fun _ hp ↦ absurd hp List.not_mem_nil⟩
  | cons s ids ih =>
      obtain ⟨k, hk⟩ := h s List.mem_cons_self
      obtain ⟨decoded, hdecoded, hsnd, hparse⟩ := ih fun t ht ↦ h t (List.mem_cons_of_mem _ ht)
      refine ⟨(k, s) :: decoded, ?_, by rw [List.map_cons, hsnd], ?_⟩
      · rw [List.mapM_cons, hdecoded, hk]
        rfl
      · intro p hp
        rcases List.mem_cons.mp hp with rfl | hp
        · exact hk
        · exact hparse p hp

/-! ## Sorting -/

section Sorting

variable {ids : List Str}

theorem sortKsuid_of_error {e : Error} (h : ids.findSome? refusal = some e) :
    sortKsuid ids = .error (toNapi e) := by
  rw [sortKsuid, mapM_parse_error h]
  rfl

/-- The order of the bytes is the order of the strings. -/
theorem sortKsuid_of_ok (h : ∀ s ∈ ids, ∃ k, Ksuid.parse s = .ok k) :
    sortKsuid ids = .ok (ids.mergeSort stringLe) := by
  obtain ⟨decoded, hdecoded, hsnd, hparse⟩ := mapM_parse_ok h
  have hmap : (decoded.mergeSort fun p q ↦ decide (¬ q.1.bytes.val < p.1.bytes.val)).map Prod.snd =
      (decoded.map Prod.snd).mergeSort stringLe := by
    refine List.map_mergeSort fun p hp q hq ↦ ?_
    rw [stringLe, decide_eq_decide, lt_iff_of_parse (hparse q hq) (hparse p hp)]
  rw [sortKsuid, hdecoded, ok_bind, ← hsnd, ← hmap]
  rfl

theorem forall_parse_iff :
    ids.findSome? refusal = none ↔ ∀ s ∈ ids, ∃ k, Ksuid.parse s = .ok k := by
  rw [List.findSome?_eq_none_iff]
  refine forall₂_congr fun s _ ↦ ⟨parse_of_refusal, ?_⟩
  rintro ⟨k, hk⟩
  exact refusal_of_parse hk

/-! ## The comparator -/

/-- A string by the numbers of its bytes. -/
def byteNumbers (s : Str) : List ℕ := s.map BitVec.toNat

theorem stringLe_eq (s t : Str) : stringLe s t = decide (byteNumbers s ≤ byteNumbers t) := by
  rw [stringLe, decide_eq_decide, ← map_toNat_lt_iff]
  exact not_lt

theorem totalPreorder_stringLe : TotalPreorder stringLe := by
  have hkey : stringLe = fun s t ↦ decide (byteNumbers s ≤ byteNumbers t) := by
    funext s t
    exact stringLe_eq s t
  rw [hkey]
  exact .ofKey byteNumbers

theorem orderingOf_stringLe (s t : Str) :
    orderingOf stringLe s t = if s < t then .lt else if s = t then .eq else .gt := by
  have hlt : ∀ {s t : Str}, byteNumbers s < byteNumbers t ↔ s < t := map_toNat_lt_iff
  rw [orderingOf, stringLe_eq, stringLe_eq]
  rcases lt_trichotomy (byteNumbers s) (byteNumbers t) with h | h | h
  · rw [if_pos (decide_eq_true (le_of_lt h)), if_neg (by simpa using h), if_pos (hlt.mp h)]
  · obtain rfl := map_toNat_injective h
    rw [if_pos (decide_eq_true le_rfl), if_pos (decide_eq_true le_rfl),
      if_neg fun hs ↦ lt_irrefl _ (hlt.mpr hs), if_pos rfl]
  · have hne : s ≠ t := by
      rintro rfl
      exact lt_irrefl _ h
    rw [if_neg (by simpa using h), if_neg fun hs ↦ lt_asymm h (hlt.mpr hs), if_neg hne]

theorem ksuidOrdering_of_parse {s t : Str} {a b : Ksuid} (hs : Ksuid.parse s = .ok a)
    (ht : Ksuid.parse t = .ok b) : ksuidOrdering s t = .ok (orderingOf stringLe s t) := by
  have hcompare : Ksuid.compare s t = .ok (orderingOf stringLe s t) := by
    rw [Ksuid.compare_eq (Ksuid.parse_eq_ok_iff.mp hs) (Ksuid.parse_eq_ok_iff.mp ht),
      ← Ksuid.cmpBytes_encodeString, Ksuid.cmpBytes_eq, orderingOf_stringLe]
    exact congrArg₂ (fun s t : Str ↦ Except.ok (if s < t then Ordering.lt else
      if s = t then .eq else .gt)) (encode_of_parse hs) (encode_of_parse ht)
  rw [ksuidOrdering, compareKsuid, hcompare]
  cases orderingOf stringLe s t <;> rfl

/-- The comparator throws on a string that is refused, on either side. -/
theorem ksuidOrdering_ne_ok {s t : Str} (h : (refusal s).isSome ∨ (refusal t).isSome)
    (o : Ordering) : ksuidOrdering s t ≠ .ok o := by
  have herror : ∃ e, Ksuid.compare s t = .error e := by
    cases hs : Ksuid.parse s with
    | error e =>
        have hdecode : Ksuid.decodeStr s = .error e := hs
        exact ⟨e, by rw [Ksuid.compare, hdecode]; rfl⟩
    | ok a =>
        cases ht : Ksuid.parse t with
        | error e =>
            have hfirst : Ksuid.decodeStr s = .ok a := hs
            have hsecond : Ksuid.decodeStr t = .error e := ht
            exact ⟨e, by rw [Ksuid.compare, hfirst, hsecond]; rfl⟩
        | ok b =>
            rw [refusal_of_parse hs, refusal_of_parse ht] at h
            rcases h with h | h <;> cases h
  obtain ⟨e, he⟩ := herror
  rw [ksuidOrdering, compareKsuid, he]
  exact fun ho ↦ by cases ho

/-- The number of the bytes that a string decodes to, or 0. -/
def ksuidNum (s : Str) : ℕ := ((Ksuid.parse s).toOption.map fun k ↦ Ksuid.toNum k.bytes).getD 0

/-- What the comparator answers is the order of the numbers. -/
theorem compare_ksuidNum {s t : Str} {o : Ordering} (h : ksuidOrdering s t = .ok o) :
    Ord.compare (ksuidNum s) (ksuidNum t) = o := by
  cases hs : Ksuid.parse s with
  | error e =>
      refine absurd h (ksuidOrdering_ne_ok (Or.inl ?_) o)
      rw [refusal, hs, Option.isSome_some]
  | ok a =>
      cases ht : Ksuid.parse t with
      | error e =>
          refine absurd h (ksuidOrdering_ne_ok (Or.inr ?_) o)
          rw [refusal, ht, Option.isSome_some]
      | ok b =>
          rw [ksuidOrdering_of_parse hs ht, Except.ok.injEq, orderingOf_stringLe] at h
          have hnum : ∀ {u : Str} {k : Ksuid}, Ksuid.parse u = .ok k →
              ksuidNum u = Ksuid.toNum k.bytes := by
            intro u k hk
            rw [ksuidNum, hk]
            rfl
          rw [hnum hs, hnum ht, ← h]
          by_cases hlt : s < t
          · rw [if_pos hlt]
            exact compare_lt_iff_lt.mpr
              (Ksuid.toNum_lt_toNum_iff.mpr ((lt_iff_of_parse hs ht).mp hlt))
          rw [if_neg hlt]
          by_cases heq : s = t
          · subst heq
            rw [hs, Except.ok.injEq] at ht
            rw [if_pos rfl, ht]
            exact compare_eq_iff_eq.mpr rfl
          rw [if_neg heq]
          refine compare_gt_iff_gt.mpr (lt_of_le_of_ne ?_ ?_)
          · exact not_lt.mp fun hnlt ↦
              hlt ((lt_iff_of_parse hs ht).mpr (Ksuid.toNum_lt_toNum_iff.mp hnlt))
          · intro hnum
            refine heq ?_
            rw [← encode_of_parse hs, ← encode_of_parse ht, Ksuid.encode, Ksuid.encode,
              Ksuid.toNum_injective hnum]

/-- The strings that an array sort was given, in their order. -/
theorem sort_of_parse (S : ArraySort) (h : ∀ s ∈ ids, ∃ k, Ksuid.parse s = .ok k) :
    S.sort ids ksuidOrdering = .ok (ids.mergeSort stringLe) := by
  refine S.sort_eq_mergeSort totalPreorder_stringLe fun s hs t ht ↦ ?_
  obtain ⟨a, ha⟩ := h s hs
  obtain ⟨b, hb⟩ := h t ht
  exact ksuidOrdering_of_parse ha hb

/-- An array sort of two or more strings asks about the one that is refused. -/
theorem sort_of_refusal (S : ArraySort) {s : Str} (hlen : 2 ≤ ids.length) (hs : s ∈ ids)
    (hrefused : (refusal s).isSome) : ∃ e, S.sort ids ksuidOrdering = .error e :=
  S.exists_error_of_uncomparable hlen hs (fun _ _ _ _ _ h ↦ compare_ksuidNum h)
    (fun _ _ o ↦ ksuidOrdering_ne_ok (Or.inl hrefused) o)
    (fun _ _ o ↦ ksuidOrdering_ne_ok (Or.inr hrefused) o)

/-- Sorted strings are sorted by their seconds. -/
theorem pairwise_timestampSeconds (ids : List Str) :
    (ids.mergeSort stringLe).Pairwise fun s t ↦ ∀ a b, Ksuid.parse s = .ok a →
      Ksuid.parse t = .ok b → a.timestampSeconds ≤ b.timestampSeconds := by
  have hsorted := List.pairwise_mergeSort totalPreorder_stringLe.trans
    totalPreorder_stringLe.total ids
  refine hsorted.imp fun {s t} hle a b ha hb ↦ ?_
  rw [stringLe, decide_eq_true_eq, lt_iff_of_parse hb ha] at hle
  exact BitVec.not_lt.mp fun hlt ↦ hle (Ksuid.bytes_lt_of_timestampSeconds_lt hlt)

end Sorting

end KsuidSort

open KsuidSort in
/--
**Sorting KSUIDs is sorting their texts.**  `sortKsuid` answers with the array in the order
of the strings when all of them decode, and otherwise throws for the first one that does
not.  Where it answers, the times are in order too, and an array sort that calls
`compareKsuid` gives the same array; where it throws, that array sort throws as well, unless
there is nothing to compare.
-/
theorem sortKsuid_spec (ids : List Str) :
    (match ids.findSome? refusal with
      | some e => sortKsuid ids = .error (toNapi e)
      | none => sortKsuid ids = .ok (ids.mergeSort stringLe)) ∧
    (∀ sorted, sortKsuid ids = .ok sorted →
      (sorted.Pairwise fun s t ↦ ∀ a b, Ksuid.parse s = .ok a → Ksuid.parse t = .ok b →
        a.timestampSeconds ≤ b.timestampSeconds) ∧
      ∀ S : ArraySort, S.sort ids ksuidOrdering = .ok sorted) ∧
    ((∃ e, sortKsuid ids = .error e) → 2 ≤ ids.length →
      ∀ S : ArraySort, ∃ e, S.sort ids ksuidOrdering = .error e) := by
  cases hrefused : ids.findSome? refusal with
  | some e =>
      have hthrows := sortKsuid_of_error hrefused
      obtain ⟨s, hs, hse⟩ := List.exists_of_findSome?_eq_some hrefused
      refine ⟨hthrows, fun sorted hsorted ↦ ?_, fun _ hlen S ↦ ?_⟩
      · rw [hthrows] at hsorted
        cases hsorted
      · exact sort_of_refusal S hlen hs (Option.isSome_iff_exists.mpr ⟨e, hse⟩)
  | none =>
      have hparse := forall_parse_iff.mp hrefused
      have hanswers := sortKsuid_of_ok hparse
      refine ⟨hanswers, fun sorted hsorted ↦ ?_, fun hthrows ↦ ?_⟩
      · rw [hanswers, Except.ok.injEq] at hsorted
        subst hsorted
        exact ⟨pairwise_timestampSeconds ids, fun S ↦ sort_of_parse S hparse⟩
      · obtain ⟨e, he⟩ := hthrows
        rw [hanswers] at he
        cases he

end Rivid.Napi
