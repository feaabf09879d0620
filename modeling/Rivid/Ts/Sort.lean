import Rivid.Ts.Ulid

/-!
# The TypeScript sorts

On arrays that decode, either comparator answers as the order of the values, so
whatever comparisons `Array#sort` makes the result is the stable order of the
values, which is the native sort's (`sort_agrees_with_native`).

On other arrays the scan finds wrong lengths and foreign characters.  A first
character above `7` is found only if some comparison decodes it: the scan must
have seen a lower-case letter, and there must be something to compare with
(`ulidSort_throws_iff`).
-/

namespace Rivid.Ts

/-! ## The scan -/

/-- Some character is a lower-case letter. -/
def hasLower (s : JsString) : Bool := s.any fun u ↦ 97 ≤ u

theorem scanChars_of_valid {chars : List U16} (lower : Bool)
    (h : ∀ u ∈ chars, isValidChar u = true) :
    scanChars lower chars = .ok (lower || hasLower chars) := by
  induction chars generalizing lower with
  | nil => simp [scanChars, hasLower]
  | cons u chars ih =>
      have hu := h u (by simp)
      rw [scanChars, hu, ih _ fun x hx ↦ h x (by simp [hx])]
      simp [hasLower, Bool.or_assoc]

theorem scanChars_of_invalid {chars : List U16} (lower : Bool)
    (h : ¬ ∀ u ∈ chars, isValidChar u = true) : ∃ e, scanChars lower chars = .error e := by
  induction chars generalizing lower with
  | nil => simp at h
  | cons u chars ih =>
      rw [scanChars]
      cases hu : isValidChar u with
      | false => exact ⟨_, rfl⟩
      | true =>
          refine ih _ fun hall ↦ h ?_
          exact List.forall_mem_cons.mpr ⟨hu, hall⟩

/-- Well-formed elements pass the scan, which reports a lower-case letter. -/
theorem scanIds_of_wellFormed {ids : List JsString} (mixed : Bool)
    (h : ∀ s ∈ ids, WellFormed s) : scanIds mixed ids = .ok (mixed || ids.any hasLower) := by
  induction ids generalizing mixed with
  | nil => simp [scanIds]
  | cons id ids ih =>
      obtain ⟨hlen, hchars⟩ := h id (by simp)
      rw [scanIds, if_neg (not_not.mpr hlen), scanChars_of_valid false hchars, ok_bind,
        ih _ fun s hs ↦ h s (by simp [hs])]
      simp [Bool.or_assoc]

theorem scanIds_of_not_wellFormed {ids : List JsString} (mixed : Bool)
    (h : ¬ ∀ s ∈ ids, WellFormed s) : ∃ e, scanIds mixed ids = .error e := by
  induction ids generalizing mixed with
  | nil => simp at h
  | cons id ids ih =>
      rw [scanIds]
      by_cases hlen : id.length = 26
      · rw [if_neg (not_not.mpr hlen)]
        by_cases hchars : ∀ u ∈ id, isValidChar u = true
        · rw [scanChars_of_valid false hchars, ok_bind]
          refine ih _ fun hall ↦ h ?_
          exact List.forall_mem_cons.mpr ⟨⟨hlen, hchars⟩, hall⟩
        · obtain ⟨e, he⟩ := scanChars_of_invalid false hchars
          exact ⟨e, by rw [he, error_bind]⟩
      · exact ⟨_, if_pos hlen⟩

/-! ## The comparators -/

/-- The comparator for mixed case. -/
def mixedOrdering (a b : JsString) : Except Thrown Ordering :=
  (nativeCompare a b).map Napi.signOrdering

/-- The order of the decoded values. -/
def valueLe (a b : JsString) : Bool := Napi.valueLe a.toUtf8 b.toUtf8

theorem totalPreorder_valueLe : TotalPreorder valueLe :=
  .ofKey fun s : JsString ↦ (Napi.valueOf s.toUtf8).toNat

theorem valueLe_eq {a b : JsString} {v w : U128} (hv : Crockford.decodeChars a.toUtf8 = .ok v)
    (hw : Crockford.decodeChars b.toUtf8 = .ok w) : valueLe a b = decide (v ≤ w) := by
  rw [valueLe, Napi.valueLe, Napi.valueOf_of_ok hv, Napi.valueOf_of_ok hw]
  rfl

/-- On strings that decode the mixed-case comparator answers as the order of the values. -/
theorem mixedOrdering_of_decodes {a b : JsString} (ha : Decodes a) (hb : Decodes b) :
    mixedOrdering a b = .ok (orderingOf valueLe a b) := by
  obtain ⟨v, hv⟩ := ha
  obtain ⟨w, hw⟩ := hb
  rw [mixedOrdering, nativeCompare_of_decodes hv hw, orderingOf, valueLe_eq hv hw, valueLe_eq hw hv]
  simp only [decide_eq_true_eq, Except.map]
  rcases BitVec.lt_trichotomy v w with h | rfl | h
  · rw [if_pos h, if_pos (BitVec.le_of_lt h), if_neg (BitVec.not_le.mpr h)]
    rfl
  · simp [BitVec.lt_irrefl, Napi.signOrdering]
  · have hne : v ≠ w := fun he ↦ BitVec.lt_irrefl w (he ▸ h)
    rw [if_neg (BitVec.lt_asymm h), if_neg hne, if_neg (BitVec.not_le.mpr h)]
    rfl

/-- On canonical strings that decode so does the order of the code units. -/
theorem unitOrdering_of_canonical {a b : JsString} (ha : canonicalRe a = true)
    (hb : canonicalRe b = true) (hda : Decodes a) (hdb : Decodes b) :
    unitOrdering a b = .ok (orderingOf valueLe a b) := by
  obtain ⟨v, hv⟩ := hda
  obtain ⟨w, hw⟩ := hdb
  have hlt := lt_iff_value_lt ha hb hv hw
  have hgt := lt_iff_value_lt hb ha hw hv
  rw [unitOrdering, orderingOf, valueLe_eq hv hw, valueLe_eq hw hv]
  simp only [decide_eq_true_eq, hlt, hgt]
  rcases BitVec.lt_trichotomy v w with h | rfl | h
  · rw [if_pos h, if_pos (BitVec.le_of_lt h), if_neg (BitVec.not_le.mpr h)]
  · simp [BitVec.lt_irrefl]
  · rw [if_neg (BitVec.lt_asymm h), if_pos h, if_neg (BitVec.not_le.mpr h)]

variable (S : ArraySort)

/-- With a string that does not decode and another element the mixed-case sort throws. -/
theorem sort_mixed_throws {arr : List JsString} (hlen : 2 ≤ arr.length)
    (h : ∃ s ∈ arr, ¬ Decodes s) : ∃ e, S.sort arr mixedOrdering = .error e := by
  obtain ⟨p, hp, hno⟩ := h
  have hthrows : ∀ {a b : JsString}, ¬ Decodes a ∨ ¬ Decodes b →
      ∀ o, mixedOrdering a b ≠ .ok o := by
    intro a b hab o ho
    obtain ⟨e, he⟩ := nativeCompare_error_iff.mpr hab
    rw [mixedOrdering, he] at ho
    cases ho
  refine S.exists_error_of_uncomparable (v := fun s ↦ (Napi.valueOf s.toUtf8).toNat) hlen hp
    (fun a _ b _ o ho ↦ ?_) (fun b _ ↦ hthrows (Or.inl hno)) fun a _ ↦ hthrows (Or.inr hno)
  rw [mixedOrdering, nativeCompare] at ho
  cases hcmp : Napi.compare a.toUtf8 b.toUtf8 with
  | error e =>
      rw [hcmp] at ho
      cases ho
  | ok n =>
      rw [hcmp] at ho
      cases ho
      exact Napi.signOrdering_compare hcmp

/-! ## The sort -/

/-- Validation is on unless it is switched off explicitly. -/
def Validates (opts : Option SortOptions) : Prop := opts.bind SortOptions.validate ≠ some false

variable {S} {h h' : Heap} {arr : Ref} {opts : Option SortOptions}

/-- The sort of the array's elements that `ulidSort` makes. -/
def sortElements (S : ArraySort) (ids : List JsString) : Except Thrown (List JsString) :=
  (validateAndDetectCase ids).bind fun mixedCase ↦
    if mixedCase then S.sort ids mixedOrdering else S.sort ids unitOrdering

/-- With validation on, the array is replaced by its sorted elements, or an error
is thrown and nothing is written. -/
theorem ulidSort_eq (hopts : Validates opts) : ulidSort S h arr opts =
    match sortElements S h[arr]! with
    | .error e => (.error e, h)
    | .ok sorted => (.ok arr, h.set arr sorted) := by
  have hskip : (opts.bind SortOptions.validate == some false) = false :=
    beq_eq_false_iff_ne.mpr hopts
  rw [ulidSort, hskip, sortElements]
  simp only [Bool.not_false, if_true]
  cases validateAndDetectCase h[arr]! with
  | error e => rfl
  | ok mixedCase => cases mixedCase <;> rfl

theorem canonicalRe_of_not_hasLower {s : JsString} (hs : WellFormed s) (hlow : hasLower s = false) :
    canonicalRe s = true := by
  refine canonicalRe_iff.mpr ⟨hs, fun u hu ↦ ?_⟩
  have hno : ¬ (97 : U16) ≤ u := by simpa using List.any_eq_false.mp hlow u hu
  exact BitVec.not_le.mp hno

/-- Elements that decode are put in the stable order of the values. -/
theorem sortElements_of_decodes {ids : List JsString} (hall : ∀ s ∈ ids, Decodes s) :
    sortElements S ids = .ok (ids.mergeSort valueLe) := by
  have hwell : ∀ s ∈ ids, WellFormed s := fun s hs ↦ (decodes_iff.mp (hall s hs)).1
  have hscan : validateAndDetectCase ids = .ok (ids.any hasLower) :=
    scanIds_of_wellFormed false hwell
  rw [sortElements, hscan]
  cases hmixed : ids.any hasLower with
  | true =>
      exact S.sort_eq_mergeSort totalPreorder_valueLe fun a ha b hb ↦
        mixedOrdering_of_decodes (hall a ha) (hall b hb)
  | false =>
      have hcan : ∀ s ∈ ids, canonicalRe s = true := fun s hs ↦
        canonicalRe_of_not_hasLower (hwell s hs) (by simpa using List.any_eq_false.mp hmixed s hs)
      exact S.sort_eq_mergeSort totalPreorder_valueLe fun a ha b hb ↦
        unitOrdering_of_canonical (hcan a ha) (hcan b hb) (hall a ha) (hall b hb)

/-- The native sort returns the same order. -/
theorem native_sort_of_decodes {ids : List JsString} (hall : ∀ s ∈ ids, Decodes s) :
    Napi.sort (ids.map JsString.toUtf8) = .ok ((ids.mergeSort valueLe).map JsString.toUtf8) := by
  have hmap : (ids.mergeSort valueLe).map JsString.toUtf8 =
      (ids.map JsString.toUtf8).mergeSort Napi.valueLe := List.map_mergeSort fun _ _ _ _ ↦ rfl
  rw [hmap]
  refine Napi.sort_of_ok ?_
  rw [List.forall_mem_map]
  exact hall

/-- Exactly when the sort throws. -/
theorem sortElements_throws_iff {ids : List JsString} : (∃ e, sortElements S ids = .error e) ↔
    (∃ s ∈ ids, ¬ WellFormed s) ∨
      (ids.any hasLower = true ∧ 2 ≤ ids.length ∧ ∃ s ∈ ids, Overflows s) := by
  by_cases hwell : ∀ s ∈ ids, WellFormed s
  · have hno : ¬ ∃ s ∈ ids, ¬ WellFormed s := by
      rintro ⟨s, hs, hbad⟩
      exact hbad (hwell s hs)
    have hscan : validateAndDetectCase ids = .ok (ids.any hasLower) :=
      scanIds_of_wellFormed false hwell
    have hquiet : ∀ {ys}, sortElements S ids = .ok ys → ¬ ∃ e, sortElements S ids = .error e := by
      rintro ys hys ⟨e, he⟩
      rw [hys] at he
      cases he
    rw [or_iff_right hno]
    cases hmixed : ids.any hasLower with
    | false =>
        have hunits : ∀ a b, unitOrdering a b =
            .ok (if a < b then .lt else if b < a then .gt else .eq) := fun _ _ ↦ rfl
        obtain ⟨ys, hys⟩ := S.sort_of_total hunits ids
        have hsort : sortElements S ids = .ok ys := by
          rw [sortElements, hscan, hmixed]
          exact hys
        exact iff_of_false (hquiet hsort) fun h ↦ Bool.noConfusion h.1
    | true =>
        have hsort : sortElements S ids = S.sort ids mixedOrdering := by
          rw [sortElements, hscan, hmixed]
          rfl
        by_cases hlen : 2 ≤ ids.length
        · by_cases hover : ∃ s ∈ ids, Overflows s
          · obtain ⟨s, hs, hbig⟩ := hover
            refine iff_of_true ?_ ⟨rfl, hlen, s, hs, hbig⟩
            rw [hsort]
            exact sort_mixed_throws S hlen ⟨s, hs, fun hd ↦ (decodes_iff.mp hd).2 hbig⟩
          · have hall : ∀ s ∈ ids, Decodes s := fun s hs ↦
              decodes_iff.mpr ⟨hwell s hs, fun hbig ↦ hover ⟨s, hs, hbig⟩⟩
            exact iff_of_false (hquiet (sortElements_of_decodes hall)) fun h ↦ hover h.2.2
        · obtain ⟨ys, hys⟩ := S.sort_of_length_lt_two (Nat.lt_of_not_le hlen) mixedOrdering
          exact iff_of_false (hquiet (hsort.trans hys)) fun h ↦ hlen h.2.1
  · have hbad : ∃ s ∈ ids, ¬ WellFormed s := by
      simpa only [not_forall, exists_prop] using hwell
    obtain ⟨e, he⟩ := scanIds_of_not_wellFormed false hwell
    refine iff_of_true ⟨e, ?_⟩ (Or.inl hbad)
    rw [sortElements, validateAndDetectCase, he]
    rfl

/-! ## The exported sorts -/

theorem getElem!_copy (h : Heap) (ids : List JsString) : (h ++ [ids])[h.length]! = ids := by
  have hlong : h.length < (h ++ [ids]).length := by simp
  rw [getElem!_pos (h ++ [ids]) h.length hlong]
  simp

theorem getElem!_append_of_lt {ids : Ref} (hids : ids < h.length) (copy : List JsString) :
    (h ++ [copy])[ids]! = h[ids]! := by
  have hlong : ids < (h ++ [copy]).length := lt_of_lt_of_le hids (by simp)
  rw [getElem!_pos (h ++ [copy]) ids hlong, getElem!_pos h ids hids, List.getElem_append_left hids]

/-- `sortInPlace` writes the caller's array or nothing. -/
theorem sortInPlace_eq (hopts : Validates opts) : sortInPlace S h arr opts =
    match sortElements S h[arr]! with
    | .error e => (.error e, h)
    | .ok sorted => (.ok (), h.set arr sorted) := by
  rw [sortInPlace, ulidSort_eq hopts]
  cases sortElements S h[arr]! <;> rfl

/-- `sort` writes a new array. -/
theorem sort_eq (hopts : Validates opts) : sort S h arr opts =
    match sortElements S h[arr]! with
    | .error e => (.error e, h ++ [h[arr]!])
    | .ok sorted => (.ok h.length, h ++ [sorted]) := by
  rw [sort, ulidSort_eq hopts, getElem!_copy]
  cases sortElements S h[arr]! <;> simp

/-- **The sorts on arrays that decode.**  `sort` returns a new array with the
elements in the stable order of their values, the same as the native sort's, and
leaves every existing array alone; `sortInPlace` writes that order to its argument. -/
theorem sort_agrees_with_native (hids : arr < h.length) (hopts : Validates opts)
    (hall : ∀ s ∈ h[arr]!, Decodes s) :
    ∃ sorted : List JsString,
      sorted.Perm h[arr]! ∧
      (sorted.Pairwise fun s t ↦ ∃ v w, Crockford.decodeChars s.toUtf8 = .ok v ∧
        Crockford.decodeChars t.toUtf8 = .ok w ∧ v ≤ w) ∧
      (∀ v, sorted.filter (fun s ↦ decide (Crockford.decodeChars s.toUtf8 = .ok v)) =
        h[arr]!.filter fun s ↦ decide (Crockford.decodeChars s.toUtf8 = .ok v)) ∧
      Napi.sort (h[arr]!.map JsString.toUtf8) = .ok (sorted.map JsString.toUtf8) ∧
      (∃ r h', sort S h arr opts = (.ok r, h') ∧ h'[r]! = sorted ∧
        ∀ q < h.length, h'[q]! = h[q]!) ∧
      ∃ h', sortInPlace S h arr opts = (.ok (), h') ∧ h'[arr]! = sorted := by
  have hdecode : ∀ s ∈ h[arr]!, ∃ v, Crockford.decodeChars s.toUtf8 = .ok v := hall
  have hsort : sortElements S h[arr]! = .ok (h[arr]!.mergeSort valueLe) :=
    sortElements_of_decodes hall
  refine ⟨h[arr]!.mergeSort valueLe, List.mergeSort_perm _ _, ?_, ?_,
    native_sort_of_decodes hall, ⟨h.length, h ++ [h[arr]!.mergeSort valueLe], ?_,
    getElem!_copy _ _, fun q hq ↦ getElem!_append_of_lt hq _⟩,
    h.set arr (h[arr]!.mergeSort valueLe), ?_, ?_⟩
  · have hpair := List.pairwise_mergeSort totalPreorder_valueLe.trans totalPreorder_valueLe.total
      h[arr]!
    refine hpair.imp_of_mem fun {s t} hs ht hle ↦ ?_
    obtain ⟨v, hv⟩ := hdecode s (List.mem_mergeSort.mp hs)
    obtain ⟨w, hw⟩ := hdecode t (List.mem_mergeSort.mp ht)
    rw [valueLe_eq hv hw, decide_eq_true_eq] at hle
    exact ⟨v, w, hv, hw, hle⟩
  · intro v
    have hpred : ∀ s ∈ h[arr]!, decide (Crockford.decodeChars s.toUtf8 = .ok v) =
        decide ((Napi.valueOf s.toUtf8).toNat = v.toNat) := by
      intro s hs
      obtain ⟨w, hw⟩ := hdecode s hs
      rw [hw, Napi.valueOf_of_ok hw, decide_eq_decide, Except.ok.injEq]
      exact BitVec.toNat_inj.symm
    have hkey := filter_mergeSort_key (fun s : JsString ↦ (Napi.valueOf s.toUtf8).toNat) h[arr]!
      v.toNat
    rw [List.filter_congr fun s hs ↦ hpred s (List.mem_mergeSort.mp hs), List.filter_congr hpred]
    exact hkey
  · rw [sort_eq hopts, hsort]
  · rw [sortInPlace_eq hopts, hsort]
  · have hset : arr < (h.set arr (h[arr]!.mergeSort valueLe)).length := by
      rwa [List.length_set]
    rw [getElem!_pos (h.set arr (h[arr]!.mergeSort valueLe)) arr hset, List.getElem_set_self]

/-- The theorem at an array with two case variants of one value and a smaller value. -/
theorem sort_agrees_with_native_mixed_case :
    ∃ sorted h', sortInPlace .insertionSort [[JsString.ofAscii "01arz3ndektsv4rrffq69g5fav",
        JsString.ofAscii "01ARZ3NDEKTSV4RRFFQ69G5FAV",
        JsString.ofAscii "00000000000000000000000000"]]
        0 none = (.ok (), h') ∧ h'[0]! = sorted ∧ sorted.length = 3 := by
  have hall : ∀ s ∈ ([[JsString.ofAscii "01arz3ndektsv4rrffq69g5fav",
      JsString.ofAscii "01ARZ3NDEKTSV4RRFFQ69G5FAV",
      JsString.ofAscii "00000000000000000000000000"]] : Heap)[0]!, Decodes s := by
    refine List.forall_mem_cons.mpr ⟨⟨_, rfl⟩, List.forall_mem_cons.mpr ⟨⟨_, rfl⟩,
      List.forall_mem_cons.mpr ⟨⟨_, rfl⟩, List.forall_mem_nil _⟩⟩⟩
  have hopts : Validates none := by simp [Validates]
  obtain ⟨sorted, hperm, -, -, -, -, h', hplace, hread⟩ :=
    sort_agrees_with_native (S := .insertionSort) (by decide) hopts hall
  exact ⟨sorted, h', hplace, hread, hperm.length_eq⟩

/-- **When the sorts' validation is exact.**  They throw exactly on arrays with an
element that does not decode, and leave the caller's array alone when they throw,
if and only if some length or alphabet is wrong, or no element starts above `7`,
or there is a lower-case letter and something to compare with. -/
theorem sort_validation_exact_iff (hids : arr < h.length) (hopts : Validates opts) :
    (((∃ e, (sort S h arr opts).1 = .error e) ↔ ∃ s ∈ h[arr]!, ¬ Decodes s) ∧
      ((∃ e, (sortInPlace S h arr opts).1 = .error e) ↔ ∃ s ∈ h[arr]!, ¬ Decodes s) ∧
      (∀ e, (sort S h arr opts).1 = .error e → (sort S h arr opts).2[arr]! = h[arr]!) ∧
      ∀ e, (sortInPlace S h arr opts).1 = .error e →
        (sortInPlace S h arr opts).2[arr]! = h[arr]!) ↔
    (∃ s ∈ h[arr]!, ¬ WellFormed s) ∨ (∀ s ∈ h[arr]!, ¬ Overflows s) ∨
      (h[arr]!.any hasLower = true ∧ 2 ≤ h[arr]!.length) := by
  have hsort : (∃ e, (sort S h arr opts).1 = .error e) ↔
      ∃ e, sortElements S h[arr]! = .error e := by
    rw [sort_eq hopts]
    cases sortElements S h[arr]! <;> simp
  have hplace : (∃ e, (sortInPlace S h arr opts).1 = .error e) ↔
      ∃ e, sortElements S h[arr]! = .error e := by
    rw [sortInPlace_eq hopts]
    cases sortElements S h[arr]! <;> simp
  have hatomic : (∀ e, (sort S h arr opts).1 = .error e →
      (sort S h arr opts).2[arr]! = h[arr]!) ∧
      ∀ e, (sortInPlace S h arr opts).1 = .error e →
        (sortInPlace S h arr opts).2[arr]! = h[arr]! := by
    rw [sort_eq hopts, sortInPlace_eq hopts]
    cases sortElements S h[arr]! with
    | error e => exact ⟨fun _ _ ↦ getElem!_append_of_lt hids _, fun _ _ ↦ rfl⟩
    | ok sorted =>
        constructor
        · intro e he
          cases he
        · intro e he
          cases he
  have hrefused : (∃ s ∈ h[arr]!, ¬ Decodes s) ↔
      (∃ s ∈ h[arr]!, ¬ WellFormed s) ∨ ∃ s ∈ h[arr]!, Overflows s := by
    simp only [decodes_iff, not_and_or, not_not, and_or_left, exists_or]
  have hthrows : (∃ e, sortElements S h[arr]! = .error e) ↔ (∃ s ∈ h[arr]!, ¬ WellFormed s) ∨
      (h[arr]!.any hasLower = true ∧ 2 ≤ h[arr]!.length ∧ ∃ s ∈ h[arr]!, Overflows s) :=
    sortElements_throws_iff
  rw [hsort, hplace, and_iff_left hatomic, and_self_iff, hthrows, hrefused]
  by_cases hbad : ∃ s ∈ h[arr]!, ¬ WellFormed s
  · exact iff_of_true (iff_of_true (Or.inl hbad) (Or.inl hbad)) (Or.inl hbad)
  · rw [or_iff_right hbad, or_iff_right hbad, or_iff_right hbad]
    by_cases hover : ∃ s ∈ h[arr]!, Overflows s
    · have hno : ¬ ∀ s ∈ h[arr]!, ¬ Overflows s := by
        rintro hall
        obtain ⟨s, hs, hbig⟩ := hover
        exact hall s hs hbig
      rw [iff_true_right hover, or_iff_right hno]
      exact ⟨fun h ↦ ⟨h.1, h.2.1⟩, fun h ↦ ⟨h.1, h.2, hover⟩⟩
    · refine iff_of_true (iff_of_false (fun h ↦ hover h.2.2) hover) (Or.inl fun s hs hbig ↦ ?_)
      exact hover ⟨s, hs, hbig⟩

/-- The theorem at an array of one canonical string above the 128-bit range. -/
theorem sort_validation_at_overflow :
    (((∃ e, (sort .insertionSort [[aboveRange]] 0 none).1 = .error e) ↔
        ∃ s ∈ [aboveRange], ¬ Decodes s) ∧
      ((∃ e, (sortInPlace .insertionSort [[aboveRange]] 0 none).1 = .error e) ↔
        ∃ s ∈ [aboveRange], ¬ Decodes s) ∧
      (∀ e, (sort .insertionSort [[aboveRange]] 0 none).1 = .error e →
        (sort .insertionSort [[aboveRange]] 0 none).2[0]! = [aboveRange]) ∧
      ∀ e, (sortInPlace .insertionSort [[aboveRange]] 0 none).1 = .error e →
        (sortInPlace .insertionSort [[aboveRange]] 0 none).2[0]! = [aboveRange]) ↔
    (∃ s ∈ [aboveRange], ¬ WellFormed s) ∨ (∀ s ∈ [aboveRange], ¬ Overflows s) ∨
      ([aboveRange].any hasLower = true ∧ 2 ≤ 1) :=
  sort_validation_exact_iff (by decide) (by simp [Validates])

/-- A canonical string above the 128-bit range is not found. -/
theorem sort_accepts_overflow :
    (∃ r, (sort .insertionSort [[aboveRange]] 0 none).1 = .ok r) ∧ ¬ Decodes aboveRange := by
  constructor
  · exact ⟨1, rfl⟩
  · rintro ⟨v, hv⟩
    cases hv

end Rivid.Ts
