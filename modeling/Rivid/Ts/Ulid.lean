import Rivid.Binding.Js
import Rivid.Binding.Napi

/-!
# The TypeScript layer: comparing and sorting

`compare` has two fast paths in front of the native comparison, and the sorts
check their elements in one scan that also decides which comparator is needed:
the engine's own string order for canonical text, the native comparison when
some element has a lower-case letter.

Both fast paths and the scan look at length and alphabet only, while the decoder
also refuses a first character above `7`; `decodes_iff` splits the decoder's
condition into these two parts.

Arrays live in a heap, so that what happens to the caller's array can be stated.
`Array#sort` is any `ArraySort`; it writes the array only when no comparison throws.
-/

namespace Rivid.Ts

open Napi (NapiError)

/-- What a function throws. -/
inductive Thrown where
  | typeError (message : String)
  | native (e : NapiError)
deriving DecidableEq, Repr

/-! ## Characters -/

/-- A character of the class in `CANONICAL_RE`. -/
def isCanonicalChar (u : U16) : Bool :=
  (0x30 ≤ u && u ≤ 0x39) || (0x41 ≤ u && u ≤ 0x48) || u == 0x4a || u == 0x4b || u == 0x4d ||
    u == 0x4e || (0x50 ≤ u && u ≤ 0x54) || (0x56 ≤ u && u ≤ 0x5a)

/-- `CANONICAL_RE.test(s)`: only canonical (uppercase) Crockford Base32 ULIDs. -/
def canonicalRe (s : JsString) : Bool := s.length == 26 && s.all isCanonicalChar

/-- The characters marked in `VALID_CHAR`. -/
def valid : JsString :=
  JsString.ofAscii "0123456789ABCDEFGHJKMNPQRSTVWXYZabcdefghjkmnpqrstvwxyz"

/-- Lookup table: 1 = valid Crockford char (either case), 0 = invalid. -/
def validChar : List U8 := valid.foldl (fun t c ↦ t.set c.toNat 1) (List.replicate 256 0)

/-- `VALID_CHAR[c]` as a condition; outside the table it is `undefined`. -/
def isValidChar (c : U16) : Bool :=
  match validChar[c.toNat]? with
  | some x => x != 0
  | none => false

/-! ## Functions -/

/-- The inner loop of the scan: the characters left, and `hasLower` so far. -/
def scanChars (hasLower : Bool) : List U16 → Except Thrown Bool
  | [] => .ok hasLower
  | c :: chars =>
      if !isValidChar c then
        .error (.typeError "invalid ULID: contains characters outside the Crockford Base32 alphabet")
      else scanChars (hasLower || 97 ≤ c) chars

/-- The outer loop of the scan: the elements left, and `mixedCase` so far. -/
def scanIds (mixedCase : Bool) : List JsString → Except Thrown Bool
  | [] => .ok mixedCase
  | id :: ids =>
      if id.length ≠ 26 then
        .error (.typeError ("invalid ULID: expected 26 characters, got " ++ toString id.length))
      else do
        let hasLower ← scanChars false id
        scanIds (mixedCase || hasLower) ids

/-- Checks length and alphabet and detects mixed case in one forward scan. -/
def validateAndDetectCase (ids : List JsString) : Except Thrown Bool := scanIds false ids

/-- The native comparison, its error thrown. -/
def nativeCompare (a b : JsString) : Except Thrown ℤ :=
  (Napi.compare a.toUtf8 b.toUtf8).mapError .native

/-- Compares two ULIDs by their full 128-bit value. -/
def compare (a b : JsString) : Except Thrown ℤ :=
  if a = b then .ok 0
  else if canonicalRe a && canonicalRe b then .ok (if a < b then -1 else 1)
  else nativeCompare a b

/-- A reference to an array. -/
abbrev Ref := ℕ

/-- The arrays of strings, by reference. -/
abbrev Heap := List (List JsString)

structure SortOptions where
  /-- Skip per-element validation when `false`. -/
  validate : Option Bool

/-- `arr.sort(cmp)`: sorts the array in place and returns it. -/
def sortArray (S : ArraySort) (h : Heap) (arr : Ref)
    (cmp : JsString → JsString → Except Thrown Ordering) : Except Thrown Ref × Heap :=
  match S.sort h[arr]! cmp with
  | .error e => (.error e, h)
  | .ok sorted => (.ok arr, h.set arr sorted)

/-- The order of `arr.sort()`: by UTF-16 code units. -/
def unitOrdering (a b : JsString) : Except Thrown Ordering :=
  .ok (if a < b then .lt else if b < a then .gt else .eq)

def ulidSort (S : ArraySort) (h : Heap) (arr : Ref) (opts : Option SortOptions) :
    Except Thrown Ref × Heap :=
  let skipValidation := opts.bind SortOptions.validate == some false
  match if !skipValidation then validateAndDetectCase h[arr]! else .ok false with
  | .error e => (.error e, h)
  | .ok mixedCase =>
      if mixedCase then
        sortArray S h arr fun a b ↦ (nativeCompare a b).map Napi.signOrdering
      else
        -- Canonical uppercase: engine-native string comparison == value order.
        sortArray S h arr unitOrdering

/-- Sorts the input array in place; what it returns is whether it threw. -/
def sortInPlace (S : ArraySort) (h : Heap) (ids : Ref) (opts : Option SortOptions) :
    Except Thrown Unit × Heap :=
  let r := ulidSort S h ids opts
  (r.1.map fun _ ↦ (), r.2)

/-- Sorts a copy, `[...ids]`. -/
def sort (S : ArraySort) (h : Heap) (ids : Ref) (opts : Option SortOptions) :
    Except Thrown Ref × Heap := ulidSort S (h ++ [h[ids]!]) h.length opts

/-! ## What decodes -/

/-- Length and alphabet are right. -/
def WellFormed (s : JsString) : Prop := s.length = 26 ∧ ∀ u ∈ s, isValidChar u = true

/-- The first character is above `7`. -/
def Overflows (s : JsString) : Prop := ∃ u, s.head? = some u ∧ 0x37 < u

/-- The decoder accepts the string. -/
def Decodes (s : JsString) : Prop := ∃ v, Crockford.decodeChars s.toUtf8 = .ok v

/-- What the loop that builds `VALID_CHAR` leaves in an entry. -/
theorem getElem?_foldl_set_one (chars : JsString) {table : List U8} {n : ℕ}
    (hn : n < table.length) : (chars.foldl (fun t c ↦ t.set c.toNat 1) table)[n]? =
      if n ∈ chars.map BitVec.toNat then some 1 else table[n]? := by
  induction chars generalizing table with
  | nil => rfl
  | cons c chars ih =>
      rw [List.foldl_cons, ih (by rwa [List.length_set]), List.map_cons, List.getElem?_set]
      by_cases hmem : n ∈ chars.map BitVec.toNat
      · rw [if_pos hmem, if_pos (List.mem_cons_of_mem _ hmem)]
      · by_cases hc : c.toNat = n
        · rw [if_neg hmem, if_pos hc, if_pos (hc ▸ hn), if_pos (hc ▸ List.mem_cons_self)]
        · have hcons : n ∉ c.toNat :: chars.map BitVec.toNat := by
            rw [List.mem_cons, not_or]
            exact ⟨Ne.symm hc, hmem⟩
          rw [if_neg hmem, if_neg hc, if_neg hcons]

theorem lt_of_mem_valid {u : U16} (h : u ∈ valid) : 0x30 ≤ u ∧ u < 0x80 := by
  have hall : (valid.all fun u ↦ 0x30 ≤ u && u < 0x80) = true := by decide
  simpa using List.all_eq_true.mp hall u h

/-- The characters the table marks are the valid ones. -/
theorem isValidChar_iff_mem (u : U16) : isValidChar u = true ↔ u ∈ valid := by
  have hlength : validChar.length = 256 := by
    rw [validChar, length_foldl fun _ _ ↦ List.length_set, List.length_replicate]
  by_cases hu : u.toNat < 256
  · have hmem : u.toNat ∈ valid.map BitVec.toNat ↔ u ∈ valid :=
      List.mem_map_of_injective fun _ _ ↦ BitVec.eq_of_toNat_eq
    have hentry : validChar[u.toNat]? = if u ∈ valid then some 1 else some 0 := by
      rw [validChar, getElem?_foldl_set_one valid (by rwa [List.length_replicate]),
        List.getElem?_replicate_of_lt hu]
      simp only [hmem]
    rw [isValidChar, hentry]
    by_cases hvalid : u ∈ valid
    · rw [if_pos hvalid]
      exact iff_of_true rfl hvalid
    · rw [if_neg hvalid]
      exact iff_of_false Bool.false_ne_true hvalid
  · rw [isValidChar, List.getElem?_eq_none (hlength ▸ Nat.le_of_not_lt hu)]
    refine iff_of_false Bool.false_ne_true fun hmem ↦ hu ?_
    exact lt_trans (BitVec.lt_def.mp (lt_of_mem_valid hmem).2) (by decide)

/-- The valid characters are the ASCII ones that the decode table knows. -/
theorem isValidChar_iff (u : U16) :
    isValidChar u = true ↔ u < 0x80 ∧ Crockford.isAlphabetChar (u.setWidth 8) = true := by
  rw [isValidChar_iff_mem, Crockford.isAlphabetChar_iff_mem]
  have h : ∀ n < 128, (BitVec.ofNat 16 n ∈ valid ↔
      toAsciiUppercase ((BitVec.ofNat 16 n).setWidth 8) ∈ Crockford.alphabet) := by
    decide +kernel
  have hn : u < 0x80 → (u ∈ valid ↔ toAsciiUppercase (u.setWidth 8) ∈ Crockford.alphabet) := by
    intro hu
    have hn := h u.toNat (BitVec.lt_def.mp hu)
    rwa [BitVec.ofNat_toNat, BitVec.setWidth_eq] at hn
  exact ⟨fun hu ↦ ⟨(lt_of_mem_valid hu).2, (hn (lt_of_mem_valid hu).2).mp hu⟩,
    fun ⟨hu, hc⟩ ↦ (hn hu).mpr hc⟩

/-- The canonical characters are the valid ones that are not lower-case letters. -/
theorem isCanonicalChar_iff (u : U16) :
    isCanonicalChar u = true ↔ isValidChar u = true ∧ u < 97 := by
  rw [isValidChar_iff_mem]
  have h : ∀ n < 97, (isCanonicalChar (BitVec.ofNat 16 n) = true ↔ BitVec.ofNat 16 n ∈ valid) := by
    decide +kernel
  by_cases hu : u < 97
  · have hn := h u.toNat (BitVec.lt_def.mp hu)
    rw [BitVec.ofNat_toNat, BitVec.setWidth_eq] at hn
    rw [hn]
    exact (and_iff_left hu).symm
  · refine iff_of_false (fun hcan ↦ hu ?_) fun hand ↦ hu hand.2
    simp only [isCanonicalChar, Bool.or_eq_true, Bool.and_eq_true, decide_eq_true_eq,
      beq_iff_eq] at hcan
    bv_omega

theorem canonicalRe_iff {s : JsString} :
    canonicalRe s = true ↔ WellFormed s ∧ ∀ u ∈ s, u < 97 := by
  rw [canonicalRe, Bool.and_eq_true, beq_iff_eq, List.all_eq_true, WellFormed, and_assoc]
  simp only [isCanonicalChar_iff]
  constructor
  · rintro ⟨hlen, h⟩
    exact ⟨hlen, fun u hu ↦ (h u hu).1, fun u hu ↦ (h u hu).2⟩
  · rintro ⟨hlen, h, h'⟩
    exact ⟨hlen, fun u hu ↦ ⟨h u hu, h' u hu⟩⟩

/-- Well-formed text is converted unit by unit. -/
theorem WellFormed.toUtf8 {s : JsString} (h : WellFormed s) :
    s.toUtf8 = s.map (BitVec.setWidth 8) :=
  JsString.toUtf8_of_ascii fun u hu ↦ ((isValidChar_iff u).mp (h.2 u hu)).1

/-- Well-formed strings are those in the format of a ULID. -/
theorem wellFormed_iff_isValid {s : JsString} :
    WellFormed s ↔ Ulid.isValid s.toUtf8 = true := by
  rw [Ulid.isValid_iff]
  constructor
  · intro h
    rw [h.toUtf8, List.length_map, List.forall_mem_map]
    exact ⟨h.1, fun u hu ↦ ((isValidChar_iff u).mp (h.2 u hu)).2⟩
  · rintro ⟨hlen, hall⟩
    have hascii : ∀ c ∈ s.toUtf8, c < 0x80 :=
      fun c hc ↦ (Crockford.range_of_isAlphabetChar (hall c hc)).2
    obtain ⟨hlt, heq⟩ := JsString.toUtf8_ascii hascii
    rw [heq, List.length_map] at hlen
    rw [heq, List.forall_mem_map] at hall
    exact ⟨hlen, fun u hu ↦ (isValidChar_iff u).mpr ⟨hlt u hu, hall u hu⟩⟩

/-- The first valid character is an octal digit or above `7`. -/
theorem octal_iff {u : U16} (h : isValidChar u = true) :
    ((0x30 : U8) ≤ u.setWidth 8 ∧ u.setWidth 8 ≤ (0x37 : U8)) ↔ ¬ 0x37 < u := by
  obtain ⟨hge, hlt⟩ := lt_of_mem_valid ((isValidChar_iff_mem u).mp h)
  bv_omega

/-- The decoder accepts the well-formed strings whose first character is not above `7`. -/
theorem decodes_iff {s : JsString} : Decodes s ↔ WellFormed s ∧ ¬ Overflows s := by
  rw [Decodes, Ulid.decodeChars_isOk_iff, ← wellFormed_iff_isValid]
  refine and_congr_right fun h ↦ ?_
  obtain ⟨u, us, rfl⟩ := List.exists_cons_of_length_pos (l := s) (by have := h.1; omega)
  rw [h.toUtf8]
  simp only [Overflows, List.map_cons, List.head?_cons, Option.some.injEq, exists_eq_left']
  exact octal_iff (h.2 u (by simp))

/-- Canonical strings that decode are ordered as their values. -/
theorem lt_iff_value_lt {a b : JsString} {v w : U128} (ha : canonicalRe a = true)
    (hb : canonicalRe b = true) (hv : Crockford.decodeChars a.toUtf8 = .ok v)
    (hw : Crockford.decodeChars b.toUtf8 = .ok w) : a < b ↔ v < w := by
  have htext : ∀ {s : JsString} {x : U128}, canonicalRe s = true →
      Crockford.decodeChars s.toUtf8 = .ok x →
      Crockford.encodeString x = s.map (BitVec.setWidth 8) := by
    intro s x hs hx
    obtain ⟨hwell, hupper⟩ := canonicalRe_iff.mp hs
    rw [Crockford.encodeString_of_decodeChars hx, hwell.toUtf8, List.map_map]
    refine List.map_congr_left fun u hu ↦ ?_
    have hlow : ¬ (0x61 : U8) ≤ u.setWidth 8 := by
      have := BitVec.lt_def.mp (hupper u hu)
      rw [BitVec.le_def, BitVec.toNat_setWidth, show (0x61 : U8).toNat = 97 from rfl]
      rw [show (97 : U16).toNat = 97 from rfl] at this
      omega
    refine if_neg ?_
    rw [Bool.and_eq_true, decide_eq_true_eq]
    exact fun h ↦ hlow h.1
  have hlt : ∀ x y : U16, x < 97 → y < 97 → (x.setWidth 8 < y.setWidth 8 ↔ x < y) := by
    intro x y hx hy
    have hx' := BitVec.lt_def.mp hx
    have hy' := BitVec.lt_def.mp hy
    rw [show (97 : U16).toNat = 97 from rfl] at hx' hy'
    rw [BitVec.lt_def, BitVec.lt_def, BitVec.toNat_setWidth, BitVec.toNat_setWidth]
    omega
  have hinj : ∀ x y : U16, x < 97 → y < 97 → x.setWidth 8 = y.setWidth 8 → x = y := by
    intro x y hx hy h
    have hx' := BitVec.lt_def.mp hx
    have hy' := BitVec.lt_def.mp hy
    rw [show (97 : U16).toNat = 97 from rfl] at hx' hy'
    have hn := congrArg BitVec.toNat h
    rw [BitVec.toNat_setWidth, BitVec.toNat_setWidth] at hn
    apply BitVec.eq_of_toNat_eq
    omega
  rw [← Crockford.encodeString_lt_iff, htext ha hv, htext hb hw]
  exact (Positional.map_lt_map_iff (p := (· < 97)) hlt hinj (canonicalRe_iff.mp ha).2
    (canonicalRe_iff.mp hb).2).symm

/-! ## Comparing -/

theorem nativeCompare_of_decodes {a b : JsString} {v w : U128}
    (hv : Crockford.decodeChars a.toUtf8 = .ok v) (hw : Crockford.decodeChars b.toUtf8 = .ok w) :
    nativeCompare a b = .ok (if v < w then -1 else if v = w then 0 else 1) := by
  rw [nativeCompare, Napi.compare_of_ok hv hw]
  rfl

theorem nativeCompare_error_iff {a b : JsString} :
    (∃ e, nativeCompare a b = .error e) ↔ ¬ Decodes a ∨ ¬ Decodes b := by
  constructor
  · rintro ⟨e, he⟩
    by_contra hno
    obtain ⟨⟨v, hv⟩, w, hw⟩ : Decodes a ∧ Decodes b := by
      rwa [not_or, not_not, not_not] at hno
    rw [nativeCompare_of_decodes hv hw] at he
    cases he
  · intro h
    obtain ⟨e, he⟩ := Napi.compare_error h
    exact ⟨.native e, by rw [nativeCompare, he]; rfl⟩

/-- The fast path for identical strings. -/
theorem compare_self_eq_native_iff (a : JsString) :
    compare a a = nativeCompare a a ↔ Decodes a := by
  rw [compare, if_pos rfl]
  constructor
  · intro h
    by_contra hno
    obtain ⟨e, he⟩ := nativeCompare_error_iff.mpr (Or.inl hno)
    rw [he] at h
    cases h
  · rintro ⟨v, hv⟩
    rw [nativeCompare_of_decodes hv hv, if_neg (BitVec.lt_irrefl v), if_pos rfl]

/-- The fast path for canonical strings. -/
theorem compare_canonical_eq_native_iff {a b : JsString} (hne : a ≠ b) (ha : canonicalRe a = true)
    (hb : canonicalRe b = true) : compare a b = nativeCompare a b ↔ Decodes a ∧ Decodes b := by
  have hboth : (canonicalRe a && canonicalRe b) = true := by rw [ha, hb]; rfl
  rw [compare, if_neg hne, if_pos hboth]
  constructor
  · intro h
    by_contra hno
    obtain ⟨e, he⟩ := nativeCompare_error_iff.mpr (not_and_or.mp hno)
    rw [he] at h
    cases h
  · rintro ⟨⟨v, hv⟩, w, hw⟩
    rw [nativeCompare_of_decodes hv hw]
    have hlt := lt_iff_value_lt ha hb hv hw
    have hgt := lt_iff_value_lt hb ha hw hv
    rcases BitVec.lt_trichotomy v w with h | rfl | h
    · rw [if_pos (hlt.mpr h), if_pos h]
    · have hab : ¬ a < b := fun h ↦ BitVec.lt_irrefl v (hlt.mp h)
      have hba : ¬ b < a := fun h ↦ BitVec.lt_irrefl v (hgt.mp h)
      exact absurd (List.le_antisymm (List.not_lt.mp hba) (List.not_lt.mp hab)) hne
    · have hvw : ¬ v < w := BitVec.lt_asymm h
      have hne' : v ≠ w := fun he ↦ BitVec.lt_irrefl w (he ▸ h)
      rw [if_neg (fun hab ↦ hvw (hlt.mp hab)), if_neg hvw, if_neg hne']

/-- **`compare` against the native comparison.**  They agree, in result and in
throwing, exactly when the strings are not one refused string twice and not two
canonical strings of which one starts above `7`. -/
theorem compare_agrees_iff (a b : JsString) :
    (compare a b = nativeCompare a b ∧
      ((∃ e, compare a b = .error e) ↔ ¬ Decodes a ∨ ¬ Decodes b)) ↔
      (a = b → WellFormed a ∧ ¬ Overflows a) ∧
      (a ≠ b → canonicalRe a = true → canonicalRe b = true → ¬ Overflows a ∧ ¬ Overflows b) := by
  have hnative : (compare a b = nativeCompare a b ∧
      ((∃ e, compare a b = .error e) ↔ ¬ Decodes a ∨ ¬ Decodes b)) ↔
      compare a b = nativeCompare a b := by
    refine and_iff_left_of_imp fun h ↦ ?_
    rw [h]
    exact nativeCompare_error_iff
  rw [hnative]
  by_cases heq : a = b
  · subst heq
    rw [compare_self_eq_native_iff, decodes_iff]
    exact ⟨fun h ↦ ⟨fun _ ↦ h, fun hne ↦ absurd rfl hne⟩, fun h ↦ h.1 rfl⟩
  · by_cases hcan : canonicalRe a = true ∧ canonicalRe b = true
    · obtain ⟨ha, hb⟩ := hcan
      rw [compare_canonical_eq_native_iff heq ha hb, decodes_iff, decodes_iff]
      constructor
      · intro h
        exact ⟨fun h' ↦ absurd h' heq, fun _ _ _ ↦ ⟨h.1.2, h.2.2⟩⟩
      · intro h
        have hover := h.2 heq ha hb
        exact ⟨⟨(canonicalRe_iff.mp ha).1, hover.1⟩, (canonicalRe_iff.mp hb).1, hover.2⟩
    · have hslow : ¬ (canonicalRe a && canonicalRe b) = true := by
        rwa [Bool.and_eq_true]
      rw [compare, if_neg heq, if_neg hslow]
      refine iff_of_true rfl ⟨fun h ↦ absurd h heq, fun _ ha hb ↦ absurd ⟨ha, hb⟩ hcan⟩

/-- A canonical string that stands for a number above the 128-bit range. -/
def aboveRange : JsString := JsString.ofAscii "80000000000000000000000000"

/-- A string that is not a ULID, twice, and a canonical string above the 128-bit range
against the largest ULID: `compare` returns where the native comparison throws. -/
theorem compare_disagrees :
    (compare (JsString.ofAscii "bad") (JsString.ofAscii "bad") = .ok 0 ∧
      ∃ e, nativeCompare (JsString.ofAscii "bad") (JsString.ofAscii "bad") = .error e) ∧
    compare (JsString.ofAscii "7ZZZZZZZZZZZZZZZZZZZZZZZZZ") aboveRange = .ok (-1) ∧
      ∃ e, nativeCompare (JsString.ofAscii "7ZZZZZZZZZZZZZZZZZZZZZZZZZ") aboveRange = .error e := by
  exact ⟨⟨rfl, _, rfl⟩, by decide, _, rfl⟩

end Rivid.Ts
