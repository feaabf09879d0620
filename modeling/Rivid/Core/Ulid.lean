import Rivid.Core.Crockford

/-!
# ULID validation, timestamps and comparison

`isValid` is a format check only: its first character may be any character of
the alphabet.  The decoder of `Rivid.Core.Crockford` also rejects a first
character above `7`, so the strings it accepts are the valid ones that start
with an octal digit.
-/

namespace Rivid.Ulid

open Crockford

/-- Exactly 26 characters, all within the Crockford alphabet. -/
def isValid (id : Str) : Bool :=
  if id.length ≠ ulidLen then false else id.all isAlphabetChar

/-- The creation timestamp (ms since the Unix epoch) of a ULID. -/
def decodeTime (id : Str) : Result U64 :=
  if id.length ≠ ulidLen then .error (.invalidLength ulidLen id.length)
  else decodeTimeBytes (id.take timeLen)

/-- Rust's `Ord::cmp` on `u128`. -/
def cmpU128 (a b : U128) : Ordering := if a < b then .lt else if a = b then .eq else .gt

/-- Compares two ULIDs by their full 128-bit value. -/
def compare (a b : Str) : Result Ordering := do
  let va ← decodeChars a
  let vb ← decodeChars b
  return cmpU128 va vb

/-! ## Validity -/

theorem isValid_iff {s : Str} :
    isValid s = true ↔ s.length = 26 ∧ ∀ c ∈ s, isAlphabetChar c = true := by
  rw [isValid]
  by_cases h : s.length = 26
  · simp [h, ulidLen, timeLen, randomLen]
  · simp [h, ulidLen, timeLen, randomLen]

/-- The digits up to 7 are the characters `'0'..='7'`. -/
theorem digit_le_seven_iff (c : U8) :
    (∃ d ≤ 7, base32.digit c = some d) ↔ 0x30 ≤ c ∧ c ≤ 0x37 := by
  have hchar : ∀ d ≤ 7, base32.char d = 0x30 + BitVec.ofNat 8 d := by decide
  constructor
  · rintro ⟨d, hd, hdigit⟩
    have hfold : 0x30 + BitVec.ofNat 8 d = toAsciiUppercase c :=
      hchar d hd ▸ base32.char_digit c d hdigit
    rw [toAsciiUppercase] at hfold
    split_ifs at hfold with hlower
    · rw [Bool.and_eq_true, decide_eq_true_iff, decide_eq_true_iff] at hlower
      bv_omega
    · bv_omega
  · intro hc
    have hd : c.toNat - 0x30 ≤ 7 := by bv_omega
    refine ⟨c.toNat - 0x30, hd, ?_⟩
    have hc : base32.char (c.toNat - 0x30) = c := by
      rw [hchar _ hd]
      bv_omega
    have hdigit := base32.digit_char (c.toNat - 0x30) (by omega)
    rwa [hc] at hdigit

/-- The digits above 7 are the alphabet characters above `'7'`. -/
theorem seven_lt_digit_iff (c : U8) :
    (∃ d, 7 < d ∧ base32.digit c = some d) ↔ isAlphabetChar c = true ∧ 0x37 < c := by
  have hseven := digit_le_seven_iff c
  constructor
  · rintro ⟨d, hd, hdigit⟩
    have hmem : isAlphabetChar c = true := isAlphabetChar_iff.mpr (by rw [hdigit]; rfl)
    refine ⟨hmem, BitVec.not_le.mp fun hle ↦ ?_⟩
    obtain ⟨e, he, heq⟩ := hseven.mpr ⟨(range_of_isAlphabetChar hmem).1, hle⟩
    rw [hdigit] at heq
    cases heq
    omega
  · rintro ⟨hmem, hlt⟩
    obtain ⟨d, hd⟩ := Option.isSome_iff_exists.mp (isAlphabetChar_iff.mp hmem)
    refine ⟨d, Nat.lt_of_not_le fun hle ↦ ?_, hd⟩
    exact absurd (hseven.mp ⟨d, hle, hd⟩).2 (BitVec.not_le.mpr hlt)

/-- A string whose first character is below `'8'` stands for a 128-bit number, and conversely. -/
theorem decodeChars_isOk_iff {s : Str} : (∃ v, decodeChars s = .ok v) ↔
    isValid s = true ∧ ∃ c, s.head? = some c ∧ 0x30 ≤ c ∧ c ≤ 0x37 := by
  rw [isValid_iff]
  by_cases hlen : s.length = 26
  · obtain ⟨c, chars, rfl⟩ := List.exists_cons_of_length_pos (l := s) (by omega)
    have hlen' : chars.length = 25 := by simpa using hlen
    have hall : (∀ x ∈ chars, isAlphabetChar x = true) ↔ (base32.parse chars).isSome := by
      simp only [isAlphabetChar_iff, Alphabet.parse_isSome_iff]
    simp only [hlen, true_and, List.head?_cons, Option.some.injEq, exists_eq_left',
      List.forall_mem_cons, hall]
    rw [← digit_le_seven_iff, isAlphabetChar_iff]
    cases hc : base32.digit c with
    | none => simp [decodeChars_head_foreign hlen' hc]
    | some d =>
        by_cases hd : d ≤ 7
        · cases hp : base32.parse chars with
          | none =>
              obtain ⟨e, -, he⟩ := decodeChars_tail_foreign hlen' hc hd hp
              simp [he]
          | some w =>
              obtain ⟨r, hr, -⟩ := decodeChars_of_parse hlen' hc hd hp
              simp [hr, hd]
        · simp [decodeChars_head_large hlen' hc (by omega), hd]
  · simp [decodeChars_of_length_ne hlen, hlen]

/-- The three ways to fail, for a string of the right length. -/
theorem decodeChars_error {s : Str} (hlen : s.length = 26)
    (h : ¬ ∃ v, decodeChars s = .ok v) :
    ((∃ c, s.head? = some c ∧ isAlphabetChar c = true ∧ 0x37 < c) ∧
        decodeChars s = .error .valueTooLarge) ∨
      ((¬ ∃ c, s.head? = some c ∧ isAlphabetChar c = true ∧ 0x37 < c) ∧
        ∃ c, s.find? (fun c ↦ !isAlphabetChar c) = some c ∧
          decodeChars s = .error (.invalidCharacter c)) := by
  obtain ⟨c, chars, rfl⟩ := List.exists_cons_of_length_pos (l := s) (by omega)
  have hlen' : chars.length = 25 := by simpa using hlen
  simp only [List.head?_cons, Option.some.injEq, exists_eq_left', ← seven_lt_digit_iff]
  cases hc : base32.digit c with
  | none =>
      have hn : isAlphabetChar c = false := by
        rw [Bool.eq_false_iff, ne_eq, isAlphabetChar_iff, hc]
        simp
      exact Or.inr ⟨by simp, c, by simp [hn], decodeChars_head_foreign hlen' hc⟩
  | some d =>
      by_cases hd : d ≤ 7
      · cases hp : base32.parse chars with
        | none =>
            obtain ⟨e, he, herr⟩ := decodeChars_tail_foreign hlen' hc hd hp
            have hy : isAlphabetChar c = true := by rw [isAlphabetChar_iff, hc]; rfl
            exact Or.inr ⟨by simp [hd], e, by simpa [hy] using he, herr⟩
        | some w =>
            obtain ⟨r, hr, -⟩ := decodeChars_of_parse hlen' hc hd hp
            exact absurd ⟨r, hr⟩ h
      · exact Or.inl ⟨⟨d, by omega, rfl⟩, decodeChars_head_large hlen' hc (by omega)⟩

/-- Every character written is in the upper-case alphabet. -/
theorem mem_alphabet_of_mem_encodeString {v : U128} {c : U8} (h : c ∈ encodeString v) :
    c ∈ alphabet := by
  rw [encodeString_eq] at h
  obtain ⟨d, hd, rfl⟩ := base32.exists_of_mem_text (by decide) h
  have hmem : ∀ d < 32, alphabet[d]! ∈ alphabet := by decide
  exact hmem d hd

/-- **The ULID text codec.**  Encoding is inverted by decoding and writes 26
upper-case characters, the first an octal digit; decoding accepts exactly the
valid strings whose first character is an octal digit, which are the encodings
up to letter case, and names the reason otherwise. -/
theorem crockford_codec :
    (∀ v : U128, decodeChars (encodeString v) = .ok v ∧ (encodeString v).length = 26 ∧
      (∀ c ∈ encodeString v, c ∈ alphabet) ∧
      ∃ c, (encodeString v).head? = some c ∧ 0x30 ≤ c ∧ c ≤ 0x37) ∧
    ∀ s : Str,
      (isValid s = true ↔ s.length = 26 ∧ ∀ c ∈ s, toAsciiUppercase c ∈ alphabet) ∧
      ((∃ v, decodeChars s = .ok v) ↔
        isValid s = true ∧ ∃ c, s.head? = some c ∧ 0x30 ≤ c ∧ c ≤ 0x37) ∧
      (∀ v, decodeChars s = .ok v → encodeString v = s.map toAsciiUppercase) ∧
      (s.length ≠ 26 → decodeChars s = .error (.invalidLength 26 s.length)) ∧
      (s.length = 26 → (∃ c, s.head? = some c ∧ isAlphabetChar c = true ∧ 0x37 < c) →
        decodeChars s = .error .valueTooLarge) ∧
      (s.length = 26 → ¬ (∃ c, s.head? = some c ∧ isAlphabetChar c = true ∧ 0x37 < c) →
        ¬ (∃ v, decodeChars s = .ok v) →
        ∃ c, s.find? (fun c ↦ !isAlphabetChar c) = some c ∧
          decodeChars s = .error (.invalidCharacter c)) := by
  refine ⟨fun v ↦ ⟨decodeChars_encodeString v, length_encodeString v,
    fun c ↦ mem_alphabet_of_mem_encodeString, ?_⟩, fun s ↦ ⟨?_, decodeChars_isOk_iff,
    fun v ↦ encodeString_of_decodeChars, decodeChars_of_length_ne, ?_, ?_⟩⟩
  · exact (decodeChars_isOk_iff.mp ⟨v, decodeChars_encodeString v⟩).2
  · simp only [isValid_iff, isAlphabetChar_iff_mem]
  · rintro hlen ⟨c, hc, hlarge⟩
    have hno : ¬ ∃ v, decodeChars s = .ok v := by
      rw [decodeChars_isOk_iff]
      rintro ⟨-, e, he, -, hle⟩
      rw [hc] at he
      cases he
      have := BitVec.lt_def.mp hlarge.2
      have := BitVec.le_def.mp hle
      omega
    rcases decodeChars_error hlen hno with ⟨-, h⟩ | ⟨h, -⟩
    · exact h
    · exact absurd ⟨c, hc, hlarge⟩ h
  · intro hlen hhead hno
    rcases decodeChars_error hlen hno with ⟨h, -⟩ | ⟨-, h⟩
    · exact absurd h hhead
    · exact h

end Rivid.Ulid
