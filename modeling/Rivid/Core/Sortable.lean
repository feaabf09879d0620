import Rivid.Core.Table

/-!
# The sortable encoding

22 characters of a 64-character alphabet listed in ASCII order.  The first 21
carry six bits each; the last carries the two low bits of the value shifted up
by four, so the text is the base-64 text of the value times 16
(`encodeString_eq`), and the decoder takes the multiples of 16 (`decodeChars_of_parse`).
-/

namespace Rivid.Sortable

/-- Characters listed in ascending ASCII order. -/
def alphabet : Str := ascii "-0123456789ABCDEFGHIJKLMNOPQRSTUVWXYZ_abcdefghijklmnopqrstuvwxyz"

def decodeTable : List I8 := buildDecodeTable alphabet

def encodedLen : ℕ := 22

/-! ## The encoder -/

/-- The loop of `encode_value` after a number of rounds. -/
def encodeSextets (value : U128) (rounds : ℕ) : List U8 :=
  (List.range rounds).foldl
    (fun out i ↦ out.set i alphabet[((value >>> (122 - 6 * i)) &&& 63).toNat]!)
    (List.replicate encodedLen 0)

theorem encodeSextets_succ (value : U128) (k : ℕ) : encodeSextets value (k + 1) =
    (encodeSextets value k).set k alphabet[((value >>> (122 - 6 * k)) &&& 63).toNat]! := by
  simp [encodeSextets, List.range_succ]

@[simp] theorem length_encodeSextets (value : U128) (k : ℕ) :
    (encodeSextets value k).length = 22 := by
  induction k with
  | zero => rfl
  | succ k ih => rw [encodeSextets_succ, List.length_set, ih]

/-- Encodes a 128-bit identifier into exactly 22 sortable characters. -/
def encodeValue (value : U128) : Bytes 22 :=
  ⟨(encodeSextets value 21).set 21 alphabet[((value &&& 3) <<< 4).toNat]!, by simp⟩

/-- Encodes to a string. -/
def encodeString (value : U128) : Str := (encodeValue value).val

@[simp] theorem length_encodeString (value : U128) : (encodeString value).length = 22 :=
  (encodeValue value).property

/-! ## The decoder -/

def digit (c : U8) : Result U128 := tableDigit 128 decodeTable c

/-- The loop of `decode_chars` from index `i` on, with the characters left of
the first 21. -/
def decodeLoop (value : U128) (i : ℕ) : List U8 → Result U128
  | [] => .ok value
  | c :: chars => do
      let d ← digit c
      decodeLoop (value ||| d <<< (122 - 6 * i)) (i + 1) chars

/-- Decodes exactly 22 sortable characters back to the 128-bit value. -/
def decodeChars (chars : Str) : Result U128 :=
  if chars.length ≠ encodedLen then .error (.invalidLength encodedLen chars.length)
  else do
    let value ← decodeLoop 0 0 (chars.take 21)
    let last ← digit chars[21]!
    if last &&& 0x0f ≠ 0 then throw .nonCanonical
    return value ||| last >>> 4

/-! ## The encoder writes a base-64 text -/

theorem alphabet_ascending : alphabet.Pairwise (· < ·) := by decide

theorem alphabet_nodup : alphabet.Nodup := alphabet_ascending.imp BitVec.ne_of_lt

def table64 : CodeTable 64 where
  alphabet := alphabet
  table := decodeTable
  fold := id
  base_le := by decide
  table_char := buildDecodeTable_char alphabet_nodup
  table_lt := fun n hn h ↦ (buildDecodeTable_entry alphabet_nodup (by decide) n hn h).1
  char_table := fun n hn h ↦ (buildDecodeTable_entry alphabet_nodup (by decide) n hn h).2

abbrev base64 : Alphabet U8 64 := table64.toAlphabet

theorem base64_char_lt_iff :
    ∀ d e, d < 64 → e < 64 → (base64.char d < base64.char e ↔ d < e) :=
  table64.char_lt_iff (by decide) alphabet_ascending

theorem text_succ (n w : ℕ) :
    base64.text (n + 1) w = base64.text n (w / 64) ++ [alphabet[w % 64]!] := by
  rw [Alphabet.text_add]
  rfl

/-- After `k` rounds the first `k` characters are the top `6 k` bits. -/
theorem encodeSextets_spec (value : U128) {k : ℕ} (hk : k ≤ 21) : encodeSextets value k =
    base64.text k (value.toNat / 2 ^ (128 - 6 * k)) ++ List.replicate (22 - k) 0 := by
  induction k with
  | zero => rfl
  | succ k ih =>
      have hdigit : ((value >>> (122 - 6 * k)) &&& 63).toNat =
          value.toNat / 2 ^ (122 - 6 * k) % 64 := by
        rw [toNat_and_mask (k := 6) rfl, toNat_ushiftRight_eq_div]
        rfl
      have hdiv : value.toNat / 2 ^ (122 - 6 * k) / 64 = value.toNat / 2 ^ (128 - 6 * k) := by
        rw [Nat.div_div_eq_div_mul, show 128 - 6 * k = (122 - 6 * k) + 6 by omega, pow_add]
        rfl
      rw [encodeSextets_succ, ih (by omega), hdigit, show 128 - 6 * (k + 1) = 122 - 6 * k by omega,
        text_succ, hdiv, show 22 - k = 22 - (k + 1) + 1 by omega, List.replicate_succ]
      simp

theorem encodeString_eq (value : U128) :
    encodeString value = base64.text 22 (16 * value.toNat) := by
  have hlast : ((value &&& 3) <<< 4).toNat = 16 * value.toNat % 64 := by
    have hmask : (value &&& 3).toNat = value.toNat % 2 ^ 2 := toNat_and_mask rfl
    rw [toNat_shiftLeft_of_fits (by rw [hmask]; omega), hmask]
    omega
  have hdiv : value.toNat / 2 ^ (128 - 6 * 21) = 16 * value.toNat / 64 := by
    rw [show 128 - 6 * 21 = 2 from rfl]
    omega
  rw [text_succ, ← hlast, ← hdiv]
  simp only [encodeString, encodeValue, encodeSextets_spec value (le_refl 21)]
  simp

/-- Sortable text is ordered as the values. -/
theorem encodeString_lt_iff {a b : U128} : encodeString a < encodeString b ↔ a < b := by
  have ha := a.isLt
  have hb := b.isLt
  rw [encodeString_eq, encodeString_eq, base64.text_lt_text_iff (by decide) base64_char_lt_iff
    (by omega) (by omega), BitVec.lt_def]
  omega

/-! ## The decoder reads a base-64 number

The first 21 characters stand for the top 126 bits of the value, and the last one for
the two low bits and four more that have to be clear. -/

theorem digit_of_some {c : U8} {d : ℕ} (h : base64.digit c = some d) :
    ∃ x : U128, digit c = .ok x ∧ x.toNat = d := table64.tableDigit_of_some (by decide) h

theorem digit_of_none {c : U8} (h : base64.digit c = none) :
    digit c = .error (.invalidCharacter c) := table64.tableDigit_of_none h

theorem digit_eq (c : U8) :
    base64.digit c = if c ∈ alphabet then some (alphabet.idxOf c) else none :=
  @CodeTable.digit_ofAlphabet 64 alphabet alphabet_nodup rfl (by decide) c

theorem forall_mem_alphabet_iff {s : Str} : (∀ c ∈ s, c ∈ alphabet) ↔ (base64.parse s).isSome :=
  @CodeTable.forall_mem_alphabet_iff 64 alphabet alphabet_nodup rfl (by decide) s

/-- Each digit lands in six bits that are still clear. -/
theorem decodeLoop_of_parse {chars : Str} (acc : U128) {i v : ℕ} (hlen : chars.length + i = 21)
    (hacc : 2 ^ (6 * chars.length + 2) ∣ acc.toNat)
    (hfit : acc.toNat + 2 ^ (6 * chars.length + 2) ≤ 2 ^ 128) (h : base64.parse chars = some v) :
    ∃ r, decodeLoop acc i chars = .ok r ∧ r.toNat = acc.toNat + 4 * v := by
  induction chars generalizing acc i v with
  | nil =>
      cases h
      exact ⟨acc, rfl, rfl⟩
  | cons c chars ih =>
      rw [Alphabet.parse_cons] at h
      obtain ⟨d, hd, h⟩ := Option.bind_eq_some_iff.mp h
      obtain ⟨w, hw, rfl⟩ := Option.map_eq_some_iff.mp h
      obtain ⟨x, hx, rfl⟩ := digit_of_some hd
      have hxlt : x.toNat < 64 := base64.digit_lt c _ hd
      rw [List.length_cons] at hlen hacc hfit
      have hshift : 122 - 6 * i = 6 * chars.length + 2 := by omega
      have hpow : 2 ^ (6 + (6 * chars.length + 2)) = 64 * 2 ^ (6 * chars.length + 2) :=
        pow_add 2 6 _
      rw [show 6 * (chars.length + 1) + 2 = 6 + (6 * chars.length + 2) by omega] at hacc hfit
      have hdigit : x.toNat * 2 ^ (6 * chars.length + 2) + 2 ^ (6 * chars.length + 2) ≤
          64 * 2 ^ (6 * chars.length + 2) := by
        rw [← Nat.succ_mul]
        exact Nat.mul_le_mul_right _ hxlt
      have hpos : 0 < 2 ^ (6 * chars.length + 2) := Nat.two_pow_pos _
      have hshifted : (x <<< (6 * chars.length + 2)).toNat = x.toNat * 2 ^ (6 * chars.length + 2) :=
        toNat_shiftLeft_of_fits (by omega)
      have hor : (acc ||| x <<< (6 * chars.length + 2)).toNat =
          acc.toNat + x.toNat * 2 ^ (6 * chars.length + 2) := by
        refine (toNat_or_of_clear hacc ?_).trans (congrArg (acc.toNat + ·) hshifted)
        rw [hshifted, hpow]
        omega
      obtain ⟨r, hr, hval⟩ := ih (acc ||| x <<< (6 * chars.length + 2)) (i := i + 1) (by omega)
        (by
          rw [hor]
          exact Nat.dvd_add (dvd_trans (pow_dvd_pow 2 (by omega)) hacc) (Dvd.intro_left _ rfl))
        (by omega) hw
      refine ⟨r, ?_, ?_⟩
      · rw [decodeLoop, hx, ok_bind, hshift, hr]
      · rw [hval, hor, show (64 : ℕ) = 2 ^ 6 from rfl, ← pow_mul, pow_add]
        ring

/-- A foreign byte stops the decoder. -/
theorem decodeLoop_of_foreign {chars : Str} (acc : U128) {i : ℕ} (h : base64.parse chars = none) :
    ∃ c, decodeLoop acc i chars = .error (.invalidCharacter c) := by
  induction chars generalizing acc i with
  | nil => cases h
  | cons c chars ih =>
      cases hd : base64.digit c with
      | none => exact ⟨c, by rw [decodeLoop, digit_of_none hd, error_bind]⟩
      | some d =>
          obtain ⟨x, hx, -⟩ := digit_of_some hd
          rw [Alphabet.parse_cons, hd, Option.bind_some, Option.map_eq_none_iff] at h
          obtain ⟨e, he⟩ := ih (acc ||| x <<< (122 - 6 * i)) (i := i + 1) h
          exact ⟨e, by rw [decodeLoop, hx, ok_bind, he]⟩

theorem decodeChars_of_length_ne {s : Str} (h : s.length ≠ 22) :
    decodeChars s = .error (.invalidLength 22 s.length) := if_pos h

section Outcome

variable {s : Str} {c : U8}

theorem getElem!_concat (hlen : s.length = 21) : (s ++ [c])[21]! = c := by
  rw [getElem!_pos (s ++ [c]) 21 (by simp [hlen])]
  simp [hlen]

theorem decodeChars_concat (hlen : s.length = 21) : decodeChars (s ++ [c]) = (do
    let value ← decodeLoop 0 0 s
    let last ← digit c
    if last &&& 0x0f ≠ 0 then throw .nonCanonical
    return value ||| last >>> 4) := by
  have hlength : ¬ (s ++ [c]).length ≠ encodedLen := by
    rw [List.length_append, hlen]
    exact not_not_intro rfl
  rw [decodeChars, if_neg hlength, getElem!_concat hlen, List.take_left' hlen]

/-- A string with a foreign byte is refused for it. -/
theorem decodeChars_of_foreign (hlen : s.length = 22) (h : base64.parse s = none) :
    ∃ e, decodeChars s = .error (.invalidCharacter e) := by
  obtain ⟨s, c, rfl⟩ := (List.eq_nil_or_concat' s).resolve_left (by rintro rfl; cases hlen)
  have hlen' : s.length = 21 := by simpa using hlen
  rw [decodeChars_concat hlen']
  cases hs : base64.parse s with
  | none =>
      obtain ⟨e, he⟩ := decodeLoop_of_foreign (0 : U128) (i := 0) hs
      exact ⟨e, by rw [he, error_bind]⟩
  | some v =>
      obtain ⟨r, hr, -⟩ := decodeLoop_of_parse (0 : U128) (i := 0) (by omega) (dvd_zero _)
        (by rw [hlen']; decide) hs
      rw [Alphabet.parse_append, hs, Option.bind_some, Option.map_eq_none_iff, Alphabet.parse_cons]
        at h
      cases hd : base64.digit c with
      | none => exact ⟨c, by rw [hr, ok_bind, digit_of_none hd, error_bind]⟩
      | some d =>
          rw [hd, Option.bind_some, Alphabet.parse_nil] at h
          cases h

/-- A string over the alphabet is read if its number is a multiple of 16. -/
theorem decodeChars_of_parse (hlen : s.length = 22) {w : ℕ} (h : base64.parse s = some w) :
    (16 ∣ w → ∃ v, decodeChars s = .ok v ∧ 16 * v.toNat = w) ∧
      (¬ 16 ∣ w → decodeChars s = .error .nonCanonical) := by
  obtain ⟨s, c, rfl⟩ := (List.eq_nil_or_concat' s).resolve_left (by rintro rfl; cases hlen)
  have hlen' : s.length = 21 := by simpa using hlen
  rw [Alphabet.parse_append] at h
  obtain ⟨a, ha, h⟩ := Option.bind_eq_some_iff.mp h
  obtain ⟨z, hz, rfl⟩ := Option.map_eq_some_iff.mp h
  rw [Alphabet.parse_cons] at hz
  obtain ⟨d, hd, hz⟩ := Option.bind_eq_some_iff.mp hz
  obtain ⟨x, hx, rfl⟩ := digit_of_some hd
  obtain rfl : x.toNat = z := by simpa using hz
  have hxlt : x.toNat < 64 := base64.digit_lt c _ hd
  have hlt := base64.parse_lt ha
  rw [hlen'] at hlt
  obtain ⟨r, hr, hval⟩ := decodeLoop_of_parse (0 : U128) (i := 0) (by omega) (dvd_zero _)
    (by rw [hlen']; decide) ha
  have hzero : (0 : U128).toNat = 0 := rfl
  rw [hzero, Nat.zero_add] at hval
  have hlow : (x &&& 0x0f).toNat = x.toNat % 16 := toNat_and_mask (k := 4) rfl
  have hclear : x &&& 0x0f = 0 ↔ x.toNat % 16 = 0 := by
    rw [← BitVec.toNat_inj, hlow]
    rfl
  rw [decodeChars_concat hlen', hr, ok_bind, hx, ok_bind]
  constructor
  · intro hdvd
    have hmod : x.toNat % 16 = 0 := by
      rw [List.length_singleton, pow_one] at hdvd
      omega
    refine ⟨r ||| x >>> 4, ?_, ?_⟩
    · rw [if_neg (not_not.mpr (hclear.mpr hmod))]
      rfl
    · have hshift : (x >>> 4).toNat = x.toNat / 16 := toNat_ushiftRight_eq_div x
      have hor : (r ||| x >>> 4).toNat = r.toNat + (x >>> 4).toNat :=
        toNat_or_of_clear (k := 2) (hval ▸ Dvd.intro _ rfl) (by rw [hshift]; omega)
      rw [hor, hshift, hval]
      rw [List.length_singleton, pow_one]
      omega
  · intro hdvd
    have hmod : ¬ x &&& 0x0f = 0 := by
      rw [hclear]
      rw [List.length_singleton, pow_one] at hdvd
      omega
    rw [if_pos hmod]
    rfl

end Outcome

/-- The accepted strings are the texts of the multiples of 16. -/
theorem decodeChars_eq_ok_iff {s : Str} {v : U128} :
    decodeChars s = .ok v ↔ s.length = 22 ∧ base64.parse s = some (16 * v.toNat) := by
  by_cases hlen : s.length = 22
  · cases hw : base64.parse s with
    | none =>
        obtain ⟨e, he⟩ := decodeChars_of_foreign hlen hw
        simp [he]
    | some w =>
        obtain ⟨hok, herr⟩ := decodeChars_of_parse hlen hw
        by_cases hdvd : 16 ∣ w
        · obtain ⟨r, hr, rfl⟩ := hok hdvd
          rw [hr, Except.ok.injEq, Option.some.injEq, ← BitVec.toNat_inj]
          constructor
          · intro h
            exact ⟨hlen, by rw [h]⟩
          · rintro ⟨-, h⟩
            omega
        · rw [herr hdvd]
          refine ⟨fun h ↦ (nomatch h), ?_⟩
          rintro ⟨-, h⟩
          exact absurd (Dvd.intro _ (Option.some.inj h).symm) hdvd
  · rw [decodeChars_of_length_ne hlen]
    exact ⟨fun h ↦ (nomatch h), fun h ↦ absurd h.1 hlen⟩

theorem decodeChars_encodeString (v : U128) : decodeChars (encodeString v) = .ok v := by
  rw [decodeChars_eq_ok_iff, encodeString_eq]
  have hv := v.isLt
  exact ⟨by simp, base64.parse_text (by decide) (by omega)⟩

theorem encodeString_of_decodeChars {s : Str} {v : U128} (h : decodeChars s = .ok v) :
    encodeString v = s := by
  obtain ⟨hlen, hw⟩ := decodeChars_eq_ok_iff.mp h
  have htext := base64.text_parse hw
  rw [hlen, ← encodeString_eq] at htext
  exact htext.trans (List.map_id s)

/-- The low four bits of the last digit are clear. -/
def PaddingClear (s : Str) : Prop := alphabet.idxOf s[21]! % 16 = 0

theorem dvd_iff_paddingClear {s : Str} {w : ℕ} (hlen : s.length = 22)
    (h : base64.parse s = some w) : 16 ∣ w ↔ PaddingClear s := by
  obtain ⟨s, c, rfl⟩ := (List.eq_nil_or_concat' s).resolve_left (by rintro rfl; cases hlen)
  have hlen' : s.length = 21 := by simpa using hlen
  rw [Alphabet.parse_append] at h
  obtain ⟨a, -, h⟩ := Option.bind_eq_some_iff.mp h
  obtain ⟨z, hz, rfl⟩ := Option.map_eq_some_iff.mp h
  rw [Alphabet.parse_cons] at hz
  obtain ⟨d, hd, hz⟩ := Option.bind_eq_some_iff.mp hz
  obtain rfl : d = z := by simpa using hz
  rw [digit_eq] at hd
  have hidx : alphabet.idxOf c = d := by
    split at hd
    · exact Option.some.inj hd
    · cases hd
  rw [PaddingClear, getElem!_concat hlen', hidx, List.length_singleton, pow_one]
  omega

theorem decodeChars_isOk_iff {s : Str} : (∃ v, decodeChars s = .ok v) ↔
    s.length = 22 ∧ (∀ c ∈ s, c ∈ alphabet) ∧ PaddingClear s := by
  rw [forall_mem_alphabet_iff]
  constructor
  · rintro ⟨v, hv⟩
    obtain ⟨hlen, hw⟩ := decodeChars_eq_ok_iff.mp hv
    exact ⟨hlen, Option.isSome_of_eq_some hw, (dvd_iff_paddingClear hlen hw).mp (Dvd.intro _ rfl)⟩
  · rintro ⟨hlen, hsome, hclear⟩
    obtain ⟨w, hw⟩ := Option.isSome_iff_exists.mp hsome
    obtain ⟨v, hv, -⟩ := (decodeChars_of_parse hlen hw).1
      ((dvd_iff_paddingClear hlen hw).mpr hclear)
    exact ⟨v, hv⟩

theorem decodeChars_eq_nonCanonical_iff {s : Str} : decodeChars s = .error .nonCanonical ↔
    s.length = 22 ∧ (∀ c ∈ s, c ∈ alphabet) ∧ ¬ PaddingClear s := by
  rw [forall_mem_alphabet_iff]
  by_cases hlen : s.length = 22
  · cases hw : base64.parse s with
    | none =>
        obtain ⟨e, he⟩ := decodeChars_of_foreign hlen hw
        simp [he]
    | some w =>
        obtain ⟨hok, herr⟩ := decodeChars_of_parse hlen hw
        rw [← dvd_iff_paddingClear hlen hw]
        by_cases hdvd : 16 ∣ w
        · obtain ⟨v, hv, -⟩ := hok hdvd
          simp [hv, hdvd]
        · exact iff_of_true (herr hdvd) ⟨hlen, rfl, hdvd⟩
  · rw [decodeChars_of_length_ne hlen]
    exact ⟨fun h ↦ (nomatch h), fun h ↦ absurd h.1 hlen⟩

/-- **The sortable codec.**  Encoding is inverted by decoding; the accepted strings are
those of 22 characters whose last digit has its low four bits clear, each the encoding
of what it decodes to, and the other strings of 22 characters over the alphabet, and only
they, are not canonical. -/
theorem sortable_codec :
    (∀ v : U128, decodeChars (encodeValue v).val = .ok v) ∧
    ∀ s : Str,
      ((∃ v, decodeChars s = .ok v) ↔
        s.length = 22 ∧ (∀ c ∈ s, c ∈ alphabet) ∧ PaddingClear s) ∧
      (∀ v, decodeChars s = .ok v → (encodeValue v).val = s) ∧
      (∀ t v, decodeChars s = .ok v → decodeChars t = .ok v → s = t) ∧
      (decodeChars s = .error .nonCanonical ↔
        s.length = 22 ∧ (∀ c ∈ s, c ∈ alphabet) ∧ ¬ PaddingClear s) := by
  refine ⟨decodeChars_encodeString, fun s ↦ ⟨decodeChars_isOk_iff,
    fun v ↦ encodeString_of_decodeChars, fun t v hs ht ↦ ?_, decodeChars_eq_nonCanonical_iff⟩⟩
  rw [← encodeString_of_decodeChars hs, encodeString_of_decodeChars ht]

end Rivid.Sortable
