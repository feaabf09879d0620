import Rivid.Core.Crockford

/-!
# ULID and UUID text

Conversion is a pure reinterpretation of the same 128 bits.  The hyphenated
form is the 32-digit hexadecimal text of the bytes with hyphens after the 8th,
12th, 16th and 20th digit (`formatHyphenatedLower_eq`).
-/

namespace Rivid.Convert

open Positional

def hex : Str := ascii "0123456789abcdef"

/-- A hyphen. -/
def dash : U8 := 0x2d

/-- Formats 16 bytes as lowercase hyphenated UUID form. -/
def formatHyphenatedLower (bytes : Bytes 16) : Str :=
  bytes.val.zipIdx.flatMap fun (bi : U8 × ℕ) ↦
    (if bi.2 = 4 ∨ bi.2 = 6 ∨ bi.2 = 8 ∨ bi.2 = 10 then [dash] else []) ++
      [hex[(bi.1 >>> 4).toNat]!, hex[(bi.1 &&& 0x0f).toNat]!]

/-- The value of a hexadecimal digit. -/
def hexVal (c : U8) : Option U8 :=
  if 0x30 ≤ c ∧ c ≤ 0x39 then some (c - 0x30)
  else if 0x61 ≤ c ∧ c ≤ 0x66 then some (c - 0x61 + 10)
  else if 0x41 ≤ c ∧ c ≤ 0x46 then some (c - 0x41 + 10)
  else none

/-- The loop over the slots: two hexadecimal digits each, if both are there. -/
def fillSlots : ℕ → List (Option U8) → Result (List U8)
  | 0, _ => .ok []
  | _ + 1, [] => .error .invalidUuid
  | _ + 1, [_] => .error .invalidUuid
  | n + 1, hi :: lo :: digits =>
      match hi, lo with
      | some hi, some lo => do
          let rest ← fillSlots n digits
          return (hi <<< 4 ||| lo) :: rest
      | _, _ => .error .invalidUuid

theorem length_of_fillSlots {n : ℕ} {digits : List (Option U8)} {out : List U8}
    (h : fillSlots n digits = .ok out) : out.length = n := by
  induction n, digits using fillSlots.induct generalizing out with
  | case1 => cases h; rfl
  | case2 => cases h
  | case3 => cases h
  | case4 n digits hi lo ih =>
      obtain ⟨rest, hrest, hout⟩ := bind_eq_ok_iff.mp h
      cases hout
      exact congrArg Nat.succ (ih hrest)
  | case5 n hi lo digits hne => simp [fillSlots] at h

/-- Positions without the four of the hyphens. -/
def digitPositions (b : Str) : List U8 :=
  (b.zipIdx.filter fun ci ↦ !(ci.2 == 8 || ci.2 == 13 || ci.2 == 18 || ci.2 == 23)).map Prod.fst

/-- Parses a canonical hyphenated UUID string (case-insensitive) into bytes. -/
def parseHyphenatedUuid (value : Str) : Result (Bytes 16) :=
  if value.length ≠ 36 ∨ value[8]! ≠ dash ∨ value[13]! ≠ dash ∨ value[18]! ≠ dash ∨
      value[23]! ≠ dash then
    .error .invalidUuid
  else
    match h : fillSlots 16 ((digitPositions value).map hexVal) with
    | .ok out => .ok ⟨out, length_of_fillSlots h⟩
    | .error e => .error e

theorem map_val_parseHyphenatedUuid (value : Str) :
    (parseHyphenatedUuid value).map Subtype.val =
      if value.length ≠ 36 ∨ value[8]! ≠ dash ∨ value[13]! ≠ dash ∨ value[18]! ≠ dash ∨
          value[23]! ≠ dash then .error .invalidUuid
      else fillSlots 16 ((digitPositions value).map hexVal) := by
  rw [parseHyphenatedUuid]
  split
  · rfl
  · split
    · next out h => exact h.symm
    · next e h => exact h.symm

/-- `to_uppercase` on ASCII text. -/
def toUppercase (s : Str) : Str := s.map toAsciiUppercase

/-- `u128::to_be_bytes`. -/
def toBeBytes (v : U128) : Bytes 16 := ⟨beBytes 16 v, length_beBytes 16 v⟩

theorem toBeBytes_fromBeBytes (b : Bytes 16) : toBeBytes (fromBeBytes 128 b.val) = b :=
  Subtype.ext (beBytes_fromBeBytes (n := 16) b.property)

theorem fromBeBytes_beBytes (v : U128) : fromBeBytes 128 (beBytes 16 v) = v := by
  have hlen : 8 * (beBytes 16 v).length ≤ 128 := by rw [length_beBytes]
  apply BitVec.eq_of_toNat_eq
  rw [toNat_fromBeBytes hlen, map_toNat_beBytes]
  exact value_digits v.isLt

theorem fromBeBytes_toBeBytes (v : U128) : fromBeBytes 128 (toBeBytes v).val = v :=
  fromBeBytes_beBytes v

/-- Converts a ULID string to its hyphenated uppercase UUID form. -/
def ulidToUuid (ulid : Str) : Result Str := do
  let v ← Crockford.decodeChars ulid
  return toUppercase (formatHyphenatedLower (toBeBytes v))

/-- Converts a hyphenated UUID string to its canonical ULID form. -/
def uuidToUlid (uuid : Str) : Result Str := do
  let bytes ← parseHyphenatedUuid uuid
  return Crockford.encodeString (fromBeBytes 128 bytes.val)

/-! ## Hexadecimal text -/

/-- Hexadecimal digits, written in lower case and read in either. -/
def base16 : Alphabet U8 16 where
  char d := hex[d]!
  digit c := (hexVal c).map BitVec.toNat
  fold c := if 0x41 ≤ c && c ≤ 0x46 then c + 32 else c
  digit_char := by decide
  digit_lt c d h := by
    have hall : ∀ n < 256, ((hexVal (BitVec.ofNat 8 n)).map BitVec.toNat).all (· < 16) = true := by
      decide +kernel
    have hc := hall c.toNat c.isLt
    rw [BitVec.ofNat_toNat, BitVec.setWidth_eq, h] at hc
    simpa using hc
  char_digit c d h := by
    have hall : ∀ n < 256, ((hexVal (BitVec.ofNat 8 n)).map BitVec.toNat).all
        (fun d ↦ hex[d]! = (if 0x41 ≤ BitVec.ofNat 8 n && BitVec.ofNat 8 n ≤ (0x46 : U8)
          then BitVec.ofNat 8 n + 32 else BitVec.ofNat 8 n)) = true := by
      decide +kernel
    have hc := hall c.toNat c.isLt
    rw [BitVec.ofNat_toNat, BitVec.setWidth_eq, h] at hc
    simpa using hc

theorem base16_char_lt_iff :
    ∀ d e, d < 16 → e < 16 → (base16.char d < base16.char e ↔ d < e) := by
  intro d e hd he
  have h : ∀ d < 16, ∀ e < 16, (hex[d]! < hex[e]! ↔ d < e) := by decide
  exact h d hd e he

/-- The two hexadecimal digits of each byte, without hyphens. -/
def hexText (bytes : List U8) : Str :=
  bytes.flatMap fun (c : U8) ↦ [hex[(c >>> 4).toNat]!, hex[(c &&& 0x0f).toNat]!]

/-- Hyphens after the 8th, 12th, 16th and 20th character. -/
def hyphenate (s : Str) : Str :=
  s.take 8 ++ (dash :: ((s.drop 8).take 4 ++ (dash :: ((s.drop 12).take 4 ++
    (dash :: ((s.drop 16).take 4 ++ (dash :: s.drop 20)))))))

theorem hexText_byte (c : U8) :
    [hex[(c >>> 4).toNat]!, hex[(c &&& 0x0f).toNat]!] = base16.text 2 c.toNat := by
  have hhi : (c >>> 4).toNat = c.toNat / 16 % 16 := by
    rw [toNat_ushiftRight_eq_div]
    have := c.isLt
    omega
  have hlo : (c &&& 0x0f).toNat = c.toNat % 16 := toNat_and_mask (k := 4) rfl
  rw [hhi, hlo]
  rfl

theorem hexText_beBytes (v : U128) : hexText (beBytes 16 v) = base16.text 32 v.toNat := by
  have h : hexText (beBytes 16 v) =
      ((beBytes 16 v).map BitVec.toNat).flatMap (base16.text 2) := by
    rw [hexText, List.flatMap_map]
    simp only [hexText_byte]
  rw [h, map_toNat_beBytes, Alphabet.text, ← flatMap_digits 2 16 v.toNat, List.map_flatMap]
  rfl

/-- The formatter writes the hyphens between the bytes, at fixed places. -/
theorem formatHyphenatedLower_eq (bytes : Bytes 16) :
    formatHyphenatedLower bytes = hyphenate (hexText bytes.val) := by
  obtain ⟨l, hl⟩ := bytes
  match l, hl with
  | [b₀, b₁, b₂, b₃, b₄, b₅, b₆, b₇, b₈, b₉, b₁₀, b₁₁, b₁₂, b₁₃, b₁₄, b₁₅], _ => rfl

/-! ## Order -/

theorem segments_eq (s : Str) : s.take 8 ++ ((s.drop 8).take 4 ++ ((s.drop 12).take 4 ++
    ((s.drop 16).take 4 ++ s.drop 20))) = s := by
  have h₂ := List.take_append_drop 4 (s.drop 16)
  have h₁ := List.take_append_drop 4 (s.drop 12)
  have h₀ := List.take_append_drop 4 (s.drop 8)
  rw [List.drop_drop] at h₀ h₁ h₂
  rw [h₂, h₁, h₀, List.take_append_drop]

/-- Hyphens at fixed places do not affect the order of texts of one length. -/
theorem hyphenate_lt_iff {s t : Str} (h : s.length = t.length) :
    hyphenate s < hyphenate t ↔ s < t := by
  have h₀ : (s.take 8).length = (t.take 8).length := by simp [h]
  have h₁ : ((s.drop 8).take 4).length = ((t.drop 8).take 4).length := by simp [h]
  have h₂ : ((s.drop 12).take 4).length = ((t.drop 12).take 4).length := by simp [h]
  have h₃ : ((s.drop 16).take 4).length = ((t.drop 16).take 4).length := by simp [h]
  have hdash : ¬ dash < dash := BitVec.lt_irrefl _
  conv_rhs => rw [← segments_eq s, ← segments_eq t]
  simp only [hyphenate, append_lt_append_iff h₀, append_lt_append_iff h₁,
    append_lt_append_iff h₂, append_lt_append_iff h₃, List.cons_lt_cons_iff, hdash, false_or,
    true_and]

/-- The lower-case UUID text is ordered as the values. -/
theorem formatHyphenatedLower_lt_iff {a b : U128} :
    formatHyphenatedLower (toBeBytes a) < formatHyphenatedLower (toBeBytes b) ↔ a < b := by
  have hpow : ∀ v : U128, v.toNat < 16 ^ 32 := fun v ↦ lt_of_lt_of_eq v.isLt rfl
  rw [formatHyphenatedLower_eq, formatHyphenatedLower_eq]
  simp only [toBeBytes, hexText_beBytes]
  rw [hyphenate_lt_iff (by simp), base16.text_lt_text_iff (by decide) base16_char_lt_iff (hpow a)
    (hpow b), BitVec.lt_def]

/-- The characters of a lower-case UUID text. -/
theorem mem_of_mem_formatHyphenatedLower {v : U128} {c : U8}
    (h : c ∈ formatHyphenatedLower (toBeBytes v)) : c ∈ dash :: hex := by
  have hmem : ∀ d < 16, hex[d]! ∈ hex := by decide
  have hsub : ∀ c ∈ base16.text 32 v.toNat, c ∈ dash :: hex := by
    intro c hc
    obtain ⟨d, hd, rfl⟩ := base16.exists_of_mem_text (by decide) hc
    exact List.mem_cons_of_mem _ (hmem d hd)
  rw [formatHyphenatedLower_eq] at h
  simp only [toBeBytes, hexText_beBytes] at h
  generalize base16.text 32 v.toNat = s at h hsub
  simp only [hyphenate, List.mem_append, List.mem_cons] at h
  rcases h with h | rfl | h | rfl | h | rfl | h | rfl | h
  · exact hsub c (List.mem_of_mem_take h)
  · exact List.mem_cons_self
  · exact hsub c (List.mem_of_mem_drop (List.mem_of_mem_take h))
  · exact List.mem_cons_self
  · exact hsub c (List.mem_of_mem_drop (List.mem_of_mem_take h))
  · exact List.mem_cons_self
  · exact hsub c (List.mem_of_mem_drop (List.mem_of_mem_take h))
  · exact List.mem_cons_self
  · exact hsub c (List.mem_of_mem_drop h)

theorem mem_of_mem_formatHyphenatedLower_bytes {bytes : Bytes 16} {c : U8}
    (h : c ∈ formatHyphenatedLower bytes) : c ∈ dash :: hex := by
  rw [← toBeBytes_fromBeBytes bytes] at h
  exact mem_of_mem_formatHyphenatedLower h

/-- Upper-casing keeps the order of UUID texts: the hyphen, the digits and the
letters stay in that order. -/
theorem toUppercase_lt_iff {s t : Str} (hs : ∀ c ∈ s, c ∈ dash :: hex)
    (ht : ∀ c ∈ t, c ∈ dash :: hex) : toUppercase s < toUppercase t ↔ s < t := by
  have hall : ((dash :: hex).all fun c ↦ (0x2d ≤ c && c ≤ 0x39) || (0x61 ≤ c && c ≤ 0x66)) =
      true := by
    decide
  have hrange : ∀ c ∈ dash :: hex, (0x2d ≤ c ∧ c ≤ 0x39) ∨ (0x61 ≤ c ∧ c ≤ 0x66) := fun c hc ↦ by
    simpa using List.all_eq_true.mp hall c hc
  have hlt : ∀ x y, x ∈ dash :: hex → y ∈ dash :: hex →
      (toAsciiUppercase x < toAsciiUppercase y ↔ x < y) := by
    intro x y hx hy
    have hx := hrange x hx
    have hy := hrange y hy
    unfold toAsciiUppercase
    grind
  have hinj : ∀ x y, x ∈ dash :: hex → y ∈ dash :: hex →
      toAsciiUppercase x = toAsciiUppercase y → x = y := by
    intro x y hx hy
    have hx := hrange x hx
    have hy := hrange y hy
    unfold toAsciiUppercase
    grind
  exact map_lt_map_iff (p := (· ∈ dash :: hex)) hlt hinj hs ht

theorem ulidToUuid_encodeString (v : U128) : ulidToUuid (Crockford.encodeString v) =
    .ok (toUppercase (formatHyphenatedLower (toBeBytes v))) := by
  rw [ulidToUuid, Crockford.decodeChars_encodeString, ok_bind]
  rfl

end Rivid.Convert
