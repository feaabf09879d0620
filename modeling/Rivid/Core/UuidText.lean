import Rivid.Core.Convert

/-!
# UUID text and ULID text

The parser of UUIDs accepts the hyphenated form in either letter case and nothing
else, and the formatter writes what was parsed in lower case (`parses_iff`,
`formatHyphenatedLower_of_parse`).  With the Base32 codec, which is as strict, ULID
and UUID text carry the same 16 bytes in either direction (`ulid_uuid_lossless`).
-/

namespace Rivid

/-- `to_ascii_lowercase`. -/
def toAsciiLowercase (c : U8) : U8 := if isAsciiUppercase c then c + 32 else c

namespace Convert

open Positional

/-- `is_ascii_hexdigit`. -/
def IsHexDigit (c : U8) : Prop :=
  (0x30 ≤ c ∧ c ≤ 0x39) ∨ (0x61 ≤ c ∧ c ≤ 0x66) ∨ (0x41 ≤ c ∧ c ≤ 0x46)

/-- Text of 36 bytes with hyphens at 8, 13, 18 and 23 and hexadecimal digits elsewhere. -/
def IsHyphenated (u : Str) : Prop :=
  u.length = 36 ∧ ∀ i c, u[i]? = some c →
    if i = 8 ∨ i = 13 ∨ i = 18 ∨ i = 23 then c = dash else IsHexDigit c

/-! ## Digits -/

section Digits

variable {c : U8}

theorem hexVal_isSome_iff : (hexVal c).isSome ↔ IsHexDigit c := by
  rw [hexVal, IsHexDigit]
  split_ifs <;> simp_all

/-- Digits are read in either case. -/
theorem hexVal_toAsciiUppercase (c : U8) : hexVal (toAsciiUppercase c) = hexVal c := by
  unfold hexVal toAsciiUppercase
  grind

theorem toAsciiUppercase_toAsciiLowercase (c : U8) :
    toAsciiUppercase (toAsciiLowercase c) = toAsciiUppercase c := by
  unfold toAsciiUppercase toAsciiLowercase isAsciiUppercase
  grind

/-- A digit is written in lower case. -/
theorem base16_fold (h : (hexVal c).isSome) : base16.fold c = toAsciiLowercase c := by
  rw [hexVal_isSome_iff, IsHexDigit] at h
  unfold toAsciiLowercase base16 isAsciiUppercase
  grind

end Digits

/-- A byte read from two digits is written as these digits, in lower case. -/
theorem hexText_pair {hi lo x y : U8} (hx : hexVal hi = some x) (hy : hexVal lo = some y) :
    hexText [x <<< 4 ||| y] = [toAsciiLowercase hi, toAsciiLowercase lo] := by
  have hx' : base16.digit hi = some x.toNat := congrArg (Option.map BitVec.toNat) hx
  have hy' : base16.digit lo = some y.toNat := congrArg (Option.map BitVec.toNat) hy
  have hxlt : x.toNat < 16 := base16.digit_lt _ _ hx'
  have hylt : y.toNat < 16 := base16.digit_lt _ _ hy'
  have hshift : (x <<< 4).toNat = x.toNat * 2 ^ 4 := toNat_shiftLeft_of_fits (by omega)
  have hval : (x <<< 4 ||| y).toNat = x.toNat * 16 + y.toNat := by
    rw [toNat_or_of_clear (k := 4) (hshift ▸ Dvd.intro_left _ rfl) hylt, hshift]
    rfl
  have htext : base16.text 2 (x.toNat * 16 + y.toNat) =
      [base16.char x.toNat, base16.char y.toNat] := by
    have hdiv : (x.toNat * 16 + y.toNat) / 16 = x.toNat := by omega
    have hmod : (x.toNat * 16 + y.toNat) % 16 = y.toNat := by omega
    simp only [Alphabet.text, digits_succ, digits_zero, List.map_cons, List.map_nil,
      List.nil_append, List.cons_append, hdiv, hmod, Nat.mod_eq_of_lt hxlt]
  rw [hexText, List.flatMap_cons, List.flatMap_nil, List.append_nil, hexText_byte, hval, htext,
    base16.char_digit _ _ hx', base16.char_digit _ _ hy', base16_fold (by rw [hx]; rfl),
    base16_fold (by rw [hy]; rfl)]

theorem hexText_cons (c : U8) (l : List U8) : hexText (c :: l) = hexText [c] ++ hexText l := by
  simp [hexText]

/-! ## Slots -/

/-- The loop over the slots succeeds on digits, and what it fills is written as
these digits. -/
theorem fillSlots_of_digits {n : ℕ} {s : Str} (hlen : s.length = 2 * n)
    (h : ∀ c ∈ s, (hexVal c).isSome) :
    ∃ out, fillSlots n (s.map hexVal) = .ok out ∧ hexText out = s.map toAsciiLowercase := by
  induction n generalizing s with
  | zero =>
      obtain rfl := List.length_eq_zero_iff.mp hlen
      exact ⟨[], rfl, rfl⟩
  | succ n ih =>
      match s, hlen with
      | hi :: lo :: s, hlen =>
          obtain ⟨hhi, h⟩ := List.forall_mem_cons.mp h
          obtain ⟨hlo, h⟩ := List.forall_mem_cons.mp h
          obtain ⟨x, hx⟩ := Option.isSome_iff_exists.mp hhi
          obtain ⟨y, hy⟩ := Option.isSome_iff_exists.mp hlo
          have hrest : s.length = 2 * n := by
            rw [List.length_cons, List.length_cons] at hlen
            omega
          obtain ⟨out, hout, htext⟩ := ih hrest h
          refine ⟨(x <<< 4 ||| y) :: out, ?_, ?_⟩
          · rw [List.map_cons, List.map_cons, hx, hy, fillSlots, hout]
            rfl
          · rw [hexText_cons, hexText_pair hx hy, htext]
            rfl

/-- A slot that is filled was filled from digits. -/
theorem digits_of_fillSlots {n : ℕ} {s : Str} {out : List U8} (hlen : s.length = 2 * n)
    (h : fillSlots n (s.map hexVal) = .ok out) : ∀ c ∈ s, (hexVal c).isSome := by
  induction n generalizing s out with
  | zero =>
      obtain rfl := List.length_eq_zero_iff.mp hlen
      exact fun _ hc ↦ absurd hc List.not_mem_nil
  | succ n ih =>
      match s, hlen with
      | hi :: lo :: s, hlen =>
          have hrest : s.length = 2 * n := by
            rw [List.length_cons, List.length_cons] at hlen
            omega
          rw [List.map_cons, List.map_cons] at h
          cases hx : hexVal hi with
          | none => simp [hx, fillSlots] at h
          | some x =>
              cases hy : hexVal lo with
              | none => simp [hx, hy, fillSlots] at h
              | some y =>
                  rw [hx, hy, fillSlots] at h
                  obtain ⟨rest, hfill, -⟩ := bind_eq_ok_iff.mp h
                  exact List.forall_mem_cons.mpr ⟨by rw [hx]; rfl,
                    List.forall_mem_cons.mpr ⟨by rw [hy]; rfl, ih hrest hfill⟩⟩

/-- Each slot is filled from two digits. -/
theorem getElem?_of_fillSlots {n i : ℕ} {digits : List (Option U8)} {out : List U8}
    (h : fillSlots n digits = .ok out) (hi : i < n) :
    ∃ x y, digits[i * 2]? = some (some x) ∧ digits[i * 2 + 1]? = some (some y) ∧
      out[i]? = some (x <<< 4 ||| y) := by
  induction n, digits using fillSlots.induct generalizing i out with
  | case1 => exact absurd hi (Nat.not_lt_zero i)
  | case2 => cases h
  | case3 => cases h
  | case4 n digits hi' lo ih =>
      obtain ⟨rest, hrest, hout⟩ := bind_eq_ok_iff.mp h
      cases hout
      cases i with
      | zero => exact ⟨hi', lo, rfl, rfl, rfl⟩
      | succ i =>
          obtain ⟨x, y, hx, hy, hxy⟩ := ih hrest (Nat.lt_of_succ_lt_succ hi)
          rw [Nat.succ_mul]
          exact ⟨x, y, hx, hy, hxy⟩
  | case5 n hi' lo digits hne => simp [fillSlots] at h

/-- The digit written for a half byte is read as this half byte. -/
theorem hexVal_hex {x : U8} (h : x.toNat < 16) : hexVal hex[x.toNat]! = some x := by
  have hall : ∀ n < 16, hexVal hex[n]! = some (BitVec.ofNat 8 n) := by decide
  rw [hall x.toNat h, BitVec.ofNat_toNat, BitVec.setWidth_eq]

/-- A byte is made of its two halves. -/
theorem nibbles_or (c : U8) : (c >>> 4) <<< 4 ||| (c &&& 0x0f) = c := by
  have hlo : (c &&& 0x0f).toNat = c.toNat % 16 := toNat_and_mask (k := 4) rfl
  have hhi : (c >>> 4).toNat = c.toNat / 16 := toNat_ushiftRight_eq_div c
  have hshift : ((c >>> 4) <<< 4).toNat = (c >>> 4).toNat * 2 ^ 4 :=
    toNat_shiftLeft_of_fits (by have := c.isLt; omega)
  apply BitVec.eq_of_toNat_eq
  rw [toNat_or_of_clear (k := 4) (hshift ▸ Dvd.intro_left _ rfl) (by omega), hshift, hhi, hlo]
  omega

/-- The digits of bytes fill the slots with these bytes. -/
theorem fillSlots_hexText (l : List U8) : fillSlots l.length ((hexText l).map hexVal) = .ok l := by
  induction l with
  | nil => rfl
  | cons c l ih =>
      have hlt := c.isLt
      have hhi : hexVal hex[(c >>> 4).toNat]! = some (c >>> 4) :=
        hexVal_hex (by rw [toNat_ushiftRight_eq_div]; omega)
      have hlo : hexVal hex[(c &&& 0x0f).toNat]! = some (c &&& 0x0f) :=
        hexVal_hex (by rw [toNat_and_mask (k := 4) rfl]; omega)
      have hmap : (hexText (c :: l)).map hexVal =
          some (c >>> 4) :: some (c &&& 0x0f) :: (hexText l).map hexVal := by
        rw [hexText_cons, List.map_append, ← hhi, ← hlo]
        rfl
      rw [hmap, List.length_cons, fillSlots, ih]
      simp only [ok_bind, nibbles_or]
      rfl

/-! ## Hyphens -/

/-- The positions that are read as digits. -/
def isDigitPosition (i : ℕ) : Bool := !(i == 8 || i == 13 || i == 18 || i == 23)

theorem isDigitPosition_iff {i : ℕ} :
    isDigitPosition i = true ↔ ¬ (i = 8 ∨ i = 13 ∨ i = 18 ∨ i = 23) := by
  simp [isDigitPosition, and_assoc]

theorem digitPositions_def (u : Str) :
    digitPositions u = (u.zipIdx.filter fun ci ↦ isDigitPosition ci.2).map Prod.fst := rfl

section Stretch

variable {l : Str} {n : ℕ}

/-- A stretch of digits is kept. -/
theorem filter_zipIdx_of_forall (h : ∀ i, n ≤ i → i < n + l.length → isDigitPosition i = true) :
    ((l.zipIdx n).filter fun ci ↦ isDigitPosition ci.2).map Prod.fst = l := by
  have hall : ∀ ci ∈ l.zipIdx n, isDigitPosition ci.2 = true := by
    rintro ⟨c, i⟩ hci
    obtain ⟨hle, hlt, -⟩ := List.mem_zipIdx hci
    exact h i hle hlt
  rw [List.filter_eq_self.mpr hall, List.zipIdx_map_fst]

/-- The hyphen after such a stretch is left out, and the rest follows. -/
theorem filter_zipIdx_append_cons
    (h : ∀ i, n ≤ i → i < n + l.length → isDigitPosition i = true)
    (hp : isDigitPosition (n + l.length) = false) (c : U8) (m : Str) :
    (((l ++ c :: m).zipIdx n).filter fun ci ↦ isDigitPosition ci.2).map Prod.fst =
      l ++ ((m.zipIdx (n + l.length + 1)).filter fun ci ↦ isDigitPosition ci.2).map Prod.fst := by
  rw [List.zipIdx_append, List.filter_append, List.map_append, filter_zipIdx_of_forall h,
    List.zipIdx_cons, List.filter_cons_of_neg (by simp [hp])]

end Stretch

section Hyphens

variable {s u : Str}

/-- The digits between the hyphens. -/
theorem digitPositions_hyphenate (h : s.length = 32) : digitPositions (hyphenate s) = s := by
  have h₀ : (s.take 8).length = 8 := by simp [h]
  have h₁ : ((s.drop 8).take 4).length = 4 := by simp [h]
  have h₂ : ((s.drop 12).take 4).length = 4 := by simp [h]
  have h₃ : ((s.drop 16).take 4).length = 4 := by simp [h]
  have h₄ : (s.drop 20).length = 12 := by simp [h]
  have hkeep : ∀ i, i ≠ 8 → i ≠ 13 → i ≠ 18 → i ≠ 23 → isDigitPosition i = true := by
    intro i h₁ h₂ h₃ h₄
    exact isDigitPosition_iff.mpr (by simp [*])
  conv_rhs => rw [← segments_eq s]
  rw [digitPositions_def, hyphenate,
    filter_zipIdx_append_cons (fun i _ _ ↦ hkeep i (by omega) (by omega) (by omega) (by omega))
      (by rw [h₀]; rfl), h₀,
    filter_zipIdx_append_cons (fun i _ _ ↦ hkeep i (by omega) (by omega) (by omega) (by omega))
      (by rw [h₁]; rfl), h₁,
    filter_zipIdx_append_cons (fun i _ _ ↦ hkeep i (by omega) (by omega) (by omega) (by omega))
      (by rw [h₂]; rfl), h₂,
    filter_zipIdx_append_cons (fun i _ _ ↦ hkeep i (by omega) (by omega) (by omega) (by omega))
      (by rw [h₃]; rfl), h₃,
    filter_zipIdx_of_forall fun i _ _ ↦ hkeep i (by omega) (by omega) (by omega) (by omega)]

theorem hyphenate_append {a b c d : Str} (e : Str) (ha : a.length = 8) (hb : b.length = 4)
    (hc : c.length = 4) (hd : d.length = 4) : hyphenate (a ++ (b ++ (c ++ (d ++ e)))) =
      a ++ (dash :: (b ++ (dash :: (c ++ (dash :: (d ++ (dash :: e))))))) := by
  simp (disch := omega) [hyphenate, List.drop_append, ha, hb, hc, List.drop_of_length_le]

/-- A text is cut at a hyphen. -/
theorem exists_append_dash {n : ℕ} (h : n < u.length) (hdash : u[n]! = dash) :
    ∃ l m, l.length = n ∧ u = l ++ dash :: m ∧ m = u.drop (n + 1) := by
  rw [getElem!_pos u n h] at hdash
  refine ⟨u.take n, u.drop (n + 1), List.length_take_of_le h.le, ?_, rfl⟩
  rw [← hdash, ← List.drop_eq_getElem_cons h, List.take_append_drop]

theorem getElem!_drop (u : Str) (n i : ℕ) : (u.drop n)[i]! = u[n + i]! := by
  rw [List.getElem!_eq_getElem?_getD, List.getElem!_eq_getElem?_getD, List.getElem?_drop]

/-- A text with hyphens in place is its digits, hyphenated. -/
theorem exists_hyphenate (hlen : u.length = 36) (h₀ : u[8]! = dash) (h₁ : u[13]! = dash)
    (h₂ : u[18]! = dash) (h₃ : u[23]! = dash) : ∃ s : Str, s.length = 32 ∧ hyphenate s = u := by
  obtain ⟨a, u₁, ha, hu, hu₁⟩ := exists_append_dash (n := 8) (by omega) h₀
  obtain ⟨b, u₂, hb, hu', hu₂⟩ := exists_append_dash (u := u₁) (n := 4) (by simp [hu₁, hlen])
    (by rw [hu₁, getElem!_drop, h₁])
  obtain ⟨c, u₃, hc, hu'', hu₃⟩ := exists_append_dash (u := u₂) (n := 4) (by simp [hu₂, hu₁, hlen])
    (by rw [hu₂, hu₁, getElem!_drop, getElem!_drop, h₂])
  obtain ⟨d, e, hd, hu''', he⟩ := exists_append_dash (u := u₃) (n := 4)
    (by simp [hu₃, hu₂, hu₁, hlen])
    (by rw [hu₃, hu₂, hu₁, getElem!_drop, getElem!_drop, getElem!_drop, h₃])
  refine ⟨a ++ (b ++ (c ++ (d ++ e))), ?_, ?_⟩
  · simp [ha, hb, hc, hd, he, hu₃, hu₂, hu₁, hlen]
  · rw [hyphenate_append e ha hb hc hd, ← hu''', ← hu'', ← hu', ← hu]

theorem dash_hyphenate (h : s.length = 32) : (hyphenate s).length = 36 ∧
    (hyphenate s)[8]! = dash ∧ (hyphenate s)[13]! = dash ∧ (hyphenate s)[18]! = dash ∧
      (hyphenate s)[23]! = dash := by
  simp [hyphenate, h]

theorem mem_digitPositions_iff {c : U8} :
    c ∈ digitPositions u ↔ ∃ i, u[i]? = some c ∧ isDigitPosition i = true := by
  rw [digitPositions_def]
  simp only [List.mem_map, List.mem_filter, Prod.exists, exists_and_right, exists_eq_right,
    List.mem_zipIdx_iff_getElem?]

end Hyphens

/-! ## The parser -/

section Parser

variable {s u : Str} {b : Bytes 16}

/-- The parser reads the digits of text with hyphens in place. -/
theorem parse_eq_ok_iff : parseHyphenatedUuid u = .ok b ↔ u.length = 36 ∧ u[8]! = dash ∧
    u[13]! = dash ∧ u[18]! = dash ∧ u[23]! = dash ∧
      fillSlots 16 ((digitPositions u).map hexVal) = .ok b.val := by
  have hmap := map_val_parseHyphenatedUuid u
  have hiff : parseHyphenatedUuid u = .ok b ↔
      (parseHyphenatedUuid u).map Subtype.val = .ok b.val := by
    cases parseHyphenatedUuid u <;> simp [Except.map, Subtype.ext_iff]
  rw [hiff, hmap]
  split
  · next h =>
      refine iff_of_false (fun hok ↦ (nomatch hok)) fun hok ↦ ?_
      tauto
  · next h => tauto

/-- What is accepted is 32 digits, hyphenated, that fill the slots. -/
theorem exists_digits_of_parse (h : parseHyphenatedUuid u = .ok b) : ∃ s, s.length = 32 ∧
    hyphenate s = u ∧ (∀ c ∈ s, (hexVal c).isSome) ∧ fillSlots 16 (s.map hexVal) = .ok b.val := by
  obtain ⟨hlen, h₀, h₁, h₂, h₃, hfill⟩ := parse_eq_ok_iff.mp h
  obtain ⟨s, hs, rfl⟩ := exists_hyphenate hlen h₀ h₁ h₂ h₃
  rw [digitPositions_hyphenate hs] at hfill
  exact ⟨s, hs, rfl, digits_of_fillSlots hs hfill, hfill⟩

/-- The parser accepts exactly hyphenated text. -/
theorem isHyphenated_of_parse (h : parseHyphenatedUuid u = .ok b) : IsHyphenated u := by
  obtain ⟨hlen, h₀, h₁, h₂, h₃, -⟩ := parse_eq_ok_iff.mp h
  obtain ⟨s, hs, hsu, hhex, -⟩ := exists_digits_of_parse h
  refine ⟨hlen, fun i c hi ↦ ?_⟩
  have hat : u[i]! = c := by rw [List.getElem!_eq_getElem?_getD, hi]; rfl
  split
  · next hpos => rcases hpos with rfl | rfl | rfl | rfl <;> simp_all
  · next hpos =>
      have hmem : c ∈ digitPositions u :=
        mem_digitPositions_iff.mpr ⟨i, hi, isDigitPosition_iff.mpr hpos⟩
      rw [← hsu, digitPositions_hyphenate hs] at hmem
      exact hexVal_isSome_iff.mp (hhex c hmem)

/-- What was parsed is written back in lower case. -/
theorem parse_of_isHyphenated (h : IsHyphenated u) :
    ∃ b, parseHyphenatedUuid u = .ok b ∧ formatHyphenatedLower b = u.map toAsciiLowercase := by
  obtain ⟨hlen, hat⟩ := h
  have hdash : ∀ i, i = 8 ∨ i = 13 ∨ i = 18 ∨ i = 23 → u[i]! = dash := by
    intro i hi
    have hlt : i < u.length := by omega
    have := hat i u[i] (List.getElem?_eq_getElem hlt)
    rwa [if_pos hi, ← getElem!_pos u i hlt] at this
  have h₀ := hdash 8 (by simp)
  have h₁ := hdash 13 (by simp)
  have h₂ := hdash 18 (by simp)
  have h₃ := hdash 23 (by simp)
  obtain ⟨s, hs, rfl⟩ := exists_hyphenate hlen h₀ h₁ h₂ h₃
  have hhex : ∀ c ∈ s, (hexVal c).isSome := by
    intro c hc
    rw [← digitPositions_hyphenate hs, mem_digitPositions_iff] at hc
    obtain ⟨i, hi, hpos⟩ := hc
    have := hat i c hi
    rw [if_neg (isDigitPosition_iff.mp hpos)] at this
    exact hexVal_isSome_iff.mpr this
  obtain ⟨out, hout, htext⟩ := fillSlots_of_digits (n := 16) hs hhex
  refine ⟨⟨out, length_of_fillSlots hout⟩, parse_eq_ok_iff.mpr ⟨hlen, h₀, h₁, h₂, h₃, ?_⟩, ?_⟩
  · rw [digitPositions_hyphenate hs, hout]
  · rw [formatHyphenatedLower_eq, htext]
    simp [hyphenate]
    decide

theorem isHyphenated_iff : (∃ b, parseHyphenatedUuid u = .ok b) ↔ IsHyphenated u := by
  constructor
  · rintro ⟨b, h⟩
    exact isHyphenated_of_parse h
  · intro h
    obtain ⟨b, hb, -⟩ := parse_of_isHyphenated h
    exact ⟨b, hb⟩

theorem formatHyphenatedLower_of_parse (h : parseHyphenatedUuid u = .ok b) :
    formatHyphenatedLower b = u.map toAsciiLowercase := by
  obtain ⟨b', hb', hformat⟩ := parse_of_isHyphenated (isHyphenated_of_parse h)
  rw [h, Except.ok.injEq] at hb'
  rw [hb', hformat]

/-- What is written is parsed back. -/
theorem parse_formatHyphenatedLower (b : Bytes 16) :
    parseHyphenatedUuid (formatHyphenatedLower b) = .ok b := by
  obtain ⟨l, hl⟩ := b
  have hlen : (hexText l).length = 32 := by simp [hexText, List.length_flatMap, hl]
  have hfill : fillSlots 16 ((hexText l).map hexVal) = .ok l := hl ▸ fillSlots_hexText l
  obtain ⟨hlen', h₀, h₁, h₂, h₃⟩ := dash_hyphenate hlen
  rw [formatHyphenatedLower_eq, parse_eq_ok_iff, digitPositions_hyphenate hlen]
  exact ⟨hlen', h₀, h₁, h₂, h₃, hfill⟩

/-- Letter case does not matter to the parser. -/
theorem parse_toUppercase (h : parseHyphenatedUuid u = .ok b) :
    parseHyphenatedUuid (toUppercase u) = .ok b := by
  obtain ⟨hlen, h₀, h₁, h₂, h₃, hfill⟩ := parse_eq_ok_iff.mp h
  have hat : ∀ i < 36, u[i]! = dash → (toUppercase u)[i]! = dash := by
    intro i hi hdash
    have hlt : i < u.length := hlen ▸ hi
    rw [getElem!_pos u i hlt] at hdash
    rw [toUppercase, getElem!_pos _ i (by rwa [List.length_map]), List.getElem_map, hdash]
    rfl
  have hdigits : (digitPositions (toUppercase u)).map hexVal = (digitPositions u).map hexVal := by
    rw [digitPositions_def, digitPositions_def, toUppercase, List.zipIdx_map, List.filter_map,
      List.map_map, List.map_map, List.map_map]
    exact List.map_congr_left fun ci _ ↦ hexVal_toAsciiUppercase ci.1
  exact parse_eq_ok_iff.mpr ⟨by rw [toUppercase, List.length_map, hlen], hat 8 (by decide) h₀,
    hat 13 (by decide) h₁, hat 18 (by decide) h₂, hat 23 (by decide) h₃, hdigits ▸ hfill⟩

end Parser

/-! ## Conversion -/

section Conversion

variable {s u : Str} {b : Bytes 16} {v : U128}

theorem toUppercase_map_toAsciiLowercase (u : Str) :
    toUppercase (u.map toAsciiLowercase) = toUppercase u := by
  rw [toUppercase, List.map_map]
  exact List.map_congr_left fun c _ ↦ toAsciiUppercase_toAsciiLowercase c

/-- The UUID text of a ULID holds its bytes. -/
theorem ulidToUuid_of_decode (h : Crockford.decodeChars s = .ok v) :
    ∃ u, ulidToUuid s = .ok u ∧ parseHyphenatedUuid u = .ok (toBeBytes v) ∧
      uuidToUlid u = .ok (toUppercase s) := by
  have hparse := parse_toUppercase (parse_formatHyphenatedLower (toBeBytes v))
  refine ⟨_, ?_, hparse, ?_⟩
  · rw [ulidToUuid, h]
    rfl
  · rw [uuidToUlid, hparse, ok_bind, fromBeBytes_toBeBytes, Crockford.encodeString_of_decodeChars h]
    rfl

/-- The ULID text of a UUID holds its bytes. -/
theorem uuidToUlid_of_parse (h : parseHyphenatedUuid u = .ok b) :
    ∃ s, uuidToUlid u = .ok s ∧ Crockford.decodeChars s = .ok (fromBeBytes 128 b.val) ∧
      ulidToUuid s = .ok (toUppercase u) := by
  have hdecode := Crockford.decodeChars_encodeString (fromBeBytes 128 b.val)
  refine ⟨_, ?_, hdecode, ?_⟩
  · rw [uuidToUlid, h]
    rfl
  · rw [ulidToUuid_encodeString, toBeBytes_fromBeBytes, formatHyphenatedLower_of_parse h,
      toUppercase_map_toAsciiLowercase]

end Conversion

/-- **ULID and UUID text carry the same bytes.**  The formatter and the parser of
UUIDs are inverse up to letter case, the parser accepts hyphenated text only, and
either conversion succeeds on what is accepted, keeps the 16 bytes and is undone by
the other one, up to letter case. -/
theorem ulid_uuid_lossless :
    (∀ b : Bytes 16, parseHyphenatedUuid (formatHyphenatedLower b) = .ok b) ∧
    (∀ u : Str, ((∃ b, parseHyphenatedUuid u = .ok b) ↔ IsHyphenated u) ∧
      ∀ b, parseHyphenatedUuid u = .ok b → formatHyphenatedLower b = u.map toAsciiLowercase) ∧
    (∀ (s : Str) (v : U128), Crockford.decodeChars s = .ok v →
      ∃ u, ulidToUuid s = .ok u ∧ parseHyphenatedUuid u = .ok (toBeBytes v) ∧
        uuidToUlid u = .ok (s.map toAsciiUppercase)) ∧
    ∀ (u : Str) (b : Bytes 16), parseHyphenatedUuid u = .ok b →
      ∃ s, uuidToUlid u = .ok s ∧ Crockford.decodeChars s = .ok (fromBeBytes 128 b.val) ∧
        ulidToUuid s = .ok (u.map toAsciiUppercase) :=
  ⟨parse_formatHyphenatedLower,
    fun _ ↦ ⟨isHyphenated_iff, fun _ ↦ formatHyphenatedLower_of_parse⟩,
    fun _ _ ↦ ulidToUuid_of_decode, fun _ _ ↦ uuidToUlid_of_parse⟩

end Convert

end Rivid
