import Rivid.Core.Id128

/-!
# The time of a ULID, with and without its random part

A timestamp is written by itself, five bits at a time, and as the top of a value, ten
bits at a time; it is read from the first ten characters alone and from all of them.
Ten characters hold 50 bits and the field has 48: the first reader compares the number
with the greatest timestamp and the second the first digit with 7, which is the same.
-/

namespace Rivid

open Crockford

/-! ## Writing -/

/-- The text of a value is that of its timestamp and that of its random part. -/
theorem encodeString_eq_append (v : U128) : encodeString v =
    base32.text 10 (Id128.mk v).timestampMs.toNat ++ base32.text 16 v.toNat := by
  rw [encodeString_eq, Id128.toNat_timestampMs]
  exact base32.text_add 10 16 v.toNat

theorem take_encodeString (v : U128) :
    (encodeString v).take 10 = base32.text 10 (Id128.mk v).timestampMs.toNat := by
  rw [encodeString_eq_append, List.take_left' (base32.length_text 10 _)]

/-- Values with different timestamps are ordered as these. -/
theorem encodeString_lt_of_timestampMs_lt {v w : U128}
    (h : (Id128.mk v).timestampMs < (Id128.mk w).timestampMs) :
    encodeString v < encodeString w := by
  rw [encodeString_lt_iff, BitVec.lt_def]
  rw [BitVec.lt_def, Id128.toNat_timestampMs, Id128.toNat_timestampMs] at h
  dsimp only at h
  omega

/-! ## Reading -/

namespace Ulid

section

variable {s t : Str} {w : ℕ}

/-- Only the first ten characters are looked at. -/
theorem decodeTime_eq_of_take_eq (hs : s.length = 26) (ht : t.length = 26)
    (h : s.take 10 = t.take 10) : decodeTime s = decodeTime t := by
  have hs' : ¬ s.length ≠ ulidLen := not_not.mpr hs
  have ht' : ¬ t.length ≠ ulidLen := not_not.mpr ht
  rw [decodeTime, decodeTime, if_neg hs', if_neg ht']
  exact congrArg decodeTimeBytes h

/-- A number of ten digits that is not a timestamp is too large. -/
theorem decodeTimeBytes_of_large (hlen : s.length = 10) (hw : base32.parse s = some w)
    (hge : 2 ^ 48 ≤ w) : decodeTimeBytes s = .error .valueTooLarge := by
  have hlt := base32.parse_lt hw
  rw [hlen] at hlt
  have hzero : (0 : U64).toNat = 0 := rfl
  have hfit : (0 : U64).toNat * 32 ^ s.length + w < 2 ^ 64 := by
    rw [hzero]
    omega
  obtain ⟨time, htime, hval⟩ := foldlM_time_of_parse hw hfit
  rw [hzero, Nat.zero_mul, Nat.zero_add] at hval
  have hlarge : time > timeMax := by
    rw [gt_iff_lt, ← BitVec.not_le, le_timeMax_iff, hval]
    omega
  rw [decodeTimeBytes, if_neg (not_not.mpr hlen)]
  simp only [htime, ok_bind, if_pos hlarge]
  rfl

theorem decodeTime_of_parse (hlen : s.length = 26) (hw : base32.parse (s.take 10) = some w) :
    (w < 2 ^ 48 → ∃ ts, decodeTime s = .ok ts ∧ ts.toNat = w) ∧
      (2 ^ 48 ≤ w → decodeTime s = .error .valueTooLarge) := by
  have hlen' : ¬ s.length ≠ ulidLen := not_not.mpr hlen
  have htake : (s.take 10).length = 10 := List.length_take_of_le (by omega)
  rw [decodeTime, if_neg hlen']
  exact ⟨decodeTimeBytes_of_parse htake hw, decodeTimeBytes_of_large htake hw⟩

/-- A text followed by anything is read as its timestamp. -/
theorem decodeTime_text_append {ts : U64} (hts : ts ≤ timeMax) (ht : t.length = 16) :
    decodeTime (base32.text 10 ts.toNat ++ t) = .ok ts := by
  have hlt := le_timeMax_iff.mp hts
  have hlen : (base32.text 10 ts.toNat ++ t).length = 26 := by simp [ht]
  have hparse : base32.parse ((base32.text 10 ts.toNat ++ t).take 10) = some ts.toNat := by
    rw [List.take_left' (base32.length_text 10 _)]
    exact base32.parse_text (by decide) (by omega)
  obtain ⟨time, htime, hval⟩ := (decodeTime_of_parse hlen hparse).1 hlt
  rw [htime, BitVec.eq_of_toNat_eq hval]

/-- Over the alphabet both readers refuse a string together, and for one reason. -/
theorem decodeTime_error_iff (hlen : s.length = 26) (hall : ∀ c ∈ s, isAlphabetChar c = true) :
    (decodeTime s = .error .valueTooLarge ↔ decodeChars s = .error .valueTooLarge) ∧
      ∀ e, decodeTime s = .error e ∨ decodeChars s = .error e → e = .valueTooLarge := by
  have hsome : (base32.parse s).isSome :=
    base32.parse_isSome_iff.mpr fun c hc ↦ isAlphabetChar_iff.mp (hall c hc)
  obtain ⟨v, hv⟩ := Option.isSome_iff_exists.mp hsome
  have hsplit := hv
  rw [← List.take_append_drop 10 s, Alphabet.parse_append] at hsplit
  obtain ⟨w, hw, hsplit⟩ := Option.bind_eq_some_iff.mp hsplit
  obtain ⟨r, hr, rfl⟩ := Option.map_eq_some_iff.mp hsplit
  have hrlt := base32.parse_lt hr
  have hdrop : (s.drop 10).length = 16 := by rw [List.length_drop, hlen]
  rw [hdrop] at hrlt hv
  obtain ⟨hsmall, hlarge⟩ := decodeTime_of_parse hlen hw
  rcases Nat.lt_or_ge w (2 ^ 48) with hlt | hge
  · obtain ⟨ts, hts, -⟩ := hsmall hlt
    have hfit : w * 32 ^ 16 + r < 2 ^ 128 := by omega
    have hchars : decodeChars s = .ok (BitVec.ofNat 128 (w * 32 ^ 16 + r)) := by
      rw [decodeChars_eq_ok_iff, BitVec.toNat_ofNat, Nat.mod_eq_of_lt hfit]
      exact ⟨hlen, hv⟩
    rw [hts, hchars]
    exact ⟨by simp, by simp⟩
  · have hno : ¬ ∃ v, decodeChars s = .ok v := by
      rintro ⟨u, hu⟩
      have hnum := (decodeChars_eq_ok_iff.mp hu).2
      rw [hv, Option.some.injEq] at hnum
      have hult := u.isLt
      omega
    have hchars : decodeChars s = .error .valueTooLarge := by
      rcases decodeChars_error hlen hno with ⟨-, herr⟩ | ⟨-, c, hc, -⟩
      · exact herr
      · have hforeign := List.find?_some hc
        rw [hall c (List.mem_of_find?_eq_some hc)] at hforeign
        cases hforeign
    rw [hlarge hge, hchars]
    exact ⟨iff_of_true rfl rfl, by simp [eq_comm]⟩

end

/-- **The time paths agree.**  The first ten characters of a ULID are the text of its
timestamp and all that is read of it, whatever follows them; where both readers apply
they give the same timestamp or refuse the string for the same reason; and so a ULID
with an earlier timestamp is the smaller string. -/
theorem time_paths_agree :
    (∀ ts r, ts ≤ timeMax → r ≤ Id128.randomMask → (encodeTime ts).map Subtype.val =
      .ok ((encodeValue (Id128.fromParts ts r).asU128).val.take 10)) ∧
    (∀ ts t, ts ≤ timeMax → t.length = 16 → ∃ time, encodeTime ts = .ok time ∧
      decodeTime (time.val ++ t) = .ok ts) ∧
    (∀ s t : Str, s.length = 26 → t.length = 26 → s.take 10 = t.take 10 →
      decodeTime s = decodeTime t) ∧
    (∀ s v, decodeChars s = .ok v → decodeTime s = .ok ((v >>> 80).setWidth 64)) ∧
    (∀ s : Str, s.length = 26 → (∀ c ∈ s, isAlphabetChar c = true) →
      (decodeTime s = .error .valueTooLarge ↔ decodeChars s = .error .valueTooLarge) ∧
        ∀ e, decodeTime s = .error e ∨ decodeChars s = .error e → e = .valueTooLarge) ∧
    ∀ ts₁ ts₂, ts₁ < ts₂ → ts₂ ≤ timeMax → ∀ v w : U128, (Id128.mk v).timestampMs = ts₁ →
      (Id128.mk w).timestampMs = ts₂ → (encodeValue v).val < (encodeValue w).val := by
  refine ⟨fun ts r hts hr ↦ ?_, fun ts t hts ht ↦ ?_, fun s t ↦ decodeTime_eq_of_take_eq,
    fun s v ↦ decodeTime_of_decodeChars, fun s ↦ decodeTime_error_iff, ?_⟩
  · have htext := take_encodeString (Id128.fromParts ts r).asU128
    rw [show Id128.mk (Id128.fromParts ts r).asU128 = Id128.fromParts ts r from rfl,
      Id128.timestampMs_fromParts hts hr] at htext
    exact (encodeTimeStr_eq hts).trans (congrArg Except.ok htext.symm)
  · have htext := encodeTimeStr_eq hts
    rw [encodeTimeStr] at htext
    cases htime : encodeTime ts with
    | error e =>
        rw [htime] at htext
        cases htext
    | ok time =>
        rw [htime] at htext
        have hval : time.val = base32.text 10 ts.toNat := Except.ok.inj htext
        exact ⟨time, rfl, by rw [hval]; exact decodeTime_text_append hts ht⟩
  · rintro _ _ hlt - v w rfl rfl
    exact encodeString_lt_of_timestampMs_lt hlt

end Ulid

end Rivid
