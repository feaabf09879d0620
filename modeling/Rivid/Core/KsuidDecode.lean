import Rivid.Core.Ksuid

/-!
# What is read as a KSUID

The decoder reads the texts of 27 characters of base 62 whose value is below `2 ^ 160`, and fails
at the first character that is not one of base 62, or at the last one.  The order of the texts is
that of the values.
-/

namespace Rivid

namespace Ksuid

open Positional

/-! ## The decoder reads base-62 numbers -/

/-- One round of the decoder: no carry is left exactly when the number still
fits, and then the limbs hold it. -/
theorem mulAddLimbs_spec {limbs : List U32} (hlen : limbs.length = 5) {x : U8} (hx : x.toNat < 62) :
    (mulAddLimbs (x.setWidth 64) limbs).1.length = 5 ∧
      ((mulAddLimbs (x.setWidth 64) limbs).2 = 0 ↔
        limbsNum limbs * 62 + x.toNat < 2 ^ 160) ∧
      ((mulAddLimbs (x.setWidth 64) limbs).2 = 0 →
        limbsNum (mulAddLimbs (x.setWidth 64) limbs).1 =
          limbsNum limbs * 62 + x.toNat) := by
  have hcarry : (x.setWidth 64).toNat = x.toNat := by
    rw [BitVec.toNat_setWidth]
    omega
  obtain ⟨hdigits, hout⟩ := mulAddLimbs_eq (show (x.setWidth 64 : U64).toNat < 62 by omega) limbs
  obtain ⟨hiff, hval⟩ := mulAddSmall_spec (b := 2 ^ 32) (m := 62) (by decide) x.toNat
    (limbNats limbs)
  rw [hcarry] at hdigits hout
  have hzero : (mulAddLimbs (x.setWidth 64) limbs).2 = 0 ↔
      (mulAddSmall (2 ^ 32) 62 x.toNat (limbNats limbs)).2 = 0 := by
    rw [← hout]
    exact ⟨fun h ↦ by rw [h]; rfl, fun h ↦ BitVec.eq_of_toNat_eq h⟩
  refine ⟨?_, ?_, ?_⟩
  · have := congrArg List.length hdigits
    rw [length_mulAddSmall, List.length_map, List.length_map] at this
    exact this.trans hlen
  · rw [hzero, hiff, List.length_map, hlen]
    rfl
  · intro h
    rw [limbsNum, hdigits, hval (hzero.mp h), limbsNum]

/-- One round of the decoder on a character with digit `d`. -/
theorem decodeLoop_cons {limbs : List U32} (hlen : limbs.length = 5) {c : U8} {d : ℕ}
    (hd : base62.digit c = some d) (chars : Str) :
    (limbsNum limbs * 62 + d < 2 ^ 160 →
        ∃ limbs', decodeLoop limbs (c :: chars) = decodeLoop limbs' chars ∧ limbs'.length = 5 ∧
          limbsNum limbs' = limbsNum limbs * 62 + d) ∧
      (2 ^ 160 ≤ limbsNum limbs * 62 + d →
        decodeLoop limbs (c :: chars) = .error .ksuidValueTooLarge) := by
  obtain ⟨x, hx, rfl⟩ := decodeChar_of_some hd
  obtain ⟨hlen', hiff, hval⟩ := mulAddLimbs_spec hlen (base62.digit_lt c _ hd)
  rw [decodeLoop, hx, ok_bind]
  constructor
  · intro hfit
    have hcarry := hiff.mpr hfit
    exact ⟨_, if_neg (not_not.mpr hcarry), hlen', hval hcarry⟩
  · intro hover
    exact if_pos fun hcarry ↦ Nat.not_lt.mpr hover (hiff.mp hcarry)

/-- What the loop does with characters of the alphabet, entered with the number
of the characters before in the limbs: it overflows exactly when the whole
number does. -/
theorem decodeLoop_of_parse {chars : Str} {limbs : List U32} {w : ℕ} (hlen : limbs.length = 5)
    (hw : base62.parse chars = some w) :
    (limbsNum limbs * 62 ^ chars.length + w < 2 ^ 160 →
        ∃ limbs', decodeLoop limbs chars = .ok limbs' ∧ limbs'.length = 5 ∧
          limbsNum limbs' =
            limbsNum limbs * 62 ^ chars.length + w) ∧
      (2 ^ 160 ≤ limbsNum limbs * 62 ^ chars.length + w →
        limbsNum limbs < 2 ^ 160 →
        decodeLoop limbs chars = .error .ksuidValueTooLarge) := by
  induction chars generalizing limbs w with
  | nil =>
      obtain rfl : 0 = w := by simpa using hw
      constructor
      · intro _
        exact ⟨limbs, rfl, hlen, by simp⟩
      · intro hle hlt
        simp only [List.length_nil, pow_zero, Nat.mul_one, Nat.add_zero] at hle
        omega
  | cons c chars ih =>
      rw [Alphabet.parse_cons, Option.bind_eq_some_iff] at hw
      obtain ⟨d, hd, hw⟩ := hw
      obtain ⟨v, hv, rfl⟩ := Option.map_eq_some_iff.mp hw
      obtain ⟨hfits, hover⟩ := decodeLoop_cons hlen hd chars
      -- The number of all characters, split after the first one.
      have hsplit : limbsNum limbs * 62 ^ (c :: chars).length + (d * 62 ^ chars.length + v) =
          (limbsNum limbs * 62 + d) * 62 ^ chars.length + v := by
        rw [List.length_cons]
        ring
      rw [hsplit]
      rcases Nat.lt_or_ge (limbsNum limbs * 62 + d) (2 ^ 160) with hlt | hge
      · obtain ⟨limbs', hstep, hlen', hnum⟩ := hfits hlt
        obtain ⟨hfit, hbig⟩ := ih hlen' hv
        rw [hstep, ← hnum]
        exact ⟨hfit, fun hle _ ↦ hbig hle (hnum ▸ hlt)⟩
      · have hmul : (limbsNum limbs * 62 + d) * 1 ≤
            (limbsNum limbs * 62 + d) * 62 ^ chars.length :=
          Nat.mul_le_mul_left _ (Nat.pow_pos (by decide))
        exact ⟨fun h ↦ by omega, fun _ _ ↦ hover hge⟩

/-- A foreign character is met before any overflow: the number of the at most 26
characters before it fits in 160 bits. -/
theorem decodeLoop_of_foreign {chars : Str} {limbs : List U32} {k : ℕ} (hlen : limbs.length = 5)
    (hk : k + chars.length = 27) (hv : limbsNum limbs < 62 ^ k)
    (hw : base62.parse chars = none) :
    ∃ c, chars.find? (fun c ↦ decide (c ∉ alphabet)) = some c ∧
      decodeLoop limbs chars = .error (.invalidCharacter c) := by
  induction chars generalizing limbs k with
  | nil => simp at hw
  | cons c chars ih =>
      cases hd : base62.digit c with
      | none =>
          have hc : c ∉ alphabet := by
            rw [mem_alphabet_iff, hd]
            simp
          exact ⟨c, by simp [hc], by rw [decodeLoop, decodeChar_of_none hd, error_bind]⟩
      | some d =>
          have hc : c ∈ alphabet := by
            rw [mem_alphabet_iff, hd]
            rfl
          have htail : base62.parse chars = none := by
            rw [Alphabet.parse_cons, hd] at hw
            simpa using hw
          have hne : chars ≠ [] := by
            rintro rfl
            simp at htail
          have hpos : 0 < chars.length := List.length_pos_iff.mpr hne
          rw [List.length_cons] at hk
          have hdlt := base62.digit_lt c _ hd
          have hnext : limbsNum limbs * 62 + d < 62 ^ (k + 1) := by
            rw [pow_succ 62 k]
            omega
          have hfit : (62 : ℕ) ^ (k + 1) ≤ 62 ^ 26 := Nat.pow_le_pow_right (by decide) (by omega)
          have hmax : (62 : ℕ) ^ 26 < 2 ^ 160 := by decide
          obtain ⟨limbs', hstep, hlen', hnum⟩ := (decodeLoop_cons hlen hd chars).1 (by omega)
          obtain ⟨e, he, herr⟩ := ih hlen' (k := k + 1) (by omega) (hnum ▸ hnext) htail
          refine ⟨e, ?_, ?_⟩
          · rw [List.find?_cons_of_neg (by simpa using hc)]
            exact he
          · rw [hstep]
            exact herr

theorem toNum_bytesOf {limbs : List U32} (h : limbs.length = 5) :
    toNum (bytesOf limbs) = limbsNum limbs := by
  rw [← value_flatMap_beBytes, toNum]
  rcases limbs with _ | ⟨l₀, _ | ⟨l₁, _ | ⟨l₂, _ | ⟨l₃, _ | ⟨l₄, _ | ⟨l₅, limbs⟩⟩⟩⟩⟩⟩
  case cons.cons.cons.cons.cons.nil => simp [bytesOf]
  all_goals simp at h

/-- A string of the right length, read by the number it stands for. -/
theorem decodeBytes_of_parse {s : Str} {w : ℕ} (hlen : s.length = 27)
    (hw : base62.parse s = some w) :
    (w < 2 ^ 160 → ∃ b, decodeBytes s = .ok b ∧ toNum b = w) ∧
      (2 ^ 160 ≤ w → decodeBytes s = .error .ksuidValueTooLarge) := by
  have hzero : limbsNum (List.replicate 5 0) = 0 := value_replicate_zero 5
  have hfive : (List.replicate 5 (0 : U32)).length = 5 := List.length_replicate
  obtain ⟨hfit, hover⟩ := decodeLoop_of_parse hfive hw
  rw [hzero, Nat.zero_mul, Nat.zero_add] at hfit hover
  have hdec : decodeBytes s = decodeLoop (List.replicate 5 0) s >>= fun limbs ↦
      return bytesOf limbs := if_neg (not_not.mpr hlen)
  rw [hdec]
  constructor
  · intro h
    obtain ⟨limbs, hl, hl5, hnum⟩ := hfit h
    exact ⟨bytesOf limbs, by rw [hl, ok_bind]; rfl, by rw [toNum_bytesOf hl5, hnum]⟩
  · intro h
    rw [hover h (by decide), error_bind]

theorem decodeBytes_of_foreign {s : Str} (hlen : s.length = 27) (hw : base62.parse s = none) :
    ∃ c, s.find? (fun c ↦ decide (c ∉ alphabet)) = some c ∧
      decodeBytes s = .error (.invalidCharacter c) := by
  have hzero : limbsNum (List.replicate 5 0) < 62 ^ 0 := by
    rw [limbsNum, limbNats, List.map_replicate]
    exact lt_of_eq_of_lt (value_replicate_zero 5) (by decide)
  obtain ⟨c, hc, herr⟩ := decodeLoop_of_foreign rfl (by omega) hzero hw
  refine ⟨c, hc, ?_⟩
  have hne : ¬ s.length ≠ stringLen := not_not.mpr hlen
  rw [decodeBytes, if_neg hne, herr, error_bind]

theorem decodeBytes_of_length_ne {s : Str} (h : s.length ≠ 27) :
    decodeBytes s = .error (.invalidLength 27 s.length) := if_pos h

/-- The accepted strings are the 27-digit numerals of 160-bit numbers. -/
theorem decodeBytes_eq_ok_iff {s : Str} {b : Bytes 20} :
    decodeBytes s = .ok b ↔ s.length = 27 ∧ base62.parse s = some (toNum b) := by
  by_cases hlen : s.length = 27
  · cases hw : base62.parse s with
    | none =>
        obtain ⟨c, -, herr⟩ := decodeBytes_of_foreign hlen hw
        simp [herr]
    | some w =>
        obtain ⟨hfit, hover⟩ := decodeBytes_of_parse hlen hw
        rw [Option.some.injEq]
        rcases Nat.lt_or_ge w (2 ^ 160) with h | h
        · obtain ⟨e, he, rfl⟩ := hfit h
          rw [he, Except.ok.injEq]
          exact ⟨fun h ↦ ⟨hlen, congrArg toNum h⟩, fun h ↦ toNum_injective h.2⟩
        · have := toNum_lt b
          rw [hover h]
          constructor
          · intro h'
            cases h'
          · rintro ⟨-, rfl⟩
            omega
  · simp [decodeBytes_of_length_ne hlen, hlen]

theorem decodeBytes_encodeString (b : Bytes 20) : decodeBytes (encodeString b) = .ok b := by
  rw [decodeBytes_eq_ok_iff, encodeString_eq]
  exact ⟨by simp, base62.parse_text (by decide) (toNum_lt_pow b)⟩

theorem encodeString_of_decodeBytes {s : Str} {b : Bytes 20} (h : decodeBytes s = .ok b) :
    encodeString b = s := by
  obtain ⟨hlen, hw⟩ := decodeBytes_eq_ok_iff.mp h
  have ht := base62.text_parse hw
  rw [hlen, ← encodeString_eq] at ht
  rw [ht]
  exact List.map_id s

/-! ## The grammar -/

theorem parse_maxString : base62.parse maxString = some (2 ^ 160 - 1) := by
  have htext : maxString = base62.text 27 (2 ^ 160 - 1) := by decide
  rw [htext]
  exact base62.parse_text (by decide) (by norm_num)

/-- Numerals of 27 characters up to `maxString` are those of 160-bit numbers. -/
theorem le_maxString_iff {s : Str} {w : ℕ} (hlen : s.length = 27) (hw : base62.parse s = some w) :
    s ≤ maxString ↔ w < 2 ^ 160 := by
  have h := base62.parse_lt_parse_iff (by decide) base62_char_lt_iff (s := maxString) (t := s)
    (hlen.symm ▸ rfl) parse_maxString hw
  have hfold : ∀ t : Str, t.map base62.fold = t := List.map_id
  rw [hfold, hfold] at h
  rw [← List.not_lt, h]
  omega

theorem forall_mem_alphabet_iff {s : Str} :
    (∀ c ∈ s, c ∈ alphabet) ↔ (base62.parse s).isSome := by
  simp only [Alphabet.parse_isSome_iff, mem_alphabet_iff]

theorem decodeBytes_isOk_iff {s : Str} : (∃ b, decodeBytes s = .ok b) ↔
    s.length = 27 ∧ (∀ c ∈ s, c ∈ alphabet) ∧ s ≤ maxString := by
  rw [forall_mem_alphabet_iff]
  constructor
  · rintro ⟨b, hb⟩
    obtain ⟨hlen, hw⟩ := decodeBytes_eq_ok_iff.mp hb
    exact ⟨hlen, by simp [hw], (le_maxString_iff hlen hw).mpr (toNum_lt b)⟩
  · rintro ⟨hlen, hsome, hle⟩
    obtain ⟨w, hw⟩ := Option.isSome_iff_exists.mp hsome
    obtain ⟨b, hb, -⟩ := (decodeBytes_of_parse hlen hw).1 ((le_maxString_iff hlen hw).mp hle)
    exact ⟨b, hb⟩

/-- The three ways to fail. -/
theorem decodeBytes_eq_error_iff {s : Str} {e : Error} : decodeBytes s = .error e ↔
    (s.length ≠ 27 ∧ e = .invalidLength 27 s.length) ∨
      (s.length = 27 ∧ ∃ c, s.find? (fun c ↦ decide (c ∉ alphabet)) = some c ∧
        e = .invalidCharacter c) ∨
      (s.length = 27 ∧ (∀ c ∈ s, c ∈ alphabet) ∧ maxString < s ∧ e = .ksuidValueTooLarge) := by
  by_cases hlen : s.length = 27
  · cases hw : base62.parse s with
    | none =>
        obtain ⟨c, hc, herr⟩ := decodeBytes_of_foreign hlen hw
        have hforeign : ¬ ∀ c ∈ s, c ∈ alphabet := by
          rw [forall_mem_alphabet_iff, hw]
          simp
        simp only [herr, hlen, hc, hforeign]
        simp [eq_comm]
    | some w =>
        have hall : ∀ c ∈ s, c ∈ alphabet := by
          rw [forall_mem_alphabet_iff, hw]
          rfl
        have hnone : s.find? (fun c ↦ decide (c ∉ alphabet)) = none := by
          simpa using hall
        have hlt : maxString < s ↔ 2 ^ 160 ≤ w := by
          rw [← Nat.not_lt, ← le_maxString_iff hlen hw, List.not_le]
        obtain ⟨hfit, hover⟩ := decodeBytes_of_parse hlen hw
        simp only [hnone, hlt]
        rcases Nat.lt_or_ge w (2 ^ 160) with h | h
        · obtain ⟨b, hb, -⟩ := hfit h
          rw [hb]
          constructor
          · intro h'
            cases h'
          · rintro (⟨h', -⟩ | ⟨-, c, h', -⟩ | ⟨-, -, h', -⟩)
            · exact absurd hlen h'
            · cases h'
            · omega
        · rw [hover h, Except.error.injEq]
          constructor
          · rintro rfl
            exact Or.inr (Or.inr ⟨hlen, hall, h, rfl⟩)
          · rintro (⟨h', -⟩ | ⟨-, c, h', -⟩ | ⟨-, -, -, h'⟩)
            · exact absurd hlen h'
            · cases h'
            · exact h'.symm
  · simp [decodeBytes_of_length_ne hlen, hlen, eq_comm]

theorem isValid_iff {s : Str} : isValid s = true ↔ ∃ b, decodeBytes s = .ok b := by
  rw [isValid]
  cases decodeBytes s <;> simp [Except.isOk, Except.toBool]

theorem parse_eq_ok_iff {s : Str} {k : Ksuid} : parse s = .ok k ↔ decodeBytes s = .ok k.bytes := by
  rw [parse, decodeStr]
  cases decodeBytes s with
  | error e => simp [Except.map]
  | ok b =>
      rw [Except.map, Except.ok.injEq, Except.ok.injEq]
      exact ⟨fun h ↦ h ▸ rfl, fun h ↦ by rw [h]⟩

theorem decode_eq_decodeBytes (s : Str) : decode s = decodeBytes s := by
  rw [decode, decodeStr]
  cases decodeBytes s <;> rfl

/-- Every character written is in the alphabet. -/
theorem mem_alphabet_of_mem_encodeString {b : Bytes 20} {c : U8} (h : c ∈ encodeString b) :
    c ∈ alphabet := by
  rw [encodeString_eq] at h
  obtain ⟨d, hd, rfl⟩ := base62.exists_of_mem_text (by decide) h
  rw [mem_alphabet_iff, base62.digit_char d hd]
  rfl

/-- **The KSUID text codec.**  Encoding is inverted by decoding; decoding accepts
exactly the 27-character base-62 strings up to `maxString`, each the encoding of
what it decodes to, and each refused string is refused for the stated reason. -/
theorem base62_codec :
    (∀ b : Bytes 20, (encodeValue b).val.length = 27 ∧ (∀ c ∈ (encodeValue b).val, c ∈ alphabet) ∧
      decodeBytes (encodeValue b).val = .ok b) ∧
    ∀ s : Str,
      ((∃ b, decodeBytes s = .ok b) ↔
        s.length = 27 ∧ (∀ c ∈ s, c ∈ alphabet) ∧ s ≤ maxString) ∧
      (isValid s = true ↔ ∃ b, decodeBytes s = .ok b) ∧
      (∀ k : Ksuid, parse s = .ok k ↔ decodeBytes s = .ok k.bytes) ∧
      decode s = decodeBytes s ∧
      (∀ b, decodeBytes s = .ok b → (encodeValue b).val = s) ∧
      ∀ e, decodeBytes s = .error e ↔
        (s.length ≠ 27 ∧ e = .invalidLength 27 s.length) ∨
          (s.length = 27 ∧ ∃ c, s.find? (fun c ↦ decide (c ∉ alphabet)) = some c ∧
            e = .invalidCharacter c) ∨
          (s.length = 27 ∧ (∀ c ∈ s, c ∈ alphabet) ∧ maxString < s ∧
            e = .ksuidValueTooLarge) := by
  constructor
  · intro b
    exact ⟨length_encodeString b, fun c ↦ mem_alphabet_of_mem_encodeString,
      decodeBytes_encodeString b⟩
  · intro s
    exact ⟨decodeBytes_isOk_iff, isValid_iff, fun k ↦ parse_eq_ok_iff, decode_eq_decodeBytes s,
      fun b ↦ encodeString_of_decodeBytes, fun e ↦ decodeBytes_eq_error_iff⟩

/-! ## Order -/

/-- KSUID text is ordered as the bytes. -/
theorem encodeString_lt_iff {a b : Bytes 20} : encodeString a < encodeString b ↔ a.val < b.val := by
  rw [encodeString_eq, encodeString_eq, base62.text_lt_text_iff (by decide) base62_char_lt_iff
    (toNum_lt_pow a) (toNum_lt_pow b), toNum_lt_toNum_iff]

theorem cmpBytes_eq (a b : Str) :
    cmpBytes a b = if a < b then .lt else if a = b then .eq else .gt := by
  induction a generalizing b with
  | nil =>
      cases b with
      | nil => rfl
      | cons y ys => simp [cmpBytes]
  | cons x xs ih =>
      cases b with
      | nil => simp [cmpBytes, List.not_lt_nil]
      | cons y ys =>
          rw [cmpBytes, ih]
          simp only [List.cons_lt_cons_iff, List.cons.injEq]
          rcases BitVec.lt_trichotomy x y with h | h | h
          · simp [h]
          · subst h
            simp [BitVec.lt_irrefl]
          · have hne : x ≠ y := fun he ↦ BitVec.lt_irrefl x (he ▸ h)
            simp [h, hne, BitVec.lt_asymm h]

/-- Byte comparison through an order embedding. -/
theorem cmpBytes_encodeString (a b : Bytes 20) :
    cmpBytes (encodeString a) (encodeString b) = cmpBytes a.val b.val := by
  have heq : encodeString a = encodeString b ↔ a.val = b.val := by
    constructor
    · intro h
      have h' := decodeBytes_encodeString a
      rw [h, decodeBytes_encodeString b, Except.ok.injEq] at h'
      exact congrArg Subtype.val h'.symm
    · intro h
      rw [Subtype.ext h]
  rw [cmpBytes_eq, cmpBytes_eq]
  simp only [encodeString_lt_iff, heq]

theorem compare_eq {s t : Str} {a b : Bytes 20} (hs : decodeBytes s = .ok a)
    (ht : decodeBytes t = .ok b) : compare s t = .ok (cmpBytes a.val b.val) := by
  rw [compare, decodeStr, decodeStr, hs, ht]
  rfl

theorem toNat_timestampSeconds (k : Ksuid) : k.timestampSeconds.toNat =
    value 256 ((k.bytes.val.take 4).map BitVec.toNat) + 1400000000 := by
  have hlen : (k.bytes.val.take 4).length = 4 := by
    rw [List.length_take, k.bytes.property]
    rfl
  have hlt := (fromBeBytes 32 (k.bytes.val.take 4)).isLt
  rw [timestampSeconds, BitVec.toNat_add, BitVec.toNat_setWidth,
    show epochSeconds.toNat = 1400000000 from rfl]
  rw [toNat_fromBeBytes (by omega)] at hlt ⊢
  omega

/-- An earlier second makes smaller bytes, whatever the payloads. -/
theorem bytes_lt_of_timestampSeconds_lt {a b : Ksuid}
    (h : a.timestampSeconds < b.timestampSeconds) : a.bytes.val < b.bytes.val := by
  have hlen : (a.bytes.val.take 4).length = (b.bytes.val.take 4).length := by
    rw [List.length_take, List.length_take, a.bytes.property, b.bytes.property]
  rw [BitVec.lt_def, toNat_timestampSeconds, toNat_timestampSeconds, Nat.add_lt_add_iff_right,
    value_lt_value_iff (by simpa using hlen) byte_lt byte_lt, map_toNat_lt_iff] at h
  rw [← List.take_append_drop 4 a.bytes.val, ← List.take_append_drop 4 b.bytes.val,
    append_lt_append_iff hlen]
  exact Or.inl h

/-- **KSUID string order is value order and time order.**  Strings are ordered as
the 20 bytes; `compare` on accepted strings is plain string comparison; an
earlier second has the smaller string. -/
theorem string_order :
    (∀ a b : Bytes 20, (encodeValue a).val < (encodeValue b).val ↔ a.val < b.val) ∧
    (∀ s t : Str, (∃ a, decode s = .ok a) → (∃ b, decode t = .ok b) →
      compare s t = .ok (if s < t then .lt else if s = t then .eq else .gt)) ∧
    ∀ a b : Ksuid, a.timestampSeconds < b.timestampSeconds → a.encode < b.encode := by
  refine ⟨fun a b ↦ encodeString_lt_iff, ?_, ?_⟩
  · rintro s t ⟨a, ha⟩ ⟨b, hb⟩
    rw [decode_eq_decodeBytes] at ha hb
    rw [compare_eq ha hb, ← cmpBytes_encodeString, encodeString_of_decodeBytes ha,
      encodeString_of_decodeBytes hb, cmpBytes_eq]
  · intro a b h
    exact encodeString_lt_iff.mpr (bytes_lt_of_timestampSeconds_lt h)

end Ksuid

end Rivid
