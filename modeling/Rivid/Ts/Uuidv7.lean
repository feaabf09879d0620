import Mathlib.Data.List.ReduceOption
import Rivid.Check.Text
import Rivid.Core.Uuidv7
import Rivid.Ts.Ulid

/-!
# The TypeScript layer: the time of a UUIDv7

`decodeTimeFromString` has a parser of its own: it drops the hyphens wherever they are,
tests for 32 hexadecimal digits and reads them pair by pair.  On the strings the
engine's parser accepts, both see the same bytes (`decodeTimeFromString_of_parse`).
-/

namespace Rivid

/-- Extracts the millisecond timestamp from the bytes of an `Uint8Array`. -/
def Napi.uuidv7Time (bytes : List U8) : Except Napi.NapiError JsNumber :=
  if h : bytes.length = 16 then .ok (.ofU64 (Uuidv7.timestampMs ⟨bytes, h⟩))
  else .error ⟨.invalidArg, "expected exactly 16 bytes"⟩

namespace Ts.Uuidv7

open Check (isSpace)

/-- The value of a hexadecimal digit. -/
def hexDigit (u : U16) : Option ℕ :=
  if 0x30 ≤ u ∧ u ≤ 0x39 then some (u.toNat - 0x30)
  else if 0x61 ≤ u ∧ u ≤ 0x66 then some (u.toNat - 0x61 + 10)
  else if 0x41 ≤ u ∧ u ≤ 0x46 then some (u.toNat - 0x41 + 10)
  else none

/-- `/^[0-9a-fA-F]{32}$/.test(s)`. -/
def hexRe (s : JsString) : Bool := s.length == 32 && s.all fun u ↦ (hexDigit u).isSome

/-- A sign in front of a number: whether it is a minus, and the rest. -/
def splitSign : JsString → Bool × JsString
  | u :: s => if u = 0x2d then (true, s) else if u = 0x2b then (false, s) else (false, u :: s)
  | [] => (false, [])

/-- `0x` or `0X` in front of a number is skipped. -/
def skipHexMark : JsString → JsString
  | u :: x :: s => if u = 0x30 ∧ (x = 0x78 ∨ x = 0x58) then s else u :: x :: s
  | s => s

/-- `parseInt(s, 16)`: the digits the text starts with. -/
def parseInt16 (s : JsString) : JsNumber :=
  let signed := splitSign (s.dropWhile isSpace)
  match (skipHexMark signed.2).map hexDigit |>.takeWhile Option.isSome |>.reduceOption with
  | [] => .nan
  | ds => .finite (if signed.1 then -(Positional.value 16 ds : ℤ) else Positional.value 16 ds)

/-- What an assignment to an element of an `Uint8Array` stores. -/
def toUint8 : JsNumber → U8
  | .finite q => BitVec.ofInt 8 (if 0 ≤ q then ⌊q⌋ else ⌈q⌉)
  | _ => 0

/-- `hex.slice(start, end)`. -/
def slice (hex : JsString) (start stop : ℕ) : JsString := (hex.drop start).take (stop - start)

/-- Extracts the millisecond Unix timestamp from a canonical UUIDv7 string. -/
def decodeTimeFromString (uuid : JsString) : Except Thrown JsNumber :=
  let hex := uuid.filter (· != 0x2d)
  if !hexRe hex then .error (.typeError "invalid UUID string")
  else
    let bytes := (List.range 16).foldl
      (fun bytes i ↦ bytes.set i (toUint8 (parseInt16 (slice hex (i * 2) (i * 2 + 2)))))
      (List.replicate 16 0)
    (Napi.uuidv7Time bytes).mapError .native

/-! ## Pairs of digits -/

section Pairs

open Rivid.Convert (hexVal)

/-- A byte as a code unit. -/
def unit (c : U8) : U16 := c.setWidth 16

theorem toNat_unit (c : U8) : (unit c).toNat = c.toNat :=
  BitVec.toNat_setWidth_of_le (by decide)

/-- Both parsers read the same digits. -/
theorem hexDigit_unit (c : U8) : hexDigit (unit c) = (hexVal c).map BitVec.toNat := by
  have hunit := toNat_unit c
  unfold hexDigit hexVal
  simp only [BitVec.le_def, hunit]
  grind

theorem unit_of_digit {c : U8} (h : (hexVal c).isSome) :
    isSpace (unit c) = false ∧ unit c ≠ 0x2d ∧ unit c ≠ 0x2b ∧ unit c ≠ 0x78 ∧ unit c ≠ 0x58 := by
  rw [Convert.hexVal_isSome_iff, Convert.IsHexDigit] at h
  have hunit := toNat_unit c
  refine ⟨?_, by bv_omega, by bv_omega, by bv_omega, by bv_omega⟩
  simp only [isSpace, Bool.or_eq_false_iff, Bool.and_eq_false_iff, decide_eq_false_iff_not,
    beq_eq_false_iff_ne]
  bv_omega

/-- Two digits are read as the number they stand for: there is no sign and no mark. -/
theorem parseInt16_pair {c d x y : U8} (hc : hexVal c = some x) (hd : hexVal d = some y) :
    parseInt16 [unit c, unit d] = .finite (x.toNat * 16 + y.toNat : ℕ) := by
  obtain ⟨hspace, hminus, hplus, -, -⟩ := unit_of_digit (c := c) (by rw [hc]; rfl)
  obtain ⟨-, -, -, hx, hX⟩ := unit_of_digit (c := d) (by rw [hd]; rfl)
  have hc' : hexDigit (unit c) = some x.toNat := by rw [hexDigit_unit, hc]; rfl
  have hd' : hexDigit (unit d) = some y.toNat := by rw [hexDigit_unit, hd]; rfl
  have hdrop : [unit c, unit d].dropWhile isSpace = [unit c, unit d] := by
    rw [List.dropWhile_cons, hspace]
    rfl
  have hsign : splitSign [unit c, unit d] = (false, [unit c, unit d]) := by
    rw [splitSign, if_neg hminus, if_neg hplus]
  have hmark : skipHexMark [unit c, unit d] = [unit c, unit d] :=
    if_neg fun h ↦ h.2.elim hx hX
  rw [parseInt16, hdrop, hsign, hmark]
  simp [hc', hd', List.reduceOption_cons_of_some, Positional.value_cons]

theorem toUint8_natCast (n : ℕ) : toUint8 (.finite n) = BitVec.ofNat 8 n := by
  have hle : (0 : ℚ) ≤ n := Nat.cast_nonneg n
  rw [toUint8, if_pos hle, Int.floor_natCast, BitVec.ofInt_natCast]

/-- The byte stored for two digits is the one the engine puts into the slot. -/
theorem toUint8_pair {c d x y : U8} (hc : hexVal c = some x) (hd : hexVal d = some y) :
    toUint8 (parseInt16 [unit c, unit d]) = x <<< 4 ||| y := by
  have hxlt : x.toNat < 16 := Convert.base16.digit_lt c _ (congrArg (Option.map BitVec.toNat) hc)
  have hylt : y.toNat < 16 := Convert.base16.digit_lt d _ (congrArg (Option.map BitVec.toNat) hd)
  have hshift : (x <<< 4).toNat = x.toNat * 2 ^ 4 := toNat_shiftLeft_of_fits (by omega)
  rw [parseInt16_pair hc hd, toUint8_natCast]
  apply BitVec.eq_of_toNat_eq
  rw [toNat_or_of_clear (k := 4) (hshift ▸ Dvd.intro_left _ rfl) hylt, hshift, BitVec.toNat_ofNat]
  omega

end Pairs

/-! ## The loop -/

/-- A loop that stores every element. -/
theorem foldl_set_range {α : Type} (f : ℕ → α) (l : List α) {k : ℕ} (hk : k ≤ l.length) :
    (List.range k).foldl (fun l i ↦ l.set i (f i)) l = (List.range k).map f ++ l.drop k := by
  induction k with
  | zero => simp
  | succ k ih =>
      have hlt : k < l.length := hk
      have hlen : ((List.range k).map f).length = k := by simp
      rw [List.range_succ, List.foldl_append, ih hlt.le, List.foldl_cons, List.foldl_nil,
        List.set_append_right k (f k) hlen.le, hlen, Nat.sub_self, List.drop_eq_getElem_cons hlt,
        List.set_cons_zero, List.map_append, List.append_assoc]
      rfl

section Text

open Rivid.Convert (hexVal dash hyphenate fillSlots)

variable {s : Str} {out : List U8}

/-- The loop stores the bytes of the digits. -/
theorem bytes_of_digits (hfill : fillSlots 16 (s.map hexVal) = .ok out) :
    (List.range 16).foldl (fun bytes i ↦
      bytes.set i (toUint8 (parseInt16 (slice (s.map unit) (i * 2) (i * 2 + 2)))))
      (List.replicate 16 0) = out := by
  rw [foldl_set_range _ _ (by rw [List.length_replicate]), List.drop_replicate, Nat.sub_self,
    List.replicate_zero, List.append_nil]
  refine List.ext_getElem? fun i ↦ ?_
  rw [List.getElem?_map]
  rcases Nat.lt_or_ge i 16 with hi | hi
  · obtain ⟨x, y, hx, hy, hxy⟩ := Convert.getElem?_of_fillSlots hfill hi
    rw [List.getElem?_map] at hx hy
    obtain ⟨c, hc, hcx⟩ := Option.map_eq_some_iff.mp hx
    obtain ⟨d, hd, hdy⟩ := Option.map_eq_some_iff.mp hy
    have hslice : slice (s.map unit) (i * 2) (i * 2 + 2) = [unit c, unit d] := by
      obtain ⟨hi₁, hc'⟩ := List.getElem?_eq_some_iff.mp hc
      obtain ⟨hi₂, hd'⟩ := List.getElem?_eq_some_iff.mp hd
      rw [slice, ← List.map_drop, List.drop_eq_getElem_cons hi₁, List.drop_eq_getElem_cons hi₂,
        hc', hd', Nat.add_sub_cancel_left]
      rfl
    rw [List.getElem?_range hi, Option.map_some, hslice, toUint8_pair hcx hdy, hxy]
  · rw [List.getElem?_eq_none (by simpa using hi), List.getElem?_eq_none]
    · rfl
    · rw [Convert.length_of_fillSlots hfill]
      exact hi

theorem hexRe_digits (hlen : s.length = 32) (h : ∀ c ∈ s, (hexVal c).isSome) :
    hexRe (s.map unit) = true := by
  have hall : (s.map unit).all (fun u ↦ (hexDigit u).isSome) = true := by
    rw [List.all_map, List.all_eq_true]
    intro c hc
    rw [Function.comp_apply, hexDigit_unit, Option.isSome_map]
    exact h c hc
  rw [hexRe, hall, List.length_map, hlen]
  rfl

/-- Dropping the hyphens leaves the digits. -/
theorem filter_hyphenate (h : ∀ c ∈ s, (hexVal c).isSome) :
    ((hyphenate s).map unit).filter (· != 0x2d) = s.map unit := by
  have hkeep : ∀ t : Str, (∀ c ∈ t, c ∈ s) → (t.map unit).filter (· != 0x2d) = t.map unit := by
    intro t ht
    refine List.filter_eq_self.mpr ?_
    rw [List.forall_mem_map]
    intro c hc
    exact bne_iff_ne.mpr (unit_of_digit (h c (ht c hc))).2.1
  have hdash : (unit dash != 0x2d) = false := rfl
  conv_rhs => rw [← Convert.segments_eq s]
  simp only [hyphenate, List.map_append, List.map_cons, List.filter_append, List.filter_cons, hdash]
  rw [hkeep _ fun c hc ↦ List.mem_of_mem_take hc,
    hkeep _ fun c hc ↦ List.mem_of_mem_drop (List.mem_of_mem_take hc),
    hkeep _ fun c hc ↦ List.mem_of_mem_drop (List.mem_of_mem_take hc),
    hkeep _ fun c hc ↦ List.mem_of_mem_drop (List.mem_of_mem_take hc),
    hkeep _ fun c hc ↦ List.mem_of_mem_drop hc]
  rfl

end Text

theorem timestampMs_lt (b : Bytes 16) : (Uuidv7.timestampMs b).toNat < 2 ^ 48 := by
  have hlt := (Uuidv7.asU128 b).isLt
  rw [Uuidv7.toNat_timestampMs]
  omega

/-- Accepted text is ASCII. -/
theorem map_unit_of_parse {uuid : JsString} {b : Bytes 16}
    (h : Convert.parseHyphenatedUuid uuid.toUtf8 = .ok b) : uuid = uuid.toUtf8.map unit := by
  have hascii : ∀ c ∈ uuid.toUtf8, c < 0x80 := by
    intro c hc
    obtain ⟨i, hi⟩ := List.mem_iff_getElem?.mp hc
    have hat := (Convert.isHyphenated_of_parse h).2 i c hi
    split at hat
    · rw [hat]
      decide
    · simp only [Convert.IsHexDigit] at hat
      bv_omega
  obtain ⟨hlt, heq⟩ := JsString.toUtf8_ascii hascii
  rw [heq, List.map_map]
  refine (List.map_id uuid).symm.trans (List.map_congr_left fun u hu ↦ ?_)
  have := hlt u hu
  simp only [id_eq, Function.comp_apply, unit]
  bv_omega

/-- On text the engine accepts, the time read is that of the bytes it parses. -/
theorem decodeTimeFromString_of_parse {uuid : JsString} {b : Bytes 16}
    (h : Convert.parseHyphenatedUuid uuid.toUtf8 = .ok b) :
    decodeTimeFromString uuid = .ok (.finite (Uuidv7.timestampMs b).toNat) := by
  obtain ⟨s, hlen, htext, hhex, hfill⟩ := Convert.exists_digits_of_parse h
  have hunits := map_unit_of_parse h
  rw [← htext] at hunits
  have hnative : Napi.uuidv7Time b.val = .ok (.finite (Uuidv7.timestampMs b).toNat) := by
    rw [Napi.uuidv7Time, dif_pos b.property,
      JsNumber.ofU64_of_lt (lt_trans (timestampMs_lt b) (by decide))]
  rw [decodeTimeFromString, hunits]
  simp only [filter_hyphenate hhex, hexRe_digits hlen hhex, bytes_of_digits hfill, hnative]
  rfl

/-- **UUIDv7 blocks and their readers.**  The fields make up a block; construction sets
the time, the version and the variant and leaves the other 74 bits; blocks and their texts
are ordered by time; and both readers of text see one time. -/
theorem fields_and_readers :
    (∀ b : Bytes 16, (Uuidv7.asU128 b).toNat = (Uuidv7.timestampMs b).toNat * 2 ^ 80 +
      (Uuidv7.version b).toNat * 2 ^ 76 + (Uuidv7.randA b).toNat * 2 ^ 64 +
        (Uuidv7.variant b).toNat * 2 ^ 62 + (Uuidv7.randB b).toNat) ∧
    (∀ ts : U64, ts ≤ timeMax → ∀ r r' : Bytes 16,
      Uuidv7.timestampMs (Uuidv7.uuidv7Block ts r) = ts ∧
      Uuidv7.version (Uuidv7.uuidv7Block ts r) = 7 ∧
      Uuidv7.variant (Uuidv7.uuidv7Block ts r) = 0b10 ∧
      Uuidv7.randA (Uuidv7.uuidv7Block ts r) = Uuidv7.randA r ∧
      Uuidv7.randB (Uuidv7.uuidv7Block ts r) = Uuidv7.randB r ∧
      (Uuidv7.uuidv7Block ts r = Uuidv7.uuidv7Block ts r' ↔
        Uuidv7.randA r = Uuidv7.randA r' ∧ Uuidv7.randB r = Uuidv7.randB r')) ∧
    (∀ ts ts' : U64, ts < ts' → ts' ≤ timeMax → ∀ r r' : Bytes 16,
      (Uuidv7.uuidv7Block ts r).val < (Uuidv7.uuidv7Block ts' r').val ∧
      Uuidv7.formatHyphenated (Uuidv7.uuidv7Block ts r) <
        Uuidv7.formatHyphenated (Uuidv7.uuidv7Block ts' r')) ∧
    ∀ (uuid : JsString) (b : Bytes 16), Convert.parseHyphenatedUuid uuid.toUtf8 = .ok b →
      decodeTimeFromString uuid = .ok (.finite (Uuidv7.timestampMs b).toNat) :=
  ⟨Uuidv7.toNat_asU128_eq,
    fun _ h r r' ↦ ⟨Uuidv7.timestampMs_uuidv7Block r h, Uuidv7.version_uuidv7Block r h,
      Uuidv7.variant_uuidv7Block r h, Uuidv7.randA_uuidv7Block r h, Uuidv7.randB_uuidv7Block r h,
      Uuidv7.uuidv7Block_inj r r' h⟩,
    fun _ _ h h' r r' ↦ Uuidv7.uuidv7Block_lt r r' h h',
    fun _ _ ↦ decodeTimeFromString_of_parse⟩

end Ts.Uuidv7

end Rivid
