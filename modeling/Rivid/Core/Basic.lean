import Rivid.Lib.Positional
import Mathlib.Data.List.Induction
import Mathlib.Data.Nat.Bitwise

/-!
# Machine integers, byte strings and the engine's errors

The engine is written over `u8`, `u32`, `u64` and `u128`; these are bit vectors
of the same width here, so wrap-around, truncating casts and bits shifted out
behave as in the source.  `&[u8]`, `&str` and `String` are lists of bytes, and
`[u8; n]` is a list of bytes that carries its length.
-/

namespace Rivid

abbrev U8 := BitVec 8
abbrev U16 := BitVec 16
abbrev U32 := BitVec 32
abbrev U64 := BitVec 64
abbrev U128 := BitVec 128

/-- A signed byte, in two's complement. -/
abbrev I8 := BitVec 8

/-- The bytes of a `&[u8]`, a `&str` or a `String`. -/
abbrev Str := List U8

/-- An array `[u8; n]`. -/
abbrev Bytes (n : ℕ) := {l : List U8 // l.length = n}

/-- An ASCII byte-string literal `b"…"`. -/
def ascii (s : String) : Str := s.toList.map fun c ↦ BitVec.ofNat 8 c.toNat

/-! ## Errors -/

/-- Errors produced by the ID engine. -/
inductive Error where
  | invalidLength (expected got : ℕ)
  | invalidCharacter (c : U8)
  | valueTooLarge
  | ksuidValueTooLarge
  | timestampOutOfRange (t : U64)
  | ksuidTimestampOutOfRange (t : U64)
  | nonCanonical
  | invalidUuid
deriving DecidableEq, Repr

abbrev Result := Except Error

@[simp] theorem ok_bind {ε α β : Type} (a : α) (f : α → Except ε β) :
    (Except.ok a >>= f) = f a := rfl

@[simp] theorem error_bind {ε α β : Type} (e : ε) (f : α → Except ε β) :
    (Except.error e >>= f) = Except.error e := rfl

/-- A sequence succeeds when both parts do. -/
theorem bind_eq_ok_iff {ε α β : Type} {x : Except ε α} {f : α → Except ε β} {b : β} :
    (x >>= f) = .ok b ↔ ∃ a, x = .ok a ∧ f a = .ok b := by
  cases x <;> simp

/-- A list of results is there if every element has one. -/
theorem exists_mapM_eq_ok_iff {ε α β : Type} {f : α → Except ε β} {l : List α} :
    (∃ bs, l.mapM f = .ok bs) ↔ ∀ a ∈ l, ∃ b, f a = .ok b := by
  induction l with
  | nil => simp [pure, Except.pure]
  | cons a l ih =>
      rw [List.forall_mem_cons, ← ih, List.mapM_cons]
      constructor
      · rintro ⟨bs, h⟩
        obtain ⟨b, hb, h⟩ := bind_eq_ok_iff.mp h
        obtain ⟨bs', hbs, -⟩ := bind_eq_ok_iff.mp h
        exact ⟨⟨b, hb⟩, bs', hbs⟩
      · rintro ⟨⟨b, hb⟩, bs, hbs⟩
        exact ⟨b :: bs, by rw [hb, hbs]; rfl⟩

/-- `{:?}` of `c as char`, with Rust's escapes in the Latin-1 range. -/
def charDebug (c : U8) : String :=
  match c.toNat with
  | 0x00 => "'\\0'"
  | 0x09 => "'\\t'"
  | 0x0a => "'\\n'"
  | 0x0d => "'\\r'"
  | 0x27 => "'\\''"
  | 0x5c => "'\\\\'"
  | n =>
      -- Controls, the no-break space and the soft hyphen are not printable.
      if n < 0x20 ∨ 0x7f ≤ n ∧ n ≤ 0xa0 ∨ n = 0xad then
        "'\\u\x7b" ++ String.ofList (Nat.toDigits 16 n) ++ "\x7d'"
      else
        "'" ++ String.singleton (Char.ofNat n) ++ "'"

/-- The message of an error. -/
def Error.display : Error → String
  | .invalidLength expected got =>
      "invalid length: expected " ++ toString expected ++ ", got " ++ toString got
  | .invalidCharacter c => "invalid character: " ++ charDebug c
  | .valueTooLarge =>
      "encoded value exceeds 128 bits (ULID timestamp part must be <= 2^48-1)"
  | .ksuidValueTooLarge => "encoded value exceeds 160 bits"
  | .timestampOutOfRange t =>
      "timestamp " ++ toString t.toNat ++
        " out of range: must be an integer between 0 and 281474976710655 (2^48 - 1)"
  | .ksuidTimestampOutOfRange t =>
      "timestamp " ++ toString t.toNat ++
        " out of range for KSUID: must be between 1400000000 and 5694967295 seconds (2014-05-13 to 2150)"
  | .nonCanonical => "input is not in canonical form"
  | .invalidUuid => "invalid UUID string"

/-! ## Constants -/

/-- Maximum 48-bit timestamp value. -/
def timeMax : U64 := (1 <<< 48) - 1

/-- Length of the encoded timestamp component in characters. -/
def timeLen : ℕ := 10

/-- Length of the encoded randomness component in characters. -/
def randomLen : ℕ := 16

/-- Total encoded length in characters. -/
def ulidLen : ℕ := timeLen + randomLen

@[simp] theorem toNat_timeMax : timeMax.toNat = 2 ^ 48 - 1 := rfl

theorem le_timeMax_iff {t : U64} : t ≤ timeMax ↔ t.toNat < 2 ^ 48 := by
  rw [BitVec.le_def, toNat_timeMax]
  omega

/-! ## Bit fields as numbers -/

/-- Setting the bits of a field that is still clear adds them. -/
theorem toNat_or_of_clear {w k : ℕ} {x y : BitVec w} (hx : 2 ^ k ∣ x.toNat)
    (hy : y.toNat < 2 ^ k) : (x ||| y).toNat = x.toNat + y.toNat := by
  obtain ⟨a, ha⟩ := hx
  rw [BitVec.toNat_or, ha, ← Nat.two_pow_add_eq_or_of_lt hy]

/-- A left shift that pushes no bit out multiplies. -/
theorem toNat_shiftLeft_of_fits {w k : ℕ} {x : BitVec w} (h : x.toNat * 2 ^ k < 2 ^ w) :
    (x <<< k).toNat = x.toNat * 2 ^ k := by
  rw [BitVec.toNat_shiftLeft, Nat.shiftLeft_eq, Nat.mod_eq_of_lt h]

theorem toNat_ushiftRight_eq_div {w k : ℕ} (x : BitVec w) :
    (x >>> k).toNat = x.toNat / 2 ^ k := by
  rw [BitVec.toNat_ushiftRight, Nat.shiftRight_eq_div_pow]

/-- Masking with `2 ^ k - 1` takes the remainder. -/
theorem toNat_and_mask {w k : ℕ} {x m : BitVec w} (hm : m.toNat = 2 ^ k - 1) :
    (x &&& m).toNat = x.toNat % 2 ^ k := by
  rw [BitVec.toNat_and, hm, Nat.and_two_pow_sub_one_eq_mod]

/-! ## Big-endian bytes -/

/-- `to_be_bytes` of an `n`-byte integer. -/
def beBytes {w : ℕ} (n : ℕ) (v : BitVec w) : List U8 :=
  (List.range n).map fun i ↦ (v >>> (8 * (n - 1 - i))).setWidth 8

/-- `from_be_bytes` at width `w`. -/
def fromBeBytes (w : ℕ) (l : List U8) : BitVec w :=
  l.foldl (fun acc c ↦ acc <<< 8 ||| c.setWidth w) 0

@[simp] theorem length_beBytes {w : ℕ} (n : ℕ) (v : BitVec w) : (beBytes n v).length = n := by
  simp [beBytes]

theorem beBytes_succ {w : ℕ} (n : ℕ) (v : BitVec w) :
    beBytes (n + 1) v = beBytes n (v >>> 8) ++ [v.setWidth 8] := by
  simp only [beBytes, List.range_succ, List.map_append, List.map_cons, List.map_nil]
  congr 1
  · refine List.map_congr_left fun i hi ↦ ?_
    have hi' : i < n := List.mem_range.mp hi
    rw [← BitVec.shiftRight_add]
    congr 2
    omega
  · simp

open Positional in
/-- The bytes of an integer are its base-256 digits. -/
theorem map_toNat_beBytes {w : ℕ} (n : ℕ) (v : BitVec w) :
    (beBytes n v).map BitVec.toNat = digits 256 n v.toNat := by
  induction n generalizing v with
  | zero => rfl
  | succ n ih =>
      rw [beBytes_succ, List.map_append, ih, digits_succ, toNat_ushiftRight_eq_div]
      simp

theorem byte_lt {l : List U8} : ∀ d ∈ l.map BitVec.toNat, d < 256 := by
  intro d hd
  obtain ⟨c, -, rfl⟩ := List.mem_map.mp hd
  exact c.isLt

open Positional in
/-- An integer read from bytes is their base-256 value. -/
theorem toNat_fromBeBytes {w : ℕ} {l : List U8} (h : 8 * l.length ≤ w) :
    (fromBeBytes w l).toNat = value 256 (l.map BitVec.toNat) := by
  induction l using List.reverseRecOn with
  | nil => rfl
  | append_singleton l c ih =>
      rw [List.length_append, List.length_singleton] at h
      have ih' := ih (by omega)
      have hlt : value 256 (l.map BitVec.toNat) < 256 ^ l.length := by
        simpa using value_lt (byte_lt (l := l))
      have hw : 256 ^ l.length * 2 ^ 8 ≤ 2 ^ w := by
        rw [show (256 : ℕ) = 2 ^ 8 from rfl, ← pow_mul, ← pow_add]
        exact Nat.pow_le_pow_right (by decide) (by omega)
      have hshift : ((fromBeBytes w l) <<< 8).toNat = (fromBeBytes w l).toNat * 2 ^ 8 := by
        refine toNat_shiftLeft_of_fits (lt_of_lt_of_le ?_ hw)
        rw [ih']
        exact Nat.mul_lt_mul_of_pos_right hlt (by decide)
      have hc : (c.setWidth w).toNat = c.toNat := by
        rw [BitVec.toNat_setWidth]
        exact Nat.mod_eq_of_lt (lt_of_lt_of_le c.isLt (Nat.pow_le_pow_right (by decide) (by omega)))
      have hor : (fromBeBytes w l <<< 8 ||| c.setWidth w).toNat =
          value 256 (l.map BitVec.toNat) * 256 + c.toNat := by
        rw [toNat_or_of_clear (k := 8) (hshift ▸ Dvd.intro_left _ rfl) (hc ▸ c.isLt), hshift, ih',
          hc]
        rfl
      simpa [fromBeBytes] using hor

theorem map_toNat_injective : Function.Injective (List.map (BitVec.toNat (w := 8))) :=
  List.map_injective_iff.mpr fun _ _ h ↦ BitVec.eq_of_toNat_eq h

/-- Byte strings compare as the strings of their numbers. -/
theorem map_toNat_lt_iff {l m : List U8} :
    l.map BitVec.toNat < m.map BitVec.toNat ↔ l < m :=
  Positional.map_lt_map_iff (p := fun _ ↦ True) (fun _ _ _ _ ↦ Iff.rfl)
    (fun _ _ _ _ h ↦ BitVec.eq_of_toNat_eq h) (fun _ _ ↦ trivial) (fun _ _ ↦ trivial)

theorem beBytes_fromBeBytes {l : List U8} {n : ℕ} (h : l.length = n) :
    beBytes n (fromBeBytes (8 * n) l) = l := by
  apply map_toNat_injective
  rw [map_toNat_beBytes, toNat_fromBeBytes (by omega)]
  have := Positional.digits_value (by decide : 0 < 256) (byte_lt (l := l))
  rwa [List.length_map, h] at this

/-- Big-endian bytes are ordered as the integers. -/
theorem beBytes_lt_iff {n : ℕ} {v w : BitVec (8 * n)} : beBytes n v < beBytes n w ↔ v < w := by
  have hpow : 256 ^ n = 2 ^ (8 * n) := by rw [show (256 : ℕ) = 2 ^ 8 from rfl, ← pow_mul]
  rw [← map_toNat_lt_iff, map_toNat_beBytes, map_toNat_beBytes,
    Positional.digits_lt_digits_iff (by decide) (hpow ▸ v.isLt) (hpow ▸ w.isLt), BitVec.lt_def]

end Rivid
