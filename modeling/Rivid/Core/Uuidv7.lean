import Rivid.Core.UuidText

/-!
# UUIDv7

Sixteen random bytes with three fields written over: 48 bits of time, the version 7
and the variant `10`.  The number of a block is that of its fields
(`toNat_asU128_eq`), so what is written over and what is left of the randomness are
read off one sum, and blocks are ordered by their time first.
-/

namespace Rivid.Uuidv7

open Positional

/-! ## Blocks -/

/-- Builds one UUIDv7 block: RFC 9562 field layout over random bytes. -/
def uuidv7Block (timestampMs : U64) (bytes : Bytes 16) : Bytes 16 :=
  let stamped := (beBytes 8 timestampMs).drop 2 ++ bytes.val.drop 6
  -- version 7: high nibble of byte 6.
  let versioned := stamped.set 6 (stamped[6]! &&& 0x0f ||| 0x70)
  -- variant 10x: top two bits of byte 8.
  ⟨versioned.set 8 (versioned[8]! &&& 0x3f ||| 0x80), by
    simp [versioned, stamped, bytes.property]⟩

/-- Extracts the millisecond timestamp from UUIDv7 bytes. -/
def timestampMs (bytes : Bytes 16) : U64 := fromBeBytes 64 (List.replicate 2 0 ++ bytes.val.take 6)

/-- Formats 16 bytes as the canonical lowercase hyphenated UUID form. -/
def formatHyphenated (bytes : Bytes 16) : Str := Convert.formatHyphenatedLower bytes

/-! ## Fields -/

/-- The number of a block. -/
def asU128 (bytes : Bytes 16) : U128 := fromBeBytes 128 bytes.val

def version (bytes : Bytes 16) : BitVec 4 := (asU128 bytes).extractLsb' 76 4

/-- The random bits between version and variant. -/
def randA (bytes : Bytes 16) : BitVec 12 := (asU128 bytes).extractLsb' 64 12

def variant (bytes : Bytes 16) : BitVec 2 := (asU128 bytes).extractLsb' 62 2

/-- The random bits after the variant. -/
def randB (bytes : Bytes 16) : BitVec 62 := (asU128 bytes).extractLsb' 0 62

theorem value_bytes_lt {l : List U8} {n : ℕ} (h : l.length = n) :
    value 256 (l.map BitVec.toNat) < 256 ^ n := by
  have hlt := value_lt (byte_lt (l := l))
  rwa [List.length_map, h] at hlt

section Fields

variable (bytes : Bytes 16)

theorem toNat_version : (version bytes).toNat = (asU128 bytes).toNat / 2 ^ 76 % 2 ^ 4 := by
  rw [version, BitVec.extractLsb'_toNat, Nat.shiftRight_eq_div_pow]

theorem toNat_randA : (randA bytes).toNat = (asU128 bytes).toNat / 2 ^ 64 % 2 ^ 12 := by
  rw [randA, BitVec.extractLsb'_toNat, Nat.shiftRight_eq_div_pow]

theorem toNat_variant : (variant bytes).toNat = (asU128 bytes).toNat / 2 ^ 62 % 2 ^ 2 := by
  rw [variant, BitVec.extractLsb'_toNat, Nat.shiftRight_eq_div_pow]

theorem toNat_randB : (randB bytes).toNat = (asU128 bytes).toNat % 2 ^ 62 := by
  rw [randB, BitVec.extractLsb'_toNat, Nat.shiftRight_eq_div_pow, pow_zero, Nat.div_one]

theorem toNat_asU128 : (asU128 bytes).toNat = value 256 (bytes.val.map BitVec.toNat) :=
  toNat_fromBeBytes (by rw [bytes.property])

/-- The first six bytes are the top of the number. -/
theorem toNat_timestampMs : (timestampMs bytes).toNat = (asU128 bytes).toNat / 2 ^ 80 := by
  have hlen : (bytes.val.take 6).length = 6 := by simp [bytes.property]
  have hdrop : (bytes.val.drop 6).length = 10 := by simp [bytes.property]
  have hlow := value_bytes_lt hdrop
  have hnum : (asU128 bytes).toNat = value 256 ((bytes.val.take 6).map BitVec.toNat) * 256 ^ 10 +
      value 256 ((bytes.val.drop 6).map BitVec.toNat) := by
    conv_lhs => rw [toNat_asU128, ← List.take_append_drop 6 bytes.val]
    rw [List.map_append, value_append, List.length_map, hdrop]
  have htime : (timestampMs bytes).toNat = value 256 ((bytes.val.take 6).map BitVec.toNat) := by
    rw [timestampMs, toNat_fromBeBytes (by simp [hlen]), List.map_append, value_append,
      List.map_replicate, show (0 : U8).toNat = 0 from rfl, value_replicate_zero, Nat.zero_mul,
      Nat.zero_add]
  rw [htime, hnum]
  omega

/-- The fields make up the block. -/
theorem toNat_asU128_eq : (asU128 bytes).toNat = (timestampMs bytes).toNat * 2 ^ 80 +
    (version bytes).toNat * 2 ^ 76 + (randA bytes).toNat * 2 ^ 64 +
      (variant bytes).toNat * 2 ^ 62 + (randB bytes).toNat := by
  rw [toNat_timestampMs, toNat_version, toNat_randA, toNat_variant, toNat_randB]
  omega

end Fields

theorem asU128_inj {a b : Bytes 16} : asU128 a = asU128 b ↔ a = b := by
  refine ⟨fun h ↦ ?_, congrArg asU128⟩
  rw [← Convert.toBeBytes_fromBeBytes a, ← Convert.toBeBytes_fromBeBytes b]
  exact congrArg Convert.toBeBytes h

/-! ## What is written over -/

theorem val_uuidv7Block (ts : U64) (r : Bytes 16) : (uuidv7Block ts r).val =
    beBytes 6 ts ++ (r.val[6]! &&& 0x0f ||| 0x70) :: r.val[7]! ::
      (r.val[8]! &&& 0x3f ||| 0x80) :: r.val.drop 9 := by
  obtain ⟨l, hl⟩ := r
  match l, hl with
  | [r₀, r₁, r₂, r₃, r₄, r₅, r₆, r₇, r₈, r₉, r₁₀, r₁₁, r₁₂, r₁₃, r₁₄, r₁₅], _ => rfl

/-- Clearing all but `k` bits and setting a field above them. -/
theorem toNat_mask_or {k : ℕ} {x m y : U8} (hm : m.toNat = 2 ^ k - 1) (hy : 2 ^ k ∣ y.toNat) :
    (x &&& m ||| y).toNat = y.toNat + x.toNat % 2 ^ k := by
  have hlt : (x &&& m).toNat < 2 ^ k := by
    rw [toNat_and_mask hm]
    exact Nat.mod_lt _ (Nat.two_pow_pos k)
  rw [BitVec.or_comm, toNat_or_of_clear hy hlt, toNat_and_mask hm]

/-- Sixteen bytes as a number, with the two bytes that hold a constant apart. -/
theorem value_layout (top low : List U8) (a b c : U8) (h : low.length = 7) :
    value 256 ((top ++ a :: b :: c :: low).map BitVec.toNat) =
      value 256 (top.map BitVec.toNat) * 256 ^ 10 + (a.toNat * 256 ^ 9 + (b.toNat * 256 ^ 8 +
        (c.toNat * 256 ^ 7 + value 256 (low.map BitVec.toNat)))) := by
  simp only [List.map_append, List.map_cons, value_append, value_cons, List.length_cons,
    List.length_map, h]

theorem bytes_eq_layout (r : Bytes 16) :
    r.val = r.val.take 6 ++ r.val[6]! :: r.val[7]! :: r.val[8]! :: r.val.drop 9 := by
  obtain ⟨l, hl⟩ := r
  match l, hl with
  | [r₀, r₁, r₂, r₃, r₄, r₅, r₆, r₇, r₈, r₉, r₁₀, r₁₁, r₁₂, r₁₃, r₁₄, r₁₅], _ => rfl

/-- The number of a block: its time, the two constants and the random bits. -/
theorem toNat_asU128_uuidv7Block {ts : U64} (h : ts ≤ timeMax) (r : Bytes 16) :
    (asU128 (uuidv7Block ts r)).toNat = ts.toNat * 2 ^ 80 + 7 * 2 ^ 76 +
      (randA r).toNat * 2 ^ 64 + 2 * 2 ^ 62 + (randB r).toNat := by
  have hts : ts.toNat < 256 ^ 6 := le_timeMax_iff.mp h
  have hdrop : (r.val.drop 9).length = 7 := by simp [r.property]
  have hlow := value_bytes_lt hdrop
  have htime : value 256 ((beBytes 6 ts).map BitVec.toNat) = ts.toNat := by
    rw [map_toNat_beBytes, value_digits hts]
  have hr := congrArg (fun l : List U8 ↦ value 256 (l.map BitVec.toNat)) (bytes_eq_layout r)
  rw [← toNat_asU128, value_layout _ _ _ _ _ hdrop] at hr
  have h₇ := r.val[7]!.isLt
  rw [toNat_asU128, val_uuidv7Block, value_layout _ _ _ _ _ hdrop, htime,
    toNat_mask_or (k := 4) rfl (by decide), toNat_mask_or (k := 6) rfl (by decide), toNat_randA,
    toNat_randB, hr, show BitVec.toNat (0x70 : U8) = 112 from rfl,
    show BitVec.toNat (0x80 : U8) = 128 from rfl]
  omega

section Block

variable {ts ts' : U64} (r r' : Bytes 16)

theorem timestampMs_uuidv7Block (h : ts ≤ timeMax) : timestampMs (uuidv7Block ts r) = ts := by
  have hA := (randA r).isLt
  have hB := (randB r).isLt
  apply BitVec.eq_of_toNat_eq
  rw [toNat_timestampMs, toNat_asU128_uuidv7Block h]
  omega

theorem version_uuidv7Block (h : ts ≤ timeMax) : version (uuidv7Block ts r) = 7 := by
  have hA := (randA r).isLt
  have hB := (randB r).isLt
  apply BitVec.eq_of_toNat_eq
  rw [toNat_version, toNat_asU128_uuidv7Block h, show BitVec.toNat (7 : BitVec 4) = 7 from rfl]
  omega

theorem randA_uuidv7Block (h : ts ≤ timeMax) : randA (uuidv7Block ts r) = randA r := by
  have hA := (randA r).isLt
  have hB := (randB r).isLt
  apply BitVec.eq_of_toNat_eq
  rw [toNat_randA (uuidv7Block ts r), toNat_asU128_uuidv7Block h]
  omega

theorem variant_uuidv7Block (h : ts ≤ timeMax) : variant (uuidv7Block ts r) = 0b10 := by
  have hB := (randB r).isLt
  apply BitVec.eq_of_toNat_eq
  rw [toNat_variant, toNat_asU128_uuidv7Block h, show BitVec.toNat (0b10 : BitVec 2) = 2 from rfl]
  omega

theorem randB_uuidv7Block (h : ts ≤ timeMax) : randB (uuidv7Block ts r) = randB r := by
  have hB := (randB r).isLt
  apply BitVec.eq_of_toNat_eq
  rw [toNat_randB (uuidv7Block ts r), toNat_asU128_uuidv7Block h]
  omega

/-- At one time, a block tells its random bits and nothing else of the randomness. -/
theorem uuidv7Block_inj (h : ts ≤ timeMax) :
    uuidv7Block ts r = uuidv7Block ts r' ↔ randA r = randA r' ∧ randB r = randB r' := by
  constructor
  · intro heq
    rw [← randA_uuidv7Block r h, ← randB_uuidv7Block r h, heq, randA_uuidv7Block r' h,
      randB_uuidv7Block r' h]
    exact ⟨rfl, rfl⟩
  · rintro ⟨hA, hB⟩
    apply asU128_inj.mp
    apply BitVec.eq_of_toNat_eq
    rw [toNat_asU128_uuidv7Block h, toNat_asU128_uuidv7Block h, hA, hB]

/-- Blocks are ordered by their time first. -/
theorem asU128_uuidv7Block_lt (h : ts < ts') (h' : ts' ≤ timeMax) :
    asU128 (uuidv7Block ts r) < asU128 (uuidv7Block ts' r') := by
  have hA := (randA r).isLt
  have hB := (randB r).isLt
  have hlt := BitVec.lt_def.mp h
  have hle : ts ≤ timeMax := BitVec.le_trans (BitVec.le_of_lt h) h'
  rw [BitVec.lt_def, toNat_asU128_uuidv7Block hle, toNat_asU128_uuidv7Block h']
  omega

theorem uuidv7Block_lt (h : ts < ts') (h' : ts' ≤ timeMax) :
    (uuidv7Block ts r).val < (uuidv7Block ts' r').val ∧
      formatHyphenated (uuidv7Block ts r) < formatHyphenated (uuidv7Block ts' r') := by
  have hlt := asU128_uuidv7Block_lt r r' h h'
  have hback : ∀ b : Bytes 16, b = Convert.toBeBytes (asU128 b) :=
    fun b ↦ (Convert.toBeBytes_fromBeBytes b).symm
  rw [formatHyphenated, formatHyphenated, hback (uuidv7Block ts r), hback (uuidv7Block ts' r')]
  exact ⟨beBytes_lt_iff (n := 16).mpr hlt, Convert.formatHyphenatedLower_lt_iff.mpr hlt⟩

end Block

end Rivid.Uuidv7
