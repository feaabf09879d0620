import Rivid.Core.Table
import Rivid.Lib.LongArith

/-!
# KSUIDs

A KSUID is 20 bytes: a 32-bit timestamp in seconds and a 128-bit payload.  Its
text is 27 characters of base 62, written by 27 rounds of long division over
five 32-bit limbs and read by 27 rounds of multiply-and-add.

Both loops compute the ones of `Rivid.Lib.LongArith` at limbs of 32 bits
(`divLimbs_eq`, `mulAddLimbs_eq`): no cast in them loses a bit.  So the text is
the base-62 text of the 160-bit value, and since `62 ^ 26 < 2 ^ 160 < 62 ^ 27`
a string of 27 characters overflows, if at all, at its last one.
-/

namespace Rivid

/-- A 160-bit KSUID in canonical big-endian wire order. -/
structure Ksuid where
  /-- The wrapped array. -/
  bytes : Bytes 20
deriving DecidableEq

namespace Ksuid

open Positional

/-- KSUID's custom epoch: 2014-05-13T16:53:20Z in Unix seconds. -/
def epochSeconds : U64 := 1400000000

/-- Number of characters in a canonical string KSUID. -/
def stringLen : ℕ := 27

/-- Base62 alphabet used by KSUID, in ASCII order. -/
def alphabet : Str := ascii "0123456789ABCDEFGHIJKLMNOPQRSTUVWXYZabcdefghijklmnopqrstuvwxyz"

/-- Canonical string representation of the maximum KSUID value. -/
def maxString : Str := ascii "aWgEPTl1tmebfsQzFP4bxwgy80V"

def decodeTable : List I8 := buildDecodeTable alphabet

def decodeChar (b : U8) : Result U8 := tableDigit 8 decodeTable b

/-! ## Encoding -/

/-- The four bytes from position `i` on, as a `u32`. -/
def limbAt (bytes : Bytes 20) (i : ℕ) : U32 := fromBeBytes 32 ((bytes.val.drop i).take 4)

/-- The five limbs of a KSUID, most significant first. -/
def limbsOf (bytes : Bytes 20) : List U32 :=
  [limbAt bytes 0, limbAt bytes 4, limbAt bytes 8, limbAt bytes 12, limbAt bytes 16]

/-- One pass of long division by 62 over the limbs. -/
def divLimbs (rem : U64) : List U32 → List U32 × U64
  | [] => ([], rem)
  | limb :: limbs =>
      let value := rem <<< 32 ||| limb.setWidth 64
      let rest := divLimbs (value % 62) limbs
      ((value / 62).setWidth 32 :: rest.1, rest.2)

/-- The rounds left at position `pos`: each writes the character before it. -/
def encodeLoop : ℕ → List U32 → Str → Str
  | 0, _, out => out
  | pos + 1, limbs, out =>
      let round := divLimbs 0 limbs
      encodeLoop pos round.1 (out.set pos alphabet[round.2.toNat]!)

@[simp] theorem length_encodeLoop (pos : ℕ) (limbs : List U32) (out : Str) :
    (encodeLoop pos limbs out).length = out.length := by
  induction pos generalizing limbs out with
  | zero => rfl
  | succ pos ih => rw [encodeLoop, ih, List.length_set]

/-- Encodes exactly 20 bytes into a 27-character array. -/
def encodeValue (bytes : Bytes 20) : Bytes 27 :=
  ⟨encodeLoop stringLen (limbsOf bytes) (List.replicate stringLen 0x30), by simp [stringLen]⟩

/-- Encodes exactly 20 bytes into a string. -/
def encodeString (bytes : Bytes 20) : Str := (encodeValue bytes).val

/-! ## Decoding -/

/-- One pass over the limbs from the low end: multiply by 62, add, carry. -/
def mulAddLimbs (carry : U64) : List U32 → List U32 × U64
  | [] => ([], carry)
  | limb :: limbs =>
      let rest := mulAddLimbs carry limbs
      let value := limb.setWidth 64 * 62 + rest.2
      (value.setWidth 32 :: rest.1, value >>> 32)

/-- The loop of `decode_bytes`: a carry out of the top limb is an overflow. -/
def decodeLoop (limbs : List U32) : Str → Result (List U32)
  | [] => .ok limbs
  | byte :: id => do
      let digit ← decodeChar byte
      let round := mulAddLimbs (digit.setWidth 64) limbs
      if round.2 ≠ 0 then .error .ksuidValueTooLarge else decodeLoop round.1 id

/-- The bytes of five limbs. -/
def bytesOf (limbs : List U32) : Bytes 20 :=
  ⟨beBytes 4 limbs[0]! ++ beBytes 4 limbs[1]! ++ beBytes 4 limbs[2]! ++ beBytes 4 limbs[3]! ++
    beBytes 4 limbs[4]!, by simp⟩

/-- Decodes a 27-character base62 string to 20 bytes. -/
def decodeBytes (id : Str) : Result (Bytes 20) :=
  if id.length ≠ stringLen then .error (.invalidLength stringLen id.length)
  else do
    let limbs ← decodeLoop (List.replicate 5 0) id
    return bytesOf limbs

/-- `decode_str`: decode and wrap. -/
def decodeStr (id : Str) : Result Ksuid := (decodeBytes id).map Ksuid.mk

/-- Parses a canonical 27-character base62 KSUID. -/
def parse (id : Str) : Result Ksuid := decodeStr id

/-- Encodes as the canonical 27-character base62 string. -/
def encode (k : Ksuid) : Str := encodeString k.bytes

/-- Decodes a canonical KSUID string into its bytes. -/
def decode (id : Str) : Result (Bytes 20) := (decodeStr id).map Ksuid.bytes

/-- Exact length, base62 alphabet, and no overflow past 160 bits. -/
def isValid (id : Str) : Bool := (decodeBytes id).isOk

/-- Unix timestamp in seconds (the precision actually stored). -/
def timestampSeconds (k : Ksuid) : U64 :=
  (fromBeBytes 32 (k.bytes.val.take 4)).setWidth 64 + epochSeconds

/-- The derived order on byte arrays. -/
def cmpBytes : Str → Str → Ordering
  | [], [] => .eq
  | [], _ :: _ => .lt
  | _ :: _, [] => .gt
  | x :: xs, y :: ys => if x < y then .lt else if y < x then .gt else cmpBytes xs ys

/-- Compares two KSUIDs by their full 160-bit value. -/
def compare (a b : Str) : Result Ordering := do
  let x ← decodeStr a
  let y ← decodeStr b
  return cmpBytes x.bytes.val y.bytes.val

/-! ## The alphabet -/

theorem alphabet_ascending : alphabet.Pairwise (· < ·) := by decide

theorem alphabet_nodup : alphabet.Nodup := alphabet_ascending.imp BitVec.ne_of_lt

def table62 : CodeTable 62 where
  alphabet := alphabet
  table := decodeTable
  fold := id
  base_le := by decide
  table_char := buildDecodeTable_char alphabet_nodup
  table_lt := fun n hn h ↦ (buildDecodeTable_entry alphabet_nodup (by decide) n hn h).1
  char_table := fun n hn h ↦ (buildDecodeTable_entry alphabet_nodup (by decide) n hn h).2

abbrev base62 : Alphabet U8 62 := table62.toAlphabet

theorem base62_char_lt_iff :
    ∀ d e, d < 62 → e < 62 → (base62.char d < base62.char e ↔ d < e) :=
  table62.char_lt_iff (by decide) alphabet_ascending

/-- The bytes the decoder knows are those of the alphabet. -/
theorem mem_alphabet_iff (c : U8) : c ∈ alphabet ↔ (base62.digit c).isSome := by
  have htable := buildDecodeTable_eq_invalid_iff alphabet_nodup (by decide) c
  rw [table62.digit_def]
  change _ ↔ (if (buildDecodeTable alphabet)[c.toNat]! = invalid then none else _).isSome = true
  by_cases hc : c ∈ alphabet
  · rw [if_neg fun h ↦ htable.mp h hc]
    exact iff_of_true hc rfl
  · rw [if_pos (htable.mpr hc)]
    exact iff_of_false hc (by simp)

theorem decodeChar_of_some {c : U8} {d : ℕ} (h : base62.digit c = some d) :
    ∃ x : U8, decodeChar c = .ok x ∧ x.toNat = d := table62.tableDigit_of_some (by decide) h

theorem decodeChar_of_none {c : U8} (h : base62.digit c = none) :
    decodeChar c = .error (.invalidCharacter c) := table62.tableDigit_of_none h

/-! ## Limbs as digits of base `2 ^ 32` -/

/-- The limbs as numbers. -/
abbrev limbNats (limbs : List U32) : List ℕ := limbs.map BitVec.toNat

/-- The number the limbs denote. -/
def limbsNum (limbs : List U32) : ℕ := value (2 ^ 32) (limbNats limbs)

theorem limb_lt (limbs : List U32) : ∀ x ∈ limbNats limbs, x < 2 ^ 32 := by
  intro x hx
  obtain ⟨l, -, rfl⟩ := List.mem_map.mp hx
  exact l.isLt

/-- A pass of the encoder is a long division. -/
theorem divLimbs_eq {rem : U64} (hr : rem.toNat < 62) (limbs : List U32) :
    limbNats (divLimbs rem limbs).1 = (divSmall (2 ^ 32) 62 rem.toNat (limbNats limbs)).1 ∧
      (divLimbs rem limbs).2.toNat = (divSmall (2 ^ 32) 62 rem.toNat (limbNats limbs)).2 := by
  induction limbs generalizing rem with
  | nil => exact ⟨rfl, rfl⟩
  | cons limb limbs ih =>
      have hl := limb.isLt
      have hlimb : (limb.setWidth 64).toNat = limb.toNat := by
        rw [BitVec.toNat_setWidth]
        omega
      have hshift : (rem <<< 32).toNat = rem.toNat * 2 ^ 32 := toNat_shiftLeft_of_fits (by omega)
      have hvalue : (rem <<< 32 ||| limb.setWidth 64).toNat = rem.toNat * 2 ^ 32 + limb.toNat := by
        rw [toNat_or_of_clear (k := 32) (hshift ▸ Dvd.intro_left _ rfl) (hlimb ▸ hl), hshift, hlimb]
      have hmod : ((rem <<< 32 ||| limb.setWidth 64) % 62).toNat =
          (rem.toNat * 2 ^ 32 + limb.toNat) % 62 := by
        rw [BitVec.toNat_umod, hvalue]
        rfl
      have hdiv : (((rem <<< 32 ||| limb.setWidth 64) / 62).setWidth 32).toNat =
          (rem.toNat * 2 ^ 32 + limb.toNat) / 62 := by
        rw [BitVec.toNat_setWidth, BitVec.toNat_udiv, hvalue]
        refine Nat.mod_eq_of_lt ?_
        rw [show BitVec.toNat (62 : U64) = 62 from rfl]
        omega
      have hnext : ((rem <<< 32 ||| limb.setWidth 64) % 62).toNat < 62 :=
        hmod ▸ Nat.mod_lt _ (by decide)
      obtain ⟨ih₁, ih₂⟩ := ih hnext
      rw [hmod] at ih₁ ih₂
      refine ⟨?_, ih₂⟩
      simp only [divLimbs, divSmall, List.map_cons, hdiv]
      rw [← ih₁]

/-- A pass of the decoder is a multiplication with an added carry. -/
theorem mulAddLimbs_eq {carry : U64} (hc : carry.toNat < 62) (limbs : List U32) :
    limbNats (mulAddLimbs carry limbs).1 =
        (mulAddSmall (2 ^ 32) 62 carry.toNat (limbNats limbs)).1 ∧
      (mulAddLimbs carry limbs).2.toNat =
        (mulAddSmall (2 ^ 32) 62 carry.toNat (limbNats limbs)).2 := by
  induction limbs with
  | nil => exact ⟨rfl, rfl⟩
  | cons limb limbs ih =>
      obtain ⟨ih₁, ih₂⟩ := ih
      have hl := limb.isLt
      have hcarry := mulAddSmall_carry_lt hc (limb_lt limbs)
      rw [← ih₂] at hcarry
      have hvalue : (limb.setWidth 64 * 62 + (mulAddLimbs carry limbs).2).toNat =
          limb.toNat * 62 + (mulAddLimbs carry limbs).2.toNat := by
        rw [BitVec.toNat_add, BitVec.toNat_mul, BitVec.toNat_setWidth,
          show BitVec.toNat (62 : U64) = 62 from rfl]
        omega
      simp only [mulAddLimbs, mulAddSmall, List.map_cons, BitVec.toNat_setWidth,
        toNat_ushiftRight_eq_div, hvalue, ih₁, ih₂]
      exact ⟨trivial, trivial⟩

/-! ## The encoder writes the base-62 text -/

/-- The 160-bit number a KSUID is. -/
def toNum (bytes : Bytes 20) : ℕ := value 256 (bytes.val.map BitVec.toNat)

theorem toNum_lt (bytes : Bytes 20) : toNum bytes < 2 ^ 160 := by
  have h := value_lt (byte_lt (l := bytes.val))
  rwa [List.length_map, bytes.property] at h

/-- Limbs written out as four bytes each denote the same number. -/
theorem value_flatMap_beBytes (limbs : List U32) :
    value 256 ((limbs.flatMap (beBytes 4)).map BitVec.toNat) = limbsNum limbs := by
  have h : (limbs.flatMap (beBytes 4)).map BitVec.toNat =
      (limbNats limbs).flatMap (digits 256 4) := by
    rw [List.map_flatMap, List.flatMap_map]
    simp only [map_toNat_beBytes]
  rw [h, limbsNum]
  exact value_flatMap_digits (b := 256) (k := 4) (limb_lt limbs)

theorem flatMap_limbsOf (bytes : Bytes 20) : (limbsOf bytes).flatMap (beBytes 4) = bytes.val := by
  have hlimb : ∀ i ≤ 16, beBytes 4 (limbAt bytes i) = (bytes.val.drop i).take 4 := by
    intro i hi
    refine beBytes_fromBeBytes (n := 4) ?_
    rw [List.length_take, List.length_drop, bytes.property]
    omega
  have hcut : ∀ i, (bytes.val.drop i).take 4 ++ bytes.val.drop (i + 4) = bytes.val.drop i := by
    intro i
    rw [← List.drop_drop, List.take_append_drop]
  have hend : bytes.val.drop 20 = [] := List.drop_eq_nil_of_le (le_of_eq bytes.property)
  simp only [limbsOf, List.flatMap_cons, List.flatMap_nil]
  rw [hlimb 0 (by decide), hlimb 4 (by decide), hlimb 8 (by decide), hlimb 12 (by decide),
    hlimb 16 (by decide), ← hend, hcut 16, hcut 12, hcut 8, hcut 4, hcut 0, List.drop_zero]

theorem value_limbsOf (bytes : Bytes 20) :
    limbsNum (limbsOf bytes) = toNum bytes := by
  rw [← value_flatMap_beBytes, flatMap_limbsOf, toNum]

/-- Writing at the head of what is kept. -/
theorem drop_set_self {out : Str} {pos : ℕ} (c : U8) (h : pos < out.length) :
    (out.set pos c).drop pos = c :: out.drop (pos + 1) := by
  rw [List.drop_eq_getElem_cons (by rwa [List.length_set]), List.getElem_set_self,
    List.drop_set_of_lt (Nat.lt_succ_self pos)]

/-- The rounds from position `pos` down write the low `pos` digits of the number
in the limbs before what is already there. -/
theorem encodeLoop_spec {pos : ℕ} {limbs : List U32} {out : Str} (hpos : pos ≤ out.length) :
    encodeLoop pos limbs out =
      base62.text pos (limbsNum limbs) ++ out.drop pos := by
  induction pos generalizing limbs out with
  | zero => rfl
  | succ pos ih =>
      obtain ⟨hquot, hrem⟩ := divLimbs_eq (show (0 : U64).toNat < 62 by decide) limbs
      obtain ⟨hval, hmod⟩ := divSmall_spec (b := 2 ^ 32) (d := 62) (by decide) (limbNats limbs)
      rw [show BitVec.toNat (0 : U64) = 0 from rfl] at hquot hrem
      have hnum : limbsNum (divLimbs 0 limbs).1 = limbsNum limbs / 62 := by
        rw [limbsNum, hquot, hval, limbsNum]
      have hchar : base62.text 1 (limbsNum limbs) = [alphabet[(divLimbs 0 limbs).2.toNat]!] := by
        rw [hrem, hmod]
        rfl
      rw [encodeLoop, ih (by rw [List.length_set]; omega), drop_set_self _ hpos, hnum,
        Alphabet.text_add, hchar, List.append_assoc]
      rfl

theorem encodeString_eq (bytes : Bytes 20) : encodeString bytes = base62.text 27 (toNum bytes) := by
  have h : encodeLoop stringLen (limbsOf bytes) (List.replicate stringLen 0x30) =
      base62.text stringLen (limbsNum (limbsOf bytes)) ++
        (List.replicate stringLen 0x30).drop stringLen :=
    encodeLoop_spec (by rw [List.length_replicate])
  rw [value_limbsOf, List.drop_eq_nil_of_le (by rw [List.length_replicate]), List.append_nil] at h
  simp only [encodeString, encodeValue]
  exact h

@[simp] theorem length_encodeString (bytes : Bytes 20) : (encodeString bytes).length = 27 :=
  (encodeValue bytes).property

theorem toNum_lt_pow (bytes : Bytes 20) : toNum bytes < 62 ^ 27 :=
  lt_trans (toNum_lt bytes) (by decide)

theorem toNum_lt_toNum_iff {a b : Bytes 20} : toNum a < toNum b ↔ a.val < b.val := by
  have hlen : (a.val.map BitVec.toNat).length = (b.val.map BitVec.toNat).length := by
    rw [List.length_map, List.length_map, a.property, b.property]
  rw [toNum, toNum, value_lt_value_iff hlen byte_lt byte_lt, map_toNat_lt_iff]

theorem toNum_injective : Function.Injective toNum := by
  intro a b h
  have hlen : (a.val.map BitVec.toNat).length = (b.val.map BitVec.toNat).length := by
    rw [List.length_map, List.length_map, a.property, b.property]
  exact Subtype.ext (map_toNat_injective (value_inj hlen byte_lt byte_lt h))

end Ksuid

end Rivid
