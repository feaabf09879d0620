import Rivid.Core.Table
import Rivid.Lib.Radix

/-!
# Base58

The Bitcoin encoding of byte strings of any length: leading zero bytes become
leading `1`s, and the rest is the number the bytes denote, in base 58.  Both
directions keep the number as a vector of digits, low end first, and for each
symbol multiply it by the old base and add, pushing what is left of the carry.

Every digit of the encoder stays below 58 (`digit_lt_of_encodeByte`), so what it
writes is in the alphabet (`mem_alphabet_of_mem_encode`).  Behind the leading
symbols both directions are the change of base of one number (`encode_replicate_append`,
`decode_replicate_append`), so up to the length limit they invert each other.
-/

namespace Rivid.Base58

def alphabet : Str := ascii "123456789ABCDEFGHJKLMNPQRSTUVWXYZabcdefghijkmnopqrstuvwxyz"

def decodeTable : List I8 := buildDecodeTable alphabet

/-- Sanity guard against pathological inputs. -/
def maxInputLen : ℕ := 4096

/-- The character `1`, which stands for a leading zero byte. -/
def one : U8 := 0x31

/-! ## Encoding -/

/-- One digit of a pass: `d * 256 + carry` split at 58. -/
def encodeStep (carry : U32) (d : U8) : U8 × U32 :=
  let carry := carry + d.setWidth 32 <<< 8
  ((carry % 58).setWidth 8, carry / 58)

/-- `while carry > 0`: push the digits of the carry. -/
def pushDigits (digits : List U8) (carry : U32) : List U8 :=
  if 0 < carry.toNat then pushDigits (digits ++ [(carry % 58).setWidth 8]) (carry / 58) else digits
termination_by carry.toNat
decreasing_by
  rw [BitVec.toNat_udiv]
  exact Nat.div_lt_self ‹_› (by decide)

/-- The body of the loop over the bytes. -/
def encodeByte (digits : List U8) (byte : U8) : List U8 :=
  let pass := sweep encodeStep (byte.setWidth 32) digits
  pushDigits pass.1 pass.2

/-- Encodes arbitrary bytes as Base58. -/
def encode (bytes : Str) : Str :=
  let zeros := (bytes.takeWhile (· == 0)).length
  let digits := (bytes.drop zeros).foldl encodeByte []
  List.replicate zeros one ++ digits.reverse.map fun d ↦ alphabet[d.toNat]!

/-! ## Decoding -/

/-- One byte of a pass: `b * 58 + carry` split at 256. -/
def decodeStep (carry : U32) (b : U8) : U8 × U32 :=
  let carry := carry + b.setWidth 32 * 58
  ((carry &&& 0xff).setWidth 8, carry >>> 8)

/-- `while carry > 0`: push the bytes of the carry. -/
def pushBytes (output : List U8) (carry : U32) : List U8 :=
  if 0 < carry.toNat then pushBytes (output ++ [(carry &&& 0xff).setWidth 8]) (carry >>> 8)
  else output
termination_by carry.toNat
decreasing_by
  rw [toNat_ushiftRight_eq_div]
  exact Nat.div_lt_self ‹_› (by decide)

/-- The body of the loop over the characters. -/
def decodeChar (output : List U8) (c : U8) : Result (List U8) := do
  let val ← tableDigit 32 decodeTable c
  let pass := sweep decodeStep val output
  return pushBytes pass.1 pass.2

/-- Decodes a Base58 string to its original bytes. -/
def decode (value : Str) : Result (List U8) := do
  if value.length > maxInputLen then throw (.invalidLength maxInputLen value.length)
  let ones := (value.takeWhile (· == one)).length
  let output ← (value.drop ones).foldlM decodeChar []
  return List.replicate ones 0 ++ output.reverse

example : encode (ascii "hello world") = ascii "StV1DL6CwTryKyV" := by decide +kernel

example : decode (ascii "StV1DL6CwTryKyV") = .ok (ascii "hello world") := by decide +kernel

/-! ## The alphabet -/

theorem alphabet_nodup : alphabet.Nodup := by decide

theorem length_decodeTable : decodeTable.length = 256 := length_buildDecodeTable alphabet

def table58 : CodeTable 58 := CodeTable.ofAlphabet alphabet_nodup (by decide) (by decide)

/-! ## The digits of the encoder -/

/-- A carry of a byte stays one over a pass of digits below 58. -/
theorem toNat_encodeStep {carry : U32} {d : U8} (hc : carry.toNat < 256) (hd : d.toNat < 58) :
    (encodeStep carry d).1.toNat = (carry.toNat + d.toNat * 256) % 58 ∧
      (encodeStep carry d).2.toNat = (carry.toNat + d.toNat * 256) / 58 := by
  have hshift : (d.setWidth 32 <<< 8 : U32).toNat = d.toNat * 256 := by
    have hwide : (d.setWidth 32).toNat = d.toNat := BitVec.toNat_setWidth_of_le (by decide)
    rw [toNat_shiftLeft_of_fits (by omega), hwide]
    rfl
  have hsum : (carry + d.setWidth 32 <<< 8).toNat = carry.toNat + d.toNat * 256 := by
    rw [BitVec.toNat_add, hshift]
    omega
  constructor
  · simp only [encodeStep, BitVec.toNat_setWidth, BitVec.toNat_umod, hsum,
      show BitVec.toNat (58 : U32) = 58 from rfl]
    omega
  · simp only [encodeStep, BitVec.toNat_udiv, hsum, show BitVec.toNat (58 : U32) = 58 from rfl]

theorem encodeStep_lt {carry : U32} {d : U8} (hc : carry.toNat < 256) (hd : d.toNat < 58) :
    (encodeStep carry d).1.toNat < 58 ∧ (encodeStep carry d).2.toNat < 256 := by
  obtain ⟨hlow, hnext⟩ := toNat_encodeStep hc hd
  rw [hlow, hnext]
  omega

theorem digit_lt_of_pushDigits {digits : List U8} {carry : U32}
    (h : ∀ d ∈ digits, d.toNat < 58) : ∀ d ∈ pushDigits digits carry, d.toNat < 58 := by
  induction digits, carry using pushDigits.induct with
  | case1 digits carry hpos ih =>
      rw [pushDigits, if_pos hpos]
      refine ih (List.forall_mem_append.mpr ⟨h, List.forall_mem_singleton.mpr ?_⟩)
      rw [BitVec.toNat_setWidth, BitVec.toNat_umod, show BitVec.toNat (58 : U32) = 58 from rfl]
      omega
  | case2 digits carry hzero =>
      rw [pushDigits, if_neg hzero]
      exact h

/-- The invariant of the encoder's loop. -/
theorem digit_lt_of_encodeByte {digits : List U8} {byte : U8} (h : ∀ d ∈ digits, d.toNat < 58) :
    ∀ d ∈ encodeByte digits byte, d.toNat < 58 := by
  have hbyte : (byte.setWidth 32).toNat < 256 := by
    rw [BitVec.toNat_setWidth]
    omega
  have hpass := sweep_invariant (P := fun d : U8 ↦ d.toNat < 58) (Q := fun d : U8 ↦ d.toNat < 58)
    (I := fun carry : U32 ↦ carry.toNat < 256) (fun carry d hc hd ↦ encodeStep_lt hc hd) hbyte h
  exact digit_lt_of_pushDigits hpass.1

theorem digit_lt_of_foldl_encodeByte {digits : List U8} (bytes : List U8)
    (h : ∀ d ∈ digits, d.toNat < 58) : ∀ d ∈ bytes.foldl encodeByte digits, d.toNat < 58 := by
  induction bytes generalizing digits with
  | nil => exact h
  | cons byte bytes ih => exact ih (digit_lt_of_encodeByte h)

/-! ## The bytes of the decoder -/

/-- A carry below 58 stays below it over a pass. -/
theorem toNat_decodeStep {carry : U32} {b : U8} (hc : carry.toNat < 58) :
    (decodeStep carry b).1.toNat = (carry.toNat + b.toNat * 58) % 256 ∧
      (decodeStep carry b).2.toNat = (carry.toNat + b.toNat * 58) / 256 := by
  have hb := b.isLt
  have hsum : (carry + b.setWidth 32 * 58).toNat = carry.toNat + b.toNat * 58 := by
    rw [BitVec.toNat_add, BitVec.toNat_mul, BitVec.toNat_setWidth_of_le (by decide),
      show BitVec.toNat (58 : U32) = 58 from rfl]
    omega
  constructor
  · simp only [decodeStep]
    rw [BitVec.toNat_setWidth, toNat_and_mask (k := 8) rfl, hsum]
    omega
  · simp only [decodeStep]
    rw [toNat_ushiftRight_eq_div, hsum]
    rfl

theorem decodeStep_lt {carry : U32} {b : U8} (hc : carry.toNat < 58) :
    (decodeStep carry b).2.toNat < 58 := by
  have hb := b.isLt
  rw [(toNat_decodeStep hc).2]
  omega

/-! ## The characters written -/

theorem mem_alphabet_of_mem_encode {bytes : Str} {c : U8} (h : c ∈ encode bytes) :
    c ∈ alphabet := by
  rcases List.mem_append.mp h with h | h
  · obtain rfl := List.eq_of_mem_replicate h
    decide
  · obtain ⟨d, hd, rfl⟩ := List.mem_map.mp h
    have hlt : d.toNat < alphabet.length :=
      digit_lt_of_foldl_encodeByte _ (by simp) d (List.mem_reverse.mp hd)
    rw [getElem!_pos alphabet d.toNat hlt]
    exact List.getElem_mem hlt

/-! ## The numbers of the loops -/

section Loops

open Positional

/-- The loop that pushes the carry appends its digits. -/
theorem map_toNat_pushDigits (digits : List U8) (carry : U32) :
    (pushDigits digits carry).map BitVec.toNat =
      digits.map BitVec.toNat ++ Nat.digits 58 carry.toNat := by
  induction digits, carry using pushDigits.induct with
  | case1 digits carry hpos ih =>
      have hdigit : ((carry % 58).setWidth 8 : U8).toNat = carry.toNat % 58 := by
        rw [BitVec.toNat_setWidth, BitVec.toNat_umod, show BitVec.toNat (58 : U32) = 58 from rfl]
        omega
      rw [pushDigits, if_pos hpos, ih, Nat.digits_def' (by decide) hpos, List.map_append,
        List.append_assoc, List.map_singleton, hdigit, BitVec.toNat_udiv]
      rfl
  | case2 digits carry hzero =>
      rw [pushDigits, if_neg hzero, Nat.eq_zero_of_not_pos hzero, Nat.digits_zero, List.append_nil]

theorem map_toNat_pushBytes (output : List U8) (carry : U32) :
    (pushBytes output carry).map BitVec.toNat =
      output.map BitVec.toNat ++ Nat.digits 256 carry.toNat := by
  induction output, carry using pushBytes.induct with
  | case1 output carry hpos ih =>
      have hbyte : ((carry &&& 0xff).setWidth 8 : U8).toNat = carry.toNat % 256 := by
        rw [BitVec.toNat_setWidth, toNat_and_mask (k := 8) rfl]
        omega
      rw [pushBytes, if_pos hpos, ih, Nat.digits_def' (by decide) hpos, List.map_append,
        List.append_assoc, List.map_singleton, hbyte, toNat_ushiftRight_eq_div]
      rfl
  | case2 output carry hzero =>
      rw [pushBytes, if_neg hzero, Nat.eq_zero_of_not_pos hzero, Nat.digits_zero, List.append_nil]

/-- One byte more: the digits are those of the number with the byte appended. -/
theorem map_toNat_encodeByte {digits : List U8} {n : ℕ} (byte : U8)
    (h : digits.map BitVec.toNat = Nat.digits 58 n) :
    (encodeByte digits byte).map BitVec.toNat = Nat.digits 58 (n * 256 + byte.toNat) := by
  have hbyte : (byte.setWidth 32 : U32).toNat = byte.toNat :=
    BitVec.toNat_setWidth_of_le (by decide)
  have hlt : (byte.setWidth 32 : U32).toNat < 256 := hbyte ▸ byte.isLt
  have hdigit : ∀ d ∈ digits, d.toNat < 58 := by
    intro d hd
    have hmem : d.toNat ∈ Nat.digits 58 n := h ▸ List.mem_map_of_mem hd
    exact Nat.digits_lt_base (by decide) hmem
  have hpass := sweep_map (f := encodeStep) (g := mulAddStep 58 256) (r := BitVec.toNat)
    (q := BitVec.toNat) (I := fun carry ↦ carry.toNat < 256) (P := fun d ↦ d.toNat < 58)
    (fun carry d hc hd ↦ ⟨Prod.ext (toNat_encodeStep hc hd).1.symm (toNat_encodeStep hc hd).2.symm,
      (encodeStep_lt hc hd).2⟩) hlt hdigit
  rw [encodeByte, map_toNat_pushDigits, ← sweep_mulAddStep (by decide) (by decide) n byte.toNat,
    ← h, ← hbyte, hpass]

/-- The digits of the encoder are those of the number the bytes denote. -/
theorem map_toNat_foldl_encodeByte (bytes : List U8) :
    (bytes.foldl encodeByte []).map BitVec.toNat =
      Nat.digits 58 (value 256 (bytes.map BitVec.toNat)) := by
  induction bytes using List.reverseRecOn with
  | nil => simp
  | append_singleton bytes byte ih =>
      rw [List.foldl_append, List.foldl_cons, List.foldl_nil, map_toNat_encodeByte byte ih,
        List.map_append, List.map_singleton, value_concat]

/-- One character more: the bytes are those of the number with the digit appended. -/
theorem map_toNat_decodeChar {output : List U8} {n d : ℕ} {c : U8}
    (h : output.map BitVec.toNat = Nat.digits 256 n) (hc : table58.toAlphabet.digit c = some d) :
    ∃ output', decodeChar output c = .ok output' ∧
      output'.map BitVec.toNat = Nat.digits 256 (n * 58 + d) := by
  obtain ⟨val, hval, rfl⟩ := table58.tableDigit_of_some (w := 32) (by decide) hc
  have hlt : val.toNat < 58 := table58.toAlphabet.digit_lt c _ hc
  have hpass := sweep_map (f := decodeStep) (g := mulAddStep 256 58) (r := BitVec.toNat)
    (q := BitVec.toNat) (I := fun carry ↦ carry.toNat < 58) (P := fun _ ↦ True)
    (fun carry b hc _ ↦ ⟨Prod.ext (toNat_decodeStep hc).1.symm (toNat_decodeStep hc).2.symm,
      decodeStep_lt hc⟩) hlt (fun b (_ : b ∈ output) ↦ trivial)
  refine ⟨_, by rw [decodeChar, show tableDigit 32 decodeTable c = .ok val from hval]; rfl, ?_⟩
  rw [map_toNat_pushBytes, ← sweep_mulAddStep (by decide) (by decide) n val.toNat, ← h, hpass]

/-- The bytes of the decoder are those of the number the characters stand for. -/
theorem foldlM_decodeChar_of_parse {s : Str} (output : List U8) {n v : ℕ}
    (h : output.map BitVec.toNat = Nat.digits 256 n) (hs : table58.toAlphabet.parse s = some v) :
    ∃ output', s.foldlM decodeChar output = .ok output' ∧
      output'.map BitVec.toNat = Nat.digits 256 (n * 58 ^ s.length + v) := by
  induction s generalizing output n v with
  | nil =>
      cases hs
      exact ⟨output, rfl, by simpa using h⟩
  | cons c s ih =>
      rw [Alphabet.parse_cons] at hs
      obtain ⟨d, hd, hs⟩ := Option.bind_eq_some_iff.mp hs
      obtain ⟨w, hw, rfl⟩ := Option.map_eq_some_iff.mp hs
      obtain ⟨next, hnext, hmap⟩ := map_toNat_decodeChar h hd
      obtain ⟨output', hout, hval⟩ := ih next hmap hw
      refine ⟨output', by rw [List.foldlM_cons, hnext, ok_bind, hout], ?_⟩
      rw [hval, List.length_cons, pow_succ']
      congr 1
      ring

/-- A foreign byte stops the decoder, and it is the first one that is reported. -/
theorem foldlM_decodeChar_of_foreign {s : Str} {output : List U8} {c : U8}
    (h : s.find? (fun c ↦ !alphabet.contains c) = some c) :
    s.foldlM decodeChar output = .error (.invalidCharacter c) := by
  induction s generalizing output with
  | nil => cases h
  | cons e s ih =>
      by_cases he : e ∈ alphabet
      · rw [List.find?_cons_of_neg (by simpa using he)] at h
        obtain ⟨d, hd⟩ := Option.isSome_iff_exists.mp ((CodeTable.mem_alphabet_iff e).mp he)
        obtain ⟨val, hval, -⟩ := table58.tableDigit_of_some (w := 32) (by decide) hd
        rw [List.foldlM_cons, decodeChar, show tableDigit 32 decodeTable e = .ok val from hval]
        exact ih h
      · rw [List.find?_cons_of_pos (by simpa using he), Option.some.injEq] at h
        have hnone : table58.toAlphabet.digit e = none :=
          (CodeTable.digit_ofAlphabet e).trans (if_neg he)
        have hfail : tableDigit 32 decodeTable e = .error (.invalidCharacter e) :=
          table58.tableDigit_of_none hnone
        rw [List.foldlM_cons, decodeChar, hfail, h]
        rfl

end Loops

/-! ## Leading zeros -/

section Leading

open Positional

/-- The count of leading zero bytes. -/
def leadingZeros (bytes : Str) : ℕ := (bytes.takeWhile (· == 0)).length

/-- The count of leading `1`s. -/
def leadingOnes (s : Str) : ℕ := (s.takeWhile (· == one)).length

theorem takeWhile_replicate_append {α : Type} [BEq α] [LawfulBEq α] {a : α} (n : ℕ) {l : List α}
    (h : l.head? ≠ some a) : (List.replicate n a ++ l).takeWhile (· == a) = List.replicate n a := by
  have hl : l.takeWhile (· == a) = [] := by
    cases l with
    | nil => rfl
    | cons c l =>
        refine List.takeWhile_cons_of_neg fun hc ↦ h ?_
        rw [List.head?_cons, beq_iff_eq.mp hc]
  rw [List.takeWhile_append_of_pos fun c hc ↦ beq_iff_eq.mpr (List.eq_of_mem_replicate hc), hl,
    List.append_nil]

/-- A list is its leading copies of a symbol and a rest that starts with another. -/
theorem exists_replicate_append {α : Type} [BEq α] [LawfulBEq α] (a : α) (l : List α) :
    ∃ n m, l = List.replicate n a ++ m ∧ m.head? ≠ some a := by
  refine ⟨(l.takeWhile (· == a)).length, l.dropWhile (· == a), ?_, ?_⟩
  · have hcopies : l.takeWhile (· == a) = List.replicate (l.takeWhile (· == a)).length a :=
      List.eq_replicate_iff.mpr ⟨rfl, fun c hc ↦
        beq_iff_eq.mp (List.all_eq_true.mp List.all_takeWhile c hc)⟩
    rw [← hcopies, List.takeWhile_append_dropWhile]
  · intro h
    have := List.head?_dropWhile_not (· == a) l
    rw [h] at this
    simp at this

theorem leadingZeros_append (n : ℕ) {m : Str} (h : m.head? ≠ some 0) :
    leadingZeros (List.replicate n 0 ++ m) = n := by
  rw [leadingZeros, takeWhile_replicate_append n h, List.length_replicate]

theorem leadingOnes_append (n : ℕ) {t : Str} (h : t.head? ≠ some one) :
    leadingOnes (List.replicate n one ++ t) = n := by
  rw [leadingOnes, takeWhile_replicate_append n h, List.length_replicate]

/-- A number in the characters of the alphabet, without leading `1`s. -/
def numeral (v : ℕ) : Str := (Nat.digits 58 v).reverse.map table58.toAlphabet.char

theorem digit_lt_of_mem_reverse {b v d : ℕ} (hb : 1 < b) (h : d ∈ (Nat.digits b v).reverse) :
    d < b := Nat.digits_lt_base hb (List.mem_reverse.mp h)

theorem parse_numeral (v : ℕ) : table58.toAlphabet.parse (numeral v) = some v := by
  rw [Alphabet.parse, numeral, Alphabet.mapM_digit_map_char _
    fun d hd ↦ digit_lt_of_mem_reverse (by decide) hd, Option.map_some, value_reverse_digits]

/-- The character of the digit zero is the `1`, and no other is. -/
theorem head?_map_char {ds : List ℕ} (hlt : ∀ d ∈ ds, d < 58) :
    (ds.map table58.toAlphabet.char).head? = some one ↔ ds.head? = some 0 := by
  cases ds with
  | nil => simp
  | cons d ds =>
      have hone : one = table58.toAlphabet.char 0 := rfl
      rw [List.map_cons, List.head?_cons, List.head?_cons, Option.some.injEq, Option.some.injEq,
        hone]
      exact ⟨table58.toAlphabet.char_inj (hlt d List.mem_cons_self) (by decide), fun h ↦ h ▸ rfl⟩

theorem head?_numeral (v : ℕ) : (numeral v).head? ≠ some one := by
  rw [numeral, ne_eq, head?_map_char fun d hd ↦ digit_lt_of_mem_reverse (by decide) hd]
  exact head?_reverse_digits 58 v

/-- Reading a string without leading `1`s and writing the number gives the string back. -/
theorem numeral_of_parse {t : Str} {v : ℕ} (hhead : t.head? ≠ some one)
    (ht : table58.toAlphabet.parse t = some v) : numeral v = t := by
  obtain ⟨ds, hds, rfl⟩ := Option.map_eq_some_iff.mp ht
  obtain ⟨-, hlt, hmap⟩ := table58.toAlphabet.mapM_digit_eq_some hds
  have hfold : t.map table58.toAlphabet.fold = t := List.map_id t
  rw [hfold] at hmap
  have hzero : ds.head? ≠ some 0 := by
    rw [← hmap, ne_eq, head?_map_char hlt] at hhead
    exact hhead
  rw [numeral, digits_value_of_head (by decide) hlt hzero, hmap]

theorem encode_replicate_append (n : ℕ) {m : Str} (h : m.head? ≠ some 0) :
    encode (List.replicate n 0 ++ m) =
      List.replicate n one ++ numeral (value 256 (m.map BitVec.toNat)) := by
  have hzeros : ((List.replicate n (0 : U8) ++ m).takeWhile (· == 0)).length = n :=
    leadingZeros_append n h
  rw [encode]
  simp only [hzeros, List.drop_left' (List.length_replicate (n := n)), numeral,
    ← map_toNat_foldl_encodeByte, ← List.map_reverse, List.map_map]
  rfl

theorem decode_replicate_append (n : ℕ) {t : Str} {v : ℕ} (h : t.head? ≠ some one)
    (hlen : (List.replicate n one ++ t).length ≤ maxInputLen)
    (ht : table58.toAlphabet.parse t = some v) :
    ∃ m, decode (List.replicate n one ++ t) = .ok (List.replicate n 0 ++ m) ∧
      m.map BitVec.toNat = (Nat.digits 256 v).reverse := by
  have hones : ((List.replicate n one ++ t).takeWhile (· == one)).length = n :=
    leadingOnes_append n h
  obtain ⟨output, hout, hmap⟩ := foldlM_decodeChar_of_parse [] (n := 0) (by simp) ht
  refine ⟨output.reverse, ?_, ?_⟩
  · rw [decode, if_neg (Nat.not_lt.mpr hlen)]
    simp only [hones, List.drop_left' (List.length_replicate (n := n)), hout]
    rfl
  · rw [List.map_reverse, hmap, Nat.zero_mul, Nat.zero_add]

end Leading

/-! ## The bijection -/

section Bijection

open Positional

variable {b s : Str}

theorem decode_of_length (h : maxInputLen < s.length) :
    decode s = .error (.invalidLength maxInputLen s.length) := by
  rw [decode, if_pos h]
  rfl

/-- What was encoded is decoded, up to the guard. -/
theorem decode_encode (b : Str) : decode (encode b) =
    if (encode b).length ≤ maxInputLen then .ok b
    else .error (.invalidLength maxInputLen (encode b).length) := by
  split
  · next hlen =>
      obtain ⟨n, m, rfl, hm⟩ := exists_replicate_append (0 : U8) b
      rw [encode_replicate_append n hm] at hlen ⊢
      obtain ⟨m', hdecode, hmap⟩ :=
        decode_replicate_append n (head?_numeral _) hlen (parse_numeral _)
      have hhead : (m.map BitVec.toNat).head? ≠ some 0 := by
        rw [List.head?_map]
        intro h
        obtain ⟨c, hc, hzero⟩ := Option.map_eq_some_iff.mp h
        exact hm (hc.trans (congrArg some (BitVec.eq_of_toNat_eq hzero)))
      rw [digits_value_of_head (by decide) byte_lt hhead] at hmap
      rw [hdecode, map_toNat_injective hmap]
  · next hlen => exact decode_of_length (Nat.lt_of_not_le hlen)

theorem leadingOnes_encode (b : Str) : leadingOnes (encode b) = leadingZeros b := by
  obtain ⟨n, m, rfl, hm⟩ := exists_replicate_append (0 : U8) b
  rw [encode_replicate_append n hm, leadingOnes_append n (head?_numeral _),
    leadingZeros_append n hm]

/-- A string over the alphabet is decoded, and encoding gives it back. -/
theorem exists_decode (hlen : s.length ≤ maxInputLen) (h : ∀ c ∈ s, c ∈ alphabet) :
    ∃ b, decode s = .ok b ∧ encode b = s := by
  obtain ⟨n, t, rfl, ht⟩ := exists_replicate_append one s
  obtain ⟨v, hv⟩ := Option.isSome_iff_exists.mp (CodeTable.forall_mem_alphabet_iff.mp
    fun c hc ↦ h c (List.mem_append_right _ hc))
  obtain ⟨m, hdecode, hmap⟩ := decode_replicate_append n ht hlen hv
  have hm : m.head? ≠ some 0 := by
    intro h0
    have hhead := head?_reverse_digits 256 v
    rw [← hmap, List.head?_map, h0] at hhead
    exact hhead rfl
  refine ⟨_, hdecode, ?_⟩
  rw [encode_replicate_append n hm, hmap, value_reverse_digits, numeral_of_parse ht hv]

/-- The first foreign byte is reported; a `1` is none. -/
theorem decode_of_foreign {c : U8} (hlen : s.length ≤ maxInputLen)
    (h : s.find? (fun c ↦ !alphabet.contains c) = some c) :
    decode s = .error (.invalidCharacter c) := by
  obtain ⟨n, t, rfl, ht⟩ := exists_replicate_append one s
  have hones : ((List.replicate n one ++ t).takeWhile (· == one)).length = n :=
    leadingOnes_append n ht
  have hskip : (List.replicate n one).find? (fun c ↦ !alphabet.contains c) = none := by
    rw [List.find?_eq_none]
    intro e he
    rw [List.eq_of_mem_replicate he]
    decide
  rw [List.find?_append, hskip, Option.none_or] at h
  rw [decode, if_neg (Nat.not_lt.mpr hlen)]
  simp only [hones, List.drop_left' (List.length_replicate (n := n)),
    foldlM_decodeChar_of_foreign h]
  rfl

end Bijection

/-- **Base58 is a bijection.**  Every byte string is the decoding of its encoding, up to
the guard on the length; the strings within the guard that are over the alphabet are
decoded and are the encodings of what they decode to; any other string is refused for its
length or its first foreign byte; and leading zeros are leading `1`s. -/
theorem base58_bijection :
    (∀ b : Str, decode (encode b) = if (encode b).length ≤ maxInputLen then .ok b
      else .error (.invalidLength maxInputLen (encode b).length)) ∧
    (∀ s : Str, ((∃ b, decode s = .ok b) ↔ s.length ≤ maxInputLen ∧ ∀ c ∈ s, c ∈ alphabet) ∧
      (maxInputLen < s.length → decode s = .error (.invalidLength maxInputLen s.length)) ∧
      (s.length ≤ maxInputLen → ∀ c, s.find? (fun c ↦ !alphabet.contains c) = some c →
        decode s = .error (.invalidCharacter c)) ∧
      ∀ b, decode s = .ok b → encode b = s ∧ leadingZeros b = leadingOnes s) ∧
    ∀ b : Str, leadingOnes (encode b) = leadingZeros b := by
  have hrefuse : ∀ s b, decode s = .ok b → s.length ≤ maxInputLen ∧ ∀ c ∈ s, c ∈ alphabet := by
    intro s b hb
    by_contra hno
    by_cases hlen : s.length ≤ maxInputLen
    · obtain ⟨c, hc⟩ : ∃ c, s.find? (fun c ↦ !alphabet.contains c) = some c := by
        rw [← Option.isSome_iff_exists, List.find?_isSome]
        by_contra hall
        exact hno ⟨hlen, fun c hc ↦ by
          by_contra hmem
          exact hall ⟨c, hc, by simpa using hmem⟩⟩
      rw [decode_of_foreign hlen hc] at hb
      cases hb
    · rw [decode_of_length (Nat.lt_of_not_le hlen)] at hb
      cases hb
  refine ⟨decode_encode, fun s ↦ ⟨⟨?_, ?_⟩, decode_of_length, fun hlen c ↦ decode_of_foreign hlen,
    ?_⟩, leadingOnes_encode⟩
  · rintro ⟨b, hb⟩
    exact hrefuse s b hb
  · rintro ⟨hlen, h⟩
    obtain ⟨b, hb, -⟩ := exists_decode hlen h
    exact ⟨b, hb⟩
  · intro b hb
    obtain ⟨hlen, h⟩ := hrefuse s b hb
    obtain ⟨b', hb', hs⟩ := exists_decode hlen h
    rw [hb, Except.ok.injEq] at hb'
    subst hb'
    exact ⟨hs, by rw [← leadingOnes_encode, hs]⟩

end Rivid.Base58
