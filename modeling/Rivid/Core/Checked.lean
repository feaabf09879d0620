import Rivid.Core.Base58
import Rivid.Core.Base64Url

/-!
# Base58 and Base64URL under checked arithmetic

The codecs for byte strings of any length once more, with every addition,
subtraction, multiplication, shift amount and index checked.  Truncating casts
and bits shifted out are deliberate in the source and stay as they are; loops
are the source's own, with their counters.

The checked functions return what the unchecked ones do (`checkedEncode_eq`,
`checkedDecode_eq`).  What bounds the arithmetic however long the input is: the
digits of the Base58 encoder stay below 58 and its carries below 256, the
carries of the decoder stay below 58, and the Base64URL decoder keeps fewer
than eight bits from one character to the next.
-/

namespace Rivid

open Checked

/-- `DECODE[c as usize]` with the index checked. -/
def checkedDigit (w : ℕ) (table : List I8) (c : U8) : Checked Error (BitVec w) := do
  let d ← index table c.toNat
  if d = invalid then throw (.invalidCharacter c) else pure (d.signExtend w)

theorem checkedDigit_eq {w : ℕ} {table : List I8} (hlen : table.length = 256) (c : U8) :
    checkedDigit w table c = Checked.ofExcept (tableDigit w table c) := by
  rw [checkedDigit, index_eq (hlen.symm ▸ c.isLt), pure_bind, tableDigit]
  split <;> rfl

/-! ## Base58 -/

namespace Base58

def checkedEncodeStep (carry : U32) (d : U8) : Checked Error (U8 × U32) := do
  let high ← shl (d.setWidth 32) 8
  let carry ← add carry high
  pure ((carry % 58).setWidth 8, carry / 58)

def checkedPushDigits (digits : List U8) (carry : U32) : Checked Error (List U8) := do
  let st ← whileM (fun st : List U8 × U32 ↦ pure (decide (0 < st.2.toNat)))
    (fun st ↦ pure (st.1 ++ [(st.2 % 58).setWidth 8], st.2 / 58)) (carry.toNat + 1) (digits, carry)
  pure st.1

def checkedEncodeByte (digits : List U8) (byte : U8) : Checked Error (List U8) := do
  let pass ← sweepM checkedEncodeStep (byte.setWidth 32) digits
  checkedPushDigits pass.1 pass.2

def checkedEncode (bytes : Str) : Checked Error Str := do
  let zeros := (bytes.takeWhile (· == 0)).length
  let rest ← sliceFrom bytes zeros
  let digits ← rest.foldlM checkedEncodeByte []
  let chars ← digits.reverse.mapM fun d ↦ index alphabet d.toNat
  pure (List.replicate zeros one ++ chars)

def checkedDecodeStep (carry : U32) (b : U8) : Checked Error (U8 × U32) := do
  let scaled ← mul (b.setWidth 32) 58
  let carry ← add carry scaled
  let next ← shr carry 8
  pure ((carry &&& 0xff).setWidth 8, next)

def checkedPushBytes (output : List U8) (carry : U32) : Checked Error (List U8) := do
  let st ← whileM (fun st : List U8 × U32 ↦ pure (decide (0 < st.2.toNat)))
    (fun st : List U8 × U32 ↦ do
      let next ← shr st.2 8
      pure (st.1 ++ [(st.2 &&& 0xff).setWidth 8], next)) (carry.toNat + 1) (output, carry)
  pure st.1

def checkedDecodeChar (output : List U8) (c : U8) : Checked Error (List U8) := do
  let val ← checkedDigit 32 decodeTable c
  let pass ← sweepM checkedDecodeStep val output
  checkedPushBytes pass.1 pass.2

def checkedDecode (value : Str) : Checked Error (List U8) :=
  if value.length > maxInputLen then throw (.invalidLength maxInputLen value.length)
  else do
    let ones := (value.takeWhile (· == one)).length
    let rest ← sliceFrom value ones
    let output ← rest.foldlM checkedDecodeChar []
    pure (List.replicate ones 0 ++ output.reverse)

/-! The encoder: digits below 58, carries below 256. -/

theorem checkedEncodeStep_eq {carry : U32} {d : U8} (hc : carry.toNat < 256)
    (hd : d.toNat < 58) : checkedEncodeStep carry d = pure (encodeStep carry d) := by
  have hshift : (d.setWidth 32 <<< 8 : U32).toNat ≤ d.toNat * 256 := by
    rw [BitVec.toNat_shiftLeft, Nat.shiftLeft_eq, BitVec.toNat_setWidth_of_le (by decide)]
    exact Nat.mod_le _ _
  rw [checkedEncodeStep, shl_eq (by decide), pure_bind, add_eq (by omega), pure_bind]
  rfl

/-- What the loop over the carry computes from each of its states. -/
def pushedDigits (st : List U8 × U32) : Result (List U8) := .ok (pushDigits st.1 st.2)

theorem checkedPushDigits_eq (digits : List U8) (carry : U32) :
    checkedPushDigits digits carry = pure (pushDigits digits carry) := by
  refine whileM_bind_eq pushedDigits (fun _ ↦ True) (fun st ↦ st.2.toNat) ?_ trivial
    (Nat.lt_succ_self _)
  rintro ⟨digits, carry⟩ -
  by_cases hpos : 0 < carry.toNat
  · refine Or.inr ⟨congrArg pure (decide_eq_true hpos), Or.inl ⟨_, rfl, trivial, ?_, ?_⟩⟩
    · dsimp only
      rw [BitVec.toNat_udiv]
      exact Nat.div_lt_self hpos (by decide)
    · rw [pushedDigits, pushedDigits, pushDigits.eq_def digits carry, if_pos hpos]
  · refine Or.inl ⟨congrArg pure (decide_eq_false hpos), ?_⟩
    rw [pushedDigits, pushDigits, if_neg hpos, ofExcept_ok]

theorem checkedEncodeByte_eq {digits : List U8} {byte : U8} (h : ∀ d ∈ digits, d.toNat < 58) :
    checkedEncodeByte digits byte = pure (encodeByte digits byte) := by
  have hbyte : (byte.setWidth 32).toNat < 256 := by
    rw [BitVec.toNat_setWidth_of_le (by decide)]
    exact byte.isLt
  have hpass : sweepM checkedEncodeStep (byte.setWidth 32) digits =
      pure (sweep encodeStep (byte.setWidth 32) digits) :=
    sweepM_eq (I := fun carry : U32 ↦ carry.toNat < 256) (P := fun d : U8 ↦ d.toNat < 58)
      (fun carry d hc hd ↦ ⟨checkedEncodeStep_eq hc hd, (encodeStep_lt hc hd).2⟩) hbyte h
  rw [checkedEncodeByte, hpass, pure_bind, checkedPushDigits_eq]
  rfl

theorem checkedChars_eq {digits : List U8} (h : ∀ d ∈ digits, d.toNat < 58) :
    (digits.mapM (fun d ↦ index alphabet d.toNat) : Checked Error Str) =
      pure (digits.map fun d ↦ alphabet[d.toNat]!) :=
  mapM_eq_pure fun d hd ↦ index_eq (h d hd)

theorem checkedEncode_eq (bytes : Str) : checkedEncode bytes = pure (encode bytes) := by
  have hzeros : (bytes.takeWhile (· == 0)).length ≤ bytes.length :=
    (List.takeWhile_sublist _).length_le
  obtain ⟨hdigits, hlt⟩ := foldlM_eq_pure (f := checkedEncodeByte) (g := encodeByte)
    (l := bytes.drop (bytes.takeWhile (· == 0)).length) (s := [])
    (fun digits ↦ ∀ d ∈ digits, d.toNat < 58)
    (fun digits h byte _ ↦ ⟨checkedEncodeByte_eq h, digit_lt_of_encodeByte h⟩) (by simp)
  rw [checkedEncode, sliceFrom_eq hzeros, pure_bind, hdigits, pure_bind,
    checkedChars_eq fun d hd ↦ hlt d (List.mem_reverse.mp hd), pure_bind]
  rfl

/-! The decoder: carries below 58. -/

theorem checkedDecodeStep_eq {carry : U32} {b : U8} (hc : carry.toNat < 58) :
    checkedDecodeStep carry b = pure (decodeStep carry b) := by
  have hb := b.isLt
  have hwide : (b.setWidth 32).toNat = b.toNat := BitVec.toNat_setWidth_of_le (by decide)
  have hmul : (b.setWidth 32).toNat * BitVec.toNat (58 : U32) = b.toNat * 58 := by rw [hwide]; rfl
  have hscaled : (b.setWidth 32 * 58 : U32).toNat = b.toNat * 58 := by
    rw [BitVec.toNat_mul, hmul]
    omega
  rw [checkedDecodeStep, mul_eq (by omega), pure_bind, add_eq (by omega), pure_bind,
    shr_eq (by decide), pure_bind]
  rfl

/-- What the loop over the carry computes from each of its states. -/
def pushedBytes (st : List U8 × U32) : Result (List U8) := .ok (pushBytes st.1 st.2)

theorem checkedPushBytes_eq (output : List U8) (carry : U32) :
    checkedPushBytes output carry = pure (pushBytes output carry) := by
  refine whileM_bind_eq pushedBytes (fun _ ↦ True) (fun st ↦ st.2.toNat) ?_ trivial
    (Nat.lt_succ_self _)
  rintro ⟨output, carry⟩ -
  by_cases hpos : 0 < carry.toNat
  · refine Or.inr ⟨congrArg pure (decide_eq_true hpos), Or.inl
      ⟨(output ++ [(carry &&& 0xff).setWidth 8], carry >>> 8), ?_, trivial, ?_, ?_⟩⟩
    · rw [shr_eq (by decide), pure_bind]
    · dsimp only
      rw [toNat_ushiftRight_eq_div]
      exact Nat.div_lt_self hpos (by decide)
    · rw [pushedBytes, pushedBytes, pushBytes.eq_def output carry, if_pos hpos]
  · refine Or.inl ⟨congrArg pure (decide_eq_false hpos), ?_⟩
    rw [pushedBytes, pushBytes, if_neg hpos, ofExcept_ok]

theorem checkedDecodeChar_eq (output : List U8) (c : U8) :
    checkedDecodeChar output c = Checked.ofExcept (decodeChar output c) := by
  rw [checkedDecodeChar, decodeChar, checkedDigit_eq length_decodeTable, ofExcept_bind]
  cases hval : tableDigit 32 decodeTable c with
  | error e => rfl
  | ok val =>
      have hlt : val.toNat < 58 := table58.toNat_lt_of_tableDigit (by decide) hval
      have hpass : sweepM checkedDecodeStep val output = pure (sweep decodeStep val output) :=
        sweepM_eq (I := fun carry : U32 ↦ carry.toNat < 58) (P := fun _ : U8 ↦ True)
          (fun carry b hc _ ↦ ⟨checkedDecodeStep_eq hc, decodeStep_lt hc⟩) hlt fun _ _ ↦ trivial
      rw [ofExcept_ok, pure_bind, pure_bind, hpass, pure_bind, checkedPushBytes_eq]
      rfl

theorem checkedDecode_eq (value : Str) : checkedDecode value = Checked.ofExcept (decode value) := by
  rw [checkedDecode, decode]
  by_cases hlen : value.length > maxInputLen
  · rw [if_pos hlen, if_pos hlen]
    rfl
  · have hones : (value.takeWhile (· == one)).length ≤ value.length :=
      (List.takeWhile_sublist _).length_le
    rw [if_neg hlen, if_neg hlen]
    dsimp only
    rw [sliceFrom_eq hones, pure_bind]
    exact foldlM_bind_eq _ (fun _ ↦ True)
      (fun output _ c _ ↦ ⟨checkedDecodeChar_eq output c, fun _ _ ↦ trivial⟩) (fun _ _ ↦ rfl)
      trivial

end Base58

/-! ## Base64URL -/

namespace Base64Url

/-- `chunks_exact(3)` and its remainder. -/
def chunksExact : List U8 → List (List U8) × List U8
  | a :: b :: c :: bytes => ([a, b, c] :: (chunksExact bytes).1, (chunksExact bytes).2)
  | rem => ([], rem)

def checkedSextet (n : U32) (k : ℕ) : Checked Error U8 := do
  let shifted ← shr n k
  index alphabet (shifted.toNat &&& 63)

/-- `(bytes[i] as u32) << k`. -/
def checkedField (bytes : List U8) (i k : ℕ) : Checked Error U32 := do
  let b ← index bytes i
  shl (b.setWidth 32) k

def checkedChunk (chunk : List U8) : Checked Error Str := do
  let high ← checkedField chunk 0 16
  let mid ← checkedField chunk 1 8
  let low ← index chunk 2
  [18, 12, 6, 0].mapM (checkedSextet (high ||| mid ||| low.setWidth 32))

def checkedRemainder (rem : List U8) : Checked Error Str :=
  match rem.length with
  | 1 => do
      let n ← checkedField rem 0 16
      [18, 12].mapM (checkedSextet n)
  | 2 => do
      let high ← checkedField rem 0 16
      let low ← checkedField rem 1 8
      [18, 12, 6].mapM (checkedSextet (high ||| low))
  | _ => pure []

def checkedEncode (bytes : List U8) : Checked Error Str := do
  let out ← (chunksExact bytes).1.mapM checkedChunk
  let last ← checkedRemainder (chunksExact bytes).2
  pure (out.flatten ++ last)

/-- The condition of the loop that strips the padding. -/
def checkedPadded (bytes : Str) (st : ℕ × ℕ) : Checked Error Bool :=
  if st.1 > 0 then do
    let last ← posSub st.1 1
    let c ← index bytes last
    pure (decide (c = padChar ∧ st.2 < 2))
  else
    pure false

/-- Its body. -/
def checkedStrip (st : ℕ × ℕ) : Checked Error (ℕ × ℕ) := do
  let last ← posSub st.1 1
  let pad ← posAdd st.2 1
  pure (last, pad)

def checkedDecodeStep (st : DecodeState) (c : U8) : Checked Error DecodeState := do
  let d ← checkedDigit 32 decodeTable c
  let acc ← shl st.acc 6
  let acc := acc ||| d
  let nbits ← add st.nbits 6
  if nbits ≥ 8 then do
    let nbits ← sub nbits 8
    let byte ← shr acc nbits.toNat
    pure ⟨st.out ++ [byte.setWidth 8], acc, nbits⟩
  else
    pure ⟨st.out, acc, nbits⟩

/-- The check for leftover bits. -/
def checkedLeftover (st : DecodeState) : Checked Error (List U8) :=
  if st.nbits > 0 then do
    let bit ← shl 1 st.nbits.toNat
    let mask ← sub bit 1
    if st.acc &&& mask ≠ 0 then throw .nonCanonical else pure st.out
  else
    pure st.out

/-- The body, once its end is known. -/
def checkedDecodeBody (value : Str) (strip : ℕ × ℕ) : Checked Error (List U8) := do
  let body ← sliceTo value strip.1
  if body.length % 4 = 1 then throw (.invalidLength 0 value.length)
  else do
    let padded ← if strip.2 > 0 then posAdd strip.1 strip.2 else pure 0
    if padded % 4 ≠ 0 then throw (.invalidLength 0 value.length)
    else do
      let st ← body.foldlM checkedDecodeStep ⟨[], 0, 0⟩
      checkedLeftover st

def checkedDecode (value : Str) : Checked Error (List U8) :=
  if value.length > maxInputLen then throw (.invalidLength maxInputLen value.length)
  else whileM (checkedPadded value) checkedStrip (value.length + 1) (value.length, 0) >>=
    checkedDecodeBody value

theorem checkedSextet_eq {n : U32} {k : ℕ} (hk : k < 32) :
    checkedSextet n k = pure (sextet n k) := by
  rw [checkedSextet, shr_eq hk, pure_bind, index_eq (and_63_lt _)]
  rfl

theorem checkedSextets_eq {n : U32} {ks : List ℕ} (hk : ∀ k ∈ ks, k < 32) :
    ks.mapM (checkedSextet n) = (pure (ks.map (sextet n)) : Checked Error Str) :=
  mapM_eq_pure fun k hmem ↦ checkedSextet_eq (hk k hmem)

theorem checkedField_eq {bytes : List U8} {i k : ℕ} (hi : i < bytes.length) (hk : k < 32) :
    checkedField bytes i k = pure (bytes[i].setWidth 32 <<< k) := by
  rw [checkedField, index_eq_getElem hi, pure_bind, shl_eq hk]

theorem checkedEncode_cons (a b c : U8) (bytes : List U8) :
    checkedEncode (a :: b :: c :: bytes) = (do
      let out ← checkedChunk [a, b, c]
      let rest ← checkedEncode bytes
      pure (out ++ rest)) := by
  simp only [checkedEncode, chunksExact, List.mapM_cons, bind_assoc, pure_bind, List.flatten_cons,
    List.append_assoc]

theorem checkedEncode_of_lt_three {rem : List U8} (h : rem.length < 3) :
    checkedEncode rem = checkedRemainder rem := by
  have hchunks : chunksExact rem = ([], rem) := by
    match rem, h with
    | [], _ => rfl
    | [a], _ => rfl
    | [a, b], _ => rfl
  rw [checkedEncode, hchunks, List.mapM_nil, pure_bind]
  exact bind_pure _

theorem checkedEncode_eq (bytes : List U8) : checkedEncode bytes = pure (encode bytes) := by
  induction bytes using encode.induct with
  | case1 a b c bytes ih =>
      rw [checkedEncode_cons, ih, checkedChunk, checkedField_eq (by simp) (by decide), pure_bind,
        checkedField_eq (by simp) (by decide), pure_bind, index_eq_getElem (by simp), pure_bind,
        checkedSextets_eq (by decide)]
      rfl
  | case2 a b =>
      rw [checkedEncode_of_lt_three (by simp)]
      change checkedField [a, b] 0 16 >>= _ = _
      rw [checkedField_eq (by simp) (by decide), pure_bind,
        checkedField_eq (by simp) (by decide), pure_bind, checkedSextets_eq (by decide)]
      rfl
  | case3 a =>
      rw [checkedEncode_of_lt_three (by simp)]
      change checkedField [a] 0 16 >>= _ = _
      rw [checkedField_eq (by simp) (by decide), pure_bind, checkedSextets_eq (by decide)]
      rfl
  | case4 => rfl

/-! The decoder: fewer than eight bits are kept from one character to the next. -/

theorem checkedDecodeStep_eq {st : DecodeState} (hst : st.nbits.toNat < 8) (c : U8) :
    checkedDecodeStep st c = Checked.ofExcept (decodeStep st c) := by
  rw [checkedDecodeStep, decodeStep, checkedDigit_eq length_decodeTable, ofExcept_bind]
  cases tableDigit 32 decodeTable c with
  | error e => rfl
  | ok d =>
      have hsum : (st.nbits + 6).toNat = st.nbits.toNat + 6 := by
        rw [BitVec.toNat_add, show BitVec.toNat (6 : U32) = 6 from rfl]
        omega
      rw [ofExcept_ok, pure_bind, pure_bind, shl_eq (by decide), pure_bind,
        add_eq (by rw [show BitVec.toNat (6 : U32) = 6 from rfl]; omega), pure_bind]
      dsimp only
      by_cases hbits : st.nbits + 6 ≥ 8
      · have hle : BitVec.toNat (8 : U32) ≤ (st.nbits + 6).toNat := BitVec.le_def.mp hbits
        have hsub : (st.nbits + 6 - 8).toNat = st.nbits.toNat + 6 - 8 := by
          rw [BitVec.toNat_sub_of_le hbits, hsum]
          rfl
        rw [if_pos hbits, if_pos hbits, sub_eq hle, pure_bind, shr_eq (by omega), pure_bind]
        rfl
      · rw [if_neg hbits, if_neg hbits]
        rfl

theorem nbits_lt_of_decodeStep {st st' : DecodeState} {c : U8} (hst : st.nbits.toNat < 8)
    (h : decodeStep st c = .ok st') : st'.nbits.toNat < 8 := by
  obtain ⟨d, -, h⟩ := bind_eq_ok_iff.mp h
  have hsum : (st.nbits + 6).toNat = st.nbits.toNat + 6 := by
    rw [BitVec.toNat_add, show BitVec.toNat (6 : U32) = 6 from rfl]
    omega
  dsimp only at h
  split at h
  · next hbits =>
      cases h
      dsimp only
      rw [BitVec.toNat_sub_of_le hbits, hsum, show BitVec.toNat (8 : U32) = 8 from rfl]
      omega
  · next hbits =>
      cases h
      have hlt := BitVec.lt_def.mp (BitVec.not_le.mp hbits)
      rwa [show BitVec.toNat (8 : U32) = 8 from rfl] at hlt

theorem checkedLeftover_eq {st : DecodeState} (hst : st.nbits.toNat < 8) :
    checkedLeftover st = Checked.ofExcept (leftover st) := by
  have hfits : BitVec.toNat (1 : U32) * 2 ^ st.nbits.toNat < 2 ^ 32 := by
    rw [show BitVec.toNat (1 : U32) = 1 from rfl, Nat.one_mul]
    exact Nat.pow_lt_pow_right (by decide) (by omega)
  have hone : BitVec.toNat (1 : U32) ≤ ((1 : U32) <<< st.nbits.toNat).toNat := by
    rw [toNat_shiftLeft_of_fits hfits]
    exact Nat.le_mul_of_pos_right _ (Nat.two_pow_pos _)
  rw [checkedLeftover, leftover]
  by_cases hpos : st.nbits > 0
  · rw [if_pos hpos, shl_eq (by omega), pure_bind, sub_eq hone, pure_bind]
    by_cases hbits : st.acc &&& ((1 : U32) <<< st.nbits.toNat - 1) ≠ 0
    · rw [if_pos hbits, if_pos ⟨hpos, hbits⟩]
      rfl
    · rw [if_neg hbits, if_neg fun h ↦ hbits h.2]
      rfl
  · rw [if_neg hpos, if_neg fun h ↦ hpos h.1]
    rfl

/-- What follows the loop that strips the padding. -/
def decodeBody (value : Str) (strip : ℕ × ℕ) : Result (List U8) := do
  let body := value.take strip.1
  if body.length % 4 = 1 ∨ strip.2 > 0 ∧ (strip.1 + strip.2) % 4 ≠ 0 then
    throw (.invalidLength 0 value.length)
  let st ← body.foldlM decodeStep ⟨[], 0, 0⟩
  leftover st

theorem checkedDecodeBody_eq {value : Str} {strip : ℕ × ℕ} (hlen : strip.1 ≤ value.length)
    (hsum : strip.1 + strip.2 < 2 ^ 32) :
    checkedDecodeBody value strip = Checked.ofExcept (decodeBody value strip) := by
  rw [checkedDecodeBody, decodeBody, sliceTo_eq hlen, pure_bind]
  have hloop := foldlM_bind_eq (f := checkedDecodeStep) (g := decodeStep) (k := checkedLeftover)
    (l := value.take strip.1) (s := ⟨[], 0, 0⟩) leftover (fun st ↦ st.nbits.toNat < 8)
    (fun st hst c _ ↦ ⟨checkedDecodeStep_eq hst c, fun _ h ↦ nbits_lt_of_decodeStep hst h⟩)
    (fun st hst ↦ checkedLeftover_eq hst) (by decide)
  dsimp only
  by_cases hmod : (value.take strip.1).length % 4 = 1
  · rw [if_pos hmod, if_pos (Or.inl hmod)]
    rfl
  · rw [if_neg hmod]
    by_cases hpad : strip.2 > 0
    · rw [if_pos hpad, posAdd_eq hsum, pure_bind]
      by_cases htotal : (strip.1 + strip.2) % 4 ≠ 0
      · rw [if_pos htotal, if_pos (Or.inr ⟨hpad, htotal⟩)]
        rfl
      · rw [if_neg htotal, if_neg (by tauto)]
        exact hloop
    · rw [if_neg hpad, pure_bind, if_neg (by decide), if_neg (by tauto)]
      exact hloop

/-- What the loop that strips the padding, and the rest, compute from each of its states. -/
def stripped (value : Str) (st : ℕ × ℕ) : Result (List U8) :=
  decodeBody value (stripPad value st.1 st.2)

theorem checkedDecode_eq (value : Str) : checkedDecode value = Checked.ofExcept (decode value) := by
  rw [checkedDecode, decode]
  by_cases hlen : value.length > maxInputLen
  · rw [if_pos hlen, if_pos hlen]
    rfl
  · rw [if_neg hlen, if_neg hlen]
    have hmax : value.length ≤ 8192 := Nat.not_lt.mp hlen
    -- At most two characters are stripped, all of them inside the string.
    refine whileM_bind_eq (stripped value) (fun st ↦ st.1 ≤ value.length ∧ st.2 ≤ 2)
      (fun st ↦ st.1) ?_ ⟨le_refl _, Nat.zero_le 2⟩ (Nat.lt_succ_self _)
    rintro ⟨last, pad⟩ ⟨hend, hpad⟩
    dsimp only at hend hpad
    have hbody : checkedDecodeBody value (last, pad) =
        Checked.ofExcept (decodeBody value (last, pad)) :=
      checkedDecodeBody_eq hend (show last + pad < 2 ^ 32 by omega)
    cases last with
    | zero => exact Or.inl ⟨rfl, hbody⟩
    | succ last =>
        have hcond : checkedPadded value (last + 1, pad) =
            pure (decide (value[last]! = padChar ∧ pad < 2)) := by
          rw [checkedPadded, if_pos (Nat.succ_pos last), posSub_succ, pure_bind, index_eq hend,
            pure_bind]
        rw [hcond]
        by_cases hstrip : value[last]! = padChar ∧ pad < 2
        · refine Or.inr ⟨congrArg pure (decide_eq_true hstrip),
            Or.inl ⟨(last, pad + 1), ?_, ⟨by omega, hstrip.2⟩, Nat.lt_succ_self last, ?_⟩⟩
          · rw [checkedStrip, posSub_succ, pure_bind, posAdd_eq (show pad + 1 < 2 ^ 32 by omega),
              pure_bind]
          · rw [stripped, stripped, stripPad, if_pos hstrip]
        · refine Or.inl ⟨congrArg pure (decide_eq_false hstrip), ?_⟩
          rw [stripped, stripPad, if_neg hstrip]
          exact hbody

end Base64Url

end Rivid
