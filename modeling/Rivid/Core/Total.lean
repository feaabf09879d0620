import Rivid.Core.Checked
import Rivid.Core.Convert
import Rivid.Core.KsuidDecode
import Rivid.Core.Sortable

/-!
# No codec panics

The codecs of fixed length under checked arithmetic, and the result for all of
them: on no input does a check fail or a loop exceed its bound (`codecs_total`), and
what the encoders write without validation is ASCII from the format's alphabet.
-/

namespace Rivid

open Checked

/-! ## KSUID -/

namespace Ksuid

/-- `u32::from_be_bytes(bytes[i..i + 4].try_into().unwrap())`. -/
def checkedLimbAt (bytes : Bytes 20) (i : ℕ) : Checked Error U32 := do
  let four ← slice bytes.val i (i + 4)
  let four ← require (four.length = 4) four
  pure (fromBeBytes 32 four)

def checkedDivStep (rem : U64) (limb : U32) : Checked Error (U32 × U64) := do
  let high ← shl rem 32
  let value := high ||| limb.setWidth 64
  pure ((value / 62).setWidth 32, value % 62)

/-- The variables of the loop in `encode_value`. -/
structure EncodeState where
  pos : ℕ
  limbs : List U32
  out : Str

/-- The body of the loop in `encode_value`. -/
def checkedEncodeRound (st : EncodeState) : Checked Error EncodeState := do
  let pos ← posSub st.pos 1
  let pass ← sweepM checkedDivStep 0 st.limbs
  let c ← index alphabet pass.2.toNat
  let out ← store st.out pos c
  pure ⟨pos, pass.1, out⟩

def checkedEncodeValue (bytes : Bytes 20) : Checked Error Str := do
  let limbs ← [0, 4, 8, 12, 16].mapM (checkedLimbAt bytes)
  let st ← whileM (fun st : EncodeState ↦ pure (decide (st.pos > 0))) checkedEncodeRound
    (stringLen + 1) ⟨stringLen, limbs, List.replicate stringLen 0x30⟩
  pure st.out

def checkedMulAddStep (carry : U64) (limb : U32) : Checked Error (U32 × U64) := do
  let scaled ← mul (limb.setWidth 64) 62
  let value ← add scaled carry
  let next ← shr value 32
  pure (value.setWidth 32, next)

/-- The body of the loop in `decode_bytes`; the limbs are visited in reverse. -/
def checkedDecodeByte (limbs : List U32) (byte : U8) : Checked Error (List U32) := do
  let digit ← checkedDigit 8 decodeTable byte
  let pass ← sweepM checkedMulAddStep (digit.setWidth 64) limbs.reverse
  if pass.2 ≠ 0 then throw .ksuidValueTooLarge else pure pass.1.reverse

def checkedBytesOf (limbs : List U32) : Checked Error (Bytes 20) := do
  let a ← index limbs 0
  let b ← index limbs 1
  let c ← index limbs 2
  let d ← index limbs 3
  let e ← index limbs 4
  pure ⟨beBytes 4 a ++ beBytes 4 b ++ beBytes 4 c ++ beBytes 4 d ++ beBytes 4 e, by simp⟩

def checkedDecodeBytes (id : Str) : Checked Error (Bytes 20) :=
  if id.length ≠ stringLen then throw (.invalidLength stringLen id.length)
  else id.foldlM checkedDecodeByte (List.replicate 5 0) >>= checkedBytesOf

/-! The encoder: remainders below 62. -/

/-- One limb of the long division. -/
def divStep (rem : U64) (limb : U32) : U32 × U64 :=
  let value := rem <<< 32 ||| limb.setWidth 64
  ((value / 62).setWidth 32, value % 62)

theorem divLimbs_eq_sweep (rem : U64) (limbs : List U32) :
    divLimbs rem limbs = sweep divStep rem limbs := by
  induction limbs generalizing rem with
  | nil => rfl
  | cons limb limbs ih => rw [divLimbs, ih]; rfl

theorem divStep_lt (rem : U64) (limb : U32) : (divStep rem limb).2.toNat < 62 := by
  rw [divStep, BitVec.toNat_umod]
  exact Nat.mod_lt _ (by decide)

theorem checkedDivStep_eq (rem : U64) (limb : U32) :
    checkedDivStep rem limb = pure (divStep rem limb) := by
  rw [checkedDivStep, shl_eq (by decide), pure_bind]
  rfl

theorem checkedLimbAt_eq {bytes : Bytes 20} {i : ℕ} (hi : i ≤ 16) :
    checkedLimbAt bytes i = pure (limbAt bytes i) := by
  have hlen : ((bytes.val.drop i).take (i + 4 - i)).length = 4 := by
    rw [List.length_take, List.length_drop, bytes.property]
    omega
  rw [checkedLimbAt, slice_eq ⟨by omega, by rw [bytes.property]; omega⟩, pure_bind,
    require_eq hlen, pure_bind, Nat.add_sub_cancel_left]
  rfl

/-- What the loop of the encoder computes from each of its states. -/
def encoded (st : EncodeState) : Result Str := .ok (encodeLoop st.pos st.limbs st.out)

theorem checkedEncodeRound_eq {pos : ℕ} {limbs : List U32} {out : Str} (hpos : pos < out.length) :
    checkedEncodeRound ⟨pos + 1, limbs, out⟩ = pure
      ⟨pos, (divLimbs 0 limbs).1, out.set pos alphabet[(divLimbs 0 limbs).2.toNat]!⟩ := by
  have hpass : sweepM checkedDivStep 0 limbs = pure (sweep divStep 0 limbs) :=
    sweepM_eq (I := fun rem : U64 ↦ rem.toNat < 62) (P := fun _ ↦ True)
      (fun rem limb _ _ ↦ ⟨checkedDivStep_eq rem limb, divStep_lt rem limb⟩) (by decide)
      fun _ _ ↦ trivial
  have hrem : (sweep divStep 0 limbs).2.toNat < alphabet.length :=
    (sweep_invariant (I := fun rem : U64 ↦ rem.toNat < 62) (P := fun _ ↦ True) (Q := fun _ ↦ True)
      (fun rem limb _ _ ↦ ⟨trivial, divStep_lt rem limb⟩) (by decide) fun _ _ ↦ trivial).2
  rw [checkedEncodeRound, posSub_succ, pure_bind, hpass, pure_bind, index_eq hrem, pure_bind,
    store_eq hpos, pure_bind, divLimbs_eq_sweep]

theorem checkedEncodeValue_eq (bytes : Bytes 20) :
    checkedEncodeValue bytes = pure (encodeString bytes) := by
  have hall : ∀ i ∈ [0, 4, 8, 12, 16], i ≤ 16 := by decide
  have hlimbs : [0, 4, 8, 12, 16].mapM (checkedLimbAt bytes) =
      (pure (limbsOf bytes) : Checked Error (List U32)) :=
    mapM_eq_pure fun i hi ↦ checkedLimbAt_eq (hall i hi)
  have hspec : (pure (encodeString bytes) : Checked Error Str) = Checked.ofExcept
      (encoded ⟨stringLen, limbsOf bytes, List.replicate stringLen 0x30⟩) := by
    simp only [encoded, encodeString, encodeValue, ofExcept_ok]
  rw [checkedEncodeValue, hlimbs, pure_bind, hspec]
  refine whileM_bind_eq encoded (fun st ↦ st.pos ≤ st.out.length) EncodeState.pos ?_ (by simp)
    (Nat.lt_succ_self _)
  rintro ⟨pos, limbs, out⟩ hpos
  cases pos with
  | zero => exact Or.inl ⟨rfl, rfl⟩
  | succ pos =>
      refine Or.inr ⟨rfl, Or.inl ⟨_, checkedEncodeRound_eq hpos, ?_, Nat.lt_succ_self pos, rfl⟩⟩
      dsimp only
      rw [List.length_set]
      exact Nat.le_of_succ_le hpos

/-! The decoder: five limbs, carries below 62. -/

/-- One limb of the multiplication. -/
def mulAddStep (carry : U64) (limb : U32) : U32 × U64 :=
  let value := limb.setWidth 64 * 62 + carry
  (value.setWidth 32, value >>> 32)

theorem mulAddLimbs_eq_sweep (carry : U64) (limbs : List U32) : mulAddLimbs carry limbs =
    ((sweep mulAddStep carry limbs.reverse).1.reverse,
      (sweep mulAddStep carry limbs.reverse).2) := by
  induction limbs with
  | nil => rfl
  | cons limb limbs ih =>
      rw [mulAddLimbs, ih, List.reverse_cons, sweep_append]
      simp only [sweep, List.reverse_append, List.reverse_cons, List.reverse_nil, List.nil_append,
        List.cons_append, mulAddStep]

theorem toNat_mulAdd {carry : U64} (hc : carry.toNat < 62) (limb : U32) :
    (limb.setWidth 64 * 62 : U64).toNat = limb.toNat * 62 ∧
      (limb.setWidth 64 * 62 + carry).toNat = limb.toNat * 62 + carry.toNat := by
  have hl := limb.isLt
  have hmul : (limb.setWidth 64 * 62 : U64).toNat = limb.toNat * 62 := by
    rw [BitVec.toNat_mul, BitVec.toNat_setWidth_of_le (by decide),
      show BitVec.toNat (62 : U64) = 62 from rfl]
    omega
  refine ⟨hmul, ?_⟩
  rw [BitVec.toNat_add, hmul]
  omega

theorem mulAddStep_lt {carry : U64} (hc : carry.toNat < 62) (limb : U32) :
    (mulAddStep carry limb).2.toNat < 62 := by
  have hl := limb.isLt
  rw [mulAddStep, toNat_ushiftRight_eq_div, (toNat_mulAdd hc limb).2]
  omega

theorem checkedMulAddStep_eq {carry : U64} (hc : carry.toNat < 62) (limb : U32) :
    checkedMulAddStep carry limb = pure (mulAddStep carry limb) := by
  have hl := limb.isLt
  have hwide : (limb.setWidth 64).toNat * BitVec.toNat (62 : U64) = limb.toNat * 62 := by
    rw [BitVec.toNat_setWidth_of_le (by decide)]
    rfl
  have hmul := (toNat_mulAdd hc limb).1
  rw [checkedMulAddStep, mul_eq (by omega), pure_bind, add_eq (by omega), pure_bind,
    shr_eq (by decide), pure_bind]
  rfl

/-- The body of the loop in `decode_bytes`, unchecked. -/
def decodeByte (limbs : List U32) (byte : U8) : Result (List U32) := do
  let digit ← decodeChar byte
  let round := mulAddLimbs (digit.setWidth 64) limbs
  if round.2 ≠ 0 then throw .ksuidValueTooLarge else return round.1

theorem decodeLoop_eq_foldlM (limbs : List U32) (id : Str) :
    decodeLoop limbs id = id.foldlM decodeByte limbs := by
  induction id generalizing limbs with
  | nil => rfl
  | cons byte id ih =>
      rw [decodeLoop, List.foldlM_cons, decodeByte]
      cases decodeChar byte with
      | error e => rfl
      | ok digit =>
          rw [ok_bind, ok_bind]
          dsimp only
          split
          · rfl
          · exact ih _

theorem length_of_decodeByte {limbs limbs' : List U32} {byte : U8}
    (h : decodeByte limbs byte = .ok limbs') : limbs'.length = limbs.length := by
  obtain ⟨digit, -, h⟩ := bind_eq_ok_iff.mp h
  dsimp only at h
  split at h
  · cases h
  · cases h
    rw [mulAddLimbs_eq_sweep, List.length_reverse, length_sweep, List.length_reverse]

theorem checkedDecodeByte_eq (limbs : List U32) (byte : U8) :
    checkedDecodeByte limbs byte = Checked.ofExcept (decodeByte limbs byte) := by
  have hlen : decodeTable.length = 256 := length_buildDecodeTable alphabet
  rw [checkedDecodeByte, decodeByte, checkedDigit_eq hlen, ofExcept_bind, decodeChar]
  cases hdigit : tableDigit 8 decodeTable byte with
  | error e => rfl
  | ok digit =>
      have hlt : (digit.setWidth 64).toNat < 62 := by
        rw [BitVec.toNat_setWidth_of_le (by decide)]
        exact table62.toNat_lt_of_tableDigit (by decide) hdigit
      have hpass : sweepM checkedMulAddStep (digit.setWidth 64) limbs.reverse =
          pure (sweep mulAddStep (digit.setWidth 64) limbs.reverse) :=
        sweepM_eq (I := fun carry : U64 ↦ carry.toNat < 62) (P := fun _ ↦ True)
          (fun carry limb hc _ ↦ ⟨checkedMulAddStep_eq hc limb, mulAddStep_lt hc limb⟩) hlt
          fun _ _ ↦ trivial
      rw [ofExcept_ok, pure_bind, pure_bind, hpass, pure_bind, mulAddLimbs_eq_sweep]
      dsimp only
      split <;> rfl

theorem checkedBytesOf_eq {limbs : List U32} (h : limbs.length = 5) :
    checkedBytesOf limbs = pure (bytesOf limbs) := by
  rw [checkedBytesOf, index_eq (by omega), pure_bind, index_eq (by omega), pure_bind,
    index_eq (by omega), pure_bind, index_eq (by omega), pure_bind, index_eq (by omega), pure_bind]
  rfl

theorem checkedDecodeBytes_eq (id : Str) :
    checkedDecodeBytes id = Checked.ofExcept (decodeBytes id) := by
  rw [checkedDecodeBytes, decodeBytes]
  by_cases hlen : id.length ≠ stringLen
  · rw [if_pos hlen, if_pos hlen]
    rfl
  · rw [if_neg hlen, if_neg hlen, decodeLoop_eq_foldlM]
    exact foldlM_bind_eq _ (fun limbs ↦ limbs.length = 5)
      (fun limbs h byte _ ↦ ⟨checkedDecodeByte_eq limbs byte,
        fun _ hround ↦ (length_of_decodeByte hround).trans h⟩)
      (fun limbs h ↦ checkedBytesOf_eq h) rfl

end Ksuid

/-! ## Crockford -/

namespace Crockford

/-- The body of the loop in `decode_chars`. -/
def checkedDecodeRound (chars : Str) (st : U128 × ℕ) : Checked Error (U128 × ℕ) := do
  let c ← index chars st.2
  let d ← checkedDigit 128 decodeTable c
  if st.2 = 0 ∧ d > 7 then throw .valueTooLarge
  else do
    let low ← posMul 5 st.2
    let shift ← posSub 125 low
    let field ← shl d shift
    let next ← posAdd st.2 1
    pure (st.1 ||| field, next)

def checkedDecodeChars (chars : Str) : Checked Error U128 :=
  if chars.length ≠ 26 then throw (.invalidLength 26 chars.length)
  else do
    let st ← whileM (fun st : U128 × ℕ ↦ pure (decide (st.2 < 26))) (checkedDecodeRound chars)
      27 (0, 0)
    pure st.1

def checkedDecodeTimeBytes (chars : Str) : Checked Error U64 :=
  if chars.length ≠ 10 then throw (.invalidLength 10 chars.length)
  else do
    let time ← chars.foldlM (fun (time : U64) c ↦ do
      let d ← checkedDigit 128 decodeTable c
      pure (time * 32 + d.setWidth 64)) 0
    if time > timeMax then throw .valueTooLarge else pure time

/-- What the loop of the decoder computes from each of its states. -/
def decodedFrom (chars : Str) (st : U128 × ℕ) : Result U128 :=
  decodeLoop st.1 st.2 (chars.drop st.2)

theorem checkedDecodeChars_eq (chars : Str) :
    checkedDecodeChars chars = Checked.ofExcept (decodeChars chars) := by
  rw [checkedDecodeChars, decodeChars]
  by_cases hlen : chars.length = 26
  · rw [if_neg (not_not.mpr hlen), if_neg (not_not.mpr hlen)]
    refine whileM_bind_eq (decodedFrom chars) (fun st ↦ st.2 ≤ 26) (fun st ↦ 26 - st.2) ?_
      (Nat.zero_le 26) (by decide)
    rintro ⟨value, i⟩ hi
    dsimp only at hi
    by_cases hlt : i < 26
    · refine Or.inr ⟨congrArg pure (decide_eq_true hlt), ?_⟩
      have hdrop : decodedFrom chars (value, i) =
          decodeLoop value i (chars[i]! :: chars.drop (i + 1)) := by
        rw [decodedFrom, List.drop_eq_getElem_cons (by omega), getElem!_pos chars i (by omega)]
      rw [hdrop, checkedDecodeRound, index_eq (by dsimp only; omega), pure_bind,
        checkedDigit_eq length_decodeTable, decodeLoop, digit]
      cases tableDigit 128 decodeTable chars[i]! with
      | error e => exact Or.inr ⟨e, rfl, rfl⟩
      | ok d =>
          rw [ofExcept_ok, pure_bind, ok_bind]
          by_cases hlarge : i = 0 ∧ d > 7
          · rw [if_pos hlarge, if_pos hlarge]
            exact Or.inr ⟨_, rfl, rfl⟩
          · rw [if_neg hlarge, if_neg hlarge]
            dsimp only
            rw [posMul_eq (by omega), pure_bind, posSub_eq (by omega), pure_bind, shl_eq (by omega),
              pure_bind, posAdd_eq (by omega), pure_bind]
            exact Or.inl ⟨_, rfl, hlt, by dsimp only; omega, rfl⟩
    · have hend : i = 26 := by omega
      subst hend
      refine Or.inl ⟨rfl, ?_⟩
      rw [decodedFrom, List.drop_eq_nil_of_le (by omega)]
      rfl
  · rw [if_pos hlen, if_pos hlen]
    rfl

theorem checkedDecodeTimeBytes_eq (chars : Str) :
    checkedDecodeTimeBytes chars = Checked.ofExcept (decodeTimeBytes chars) := by
  rw [checkedDecodeTimeBytes, decodeTimeBytes]
  by_cases hlen : chars.length = 10
  · rw [if_neg (not_not.mpr hlen), if_neg (not_not.mpr hlen)]
    refine foldlM_bind_eq _ (fun _ ↦ True) (fun time _ c _ ↦ ⟨?_, fun _ _ ↦ trivial⟩)
      (fun time _ ↦ ?_) trivial
    · rw [checkedDigit_eq length_decodeTable, ofExcept_bind]
      rfl
    · split <;> rfl
  · rw [if_pos hlen, if_pos hlen]
    rfl

end Crockford

/-! ## Sortable -/

namespace Sortable

/-- The body of the loop in `decode_chars`. -/
def checkedDecodeRound (chars : Str) (st : U128 × ℕ) : Checked Error (U128 × ℕ) := do
  let c ← index chars st.2
  let d ← checkedDigit 128 decodeTable c
  let low ← posMul 6 st.2
  let shift ← posSub 122 low
  let field ← shl d shift
  let next ← posAdd st.2 1
  pure (st.1 ||| field, next)

/-- The last character: two bits of the value over four of padding. -/
def checkedDecodeLast (chars : Str) (st : U128 × ℕ) : Checked Error U128 := do
  let c ← index chars 21
  let last ← checkedDigit 128 decodeTable c
  if last &&& 0x0f ≠ 0 then throw .nonCanonical
  else do
    let low ← shr last 4
    pure (st.1 ||| low)

def checkedDecodeChars (chars : Str) : Checked Error U128 :=
  if chars.length ≠ encodedLen then throw (.invalidLength encodedLen chars.length)
  else whileM (fun st : U128 × ℕ ↦ pure (decide (st.2 < 21))) (checkedDecodeRound chars) 22
    (0, 0) >>=
    checkedDecodeLast chars

/-- The last character, unchecked. -/
def decodeLast (chars : Str) (value : U128) : Result U128 := do
  let last ← digit chars[21]!
  if last &&& 0x0f ≠ 0 then throw .nonCanonical
  return value ||| last >>> 4

/-- What the loop of the decoder and the rest compute from each of its states. -/
def decodedFrom (chars : Str) (st : U128 × ℕ) : Result U128 :=
  decodeLoop st.1 st.2 ((chars.take 21).drop st.2) >>= decodeLast chars

theorem length_decodeTable : decodeTable.length = 256 := length_buildDecodeTable alphabet

theorem checkedDecodeLast_eq {chars : Str} (hlen : chars.length = 22) (st : U128 × ℕ) :
    checkedDecodeLast chars st = Checked.ofExcept (decodeLast chars st.1) := by
  rw [checkedDecodeLast, decodeLast, index_eq (by omega), pure_bind,
    checkedDigit_eq length_decodeTable, ofExcept_bind, digit]
  cases tableDigit 128 decodeTable chars[21]! with
  | error e => rfl
  | ok last =>
      rw [ofExcept_ok, pure_bind, pure_bind]
      split
      · rfl
      · rw [shr_eq (by decide), pure_bind]
        rfl

theorem checkedDecodeChars_eq (chars : Str) :
    checkedDecodeChars chars = Checked.ofExcept (decodeChars chars) := by
  rw [checkedDecodeChars, decodeChars]
  by_cases hne : chars.length ≠ encodedLen
  · rw [if_pos hne, if_pos hne]
    rfl
  · have hlen : chars.length = 22 := not_not.mp hne
    rw [if_neg hne, if_neg hne]
    refine whileM_bind_eq (decodedFrom chars) (fun st ↦ st.2 ≤ 21) (fun st ↦ 21 - st.2) ?_
      (Nat.zero_le 21) (by decide)
    rintro ⟨value, i⟩ hi
    dsimp only at hi
    by_cases hlt : i < 21
    · refine Or.inr ⟨congrArg pure (decide_eq_true hlt), ?_⟩
      have hdrop : decodedFrom chars (value, i) =
          decodeLoop value i (chars[i]! :: (chars.take 21).drop (i + 1)) >>= decodeLast chars := by
        rw [decodedFrom, List.drop_eq_getElem_cons (by rw [List.length_take]; omega),
          List.getElem_take, getElem!_pos chars i (by omega)]
      rw [hdrop, checkedDecodeRound, index_eq (by dsimp only; omega), pure_bind,
        checkedDigit_eq length_decodeTable, decodeLoop, digit]
      cases tableDigit 128 decodeTable chars[i]! with
      | error e => exact Or.inr ⟨e, rfl, rfl⟩
      | ok d =>
          rw [ofExcept_ok, pure_bind, ok_bind]
          dsimp only
          rw [posMul_eq (by omega), pure_bind, posSub_eq (by omega), pure_bind, shl_eq (by omega),
            pure_bind, posAdd_eq (by omega), pure_bind]
          exact Or.inl ⟨_, rfl, hlt, by dsimp only; omega, rfl⟩
    · have hend : i = 21 := by omega
      subst hend
      refine Or.inl ⟨rfl, ?_⟩
      rw [decodedFrom, List.drop_eq_nil_of_le (by rw [List.length_take]; omega)]
      exact checkedDecodeLast_eq hlen (value, 21)

end Sortable

/-! ## UUID text -/

namespace Convert

def checkedHexVal (c : U8) : Checked Error (Option U8) :=
  if 0x30 ≤ c ∧ c ≤ 0x39 then do
    let d ← sub c 0x30
    pure (some d)
  else if 0x61 ≤ c ∧ c ≤ 0x66 then do
    let d ← sub c 0x61
    let d ← add d 10
    pure (some d)
  else if 0x41 ≤ c ∧ c ≤ 0x46 then do
    let d ← sub c 0x41
    let d ← add d 10
    pure (some d)
  else
    pure none

/-- The loop over the slots, reading the characters as they are needed. -/
def checkedFillSlots : ℕ → List U8 → Checked Error (List U8)
  | 0, _ => pure []
  | _ + 1, [] => throw .invalidUuid
  | _ + 1, [c] => do
      let _ ← checkedHexVal c
      throw .invalidUuid
  | n + 1, c :: d :: chars => do
      let hi ← checkedHexVal c
      let lo ← checkedHexVal d
      match hi, lo with
      | some hi, some lo => do
          let high ← shl hi 4
          let rest ← checkedFillSlots n chars
          pure ((high ||| lo) :: rest)
      | _, _ => throw .invalidUuid

/-- `b[i] != b'-'` for the positions in order, up to the first that is so. -/
def checkedHyphens (b : Str) : List ℕ → Checked Error Unit
  | [] => pure ()
  | i :: positions => do
      let c ← index b i
      if c ≠ dash then throw .invalidUuid else checkedHyphens b positions

def checkedParseHyphenatedUuid (value : Str) : Checked Error (List U8) :=
  if value.length ≠ 36 then throw .invalidUuid
  else do
    checkedHyphens value [8, 13, 18, 23]
    checkedFillSlots 16 (digitPositions value)

theorem checkedHexVal_eq (c : U8) : checkedHexVal c = pure (hexVal c) := by
  have hletter : ∀ base : U8, base ≤ c → c ≤ base + 5 → base.toNat < 128 →
      (sub c base : Checked Error U8) = pure (c - base) ∧
        (add (c - base) 10 : Checked Error U8) = pure (c - base + 10) := by
    intro base hlow hhigh hbase
    have hlow' := BitVec.le_def.mp hlow
    have hhigh' := BitVec.le_def.mp hhigh
    rw [BitVec.toNat_add, show BitVec.toNat (5 : U8) = 5 from rfl] at hhigh'
    refine ⟨sub_eq hlow', add_eq ?_⟩
    rw [BitVec.toNat_sub_of_le hlow, show BitVec.toNat (10 : U8) = 10 from rfl]
    omega
  rw [checkedHexVal, hexVal]
  split
  · next h => rw [sub_eq (BitVec.le_def.mp h.1), pure_bind]
  split
  · next h =>
      obtain ⟨hsub, hadd⟩ := hletter 0x61 h.1 h.2 (by decide)
      rw [hsub, pure_bind, hadd, pure_bind]
  split
  · next h =>
      obtain ⟨hsub, hadd⟩ := hletter 0x41 h.1 h.2 (by decide)
      rw [hsub, pure_bind, hadd, pure_bind]
  rfl

theorem checkedFillSlots_eq (n : ℕ) (chars : List U8) :
    checkedFillSlots n chars = Checked.ofExcept (fillSlots n (chars.map hexVal)) := by
  induction n, chars using checkedFillSlots.induct with
  | case1 chars => rfl
  | case2 n => rfl
  | case3 n c => rw [checkedFillSlots, checkedHexVal_eq, pure_bind]; rfl
  | case4 n c d chars ih =>
      rw [checkedFillSlots, checkedHexVal_eq, pure_bind, checkedHexVal_eq, pure_bind, List.map_cons,
        List.map_cons]
      cases hexVal c with
      | none => rfl
      | some hi =>
          cases hexVal d with
          | none => rfl
          | some lo =>
              dsimp only
              rw [shl_eq (by decide), pure_bind, ih, fillSlots]
              cases fillSlots n (chars.map hexVal) <;> rfl

theorem checkedHyphens_eq {b : Str} {positions : List ℕ} (h : ∀ i ∈ positions, i < b.length) :
    checkedHyphens b positions =
      if ∃ i ∈ positions, b[i]! ≠ dash then throw .invalidUuid else pure () := by
  induction positions with
  | nil => rfl
  | cons i positions ih =>
      rw [checkedHyphens, index_eq (h i List.mem_cons_self), pure_bind,
        ih fun j hj ↦ h j (List.mem_cons_of_mem i hj)]
      simp only [List.mem_cons, exists_eq_or_imp]
      by_cases hi : b[i]! ≠ dash
      · rw [if_pos hi, if_pos (Or.inl hi)]
      · rw [if_neg hi]
        simp only [hi, false_or]

theorem checkedParseHyphenatedUuid_eq (value : Str) : checkedParseHyphenatedUuid value =
    Checked.ofExcept ((parseHyphenatedUuid value).map Subtype.val) := by
  rw [map_val_parseHyphenatedUuid, checkedParseHyphenatedUuid]
  by_cases hlen : value.length ≠ 36
  · rw [if_pos hlen, if_pos (Or.inl hlen)]
    rfl
  · have hpos : ∀ i ∈ [8, 13, 18, 23], i < value.length := by
      rw [not_not.mp hlen]
      decide
    have hiff : (∃ i ∈ [8, 13, 18, 23], value[i]! ≠ dash) ↔ value[8]! ≠ dash ∨ value[13]! ≠ dash ∨
        value[18]! ≠ dash ∨ value[23]! ≠ dash := by
      simp only [List.mem_cons, List.not_mem_nil, or_false, exists_eq_or_imp, exists_eq_left]
    rw [if_neg hlen, checkedHyphens_eq hpos]
    by_cases hdash : ∃ i ∈ [8, 13, 18, 23], value[i]! ≠ dash
    · rw [if_pos hdash, if_pos (Or.inr (hiff.mp hdash))]
      rfl
    · rw [if_neg hdash, if_neg (not_or.mpr ⟨hlen, mt hiff.mpr hdash⟩), pure_bind,
        checkedFillSlots_eq]

end Convert

/-! ## All of them -/

/-- With every check on, each codec returns what it returns without the checks:
a value or an error, on every input. -/
structure NeverPanics : Prop where
  base58_encode : ∀ bytes, Base58.checkedEncode bytes = pure (Base58.encode bytes)
  base58_decode : ∀ value, Base58.checkedDecode value = Checked.ofExcept (Base58.decode value)
  base64url_encode : ∀ bytes, Base64Url.checkedEncode bytes = pure (Base64Url.encode bytes)
  base64url_decode : ∀ value,
    Base64Url.checkedDecode value = Checked.ofExcept (Base64Url.decode value)
  ksuid_encode_value : ∀ bytes,
    Ksuid.checkedEncodeValue bytes = pure (Ksuid.encodeValue bytes).val
  ksuid_decode_bytes : ∀ id,
    Ksuid.checkedDecodeBytes id = Checked.ofExcept (Ksuid.decodeBytes id)
  crockford_decode_chars : ∀ chars,
    Crockford.checkedDecodeChars chars = Checked.ofExcept (Crockford.decodeChars chars)
  crockford_decode_time_bytes : ∀ chars,
    Crockford.checkedDecodeTimeBytes chars = Checked.ofExcept (Crockford.decodeTimeBytes chars)
  sortable_decode_chars : ∀ chars,
    Sortable.checkedDecodeChars chars = Checked.ofExcept (Sortable.decodeChars chars)
  parse_hyphenated_uuid : ∀ value, Convert.checkedParseHyphenatedUuid value =
    Checked.ofExcept ((Convert.parseHyphenatedUuid value).map Subtype.val)

/-- Every byte is ASCII and a character of the alphabet. -/
def AsciiOver (alphabet s : Str) : Prop := ∀ c ∈ s, c ∈ alphabet ∧ c < 0x80

/-- What the encoders emit through `from_utf8_unchecked` or `as char`. -/
structure EmitsAscii : Prop where
  base58_encode : ∀ bytes, AsciiOver Base58.alphabet (Base58.encode bytes)
  base64url_encode : ∀ bytes, AsciiOver Base64Url.alphabet (Base64Url.encode bytes)
  ksuid_encode_string : ∀ bytes, AsciiOver Ksuid.alphabet (Ksuid.encodeString bytes)
  crockford_encode_string : ∀ value, AsciiOver Crockford.alphabet (Crockford.encodeString value)
  crockford_encode_time_str : ∀ ts s, Crockford.encodeTimeStr ts = .ok s →
    AsciiOver Crockford.alphabet s
  sortable_encode_string : ∀ value, AsciiOver Sortable.alphabet (Sortable.encodeString value)
  format_hyphenated_lower : ∀ bytes,
    AsciiOver (Convert.dash :: Convert.hex) (Convert.formatHyphenatedLower bytes)

theorem asciiOver_of_mem {alphabet s : Str} (hascii : alphabet.all (· < 0x80) = true)
    (h : ∀ c ∈ s, c ∈ alphabet) : AsciiOver alphabet s :=
  fun c hc ↦ ⟨h c hc, of_decide_eq_true (List.all_eq_true.mp hascii c (h c hc))⟩

theorem asciiOver_text {b : ℕ} (T : CodeTable b) (hlen : T.alphabet.length = b) (hb : 0 < b)
    (hascii : T.alphabet.all (· < 0x80) = true) (n v : ℕ) :
    AsciiOver T.alphabet (T.toAlphabet.text n v) :=
  asciiOver_of_mem hascii fun _ hc ↦ T.mem_alphabet_of_mem_text hlen hb hc

theorem neverPanics : NeverPanics where
  base58_encode := Base58.checkedEncode_eq
  base58_decode := Base58.checkedDecode_eq
  base64url_encode := Base64Url.checkedEncode_eq
  base64url_decode := Base64Url.checkedDecode_eq
  ksuid_encode_value := Ksuid.checkedEncodeValue_eq
  ksuid_decode_bytes := Ksuid.checkedDecodeBytes_eq
  crockford_decode_chars := Crockford.checkedDecodeChars_eq
  crockford_decode_time_bytes := Crockford.checkedDecodeTimeBytes_eq
  sortable_decode_chars := Sortable.checkedDecodeChars_eq
  parse_hyphenated_uuid := Convert.checkedParseHyphenatedUuid_eq

theorem emitsAscii : EmitsAscii where
  base58_encode bytes := asciiOver_of_mem (by decide) fun _ ↦ Base58.mem_alphabet_of_mem_encode
  base64url_encode bytes :=
    asciiOver_of_mem (by decide) fun _ ↦ Base64Url.mem_alphabet_of_mem_encode
  ksuid_encode_string bytes := by
    rw [Ksuid.encodeString_eq]
    exact asciiOver_text Ksuid.table62 (by decide) (by decide) (by decide) _ _
  crockford_encode_string value := by
    rw [Crockford.encodeString_eq]
    exact asciiOver_text Crockford.table32 (by decide) (by decide) (by decide) _ _
  crockford_encode_time_str ts s h := by
    by_cases hts : ts ≤ timeMax
    · rw [Crockford.encodeTimeStr_eq hts] at h
      cases h
      exact asciiOver_text Crockford.table32 (by decide) (by decide) (by decide) _ _
    · rw [Crockford.encodeTimeStr, Crockford.encodeTime, if_pos (BitVec.not_le.mp hts)] at h
      cases h
  sortable_encode_string value := by
    rw [Sortable.encodeString_eq]
    exact asciiOver_text Sortable.table64 (by decide) (by decide) (by decide) _ _
  format_hyphenated_lower bytes :=
    asciiOver_of_mem (by decide) fun _ ↦ Convert.mem_of_mem_formatHyphenatedLower_bytes

/-- The codecs are total and stay inside their arithmetic, and the text they
build without validation is ASCII from the format's alphabet. -/
theorem codecs_total : NeverPanics ∧ EmitsAscii := ⟨neverPanics, emitsAscii⟩

end Rivid
