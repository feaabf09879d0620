import Rivid.Core.Table

/-!
# Base64URL

RFC 4648 §5 without padding on output.  The encoder works on chunks of three
bytes; the decoder takes padded and unpadded text, collects six bits a character
and emits a byte whenever it has eight, and rejects impossible lengths and
leftover bits that are not zero.

The text is the number of the bytes with spare zero bits behind it (`encode_eq`), and
what the decoder has read is a prefix of that number (`Reads`), so it accepts what the
encoder writes, with the padding or without, and nothing else.
-/

namespace Rivid.Base64Url

def alphabet : Str := ascii "ABCDEFGHIJKLMNOPQRSTUVWXYZabcdefghijklmnopqrstuvwxyz0123456789-_"

def decodeTable : List I8 := buildDecodeTable alphabet

/-- Sanity guard against pathological inputs. -/
def maxInputLen : ℕ := 8192

/-- The padding character `=`. -/
def padChar : U8 := 0x3d

/-! ## Encoding -/

/-- `ALPHABET[(n >> k) as usize & 63]`. -/
def sextet (n : U32) (k : ℕ) : U8 := alphabet[(n >>> k).toNat &&& 63]!

/-- Encodes bytes as unpadded Base64URL: chunks of three, then the remainder. -/
def encode : List U8 → Str
  | a :: b :: c :: bytes =>
      let n : U32 := a.setWidth 32 <<< 16 ||| b.setWidth 32 <<< 8 ||| c.setWidth 32
      sextet n 18 :: sextet n 12 :: sextet n 6 :: sextet n 0 :: encode bytes
  | [a, b] =>
      let n : U32 := a.setWidth 32 <<< 16 ||| b.setWidth 32 <<< 8
      [sextet n 18, sextet n 12, sextet n 6]
  | [a] =>
      let n : U32 := a.setWidth 32 <<< 16
      [sextet n 18, sextet n 12]
  | [] => []

/-! ## Decoding -/

/-- Strip at most two trailing padding characters: the end of the body and the
number stripped. -/
def stripPad (bytes : Str) : ℕ → ℕ → ℕ × ℕ
  | 0, pad => (0, pad)
  | last + 1, pad =>
      if bytes[last]! = padChar ∧ pad < 2 then stripPad bytes last (pad + 1) else (last + 1, pad)

/-- The variables of the loop in `decode`. -/
structure DecodeState where
  out : List U8
  acc : U32
  nbits : U32

/-- The body of the loop in `decode`. -/
def decodeStep (st : DecodeState) (c : U8) : Result DecodeState := do
  let d ← tableDigit 32 decodeTable c
  let acc := st.acc <<< 6 ||| d
  let nbits := st.nbits + 6
  if nbits ≥ 8 then
    let nbits := nbits - 8
    return ⟨st.out ++ [(acc >>> nbits.toNat).setWidth 8], acc, nbits⟩
  else
    return ⟨st.out, acc, nbits⟩

/-- Decodes Base64URL into the original bytes. -/
def decode (value : Str) : Result (List U8) := do
  if value.length > maxInputLen then throw (.invalidLength maxInputLen value.length)
  let strip := stripPad value value.length 0
  let body := value.take strip.1
  if body.length % 4 = 1 ∨ strip.2 > 0 ∧ (strip.1 + strip.2) % 4 ≠ 0 then
    throw (.invalidLength 0 value.length)
  let st ← body.foldlM decodeStep ⟨[], 0, 0⟩
  -- Leftover bits must be zero.
  if st.nbits > 0 ∧ st.acc &&& ((1 : U32) <<< st.nbits.toNat - 1) ≠ 0 then throw .nonCanonical
  return st.out

example : encode (ascii "fooba") = ascii "Zm9vYmE" := by decide

example : decode (ascii "Zm9vYmE=") = .ok (ascii "fooba") := by decide

example : decode (ascii "Zm9vYmF") = .error .nonCanonical := by decide

/-! ## The characters written -/

theorem alphabet_nodup : alphabet.Nodup := by decide

theorem length_decodeTable : decodeTable.length = 256 := length_buildDecodeTable alphabet

def table64 : CodeTable 64 := CodeTable.ofAlphabet alphabet_nodup (by decide) (by decide)

theorem and_63_lt (n : ℕ) : n &&& 63 < alphabet.length :=
  lt_of_le_of_lt Nat.and_le_right (by decide)

theorem sextet_mem_alphabet (n : U32) (k : ℕ) : sextet n k ∈ alphabet := by
  rw [sextet, getElem!_pos alphabet _ (and_63_lt _)]
  exact List.getElem_mem (and_63_lt _)

theorem mem_alphabet_of_mem_encode {bytes : List U8} {c : U8} (h : c ∈ encode bytes) :
    c ∈ alphabet := by
  induction bytes using encode.induct with
  | case1 x y z bytes ih =>
      simp only [encode, List.mem_cons] at h
      rcases h with rfl | rfl | rfl | rfl | h
      · exact sextet_mem_alphabet _ 18
      · exact sextet_mem_alphabet _ 12
      · exact sextet_mem_alphabet _ 6
      · exact sextet_mem_alphabet _ 0
      · exact ih h
  | case2 x y =>
      simp only [encode, List.mem_cons, List.not_mem_nil, or_false] at h
      rcases h with rfl | rfl | rfl
      · exact sextet_mem_alphabet _ 18
      · exact sextet_mem_alphabet _ 12
      · exact sextet_mem_alphabet _ 6
  | case3 x =>
      simp only [encode, List.mem_cons, List.not_mem_nil, or_false] at h
      rcases h with rfl | rfl
      · exact sextet_mem_alphabet _ 18
      · exact sextet_mem_alphabet _ 12
  | case4 => exact absurd h List.not_mem_nil

/-! ## The number of a text

`L` bytes with the number `V` are written as the `charCount L` characters of the number
`V * 2 ^ spare L`: the bits of the last character that are not used are zero. -/

open Positional

abbrev base64 : Alphabet U8 64 := table64.toAlphabet

/-- The characters that hold `L` bytes. -/
def charCount (L : ℕ) : ℕ := (8 * L + 5) / 6

/-- The bits of the last character that are not used. -/
def spare (L : ℕ) : ℕ := 6 * charCount L - 8 * L

theorem charCount_add_three (L : ℕ) : charCount (L + 3) = charCount L + 4 := by
  simp only [charCount]
  omega

theorem spare_add_three (L : ℕ) : spare (L + 3) = spare L := by
  simp only [spare, charCount_add_three]
  omega

theorem eight_mul_add_spare (L : ℕ) : 8 * L + spare L = 6 * charCount L := by
  simp only [spare, charCount]
  omega

theorem sextet_eq (n : U32) (k : ℕ) : sextet n k = base64.char (n.toNat / 2 ^ k % 64) := by
  have hmask : (n >>> k).toNat &&& 63 = (n >>> k).toNat % 64 := Nat.and_two_pow_sub_one_eq_mod _ 6
  rw [sextet, hmask, toNat_ushiftRight_eq_div]
  rfl

theorem text_four (n : ℕ) : base64.text 4 n = [base64.char (n / 2 ^ 18 % 64),
    base64.char (n / 2 ^ 12 % 64), base64.char (n / 2 ^ 6 % 64), base64.char (n % 64)] := by
  simp [Alphabet.text, digits_succ, Nat.div_div_eq_div_mul]

theorem text_three (n : ℕ) : base64.text 3 (n / 2 ^ 6) = [base64.char (n / 2 ^ 18 % 64),
    base64.char (n / 2 ^ 12 % 64), base64.char (n / 2 ^ 6 % 64)] := by
  simp [Alphabet.text, digits_succ, Nat.div_div_eq_div_mul]

theorem text_two (n : ℕ) : base64.text 2 (n / 2 ^ 12) = [base64.char (n / 2 ^ 18 % 64),
    base64.char (n / 2 ^ 12 % 64)] := by
  simp [Alphabet.text, digits_succ, Nat.div_div_eq_div_mul]

/-- The word of a chunk is its big-endian number. -/
theorem toNat_chunk (a b c : U8) :
    (a.setWidth 32 <<< 16 ||| b.setWidth 32 <<< 8 ||| c.setWidth 32 : U32).toNat =
      a.toNat * 2 ^ 16 + b.toNat * 2 ^ 8 + c.toNat := by
  have hwide : ∀ x : U8, (x.setWidth 32 : U32).toNat = x.toNat :=
    fun x ↦ BitVec.toNat_setWidth_of_le (by decide)
  have ha : (a.setWidth 32 <<< 16 : U32).toNat = a.toNat * 2 ^ 16 := by
    rw [toNat_shiftLeft_of_fits (by rw [hwide]; omega), hwide]
  have hb : (b.setWidth 32 <<< 8 : U32).toNat = b.toNat * 2 ^ 8 := by
    rw [toNat_shiftLeft_of_fits (by rw [hwide]; omega), hwide]
  have hab : (a.setWidth 32 <<< 16 ||| b.setWidth 32 <<< 8 : U32).toNat =
      a.toNat * 2 ^ 16 + b.toNat * 2 ^ 8 := by
    rw [toNat_or_of_clear (k := 16) (ha ▸ Dvd.intro_left _ rfl) (by rw [hb]; omega), ha, hb]
  rw [toNat_or_of_clear (k := 8) (hab ▸ by omega) (by rw [hwide]; exact c.isLt), hab, hwide]

theorem pow_spare (L : ℕ) : 256 ^ L * 2 ^ spare L = 64 ^ charCount L := by
  rw [show (256 : ℕ) = 2 ^ 8 from rfl, show (64 : ℕ) = 2 ^ 6 from rfl, ← pow_mul, ← pow_mul,
    ← pow_add, eight_mul_add_spare]

/-- The number of a byte string fits its characters. -/
theorem number_lt (bytes : List U8) : value 256 (bytes.map BitVec.toNat) * 2 ^ spare bytes.length <
    64 ^ charCount bytes.length := by
  have hlt := value_lt (byte_lt (l := bytes))
  rw [List.length_map] at hlt
  rw [← pow_spare]
  exact Nat.mul_lt_mul_of_pos_right hlt (Nat.two_pow_pos _)

/-- The encoder writes the text of the number. -/
theorem encode_eq (bytes : List U8) : encode bytes = base64.text (charCount bytes.length)
    (value 256 (bytes.map BitVec.toNat) * 2 ^ spare bytes.length) := by
  induction bytes using encode.induct with
  | case1 a b c bytes ih =>
      have hnum : value 256 ((a :: b :: c :: bytes).map BitVec.toNat) *
          2 ^ spare (bytes.length + 3) =
            (a.toNat * 2 ^ 16 + b.toNat * 2 ^ 8 + c.toNat) * 64 ^ charCount bytes.length +
              value 256 (bytes.map BitVec.toNat) * 2 ^ spare bytes.length := by
        simp only [List.map_cons, value_cons, List.length_cons, List.length_map, spare_add_three,
          ← pow_spare]
        ring
      rw [encode, ih]
      simp only [sextet_eq, toNat_chunk, pow_zero, Nat.div_one]
      rw [List.length_cons, List.length_cons, List.length_cons, hnum, charCount_add_three,
        Nat.add_comm _ 4, base64.text_mul_add (number_lt bytes), text_four]
      rfl
  | case2 a b =>
      have hchunk := toNat_chunk a b 0
      rw [show BitVec.setWidth 32 (0 : U8) = 0#32 from rfl, BitVec.or_zero,
        show BitVec.toNat (0 : U8) = 0 from rfl, Nat.add_zero] at hchunk
      have hnum : value 256 ([a, b].map BitVec.toNat) * 2 ^ spare 2 =
          (a.toNat * 2 ^ 16 + b.toNat * 2 ^ 8) / 2 ^ 6 := by
        rw [show spare 2 = 2 from rfl]
        simp only [List.map_cons, List.map_nil, value_cons, value_nil, List.length_cons,
          List.length_nil]
        omega
      rw [encode]
      simp only [sextet_eq, hchunk]
      rw [← text_three, ← hnum, show [a, b].length = 2 from rfl, show charCount 2 = 3 from rfl]
  | case3 a =>
      have hchunk := toNat_chunk a 0 0
      rw [show BitVec.setWidth 32 (0 : U8) = 0#32 from rfl, BitVec.zero_shiftLeft, BitVec.or_zero,
        BitVec.or_zero, show BitVec.toNat (0 : U8) = 0 from rfl, Nat.zero_mul,
        Nat.add_zero] at hchunk
      have hnum : value 256 ([a].map BitVec.toNat) * 2 ^ spare 1 = a.toNat * 2 ^ 16 / 2 ^ 12 := by
        rw [show spare 1 = 4 from rfl]
        simp only [List.map_cons, List.map_nil, value_cons, value_nil, List.length_nil]
        omega
      rw [encode]
      simp only [sextet_eq, hchunk]
      rw [← text_two, ← hnum, show [a].length = 1 from rfl, show charCount 1 = 2 from rfl]
  | case4 => rfl

/-! ## The loop of the decoder -/

/-- After `k` characters with the number `n`: the bytes out are the bits read but the
last few, which are at the low end of the accumulator.  What is above them is never
cleared and pushed out at the top in the end. -/
structure Reads (k n : ℕ) (st : DecodeState) : Prop where
  acc : st.acc.toNat = n % 2 ^ 32
  bits : 8 * st.out.length + st.nbits.toNat = 6 * k
  nbits_lt : st.nbits.toNat < 8
  out : st.out.map BitVec.toNat = digits 256 st.out.length (n / 2 ^ st.nbits.toNat)

theorem reads_start : Reads 0 0 ⟨[], 0, 0⟩ := ⟨rfl, rfl, by decide, rfl⟩

/-- What one character does. -/
theorem Reads.step {k n d : ℕ} {st : DecodeState} {c : U8} (h : Reads k n st)
    (hc : base64.digit c = some d) :
    ∃ st', decodeStep st c = .ok st' ∧ Reads (k + 1) (n * 64 + d) st' := by
  obtain ⟨x, hx, rfl⟩ := table64.tableDigit_of_some (w := 32) (by decide) hc
  have hxlt : x.toNat < 64 := base64.digit_lt c _ hc
  obtain ⟨hacc, hbits, hlt, hout⟩ := h
  have hshift : (st.acc <<< 6).toNat = n % 2 ^ 32 * 2 ^ 6 % 2 ^ 32 := by
    rw [BitVec.toNat_shiftLeft, Nat.shiftLeft_eq, hacc]
  have hacc' : (st.acc <<< 6 ||| x).toNat = (n * 64 + x.toNat) % 2 ^ 32 := by
    rw [toNat_or_of_clear (k := 6) (hshift ▸ by omega) hxlt, hshift]
    omega
  have hnbits : (st.nbits + 6).toNat = st.nbits.toNat + 6 := by
    rw [BitVec.toNat_add, show BitVec.toNat (6 : U32) = 6 from rfl]
    omega
  rw [decodeStep, show tableDigit 32 decodeTable c = .ok x from hx]
  simp only [ok_bind]
  by_cases hge : st.nbits + 6 ≥ 8
  · have hge' : 8 ≤ st.nbits.toNat + 6 := hnbits ▸ BitVec.le_def.mp hge
    have hsub : (st.nbits + 6 - 8).toNat = st.nbits.toNat - 2 := by
      rw [BitVec.toNat_sub, hnbits, show BitVec.toNat (8 : U32) = 8 from rfl]
      omega
    have hcases : st.nbits.toNat = 2 ∨ st.nbits.toNat = 4 ∨ st.nbits.toNat = 6 := by omega
    -- What was read before is above the byte that is put out.
    have hhigh : (n * 64 + x.toNat) / 2 ^ (st.nbits.toNat - 2) / 256 = n / 2 ^ st.nbits.toNat := by
      rcases hcases with h | h | h <;> rw [h] <;> omega
    -- At most four bits are below it, so it is in the 32 that the accumulator still has.
    have hbyte : (((st.acc <<< 6 ||| x) >>> (st.nbits.toNat - 2)).setWidth 8 : U8).toNat =
        (n * 64 + x.toNat) / 2 ^ (st.nbits.toNat - 2) % 256 := by
      rw [BitVec.toNat_setWidth, toNat_ushiftRight_eq_div, hacc']
      rcases hcases with h | h | h <;> rw [h] <;> omega
    rw [if_pos hge]
    refine ⟨_, rfl, hacc', ?_, ?_, ?_⟩
    · simp only [List.length_append, List.length_singleton, hsub]
      omega
    · simp only [hsub]
      omega
    · simp only [hsub, List.map_append, List.map_singleton, List.length_append,
        List.length_singleton, digits_succ, hout, hhigh, hbyte]
  · have hzero : st.nbits.toNat = 0 := by
      rw [ge_iff_le, BitVec.le_def, hnbits, show BitVec.toNat (8 : U32) = 8 from rfl] at hge
      omega
    rw [if_neg hge]
    refine ⟨_, rfl, hacc', ?_, ?_, ?_⟩
    · simp only [hnbits]
      omega
    · simp only [hnbits]
      omega
    · simp only [hnbits, hzero]
      rw [hout, hzero]
      congr 1
      omega

theorem foldlM_decodeStep_of_parse {s : Str} {k n v : ℕ} {st : DecodeState} (h : Reads k n st)
    (hs : base64.parse s = some v) :
    ∃ st', s.foldlM decodeStep st = .ok st' ∧ Reads (k + s.length) (n * 64 ^ s.length + v) st' := by
  induction s generalizing k n v st with
  | nil =>
      cases hs
      exact ⟨st, rfl, by simpa using h⟩
  | cons c s ih =>
      rw [Alphabet.parse_cons] at hs
      obtain ⟨d, hd, hs⟩ := Option.bind_eq_some_iff.mp hs
      obtain ⟨w, hw, rfl⟩ := Option.map_eq_some_iff.mp hs
      obtain ⟨next, hnext, hreads⟩ := h.step hd
      obtain ⟨st', hst', hend⟩ := ih hreads hw
      have hcount : k + 1 + s.length = k + (c :: s).length := by
        rw [List.length_cons]
        omega
      have hnum : (n * 64 + d) * 64 ^ s.length + w =
          n * 64 ^ (c :: s).length + (d * 64 ^ s.length + w) := by
        rw [List.length_cons]
        ring
      rw [hcount, hnum] at hend
      exact ⟨st', by rw [List.foldlM_cons, hnext, ok_bind, hst'], hend⟩

theorem foldlM_decodeStep_of_foreign {s : Str} (st : DecodeState) (h : base64.parse s = none) :
    ∃ e, s.foldlM decodeStep st = .error e := by
  induction s generalizing st with
  | nil => cases h
  | cons c s ih =>
      rw [List.foldlM_cons]
      cases hd : base64.digit c with
      | none =>
          have hfail : tableDigit 32 decodeTable c = .error (.invalidCharacter c) :=
            table64.tableDigit_of_none hd
          exact ⟨_, by rw [decodeStep, hfail]; rfl⟩
      | some d =>
          rw [Alphabet.parse_cons, hd, Option.bind_some, Option.map_eq_none_iff] at h
          cases hstep : decodeStep st c with
          | error e => exact ⟨e, rfl⟩
          | ok st' => exact ih st' h

/-! ## The body -/

/-- The check for leftover bits. -/
def leftover (st : DecodeState) : Result (List U8) := do
  if st.nbits > 0 ∧ st.acc &&& ((1 : U32) <<< st.nbits.toNat - 1) ≠ 0 then throw .nonCanonical
  return st.out

/-- The loop and the check after it. -/
def readBody (body : Str) : Result (List U8) := do
  let st ← body.foldlM decodeStep ⟨[], 0, 0⟩
  leftover st

/-- The test of the leftover bits. -/
theorem leftover_iff {k n : ℕ} {st : DecodeState} (h : Reads k n st) :
    (st.nbits > 0 ∧ st.acc &&& ((1 : U32) <<< st.nbits.toNat - 1) ≠ 0) ↔
      n % 2 ^ st.nbits.toNat ≠ 0 := by
  have hmasks : ∀ m < 8, ((1 : U32) <<< m - 1).toNat = 2 ^ m - 1 := by decide
  have hbits : (st.acc &&& ((1 : U32) <<< st.nbits.toNat - 1)).toNat = n % 2 ^ st.nbits.toNat := by
    have hdvd : 2 ^ st.nbits.toNat ∣ 2 ^ 32 := pow_dvd_pow 2 (by have := h.nbits_lt; omega)
    rw [toNat_and_mask (hmasks _ h.nbits_lt), h.acc, Nat.mod_mod_of_dvd n hdvd]
  have hne : st.acc &&& ((1 : U32) <<< st.nbits.toNat - 1) ≠ 0 ↔ n % 2 ^ st.nbits.toNat ≠ 0 := by
    rw [← hbits, ne_eq, ne_eq, ← BitVec.toNat_inj]
    rfl
  rw [hne]
  refine and_iff_right_of_imp fun hmod ↦ ?_
  rw [gt_iff_lt, BitVec.lt_def]
  refine Nat.pos_of_ne_zero fun hzero ↦ hmod ?_
  rw [hzero, pow_zero, Nat.mod_one]

theorem readBody_of_reads {body : Str} {st : DecodeState} {v : ℕ}
    (hst : body.foldlM decodeStep ⟨[], 0, 0⟩ = .ok st) (h : Reads body.length v st) :
    readBody body = if v % 2 ^ st.nbits.toNat ≠ 0 then .error .nonCanonical else .ok st.out := by
  rw [readBody, hst]
  simp only [ok_bind, leftover, leftover_iff h]
  split <;> rfl

/-- Characters that can be an encoding are the characters of the bytes read from them. -/
theorem Reads.counts {k n : ℕ} {st : DecodeState} (h : Reads k n st) (hk : k % 4 ≠ 1) :
    charCount st.out.length = k ∧ spare st.out.length = st.nbits.toNat := by
  have hbits := h.bits
  have hlt := h.nbits_lt
  have hsix : st.nbits.toNat ≠ 6 := by omega
  have hcount : charCount st.out.length = k := by
    rw [charCount]
    omega
  have hspare := eight_mul_add_spare st.out.length
  rw [hcount] at hspare
  exact ⟨hcount, by omega⟩

theorem length_encode (b : List U8) : (encode b).length = charCount b.length := by
  rw [encode_eq, base64.length_text]

theorem parse_encode (b : List U8) : base64.parse (encode b) =
    some (value 256 (b.map BitVec.toNat) * 2 ^ spare b.length) := by
  rw [encode_eq, base64.parse_text (by decide) (number_lt b)]

/-- A byte count can be read off the count of characters. -/
theorem charCount_inj {L L' : ℕ} (h : charCount L = charCount L') : L = L' := by
  simp only [charCount] at h
  omega

/-- A body of a possible length is accepted if it is an encoding. -/
theorem readBody_eq_ok_iff {body : Str} {b : List U8} (hmod : body.length % 4 ≠ 1) :
    readBody body = .ok b ↔ body = encode b := by
  cases hparse : base64.parse body with
  | none =>
      obtain ⟨e, he⟩ := foldlM_decodeStep_of_foreign ⟨[], 0, 0⟩ hparse
      have hfail : readBody body = .error e := by rw [readBody, he]; rfl
      refine iff_of_false (fun hok ↦ ?_) fun henc ↦ ?_
      · rw [hfail] at hok
        cases hok
      · rw [henc, parse_encode] at hparse
        cases hparse
  | some v =>
      obtain ⟨st, hst, hreads⟩ := foldlM_decodeStep_of_parse reads_start hparse
      rw [Nat.zero_mul, Nat.zero_add, Nat.zero_add] at hreads
      obtain ⟨hcount, hspare⟩ := hreads.counts hmod
      have hout := hreads.out
      rw [readBody_of_reads hst hreads, ← hspare]
      rw [← hspare] at hout
      constructor
      · intro hok
        split at hok
        · cases hok
        · next hzero =>
            cases hok
            have hlt : v / 2 ^ spare st.out.length < 256 ^ st.out.length := by
              rw [Nat.div_lt_iff_lt_mul (Nat.two_pow_pos _), pow_spare, hcount]
              exact base64.parse_lt hparse
            have hnum : v / 2 ^ spare st.out.length * 2 ^ spare st.out.length = v :=
              Nat.div_mul_cancel (Nat.dvd_of_mod_eq_zero (not_not.mp hzero))
            have htext := base64.text_parse hparse
            rw [encode_eq, hout, value_digits hlt, hnum, hcount, htext]
            exact (List.map_id body).symm
      · intro henc
        have hlen : b.length = st.out.length := by
          apply charCount_inj
          rw [← length_encode, ← henc, hcount]
        rw [henc, parse_encode, Option.some.injEq, hlen] at hparse
        have hzero : ¬ v % 2 ^ spare st.out.length ≠ 0 := by
          rw [← hparse, Nat.mul_mod_left]
          exact not_not.mpr rfl
        rw [if_neg hzero, Except.ok.injEq]
        apply map_toNat_injective
        rw [hout, ← hparse, Nat.mul_div_cancel _ (Nat.two_pow_pos _), ← hlen]
        have hdigits := digits_value (by decide) (byte_lt (l := b))
        rwa [List.length_map] at hdigits

/-! ## Padding -/

/-- The padding that brings an encoding to a multiple of four characters. -/
def padded (b : List U8) : Str :=
  encode b ++ List.replicate ((4 - (encode b).length % 4) % 4) padChar

theorem padChar_notMem_encode (b : List U8) : padChar ∉ encode b := by
  intro h
  exact absurd (mem_alphabet_of_mem_encode h) (by decide)

section Strip

variable {s t : Str}

/-- What is stripped is padding, of at most two characters. -/
theorem stripPad_spec (s : Str) {n q : ℕ} (hn : n ≤ s.length) (hq : q ≤ 2) :
    ∃ p, (stripPad s n q).2 = q + p ∧ (stripPad s n q).1 + p = n ∧ q + p ≤ 2 ∧
      s.take n = s.take (stripPad s n q).1 ++ List.replicate p padChar := by
  induction n generalizing q with
  | zero => exact ⟨0, rfl, rfl, hq, by simp [stripPad]⟩
  | succ last ih =>
      rw [stripPad]
      split
      · next h =>
          obtain ⟨hpad, hlt⟩ := h
          obtain ⟨p, hcount, hend, hle, htake⟩ := ih (q := q + 1) (by omega) (by omega)
          refine ⟨p + 1, by omega, by omega, by omega, ?_⟩
          rw [List.take_succ_eq_append_getElem hn, htake, List.replicate_succ', ← List.append_assoc,
            ← getElem!_pos s last hn, hpad]
      · exact ⟨0, rfl, rfl, hq, by simp⟩

/-- Up to two characters of padding after a text without any are stripped. -/
theorem stripPad_append (h : padChar ∉ t) {n p q : ℕ} (hp : q + p ≤ 2) (hn : p ≤ n) :
    stripPad (t ++ List.replicate n padChar) (t.length + p) q = (t.length, q + p) := by
  induction p generalizing q with
  | zero =>
      cases ht : t.length with
      | zero => rfl
      | succ last =>
          have hlast : last < t.length := by omega
          have hne : (t ++ List.replicate n padChar)[last]! ≠ padChar := by
            rw [getElem!_pos _ last (by simp; omega), List.getElem_append_left hlast]
            exact fun he ↦ h (he ▸ List.getElem_mem hlast)
          rw [Nat.add_zero, Nat.add_zero, stripPad, if_neg fun hand ↦ hne hand.1]
          rfl
  | succ p ih =>
      have hat : (t ++ List.replicate n padChar)[t.length + p]! = padChar := by
        rw [getElem!_pos _ (t.length + p) (by simp; omega),
          List.getElem_append_right (Nat.le_add_right _ _), List.getElem_replicate]
      rw [← Nat.add_assoc, stripPad, if_pos ⟨hat, by omega⟩, ih (by omega) (by omega)]
      exact congrArg (Prod.mk t.length) (by omega)

end Strip

/-! ## What is accepted -/

section Accept

variable {s : Str} {b : List U8}

theorem decode_eq (hlen : s.length ≤ maxInputLen) : decode s =
    if (s.take (stripPad s s.length 0).1).length % 4 = 1 ∨ (stripPad s s.length 0).2 > 0 ∧
        ((stripPad s s.length 0).1 + (stripPad s s.length 0).2) % 4 ≠ 0 then
      .error (.invalidLength 0 s.length)
    else readBody (s.take (stripPad s s.length 0).1) := by
  rw [decode, if_neg (Nat.not_lt.mpr hlen)]
  dsimp only
  split <;> rfl

/-- An encoding with its padding or without is decoded. -/
theorem decode_encode_append {p : ℕ} (hp : p = 0 ∨ p = (4 - (encode b).length % 4) % 4)
    (hlen : (encode b ++ List.replicate p padChar).length ≤ maxInputLen) :
    decode (encode b ++ List.replicate p padChar) = .ok b := by
  have hmod : (encode b).length % 4 ≠ 1 := by
    rw [length_encode, charCount]
    omega
  have hstrip : stripPad (encode b ++ List.replicate p padChar)
      (encode b ++ List.replicate p padChar).length 0 = ((encode b).length, p) := by
    rw [List.length_append, List.length_replicate,
      stripPad_append (padChar_notMem_encode b) (by omega) le_rfl, Nat.zero_add]
  have htest : ¬ ((encode b).length % 4 = 1 ∨ p > 0 ∧ ((encode b).length + p) % 4 ≠ 0) := by omega
  rw [decode_eq hlen, hstrip, List.take_left' rfl, if_neg htest]
  exact (readBody_eq_ok_iff hmod).mpr rfl

/-- What is decoded is an encoding with its padding or without. -/
theorem eq_of_decode (h : decode s = .ok b) :
    s.length ≤ maxInputLen ∧ (s = encode b ∨ s = padded b) := by
  by_cases hlen : s.length ≤ maxInputLen
  · obtain ⟨p, hcount, hend, hle, htake⟩ := stripPad_spec s le_rfl (q := 0) (by decide)
    rw [List.take_length] at htake
    rw [decode_eq hlen] at h
    split at h
    · cases h
    · next htest =>
        rw [not_or] at htest
        have hbody := (readBody_eq_ok_iff htest.1).mp h
        rw [hbody] at htake htest
        refine ⟨hlen, ?_⟩
        have hstop : (stripPad s s.length 0).1 = (encode b).length := by
          have := congrArg List.length htake
          rw [List.length_append, List.length_replicate] at this
          omega
        rcases Nat.eq_zero_or_pos p with rfl | hpos
        · left
          simpa using htake
        · right
          rw [padded, htake]
          congr 2
          omega
  · rw [decode, if_pos (Nat.lt_of_not_le hlen)] at h
    cases h

end Accept

/-- **Base64URL decoding accepts the canonical encodings, and only these.**  Up to 6144
bytes are decoded from their encoding, padded or not; a string is accepted if it is within
the guard and is the encoding of some bytes, padded to a multiple of four or not, so strings
without padding are told apart by what they decode to. -/
theorem canonical_decode :
    (∀ b : List U8, b.length ≤ 6144 → decode (encode b) = .ok b ∧ decode (padded b) = .ok b) ∧
    (∀ s : Str, (∃ b, decode s = .ok b) ↔
      s.length ≤ maxInputLen ∧ ∃ b, s = encode b ∨ s = padded b) ∧
    ∀ (s t : Str) (b : List U8), padChar ∉ s → padChar ∉ t → decode s = .ok b →
      decode t = .ok b → s = t := by
  have hunpadded : ∀ b, encode b = encode b ++ List.replicate 0 padChar := by simp
  have hbare : ∀ s b, padChar ∉ s → decode s = .ok b → s = encode b := by
    intro s b hs hb
    rcases (eq_of_decode hb).2 with h | h
    · exact h
    · rw [padded] at h
      rw [h] at hs ⊢
      have hnone : (4 - (encode b).length % 4) % 4 = 0 := by
        by_contra hne
        exact hs (List.mem_append_right _ (List.mem_replicate.mpr ⟨hne, rfl⟩))
      rw [hnone]
      exact (hunpadded b).symm
  refine ⟨fun b hb ↦ ⟨?_, ?_⟩, fun s ↦ ⟨?_, ?_⟩, ?_⟩
  · rw [hunpadded]
    refine decode_encode_append (.inl rfl) ?_
    rw [List.length_append, List.length_replicate, length_encode, charCount, maxInputLen]
    omega
  · refine decode_encode_append (.inr rfl) ?_
    rw [List.length_append, List.length_replicate, length_encode, charCount, maxInputLen]
    omega
  · rintro ⟨b, hb⟩
    exact ⟨(eq_of_decode hb).1, b, (eq_of_decode hb).2⟩
  · rintro ⟨hlen, b, rfl | rfl⟩
    · rw [hunpadded] at hlen ⊢
      exact ⟨b, decode_encode_append (.inl rfl) hlen⟩
    · exact ⟨b, decode_encode_append (.inr rfl) hlen⟩
  · intro s t b hs ht hsb htb
    rw [hbare s b hs hsb, hbare t b ht htb]

end Rivid.Base64Url
