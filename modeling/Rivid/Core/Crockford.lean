import Rivid.Core.Table

/-!
# The Crockford Base32 codec

The ULID text codec: 26 characters of the alphabet without `I`, `L`, `O` and
`U`, read in either letter case.  The encoder works on 10-bit groups from the
low end through a table of character pairs; the decoder sets 5-bit digits from
the high end.

Both are compared with the positional numerals of `base32`: `encodeString_eq`
says the encoder writes the 26-digit text of the value, and
`decodeChars_eq_ok_iff` that the decoder reads exactly the 26-character strings
whose number fits 128 bits.
-/

namespace Rivid

/-- `is_ascii_uppercase`. -/
def isAsciiUppercase (c : U8) : Bool := 0x41 ≤ c && c ≤ 0x5a

/-- `to_ascii_uppercase`. -/
def toAsciiUppercase (c : U8) : U8 := if 0x61 ≤ c && c ≤ 0x7a then c - 32 else c

namespace Crockford

/-! ## Tables -/

def alphabet : Str := ascii "0123456789ABCDEFGHJKMNPQRSTVWXYZ"

/-- `build_decode_table`. -/
def buildDecodeTable : List I8 :=
  (List.range 32).foldl (fun table i ↦
      let c := alphabet[i]!
      let table := table.set c.toNat (BitVec.ofNat 8 i)
      -- Case-insensitive: the lowercase equivalent of letters only.
      if isAsciiUppercase c then table.set (c + 32).toNat (BitVec.ofNat 8 i) else table)
    (List.replicate 256 invalid)

/-- Maps a byte to its alphabet index, or `invalid`. -/
def decodeTable : List I8 := buildDecodeTable

/-- Two characters per 10-bit group: the entry `PAIR[i]`. -/
def pair (i : ℕ) : U8 × U8 := (alphabet[(i >>> 5) &&& 0x1f]!, alphabet[i &&& 0x1f]!)

def digit (c : U8) : Result U128 := tableDigit 128 decodeTable c

def isAlphabetChar (c : U8) : Bool := decodeTable[c.toNat]! != invalid

/-! ## The encoder -/

/-- The variables of the loop in `encode_value`. -/
structure EncodeState where
  out : List U8
  rest : U128
  pos : ℕ

/-- One round of the loop in `encode_value`. -/
def encodeGroup (st : EncodeState) (group : ℕ) : EncodeState :=
  let pr := pair (st.rest &&& 0x3ff).toNat
  { out := (st.out.set st.pos pr.1).set (st.pos + 1) pr.2
    rest := st.rest >>> 10
    pos := if group < 12 then st.pos - 2 else st.pos }

/-- The loop of `encode_value` after a number of rounds. -/
def encodeGroups (value : U128) (groups : ℕ) : EncodeState :=
  (List.range groups).foldl encodeGroup ⟨List.replicate 26 0, value, 24⟩

theorem encodeGroups_succ (value : U128) (k : ℕ) :
    encodeGroups value (k + 1) = encodeGroup (encodeGroups value k) k := by
  simp [encodeGroups, List.range_succ]

theorem length_encodeGroups (value : U128) (groups : ℕ) :
    (encodeGroups value groups).out.length = 26 := by
  induction groups with
  | zero => rfl
  | succ k ih => simpa [encodeGroups_succ, encodeGroup] using ih

/-- Encode a 128-bit value into exactly 26 characters, most significant first. -/
def encodeValue (value : U128) : Bytes 26 :=
  ⟨(encodeGroups value 13).out, length_encodeGroups value 13⟩

/-- Encode a value as a string. -/
def encodeString (value : U128) : Str := (encodeValue value).val

@[simp] theorem length_encodeString (value : U128) : (encodeString value).length = 26 :=
  (encodeValue value).property

/-- The loop of `encode_time` from position `pos` down. -/
def encodeTimeLoop : ℕ → U64 → Str → Str
  | 0, ts, out => out.set 0 alphabet[(ts &&& 0x1f).toNat]!
  | pos + 1, ts, out =>
      encodeTimeLoop pos (ts >>> 5) (out.set (pos + 1) alphabet[(ts &&& 0x1f).toNat]!)

@[simp] theorem length_encodeTimeLoop (pos : ℕ) (ts : U64) (out : Str) :
    (encodeTimeLoop pos ts out).length = out.length := by
  induction pos generalizing ts out with
  | zero => exact List.length_set
  | succ pos ih => rw [encodeTimeLoop, ih, List.length_set]

/-- Encode a millisecond timestamp as its canonical 10-character form. -/
def encodeTime (timestampMs : U64) : Result (Bytes 10) :=
  if timestampMs > timeMax then .error (.timestampOutOfRange timestampMs)
  else .ok ⟨encodeTimeLoop 9 timestampMs (List.replicate 10 0), by simp⟩

/-- Encode a timestamp directly to a string. -/
def encodeTimeStr (timestampMs : U64) : Result Str := (encodeTime timestampMs).map Subtype.val

/-! ## The decoder -/

/-- The loop of `decode_chars` from index `i` on, with the characters left. -/
def decodeLoop (value : U128) (i : ℕ) : List U8 → Result U128
  | [] => .ok value
  | c :: chars => do
      let d ← digit c
      -- Only the low 3 bits of the first digit fit in 128 bits.
      if i = 0 ∧ d > 7 then throw .valueTooLarge
      decodeLoop (value ||| d <<< (125 - 5 * i)) (i + 1) chars

/-- Decode exactly 26 characters into their 128-bit value. -/
def decodeChars (chars : Str) : Result U128 :=
  if chars.length ≠ 26 then .error (.invalidLength 26 chars.length)
  else decodeLoop 0 0 chars

/-- Decode a 10-character timestamp component back to milliseconds. -/
def decodeTimeBytes (chars : Str) : Result U64 := do
  if chars.length ≠ 10 then throw (.invalidLength 10 chars.length)
  let time ← chars.foldlM (fun (time : U64) c ↦ do
    let d ← digit c
    pure (time * 32 + d.setWidth 64)) 0
  if time > timeMax then throw .valueTooLarge
  return time

/-! ## The alphabet -/

theorem alphabet_ascending : alphabet.Pairwise (· < ·) :=
  List.isChain_iff_pairwise.mp (by decide)

theorem alphabet_nodup : alphabet.Nodup := alphabet_ascending.imp BitVec.ne_of_lt

theorem range_of_mem_alphabet {c : U8} (h : c ∈ alphabet) :
    (0x30 ≤ c ∧ c ≤ 0x39) ∨ (0x41 ≤ c ∧ c ≤ 0x5a) := by
  have hall : (alphabet.all fun c ↦ (0x30 ≤ c && c ≤ 0x39) || (0x41 ≤ c && c ≤ 0x5a)) = true := by
    decide
  simpa using List.all_eq_true.mp hall c h

/-- One round of `build_decode_table`. -/
def setEntries (table : List I8) (i : ℕ) : List I8 :=
  let c := alphabet[i]!
  let table := table.set c.toNat (BitVec.ofNat 8 i)
  if isAsciiUppercase c then table.set (c + 32).toNat (BitVec.ofNat 8 i) else table

theorem decodeTable_eq :
    decodeTable = (List.range 32).foldl setEntries (List.replicate 256 invalid) := rfl

theorem length_setEntries (table : List I8) (i : ℕ) :
    (setEntries table i).length = table.length := by
  rw [setEntries]
  split <;> simp only [List.length_set]

theorem length_decodeTable : decodeTable.length = 256 := by
  rw [decodeTable_eq, length_foldl length_setEntries, List.length_replicate]

/-- A round writes the entries of its character in both cases. -/
theorem getElem?_setEntries {table : List I8} {i : ℕ} (hi : i < alphabet.length)
    (hsize : table.length = 256) (c : U8) : (setEntries table i)[c.toNat]? =
      if alphabet[i] = toAsciiUppercase c then some (BitVec.ofNat 8 i) else table[c.toNat]? := by
  have hrange := range_of_mem_alphabet (List.getElem_mem hi)
  rw [setEntries, getElem!_pos alphabet i hi]
  generalize alphabet[i] = a at hrange
  have hset : ∀ (b : U8) (table : List I8), table.length = 256 →
      (table.set b.toNat (BitVec.ofNat 8 i))[c.toNat]? =
        if b = c then some (BitVec.ofNat 8 i) else table[c.toNat]? := by
    intro b table hsize
    rw [List.getElem?_set, hsize, if_pos b.isLt]
    simp only [BitVec.toNat_inj]
  have hfold : a = toAsciiUppercase c ↔ (isAsciiUppercase a = true ∧ a + 32 = c) ∨ a = c := by
    unfold toAsciiUppercase isAsciiUppercase
    grind
  simp only [hfold]
  by_cases hupper : isAsciiUppercase a = true
  · rw [if_pos hupper, hset _ _ (by rw [List.length_set, hsize]), hset _ _ hsize]
    grind
  · rw [if_neg hupper, hset _ _ hsize]
    grind

/-- The entry of a byte is the index of its upper-case form. -/
theorem getElem!_decodeTable (c : U8) : decodeTable[c.toNat]! =
    if toAsciiUppercase c ∈ alphabet then BitVec.ofNat 8 (alphabet.idxOf (toAsciiUppercase c))
    else invalid := by
  have hentry := getElem?_foldl_rounds alphabet_nodup length_setEntries
    (fun _ _ hi c hsize ↦ getElem?_setEntries hi hsize c) le_rfl c
  rw [List.take_length, show alphabet.length = 32 from rfl, ← decodeTable_eq] at hentry
  rw [List.getElem!_eq_getElem?_getD, hentry, Option.getD_some]

/-- An entry other than `invalid` is the index of the byte's upper-case form. -/
theorem decodeTable_entry (n : ℕ) (hn : n < 256) (hne : decodeTable[n]! ≠ invalid) :
    (decodeTable[n]!).toNat < 32 ∧
      alphabet[(decodeTable[n]!).toNat]! = toAsciiUppercase (BitVec.ofNat 8 n) := by
  have hentry := getElem!_decodeTable (BitVec.ofNat 8 n)
  rw [BitVec.toNat_ofNat, Nat.mod_eq_of_lt hn] at hentry
  rw [hentry] at hne ⊢
  by_cases hmem : toAsciiUppercase (BitVec.ofNat 8 n) ∈ alphabet
  · have hidx : alphabet.idxOf (toAsciiUppercase (BitVec.ofNat 8 n)) < 32 :=
      List.idxOf_lt_length_of_mem hmem
    rw [if_pos hmem, BitVec.toNat_ofNat, Nat.mod_eq_of_lt (by omega),
      getElem!_pos alphabet _ hidx]
    exact ⟨hidx, List.getElem_idxOf hidx⟩
  · exact absurd (if_neg hmem) hne

/-- The characters the table knows are those of the alphabet in either case. -/
theorem isAlphabetChar_iff_mem (c : U8) :
    isAlphabetChar c = true ↔ toAsciiUppercase c ∈ alphabet := by
  rw [isAlphabetChar, getElem!_decodeTable, bne_iff_ne]
  by_cases hmem : toAsciiUppercase c ∈ alphabet
  · have hidx : alphabet.idxOf (toAsciiUppercase c) < 32 := List.idxOf_lt_length_of_mem hmem
    rw [if_pos hmem]
    exact iff_of_true (ofNat_ne_invalid (by omega)) hmem
  · rw [if_neg hmem]
    exact iff_of_false (not_not_intro rfl) hmem

/-- The characters the table knows are ASCII, from `'0'` on. -/
theorem range_of_isAlphabetChar {c : U8} (h : isAlphabetChar c = true) : 0x30 ≤ c ∧ c < 0x80 := by
  have hrange := range_of_mem_alphabet ((isAlphabetChar_iff_mem c).mp h)
  unfold toAsciiUppercase at hrange
  grind

/-- The Crockford alphabet, reading both letter cases. -/
def table32 : CodeTable 32 where
  alphabet := alphabet
  table := decodeTable
  fold := toAsciiUppercase
  base_le := by decide
  table_char := by decide
  table_lt := fun n hn h ↦ (decodeTable_entry n hn h).1
  char_table := fun n hn h ↦ (decodeTable_entry n hn h).2

abbrev base32 : Alphabet U8 32 := table32.toAlphabet

theorem isAlphabetChar_iff {c : U8} : isAlphabetChar c = true ↔ (base32.digit c).isSome := by
  rw [isAlphabetChar, table32.digit_def]
  change _ ↔ (if decodeTable[c.toNat]! = invalid then none else _).isSome = true
  split <;> simp_all

theorem base32_char_lt_iff :
    ∀ d e, d < 32 → e < 32 → (base32.char d < base32.char e ↔ d < e) :=
  table32.char_lt_iff (by decide) alphabet_ascending

theorem digit_of_some {c : U8} {d : ℕ} (h : base32.digit c = some d) :
    ∃ x : U128, digit c = .ok x ∧ x.toNat = d := table32.tableDigit_of_some (by decide) h

theorem digit_of_none {c : U8} (h : base32.digit c = none) :
    digit c = .error (.invalidCharacter c) := table32.tableDigit_of_none h

/-! ## The encoder writes the base-32 text -/

theorem pair_eq (i : ℕ) : pair i = (base32.char (i / 32 % 32), base32.char (i % 32)) := by
  have h : ∀ n : ℕ, n &&& 0x1f = n % 32 := fun n ↦ Nat.and_two_pow_sub_one_eq_mod n 5
  rw [pair, h, h, Nat.shiftRight_eq_div_pow]
  rfl

/-- The two characters of a group are its two base-32 digits. -/
theorem text_two (w : ℕ) : base32.text 2 w = [(pair (w % 1024)).1, (pair (w % 1024)).2] := by
  have h₁ : w % 1024 / 32 % 32 = w / 32 % 32 := by omega
  have h₂ : w % 1024 % 32 = w % 32 := by omega
  rw [pair_eq, h₁, h₂]
  rfl

/-- After `k` rounds the low `2 k` characters stand in place and the position
is at the next pair; the guard on the last round only keeps it from running
below zero. -/
theorem encodeGroups_spec (value : U128) {k : ℕ} (hk : k ≤ 13) :
    (encodeGroups value k).out =
        List.replicate (26 - 2 * k) 0 ++ base32.text (2 * k) value.toNat ∧
      (encodeGroups value k).rest.toNat = value.toNat / 32 ^ (2 * k) ∧
      (encodeGroups value k).pos = 24 - 2 * k := by
  induction k with
  | zero => exact ⟨by simp [encodeGroups, Alphabet.text], by simp [encodeGroups], rfl⟩
  | succ k ih =>
      obtain ⟨hout, hrest, hpos⟩ := ih (by omega)
      have hmask : ((encodeGroups value k).rest &&& 0x3ff).toNat =
          value.toNat / 32 ^ (2 * k) % 1024 := by
        rw [toNat_and_mask (k := 10) rfl, hrest]
        rfl
      rw [encodeGroups_succ]
      refine ⟨?_, ?_, ?_⟩
      · simp only [encodeGroup, hmask, hout, hpos]
        rw [show 2 * (k + 1) = 2 + 2 * k by omega, Alphabet.text_add, text_two,
          show 26 - 2 * k = 24 - 2 * k + 1 + 1 by omega,
          show 26 - (2 + 2 * k) = 24 - 2 * k by omega, List.replicate_succ', List.replicate_succ']
        simp
      · simp only [encodeGroup]
        rw [toNat_ushiftRight_eq_div, hrest, Nat.div_div_eq_div_mul,
          show 2 * (k + 1) = 2 * k + 2 by omega, pow_add]
        rfl
      · simp only [encodeGroup, hpos]
        split <;> omega

theorem encodeString_eq (value : U128) : encodeString value = base32.text 26 value.toNat := by
  have h := (encodeGroups_spec value (le_refl 13)).1
  rw [Nat.sub_self, List.replicate_zero, List.nil_append] at h
  simp only [encodeString, encodeValue, h]

/-- The loop of `encode_time` writes the text up to its position and keeps the rest. -/
theorem encodeTimeLoop_spec {pos : ℕ} {ts : U64} {out : Str} (hpos : pos < out.length) :
    encodeTimeLoop pos ts out = base32.text (pos + 1) ts.toNat ++ out.drop (pos + 1) := by
  have hdigit : ∀ ts : U64, base32.text 1 ts.toNat = [alphabet[(ts &&& 0x1f).toNat]!] := by
    intro ts
    rw [toNat_and_mask (k := 5) rfl]
    rfl
  induction pos generalizing ts out with
  | zero =>
      obtain ⟨c, cs, rfl⟩ := List.exists_cons_of_length_pos hpos
      rw [encodeTimeLoop, hdigit]
      rfl
  | succ pos ih =>
      have hdrop : (out.set (pos + 1) alphabet[(ts &&& 0x1f).toNat]!).drop (pos + 1) =
          alphabet[(ts &&& 0x1f).toNat]! :: out.drop (pos + 2) := by
        rw [List.drop_eq_getElem_cons (by rwa [List.length_set]), List.getElem_set_self,
          List.drop_set_of_lt (Nat.lt_succ_self _)]
      rw [encodeTimeLoop, ih (by rw [List.length_set]; omega), hdrop,
        Alphabet.text_add _ (pos + 1) 1, hdigit ts, toNat_ushiftRight_eq_div, List.append_assoc]
      rfl

/-- The time text is the 10-digit base-32 text of the timestamp. -/
theorem encodeTimeStr_eq {ts : U64} (h : ts ≤ timeMax) :
    encodeTimeStr ts = .ok (base32.text 10 ts.toNat) := by
  have hspec : encodeTimeLoop 9 ts (List.replicate 10 0) =
      base32.text 10 ts.toNat ++ (List.replicate 10 0).drop 10 := encodeTimeLoop_spec (by decide)
  rw [List.drop_eq_nil_of_le (by decide), List.append_nil] at hspec
  rw [encodeTimeStr, encodeTime, if_neg (BitVec.not_lt.mpr h)]
  exact congrArg Except.ok hspec

theorem toNat_lt_pow (v : U128) : v.toNat < 32 ^ 26 := lt_trans v.isLt (by decide)

/-- Base-32 text is ordered as the values. -/
theorem encodeString_lt_iff {a b : U128} : encodeString a < encodeString b ↔ a < b := by
  rw [encodeString_eq, encodeString_eq, base32.text_lt_text_iff (by decide) base32_char_lt_iff
    (toNat_lt_pow a) (toNat_lt_pow b), BitVec.lt_def]

/-! ## The decoder reads base-32 numbers -/

/-- From the second character on, the decoder adds the number the characters
stand for: each digit lands in five bits that are still clear. -/
theorem decodeLoop_of_parse {chars : Str} (acc : U128) {i v : ℕ} (hi : i ≠ 0)
    (hlen : chars.length + i = 26) (hacc : 2 ^ (5 * chars.length) ∣ acc.toNat)
    (h : base32.parse chars = some v) :
    ∃ r, decodeLoop acc i chars = .ok r ∧ r.toNat = acc.toNat + v := by
  induction chars generalizing acc i v with
  | nil =>
      cases h
      exact ⟨acc, rfl, rfl⟩
  | cons c chars ih =>
      rw [Alphabet.parse_cons] at h
      obtain ⟨d, hd, h⟩ := Option.bind_eq_some_iff.mp h
      obtain ⟨w, hw, rfl⟩ := Option.map_eq_some_iff.mp h
      obtain ⟨x, hx, rfl⟩ := digit_of_some hd
      have hxlt : x.toNat < 32 := base32.digit_lt c _ hd
      rw [List.length_cons] at hlen hacc
      have hshift : 125 - 5 * i = 5 * chars.length := by omega
      have hpow : 2 ^ (5 * (chars.length + 1)) = 32 * 2 ^ (5 * chars.length) := by
        rw [Nat.mul_succ, pow_add, Nat.mul_comm]
        rfl
      have hd' : x.toNat * 2 ^ (5 * chars.length) < 2 ^ (5 * (chars.length + 1)) := by
        rw [hpow]
        exact Nat.mul_lt_mul_of_pos_right hxlt (Nat.two_pow_pos _)
      have hfit : (x <<< (5 * chars.length)).toNat = x.toNat * 2 ^ (5 * chars.length) :=
        toNat_shiftLeft_of_fits (lt_of_lt_of_le hd' (Nat.pow_le_pow_right (by decide) (by omega)))
      have hor : (acc ||| x <<< (5 * chars.length)).toNat =
          acc.toNat + x.toNat * 2 ^ (5 * chars.length) := by
        rw [toNat_or_of_clear hacc (by rw [hfit]; exact hd'), hfit]
      obtain ⟨r, hr, hval⟩ := ih (acc ||| x <<< (5 * chars.length)) (i := i + 1)
        (by omega) (by omega) (by
          rw [hor]
          exact Nat.dvd_add (dvd_trans (pow_dvd_pow 2 (by omega)) hacc) (Dvd.intro_left _ rfl)) hw
      refine ⟨r, ?_, ?_⟩
      · simp [decodeLoop, hx, hi, hshift, hr]
      · rw [hval, hor, show (32 : ℕ) = 2 ^ 5 from rfl, ← pow_mul]
        omega

/-- A foreign byte stops the decoder, and it is the first one that is reported. -/
theorem decodeLoop_of_foreign {chars : Str} (acc : U128) {i : ℕ} (hi : i ≠ 0)
    (h : base32.parse chars = none) :
    ∃ c, chars.find? (fun c ↦ !isAlphabetChar c) = some c ∧
      decodeLoop acc i chars = .error (.invalidCharacter c) := by
  induction chars generalizing acc i with
  | nil => cases h
  | cons c chars ih =>
      cases hd : base32.digit c with
      | none =>
          have hc : isAlphabetChar c = false := by
            rw [Bool.eq_false_iff, ne_eq, isAlphabetChar_iff, hd]
            simp
          exact ⟨c, by simp [hc], by simp [decodeLoop, digit_of_none hd]⟩
      | some d =>
          have hc : isAlphabetChar c = true := by rw [isAlphabetChar_iff, hd]; rfl
          rw [Alphabet.parse_cons, hd] at h
          obtain ⟨x, hx, -⟩ := digit_of_some hd
          obtain ⟨e, he, hloop⟩ := ih (acc ||| x <<< (125 - 5 * i)) (i := i + 1) (by omega)
            (by simpa using h)
          exact ⟨e, by simpa [hc] using he, by simp [decodeLoop, hx, hi, hloop]⟩

/-! ## What the decoder returns

A string of 26 characters either starts with a foreign byte, starts with a
digit above 7, has a foreign byte further on, or is accepted. -/

section Outcome

variable {c : U8} {chars : Str}

theorem decodeChars_cons (hlen : chars.length = 25) :
    decodeChars (c :: chars) = decodeLoop 0 0 (c :: chars) := if_neg (by simp [hlen])

theorem decodeChars_head_foreign (hlen : chars.length = 25) (hc : base32.digit c = none) :
    decodeChars (c :: chars) = .error (.invalidCharacter c) := by
  rw [decodeChars_cons hlen, decodeLoop, digit_of_none hc, error_bind]

theorem decodeChars_head_large (hlen : chars.length = 25) {d : ℕ} (hc : base32.digit c = some d)
    (hd : 7 < d) : decodeChars (c :: chars) = .error .valueTooLarge := by
  obtain ⟨x, hx, rfl⟩ := digit_of_some hc
  rw [decodeChars_cons hlen, decodeLoop, hx, ok_bind, if_pos ⟨rfl, hd⟩]
  rfl

/-- A first digit of at most 7 is read, and the other characters follow. -/
theorem decodeChars_head_small (hlen : chars.length = 25) {d : ℕ} (hc : base32.digit c = some d)
    (hd : d ≤ 7) : ∃ acc : U128, acc.toNat = d * 2 ^ 125 ∧
      decodeChars (c :: chars) = decodeLoop acc 1 chars := by
  obtain ⟨x, hx, rfl⟩ := digit_of_some hc
  refine ⟨0#128 ||| x <<< 125, ?_, ?_⟩
  · rw [BitVec.zero_or, toNat_shiftLeft_of_fits (by omega)]
  · have hle : ¬ x > 7 := by
      rw [gt_iff_lt, BitVec.lt_def]
      exact Nat.not_lt.mpr hd
    rw [decodeChars_cons hlen, decodeLoop, hx, ok_bind, if_neg (fun h ↦ hle h.2)]
    rfl

theorem decodeChars_tail_foreign (hlen : chars.length = 25) {d : ℕ} (hc : base32.digit c = some d)
    (hd : d ≤ 7) (h : base32.parse chars = none) :
    ∃ e, chars.find? (fun c ↦ !isAlphabetChar c) = some e ∧
      decodeChars (c :: chars) = .error (.invalidCharacter e) := by
  obtain ⟨acc, -, hacc⟩ := decodeChars_head_small hlen hc hd
  rw [hacc]
  exact decodeLoop_of_foreign acc (by decide) h

theorem decodeChars_of_parse (hlen : chars.length = 25) {d w : ℕ} (hc : base32.digit c = some d)
    (hd : d ≤ 7) (h : base32.parse chars = some w) :
    ∃ r, decodeChars (c :: chars) = .ok r ∧ r.toNat = d * 32 ^ 25 + w := by
  obtain ⟨acc, hval, hacc⟩ := decodeChars_head_small hlen hc hd
  obtain ⟨r, hr, hrval⟩ := decodeLoop_of_parse acc (i := 1) (by decide) (by omega)
    (by rw [hval, hlen]; exact Dvd.intro_left _ rfl) h
  exact ⟨r, hacc.trans hr, by rw [hrval, hval]; norm_num⟩

end Outcome

theorem decodeChars_of_length_ne {s : Str} (h : s.length ≠ 26) :
    decodeChars s = .error (.invalidLength 26 s.length) := if_pos h

/-- The decoder accepts exactly the strings of 26 characters that stand for a
128-bit number, and returns it. -/
theorem decodeChars_eq_ok_iff {s : Str} {v : U128} :
    decodeChars s = .ok v ↔ s.length = 26 ∧ base32.parse s = some v.toNat := by
  by_cases hlen : s.length = 26
  · obtain ⟨c, chars, rfl⟩ := List.exists_cons_of_length_pos (l := s) (by omega)
    have hlen' : chars.length = 25 := by simpa using hlen
    simp only [hlen, true_and]
    rw [Alphabet.parse_cons, hlen']
    cases hc : base32.digit c with
    | none => simp [decodeChars_head_foreign hlen' hc]
    | some d =>
        simp only [Option.bind_some]
        by_cases hd : d ≤ 7
        · cases hp : base32.parse chars with
          | none =>
              obtain ⟨e, -, he⟩ := decodeChars_tail_foreign hlen' hc hd hp
              simp [he]
          | some w =>
              obtain ⟨r, hr, hval⟩ := decodeChars_of_parse hlen' hc hd hp
              rw [hr, Option.map_some, ← hval]
              simp [BitVec.toNat_inj]
        · -- The number is at least `8 * 32 ^ 25 = 2 ^ 128`.
          rw [decodeChars_head_large hlen' hc (by omega)]
          have hv := v.isLt
          simp only [reduceCtorEq, Option.map_eq_some_iff, false_iff, not_exists, not_and]
          intro w _ he
          omega
  · simp [decodeChars_of_length_ne hlen, hlen]

theorem decodeChars_encodeString (v : U128) : decodeChars (encodeString v) = .ok v := by
  rw [decodeChars_eq_ok_iff, encodeString_eq]
  exact ⟨by simp, base32.parse_text (by decide) (toNat_lt_pow v)⟩

/-- Encoding what was decoded gives the string back, in upper case. -/
theorem encodeString_of_decodeChars {s : Str} {v : U128} (h : decodeChars s = .ok v) :
    encodeString v = s.map toAsciiUppercase := by
  obtain ⟨hlen, hp⟩ := decodeChars_eq_ok_iff.mp h
  rw [encodeString_eq, ← hlen]
  exact base32.text_parse hp

end Crockford

end Rivid
