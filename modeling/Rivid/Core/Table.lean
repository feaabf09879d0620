import Rivid.Core.Basic
import Rivid.Lib.Alphabet

/-!
# Decode tables

Every codec of the engine reads its characters through a 256-entry table of
`i8` that holds the alphabet index of a byte or `-1`.  The tables are built by a
loop over the alphabet and consulted by a `match` on the entry; both are shared
here.

A `CodeTable` is an alphabet with a table that is right for it: the table sends
each character to its index, and every entry that is not `-1` is an index of the
byte's canonical form.  It yields an `Alphabet`, so the codecs inherit the
round trips and the order of `Rivid.Lib.Alphabet`.
-/

namespace Rivid

/-- The table entry of a byte outside the alphabet. -/
def invalid : I8 := -1

/-- `build_decode_table`: entry `alphabet[i]` is `i`, all others are `invalid`. -/
def buildDecodeTable (alphabet : Str) : List I8 :=
  (List.range alphabet.length).foldl
    (fun table i ↦ table.set (alphabet[i]!).toNat (BitVec.ofNat 8 i)) (List.replicate 256 invalid)

theorem ofNat_ne_invalid {d : ℕ} (h : d < 128) : BitVec.ofNat 8 d ≠ invalid := by
  intro he
  have := congrArg BitVec.toNat he
  rw [BitVec.toNat_ofNat, Nat.mod_eq_of_lt (by omega)] at this
  have hi : invalid.toNat = 255 := rfl
  omega

/-- A loop whose rounds keep the length of a table keeps it as a whole. -/
theorem length_foldl {α β : Type*} {f : List α → β → List α}
    (hf : ∀ table i, (f table i).length = table.length) (l : List β) (table : List α) :
    (l.foldl f table).length = table.length := by
  induction l generalizing table with
  | nil => rfl
  | cons i l ih => rw [List.foldl_cons, ih, hf]

@[simp] theorem length_buildDecodeTable (alphabet : Str) :
    (buildDecodeTable alphabet).length = 256 := by
  rw [buildDecodeTable, length_foldl fun _ _ ↦ List.length_set, List.length_replicate]

/-- Where round `i` writes `i` into the entries of the bytes that stand for character `i`, the
table has after `k` rounds the index of each of the first `k` characters. -/
theorem getElem?_foldl_rounds {alphabet : Str} (hnodup : alphabet.Nodup) {fold : U8 → U8}
    {round : List I8 → ℕ → List I8} (hlen : ∀ table i, (round table i).length = table.length)
    (hround : ∀ table i (hi : i < alphabet.length) (c : U8), table.length = 256 →
      (round table i)[c.toNat]? =
        if alphabet[i] = fold c then some (BitVec.ofNat 8 i) else table[c.toNat]?)
    {k : ℕ} (hk : k ≤ alphabet.length) (c : U8) :
    ((List.range k).foldl round (List.replicate 256 invalid))[c.toNat]? =
      some (if fold c ∈ alphabet.take k then BitVec.ofNat 8 (alphabet.idxOf (fold c))
        else invalid) := by
  induction k with
  | zero =>
      rw [List.take_zero, if_neg List.not_mem_nil]
      exact List.getElem?_replicate_of_lt c.isLt
  | succ k ih =>
      have hlt : k < alphabet.length := hk
      have hsize : ((List.range k).foldl round (List.replicate 256 invalid)).length = 256 := by
        rw [length_foldl hlen, List.length_replicate]
      rw [List.range_succ, List.foldl_append, List.foldl_cons, List.foldl_nil,
        hround _ k hlt c hsize, ih hlt.le, List.take_succ_eq_append_getElem hlt]
      by_cases hc : alphabet[k] = fold c
      · rw [if_pos hc, ← hc, if_pos (List.mem_append_right _ List.mem_cons_self),
          hnodup.idxOf_getElem k hlt]
      · have hmem : fold c ∈ alphabet.take k ++ [alphabet[k]] ↔ fold c ∈ alphabet.take k := by
          rw [List.mem_append, List.mem_singleton]
          exact or_iff_left (Ne.symm hc)
        rw [if_neg hc]
        simp only [hmem]

/-- The entry of a byte is its index in the alphabet. -/
theorem getElem!_buildDecodeTable {alphabet : Str} (hnodup : alphabet.Nodup) (c : U8) :
    (buildDecodeTable alphabet)[c.toNat]! =
      if c ∈ alphabet then BitVec.ofNat 8 (alphabet.idxOf c) else invalid := by
  have hround : ∀ (table : List I8) i (hi : i < alphabet.length) (c : U8), table.length = 256 →
      (table.set (alphabet[i]!).toNat (BitVec.ofNat 8 i))[c.toNat]? =
        if alphabet[i] = id c then some (BitVec.ofNat 8 i) else table[c.toNat]? := by
    intro table i hi c hsize
    rw [getElem!_pos alphabet i hi, List.getElem?_set, hsize, if_pos (BitVec.isLt _)]
    simp only [BitVec.toNat_inj, id_eq]
  rw [List.getElem!_eq_getElem?_getD, buildDecodeTable,
    getElem?_foldl_rounds hnodup (fun _ _ ↦ List.length_set) hround le_rfl, Option.getD_some,
    List.take_length]
  rfl

/-- Look a byte up in a decode table, with its entry cast to `w` bits. -/
def tableDigit (w : ℕ) (table : List I8) (c : U8) : Result (BitVec w) :=
  let d := table[c.toNat]!
  if d = invalid then .error (.invalidCharacter c) else .ok (d.signExtend w)

/-- An alphabet of `b` characters with a decode table that is right for it. -/
structure CodeTable (b : ℕ) where
  alphabet : Str
  table : List I8
  /-- The canonical form of an accepted byte. -/
  fold : U8 → U8
  base_le : b ≤ 128
  table_char : ∀ d < b, table[(alphabet[d]!).toNat]! = BitVec.ofNat 8 d
  table_lt : ∀ n < 256, table[n]! ≠ invalid → (table[n]!).toNat < b
  char_table : ∀ n < 256, table[n]! ≠ invalid →
    alphabet[(table[n]!).toNat]! = fold (BitVec.ofNat 8 n)

/-- The entry of a character is its place in the alphabet. -/
theorem buildDecodeTable_char {alphabet : Str} (hnodup : alphabet.Nodup) :
    ∀ d < alphabet.length, (buildDecodeTable alphabet)[(alphabet[d]!).toNat]! =
      BitVec.ofNat 8 d := by
  intro d hd
  rw [getElem!_buildDecodeTable hnodup, getElem!_pos alphabet d hd, if_pos (List.getElem_mem hd),
    hnodup.idxOf_getElem d hd]

/-- An entry other than `invalid` is the place of its byte in the alphabet. -/
theorem buildDecodeTable_entry {alphabet : Str} (hnodup : alphabet.Nodup)
    (hlen : alphabet.length ≤ 128) :
    ∀ n < 256, (buildDecodeTable alphabet)[n]! ≠ invalid →
      ((buildDecodeTable alphabet)[n]!).toNat < alphabet.length ∧
        alphabet[((buildDecodeTable alphabet)[n]!).toNat]! = BitVec.ofNat 8 n := by
  intro n hn hne
  have htable := getElem!_buildDecodeTable hnodup (BitVec.ofNat 8 n)
  rw [BitVec.toNat_ofNat, Nat.mod_eq_of_lt hn] at htable
  rw [htable] at hne ⊢
  by_cases hmem : BitVec.ofNat 8 n ∈ alphabet
  · have hidx := List.idxOf_lt_length_of_mem hmem
    rw [if_pos hmem, BitVec.toNat_ofNat, Nat.mod_eq_of_lt (by omega), getElem!_pos alphabet _ hidx]
    exact ⟨hidx, List.getElem_idxOf hidx⟩
  · exact absurd (if_neg hmem) hne

/-- The bytes with an entry are the characters of the alphabet. -/
theorem buildDecodeTable_eq_invalid_iff {alphabet : Str} (hnodup : alphabet.Nodup)
    (hlen : alphabet.length ≤ 128) (c : U8) :
    (buildDecodeTable alphabet)[c.toNat]! = invalid ↔ c ∉ alphabet := by
  rw [getElem!_buildDecodeTable hnodup]
  by_cases hmem : c ∈ alphabet
  · have hidx := List.idxOf_lt_length_of_mem hmem
    rw [if_pos hmem]
    exact iff_of_false (ofNat_ne_invalid (by omega)) (not_not_intro hmem)
  · rw [if_neg hmem]
    exact iff_of_true rfl hmem

/-- An alphabet without repetitions, with the table built for it. -/
def CodeTable.ofAlphabet {b : ℕ} {alphabet : Str} (hnodup : alphabet.Nodup)
    (hlen : alphabet.length = b) (hle : alphabet.length ≤ 128) : CodeTable b where
  alphabet := alphabet
  table := buildDecodeTable alphabet
  fold := id
  base_le := hlen ▸ hle
  table_char := hlen ▸ buildDecodeTable_char hnodup
  table_lt := fun n hn h ↦ hlen ▸ (buildDecodeTable_entry hnodup hle n hn h).1
  char_table := fun n hn h ↦ (buildDecodeTable_entry hnodup hle n hn h).2

namespace CodeTable

variable {b : ℕ} (T : CodeTable b)

/-- The characters of a code table as an alphabet. -/
def toAlphabet : Alphabet U8 b where
  char d := T.alphabet[d]!
  digit c := if T.table[c.toNat]! = invalid then none else some (T.table[c.toNat]!).toNat
  fold := T.fold
  digit_char d hd := by
    have hb := T.base_le
    rw [T.table_char d hd, if_neg (ofNat_ne_invalid (by omega)), BitVec.toNat_ofNat,
      Nat.mod_eq_of_lt (by omega)]
  digit_lt c d h := by
    split at h
    · cases h
    · rename_i hne
      cases h
      exact T.table_lt c.toNat c.isLt hne
  char_digit c d h := by
    split at h
    · cases h
    · rename_i hne
      cases h
      rw [T.char_table c.toNat c.isLt hne, BitVec.ofNat_toNat, BitVec.setWidth_eq]

theorem digit_def (c : U8) : T.toAlphabet.digit c =
    if T.table[c.toNat]! = invalid then none else some (T.table[c.toNat]!).toNat := rfl

theorem char_def (d : ℕ) : T.toAlphabet.char d = T.alphabet[d]! := rfl

/-- A lookup succeeds with the digit of the byte, at any width that holds a digit. -/
theorem tableDigit_of_some {w d : ℕ} {c : U8} (hw : 8 ≤ w) (h : T.toAlphabet.digit c = some d) :
    ∃ x : BitVec w, tableDigit w T.table c = .ok x ∧ x.toNat = d := by
  have hlt := T.toAlphabet.digit_lt c d h
  have hb := T.base_le
  rw [digit_def] at h
  split at h
  · cases h
  · rename_i hne
    cases h
    refine ⟨(T.table[c.toNat]!).signExtend w, if_neg hne, ?_⟩
    have hmsb : (T.table[c.toNat]!).msb = false := by
      rw [BitVec.msb_eq_false_iff_two_mul_lt]
      omega
    rw [BitVec.signExtend_eq_setWidth_of_msb_false hmsb, BitVec.toNat_setWidth]
    exact Nat.mod_eq_of_lt (lt_of_lt_of_le (T.table[c.toNat]!).isLt
      (Nat.pow_le_pow_right (by decide) hw))

/-- A lookup fails, naming the byte, exactly outside the alphabet. -/
theorem tableDigit_of_none {w : ℕ} {c : U8} (h : T.toAlphabet.digit c = none) :
    tableDigit w T.table c = .error (.invalidCharacter c) := by
  rw [digit_def] at h
  split at h
  · rename_i he
    exact if_pos he
  · cases h

/-- What a lookup returns is a digit. -/
theorem toNat_lt_of_tableDigit {w : ℕ} {c : U8} {x : BitVec w} (hw : 8 ≤ w)
    (h : tableDigit w T.table c = .ok x) : x.toNat < b := by
  cases hd : T.toAlphabet.digit c with
  | none =>
      rw [T.tableDigit_of_none hd] at h
      cases h
  | some d =>
      obtain ⟨y, hy, rfl⟩ := T.tableDigit_of_some hw hd
      rw [hy] at h
      cases h
      exact T.toAlphabet.digit_lt c _ hd

/-- A text is written in the characters of the alphabet. -/
theorem mem_alphabet_of_mem_text (hlen : T.alphabet.length = b) (hb : 0 < b) {n v : ℕ} {c : U8}
    (h : c ∈ T.toAlphabet.text n v) : c ∈ T.alphabet := by
  obtain ⟨d, hd, rfl⟩ := T.toAlphabet.exists_of_mem_text hb h
  have hlt : d < T.alphabet.length := hlen.symm ▸ hd
  rw [char_def, getElem!_pos T.alphabet d hlt]
  exact List.getElem_mem hlt

section OfAlphabet

variable {b : ℕ} {alphabet : Str} {hnodup : alphabet.Nodup} {hlen : alphabet.length = b}
  {hle : alphabet.length ≤ 128}

/-- The digit of a character is its place in the alphabet. -/
theorem digit_ofAlphabet (c : U8) : (ofAlphabet hnodup hlen hle).toAlphabet.digit c =
    if c ∈ alphabet then some (alphabet.idxOf c) else none := by
  have hentry : (ofAlphabet hnodup hlen hle).table[c.toNat]! = _ :=
    getElem!_buildDecodeTable hnodup c
  rw [digit_def, hentry]
  by_cases hc : c ∈ alphabet
  · have hidx := List.idxOf_lt_length_of_mem hc
    rw [if_pos hc, if_pos hc, if_neg (ofNat_ne_invalid (by omega)), BitVec.toNat_ofNat,
      Nat.mod_eq_of_lt (by omega)]
  · rw [if_neg hc, if_neg hc, if_pos rfl]

theorem mem_alphabet_iff (c : U8) :
    c ∈ alphabet ↔ ((ofAlphabet hnodup hlen hle).toAlphabet.digit c).isSome := by
  rw [digit_ofAlphabet]
  by_cases hc : c ∈ alphabet
  · rw [if_pos hc]
    exact iff_of_true hc rfl
  · rw [if_neg hc]
    exact iff_of_false hc Bool.false_ne_true

/-- The strings that are read are those over the alphabet. -/
theorem forall_mem_alphabet_iff {s : Str} : (∀ c ∈ s, c ∈ alphabet) ↔
    ((ofAlphabet hnodup hlen hle).toAlphabet.parse s).isSome := by
  rw [Alphabet.parse_isSome_iff]
  exact forall₂_congr fun c _ ↦ mem_alphabet_iff c

end OfAlphabet

/-- Characters listed in ascending order are ordered as their indices. -/
theorem char_lt_iff (hlen : T.alphabet.length = b) (hasc : T.alphabet.Pairwise (· < ·)) :
    ∀ d e, d < b → e < b → (T.toAlphabet.char d < T.toAlphabet.char e ↔ d < e) := by
  have hlt : ∀ d e, d < b → e < b → d < e → T.toAlphabet.char d < T.toAlphabet.char e := by
    intro d e hd he hde
    rw [char_def, char_def, getElem!_pos T.alphabet d (by omega),
      getElem!_pos T.alphabet e (by omega)]
    exact List.pairwise_iff_getElem.mp hasc d e _ _ hde
  intro d e hd he
  constructor
  · intro h
    rcases Nat.lt_trichotomy d e with hde | rfl | hde
    · exact hde
    · exact absurd h (BitVec.lt_irrefl _)
    · exact absurd (BitVec.lt_trans h (hlt e d he hd hde)) (BitVec.lt_irrefl _)
  · exact hlt d e hd he

end CodeTable

end Rivid
