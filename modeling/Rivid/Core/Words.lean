import Rivid.Core.Fill
import Rivid.Core.Xoshiro

/-!
# The words of the seeded generator

A draw shows the second word of the state, mixed without loss, and nothing else.  How this
word changes from one draw to the next shows the other three, so four words in a row tell
the state and with it all words to come: two seeds, or one seed at two different states,
never give the same four words in a row.

`fill_from_xoshiro` writes the words out byte by byte, and drops what is left of the last.
-/

namespace Rivid

open Chunks Rng

namespace DeterministicRng

/-! ## What a draw shows -/

/-- What a draw returns of the second word of the state. -/
def scramble (s1 : U64) : U64 := (s1 * 5).rotateLeft 7 * 9

theorem scramble_injective : Function.Injective scramble := by
  have hfive : (5 : U64) * 0xCCCCCCCCCCCCCCCD = 1 := by decide
  have hnine : (9 : U64) * 0x8E38E38E38E38E39 = 1 := by decide
  intro x y h
  have hrotate := BitMix.mul_right_injective hnine h
  exact BitMix.mul_right_injective hfive (BitMix.rotateLeft_injective (by decide) hrotate)

section Window

variable {p q : DeterministicRng}

/-- Two draws that show the same leave the same third word. -/
theorem s2_nextState (h₀ : p.s1 = q.s1) (h₁ : (nextState p).s1 = (nextState q).s1) :
    (nextState p).s2 = (nextState q).s2 := by
  have hs1 : ∀ r : DeterministicRng, (nextState r).s1 = r.s1 ^^^ (r.s2 ^^^ r.s0) := fun _ ↦ rfl
  have hs2 : ∀ r : DeterministicRng, (nextState r).s2 = r.s2 ^^^ r.s0 ^^^ (r.s1 <<< 17) :=
    fun _ ↦ rfl
  rw [hs1, hs1, h₀, BitVec.xor_right_inj] at h₁
  rw [hs2, hs2, h₀, h₁]

/-- A third one leaves the same first word behind the first draw. -/
theorem s0_nextState (h₀ : p.s1 = q.s1) (h₁ : (nextState p).s1 = (nextState q).s1)
    (h₂ : (nextState (nextState p)).s1 = (nextState (nextState q)).s1) :
    (nextState p).s0 = (nextState q).s0 := by
  have hs1 : ∀ r : DeterministicRng, (nextState r).s1 = r.s1 ^^^ (r.s2 ^^^ r.s0) := fun _ ↦ rfl
  rw [hs1 (nextState p), hs1 (nextState q), h₁, BitVec.xor_right_inj, s2_nextState h₀ h₁,
    BitVec.xor_right_inj] at h₂
  exact h₂

/-- Four draws show the state. -/
theorem eq_of_shown (h₀ : p.s1 = q.s1) (h₁ : (nextState p).s1 = (nextState q).s1)
    (h₂ : (nextState (nextState p)).s1 = (nextState (nextState q)).s1)
    (h₃ : (nextState (nextState (nextState p))).s1 = (nextState (nextState (nextState q))).s1) :
    p = q := by
  have hs0 : ∀ r : DeterministicRng, (nextState r).s0 = r.s0 ^^^ (r.s3 ^^^ r.s1) := fun _ ↦ rfl
  have hfirst := s0_nextState h₀ h₁ h₂
  have hsecond := s0_nextState h₁ h₂ h₃
  rw [hs0 (nextState p), hs0 (nextState q), hfirst, BitVec.xor_right_inj, h₁,
    BitVec.xor_left_inj] at hsecond
  have hthird := s2_nextState h₀ h₁
  refine nextState_injective ?_
  generalize nextState p = p' at *
  generalize nextState q = q' at *
  obtain ⟨a0, a1, a2, a3⟩ := p'
  obtain ⟨b0, b1, b2, b3⟩ := q'
  dsimp only at hfirst h₁ hthird hsecond
  rw [hfirst, h₁, hthird, hsecond]

end Window

/-! ## Four words in a row -/

theorem word_add (rng : DeterministicRng) (m n : ℕ) : word rng (m + n) = word (skip rng m) n := by
  rw [word, word, skip_add]

/-- Four words in a row tell the state they are drawn from. -/
theorem eq_of_words {p q : DeterministicRng} (h : ∀ i < 4, word p i = word q i) : p = q := by
  have hshown : ∀ i < 4, (skip p i).s1 = (skip q i).s1 := fun i hi ↦ scramble_injective (h i hi)
  exact eq_of_shown (hshown 0 (by decide)) (hshown 1 (by decide)) (hshown 2 (by decide))
    (hshown 3 (by decide))

theorem word_zero (n : ℕ) : word zero n = 0 := by
  have hzero : nextU64 zero = (0, zero) := by decide
  rw [word, skip_zero, hzero]

/-- Wherever the streams of two seeds are looked at, they differ in one of the next four
words, and wherever the stream of one is, one of the next four words is not zero. -/
theorem words_differ :
    (∀ seed seed' : U64, seed ≠ seed' → ∀ n, ∃ i < 4,
      word (new seed) (n + i) ≠ word (new seed') (n + i)) ∧
    ∀ (seed : U64) (n : ℕ), ∃ i < 4, word (new seed) (n + i) ≠ 0 := by
  constructor
  · intro seed seed' hne n
    by_contra hall
    push Not at hall
    refine hne (new_injective (skip_injective n (eq_of_words fun i hi ↦ ?_)))
    rw [← word_add, ← word_add]
    exact hall i hi
  · intro seed n
    by_contra hall
    push Not at hall
    have hzero : skip (new seed) n = zero := eq_of_words fun i hi ↦ by
      rw [← word_add, hall i hi, word_zero]
    rw [← skip_zero n] at hzero
    exact new_ne_zero seed (skip_injective n hzero)

/-! ## Filling a buffer -/

/-- `u64::to_le_bytes`. -/
def toLeBytes (v : U64) : List U8 := (beBytes 8 v).reverse

theorem length_toLeBytes (v : U64) : (toLeBytes v).length = 8 := by
  rw [toLeBytes, List.length_reverse, length_beBytes]

theorem toLeBytes_injective : Function.Injective toLeBytes := by
  intro v w h
  have hbytes : beBytes 8 v = beBytes 8 w := List.reverse_injective h
  have hle : ∀ {v w : U64}, beBytes 8 v = beBytes 8 w → w.toNat ≤ v.toNat := by
    intro v w h
    by_contra hlt
    have hbytes := beBytes_lt_iff (n := 8).mpr (BitVec.lt_def.mpr (Nat.lt_of_not_le hlt))
    rw [h, beBytes_lt_iff (n := 8), BitVec.lt_def] at hbytes
    exact absurd hbytes (Nat.lt_irrefl _)
  exact BitVec.eq_of_toNat_eq (Nat.le_antisymm (hle hbytes.symm) (hle hbytes))

/-- The bytes of the next word. -/
def wordBytes (rng : DeterministicRng) : List U8 × DeterministicRng :=
  (toLeBytes rng.nextXoshiro.1, rng.nextXoshiro.2)

/-- `fill_from_xoshiro`: 8 bytes at a time, then what is left over. -/
def fillFromXoshiro (rng : DeterministicRng) (dest : List U8) : List U8 × DeterministicRng :=
  let chunks := dest.length / 8
  let filled := fillLoop 8 wordBytes chunks dest rng
  let rem := dest.length % 8
  if rem ≠ 0 then
    let bytes := wordBytes filled.2
    (overwrite filled.1 (8 * chunks) (bytes.1.take rem), bytes.2)
  else
    filled

/-- The bytes of the first `n` words. -/
def bytesOfWords (rng : DeterministicRng) (n : ℕ) : List U8 :=
  (List.range n).flatMap fun i ↦ toLeBytes (word rng i)

theorem sourceAfter_wordBytes (rng : DeterministicRng) (n : ℕ) :
    sourceAfter wordBytes rng n = skip rng n := by
  induction n with
  | zero => rfl
  | succ n ih => rw [sourceAfter_succ, ih]; rfl

theorem length_bytesOfWords (rng : DeterministicRng) (n : ℕ) :
    (bytesOfWords rng n).length = 8 * n := by
  rw [bytesOfWords, List.length_flatMap]
  simp [length_toLeBytes, Nat.mul_comm]

theorem bytesOfWords_add (rng : DeterministicRng) (m n : ℕ) :
    bytesOfWords rng (m + n) = bytesOfWords rng m ++ bytesOfWords (skip rng m) n := by
  rw [bytesOfWords, List.range_add, List.flatMap_append, List.flatMap_map]
  simp only [word_add]
  rfl

/-- A fill writes the bytes of its words up to the end of the buffer; a last word that
does not fit is drawn all the same. -/
theorem fillFromXoshiro_eq (rng : DeterministicRng) (dest : List U8) :
    fillFromXoshiro rng dest =
      ((bytesOfWords rng ((dest.length + 7) / 8)).take dest.length,
        skip rng ((dest.length + 7) / 8)) := by
  have hwhole : 8 * (dest.length / 8) ≤ dest.length := Nat.mul_div_le _ _
  have hwords : (fillLoop 8 wordBytes (dest.length / 8) dest rng).1 =
      bytesOfWords rng (dest.length / 8) ++ dest.drop (8 * (dest.length / 8)) := by
    rw [fillLoop_eq_append (fun _ ↦ length_toLeBytes _) hwhole]
    simp only [sourceAfter_wordBytes]
    rfl
  have hsource : (fillLoop 8 wordBytes (dest.length / 8) dest rng).2 =
      skip rng (dest.length / 8) := by rw [snd_fillLoop, sourceAfter_wordBytes]
  have hlength := length_bytesOfWords rng (dest.length / 8)
  rw [fillFromXoshiro]
  by_cases hrem : dest.length % 8 = 0
  · rw [if_neg (not_not.mpr hrem), show (dest.length + 7) / 8 = dest.length / 8 by omega]
    refine Prod.ext ?_ hsource
    rw [hwords, List.drop_eq_nil_of_le (by omega), List.append_nil,
      List.take_of_length_le (by omega)]
  · have hlast : ((wordBytes (skip rng (dest.length / 8))).1.take (dest.length % 8)).length =
        dest.length % 8 := by
      rw [List.length_take, wordBytes, length_toLeBytes]
      omega
    have hend : (bytesOfWords rng (dest.length / 8) ++ dest.drop (8 * (dest.length / 8))).drop
        (8 * (dest.length / 8) + dest.length % 8) = [] := by
      refine List.drop_eq_nil_of_le ?_
      rw [List.length_append, hlength, List.length_drop]
      omega
    have hone : bytesOfWords (skip rng (dest.length / 8)) 1 =
        (wordBytes (skip rng (dest.length / 8))).1 := List.append_nil _
    have htake : (bytesOfWords rng (dest.length / 8)).take dest.length =
        bytesOfWords rng (dest.length / 8) := List.take_of_length_le (by omega)
    rw [if_pos hrem, show (dest.length + 7) / 8 = dest.length / 8 + 1 by omega, hsource]
    refine Prod.ext ?_ rfl
    dsimp only
    rw [hwords, overwrite, hlast, hend, List.append_nil, List.take_left' hlength,
      bytesOfWords_add, hone, List.take_append, hlength, htake,
      show dest.length - 8 * (dest.length / 8) = dest.length % 8 by omega]

/-- Words that fill one stretch of bytes fill it with the same first words only. -/
theorem word_eq_of_bytesOfWords {p q : DeterministicRng} {n m : ℕ}
    (h : (bytesOfWords p n).take (8 * m) = (bytesOfWords q n).take (8 * m)) (hle : m ≤ n) :
    ∀ i < m, word p i = word q i := by
  have hfirst : ∀ r : DeterministicRng, (bytesOfWords r n).take (8 * m) = bytesOfWords r m := by
    intro r
    rw [show n = m + (n - m) by omega, bytesOfWords_add,
      List.take_left' (length_bytesOfWords r m)]
  rw [hfirst, hfirst] at h
  clear hle hfirst
  induction m with
  | zero => intro i hi; omega
  | succ m ih =>
      have hsplit : ∀ r : DeterministicRng, bytesOfWords r (m + 1) =
          bytesOfWords r m ++ toLeBytes (word r m) := by
        intro r
        rw [bytesOfWords, List.range_succ, List.flatMap_append, List.flatMap_singleton]
        rfl
      rw [hsplit, hsplit] at h
      obtain ⟨hinit, hlast⟩ := List.append_inj h (by rw [length_bytesOfWords, length_bytesOfWords])
      intro i hi
      rcases Nat.lt_succ_iff_lt_or_eq.mp hi with hlt | rfl
      · exact ih hinit i hlt
      · exact toLeBytes_injective hlast

/-- What stood in a buffer never shows.  A fill of whole words can be cut in two, and two
generators fill a buffer of 32 bytes or more alike only when they are in the same state. -/
theorem fillFromXoshiro_composes :
    (∀ (rng : DeterministicRng) (front back : List U8), 8 ∣ front.length →
      fillFromXoshiro rng (front ++ back) =
        ((fillFromXoshiro rng front).1 ++ (fillFromXoshiro (fillFromXoshiro rng front).2 back).1,
          (fillFromXoshiro (fillFromXoshiro rng front).2 back).2)) ∧
    ∀ (p q : DeterministicRng) (dest dest' : List U8), dest.length = dest'.length →
      32 ≤ dest.length →
      ((fillFromXoshiro p dest).1 = (fillFromXoshiro q dest').1 ↔ p = q) := by
  constructor
  · rintro rng front back ⟨n, hn⟩
    have hfront : (front.length + 7) / 8 = n := by omega
    have hall : ((front ++ back).length + 7) / 8 = n + (back.length + 7) / 8 := by
      rw [List.length_append]
      omega
    rw [fillFromXoshiro_eq, fillFromXoshiro_eq rng front, fillFromXoshiro_eq _ back, hall, hfront,
      skip_add, bytesOfWords_add, List.take_append, length_bytesOfWords, List.length_append,
      List.take_of_length_le (by rw [length_bytesOfWords]; omega),
      List.take_of_length_le (l := bytesOfWords rng n) (by rw [length_bytesOfWords]; omega),
      show front.length + back.length - 8 * n = back.length by omega]
  · intro p q dest dest' hlen hlong
    rw [fillFromXoshiro_eq, fillFromXoshiro_eq, ← hlen]
    refine ⟨fun h ↦ eq_of_words (word_eq_of_bytesOfWords (n := (dest.length + 7) / 8) (m := 4) ?_
      (by omega)), fun h ↦ by rw [h]⟩
    have hcut := congrArg (List.take 32) h
    rw [List.take_take, List.take_take, Nat.min_eq_left hlong] at hcut
    exact hcut

end DeterministicRng

end Rivid
