import Rivid.Core.Rng

/-!
# What the entropy pool hands out

The fills of a thread's pool make up one sequence of words.  After `k` draws the pool
holds those from the `k`-th to the end of the last fill (`HandedOut`), so a draw takes the
word at its own place; the words of the fresh pool stand in front of its index and are
never read.
-/

namespace Rivid

/-! ## Draws -/

/-- Draws 128 bits of randomness. -/
def random128 (p : EntropyPool) (fills : Fills) : Option (U128 × EntropyPool × Fills) :=
  nextPooled p fills

/-- A draw from the pool. -/
inductive Draw where
  | random80
  | random128
deriving DecidableEq, Repr

def Draw.run : Draw → EntropyPool → Fills → Option (U128 × EntropyPool × Fills)
  | .random80 => Rivid.random80
  | .random128 => Rivid.random128

/-- What a draw makes of the word it takes. -/
def Draw.mask : Draw → U128 → U128
  | .random80, word => word &&& Id128.randomMask
  | .random128, word => word

theorem Draw.run_eq (d : Draw) (p : EntropyPool) (fills : Fills) :
    d.run p fills = (nextPooled p fills).map fun r ↦ (d.mask r.1, r.2) := by
  cases d with
  | random80 => rfl
  | random128 => exact Option.map_id'.symm

/-- Draws one after the other. -/
def drawAll : List Draw → EntropyPool → Fills → Option (List U128 × EntropyPool × Fills)
  | [], p, fills => some ([], p, fills)
  | d :: draws, p, fills => do
      let (v, p, fills) ← d.run p fills
      let (vs, p, fills) ← drawAll draws p fills
      return (v :: vs, p, fills)

/-! ## The words of the fills -/

/-- The words of the first `n` fills, one after the other. -/
def wordsOf (fills : Fills) (n : ℕ) : List U128 :=
  (List.range n).flatMap fun i ↦ (fills i).val

theorem wordsOf_succ (fills : Fills) (n : ℕ) :
    wordsOf fills (n + 1) = wordsOf fills n ++ (fills n).val := by
  rw [wordsOf, List.range_succ, List.flatMap_append, List.flatMap_singleton, ← wordsOf]

theorem length_wordsOf (fills : Fills) (n : ℕ) : (wordsOf fills n).length = 32 * n := by
  induction n with
  | zero => rfl
  | succ n ih => rw [wordsOf_succ, List.length_append, ih, (fills n).property, Nat.mul_succ]

/-- The place of a word: its fill, and its index there. -/
theorem getElem?_wordsOf (fills : Fills) {k n : ℕ} (h : k < 32 * n) :
    (wordsOf fills n)[k]? = (fills (k / 32)).val[k % 32]? := by
  induction n with
  | zero => omega
  | succ n ih =>
      have hlen := length_wordsOf fills n
      rw [wordsOf_succ]
      by_cases hk : k < 32 * n
      · rw [List.getElem?_append_left (by omega), ih hk]
      · rw [List.getElem?_append_right (by omega), hlen]
        congr 1
        · rw [show k / 32 = n by omega]
        · omega

theorem exists_word (fills : Fills) (k : ℕ) : ∃ w, (fills (k / 32)).val[k % 32]? = some w :=
  ⟨_, List.getElem?_eq_getElem
    (by rw [(fills (k / 32)).property]; exact Nat.mod_lt k (by decide))⟩

/-! ## Runs -/

/-- The pool after `k` draws: the words from its index on are those from the `k`-th to the
end of the last of the `q` fills used. -/
structure HandedOut (fills : Fills) (k q : ℕ) (p : EntropyPool) (rest : Fills) : Prop where
  idx_le : p.idx ≤ 32
  count : 32 * q + p.idx = k + 32
  words : p.idx < 32 → p.words = fills (q - 1)
  rest : ∀ n, rest n = fills (n + q)

/-- A fresh thread has handed out nothing, whatever its words are. -/
theorem HandedOut.fresh (fills : Fills) (words : {words : List U128 // words.length = 32}) :
    HandedOut fills 0 0 ⟨32, words⟩ fills where
  idx_le := le_rfl
  count := rfl
  words h := absurd h (lt_irrefl 32)
  rest _ := rfl

section Run

variable {fills rest : Fills} {k q : ℕ} {p : EntropyPool}

/-- A draw takes the word at its place. -/
theorem HandedOut.step (h : HandedOut fills k q p rest) {w : U128}
    (hw : (fills (k / 32)).val[k % 32]? = some w) : ∃ q' p' rest',
      nextPooled p rest = some (w, p', rest') ∧ HandedOut fills (k + 1) q' p' rest' := by
  have hcount := h.count
  by_cases hidx : p.idx = 32
  · -- The last fill is used up.
    have hfill : rest 0 = fills (k / 32) := by
      rw [h.rest 0]
      congr 1
      omega
    have hword : (rest 0).val[0]? = some w := by
      rw [hfill, ← hw]
      congr 1
      omega
    refine ⟨q + 1, ⟨1, rest 0⟩, fun n ↦ rest (n + 1), ?_, ⟨?_, ?_, fun _ ↦ ?_, fun n ↦ ?_⟩⟩
    · rw [nextPooled, p.words.property, if_pos hidx]
      dsimp only
      rw [hword, Option.map_some]
    · change 1 ≤ 32
      decide
    · change 32 * (q + 1) + 1 = k + 1 + 32
      omega
    · rw [h.rest 0, Nat.zero_add, Nat.add_sub_cancel]
    · rw [h.rest (n + 1)]
      congr 1
      omega
  · have hle := h.idx_le
    have hlt : p.idx < 32 := by omega
    have hword : p.words.val[p.idx]? = some w := by
      rw [h.words hlt, ← hw]
      congr 1
      · rw [show q - 1 = k / 32 by omega]
      · omega
    refine ⟨q, ⟨p.idx + 1, p.words⟩, rest, ?_, ⟨hlt, ?_, fun _ ↦ h.words hlt, h.rest⟩⟩
    · rw [nextPooled, p.words.property, if_neg hidx]
      dsimp only
      rw [hword, Option.map_some]
    · change 32 * q + (p.idx + 1) = k + 1 + 32
      omega

/-- A run takes the words one after the other. -/
theorem HandedOut.run (h : HandedOut fills k q p rest) (draws : List Draw) :
    ∃ out p' rest', drawAll draws p rest = some (out, p', rest') ∧
      out.length = draws.length ∧ ∀ (i : ℕ) (d : Draw) (w : U128), draws[i]? = some d →
        (fills ((k + i) / 32)).val[(k + i) % 32]? = some w → out[i]? = some (d.mask w) := by
  induction draws generalizing k q p rest with
  | nil => exact ⟨[], p, rest, rfl, rfl, fun i d w hd ↦ (nomatch hd)⟩
  | cons d draws ih =>
      obtain ⟨v, hv⟩ := exists_word fills k
      obtain ⟨q', p', rest', hnext, h'⟩ := h.step hv
      obtain ⟨out, p'', rest'', hrun, hlen, hout⟩ := ih h'
      refine ⟨d.mask v :: out, p'', rest'', ?_, ?_, fun i e w he hw ↦ ?_⟩
      · simp only [drawAll, d.run_eq, hnext, Option.map_some, Option.bind_eq_bind,
          Option.bind_some, hrun, Option.pure_def]
      · rw [List.length_cons, List.length_cons, hlen]
      · cases i with
        | zero =>
            rw [Nat.add_zero, hv] at hw
            cases he
            cases hw
            rfl
        | succ i =>
            rw [← Nat.add_assoc, Nat.add_right_comm] at hw
            exact hout i e w he hw

end Run

/-- A run on a fresh thread takes the words of the fills, the first one first. -/
theorem drawAll_fresh (fills : Fills) (words : {words : List U128 // words.length = 32})
    (draws : List Draw) : ∃ p rest, drawAll draws ⟨32, words⟩ fills =
      some (List.zipWith Draw.mask draws (wordsOf fills (draws.length / 32 + 1)), p, rest) := by
  obtain ⟨out, p, rest, hrun, hlen, hout⟩ := (HandedOut.fresh fills words).run draws
  simp only [Nat.zero_add] at hout
  have heq : out = List.zipWith Draw.mask draws (wordsOf fills (draws.length / 32 + 1)) := by
    apply List.ext_getElem?
    intro k
    rw [List.getElem?_zipWith]
    cases hk : draws[k]? with
    | none =>
        have hle := List.getElem?_eq_none_iff.mp hk
        exact List.getElem?_eq_none (by omega)
    | some d =>
        have hlt : k < draws.length := (List.getElem?_eq_some_iff.mp hk).1
        obtain ⟨w, hw⟩ := exists_word fills k
        rw [hout k d w hk hw, getElem?_wordsOf fills (by omega), hw]
  exact ⟨p, rest, heq ▸ hrun⟩

/-- **The entropy pool.**  Every run of draws on a fresh thread completes.  Its `k`-th draw
takes the word `k % 32` of fill `k / 32`, so the draws take the words of the fills one after
the other, each once; the words the pool starts with make no difference. -/
theorem pool_hands_out (fills : Fills) (draws : List Draw) :
    ∃ out, (∃ p rest, drawAll draws .new fills = some (out, p, rest)) ∧
      out.length = draws.length ∧
      (∀ k d, draws[k]? = some d →
        ∃ w, (fills (k / 32)).val[k % 32]? = some w ∧ out[k]? = some (d.mask w)) ∧
      out = List.zipWith Draw.mask draws (wordsOf fills (draws.length / 32 + 1)) ∧
      ∀ words, (drawAll draws ⟨32, words⟩ fills).map Prod.fst = some out := by
  have hlen := length_wordsOf fills (draws.length / 32 + 1)
  refine ⟨_, drawAll_fresh fills EntropyPool.new.words draws, ?_, fun k d hk ↦ ?_, rfl,
    fun words ↦ ?_⟩
  · rw [List.length_zipWith]
    omega
  · have hlt : k < draws.length := (List.getElem?_eq_some_iff.mp hk).1
    obtain ⟨w, hw⟩ := exists_word fills k
    refine ⟨w, hw, ?_⟩
    rw [List.getElem?_zipWith, hk, getElem?_wordsOf fills (by omega), hw]
  · obtain ⟨p, rest, hrun⟩ := drawAll_fresh fills words draws
    rw [hrun, Option.map_some]

end Rivid
