import Mathlib.Data.List.Basic
import Mathlib.Tactic.Ring

/-!
# Checked computations

A checked computation returns a value, returns an error, or does neither: it
panics, or a loop is given up.  Machine arithmetic panics where a result does not
fit or a shift amount reaches the width; indexing panics out of bounds.

Each operation has one lemma that says when it returns what the unchecked
operation returns.  Two rules lift this to a loop and what follows it, under an
invariant: `foldlM_bind_eq` for a pass over a list, and `whileM_bind_eq` for a
`while`, which also needs a measure that goes down.
-/

universe u v

/-- A computation that returns a value or an error; `none` is a panic or a loop
that was given up. -/
abbrev Checked (ε α : Type u) := ExceptT ε Option α

namespace Checked

variable {ε α β σ : Type u}

/-- No result at all. -/
def stuck : Checked ε α := ExceptT.mk none

/-- A computation that is known to return. -/
def ofExcept (r : Except ε α) : Checked ε α := ExceptT.mk (some r)

@[simp] theorem ofExcept_ok (a : α) : ofExcept (.ok a : Except ε α) = pure a := rfl

/-- What is known to return is known to return in sequence. -/
theorem ofExcept_bind (r : Except ε α) (f : α → Except ε β) :
    ofExcept (r >>= f) = ofExcept r >>= fun a ↦ ofExcept (f a) := by
  cases r <;> rfl

/-! ## Arithmetic -/

/-- Return `a`, or panic unless `p`. -/
def require (p : Prop) [Decidable p] (a : α) : Checked ε α := if p then pure a else stuck

@[simp] theorem require_eq {p : Prop} [Decidable p] {a : α} (h : p) :
    (require p a : Checked ε α) = pure a := if_pos h

section Words

variable {w : ℕ} {ε : Type}

def add (a b : BitVec w) : Checked ε (BitVec w) := require (a.toNat + b.toNat < 2 ^ w) (a + b)

def sub (a b : BitVec w) : Checked ε (BitVec w) := require (b.toNat ≤ a.toNat) (a - b)

def mul (a b : BitVec w) : Checked ε (BitVec w) := require (a.toNat * b.toNat < 2 ^ w) (a * b)

/-- Bits may be shifted out; the amount must be below the width. -/
def shl (a : BitVec w) (k : ℕ) : Checked ε (BitVec w) := require (k < w) (a <<< k)

def shr (a : BitVec w) (k : ℕ) : Checked ε (BitVec w) := require (k < w) (a >>> k)

variable {a b : BitVec w} {k : ℕ}

theorem add_eq (h : a.toNat + b.toNat < 2 ^ w) : (add a b : Checked ε _) = pure (a + b) := if_pos h

theorem sub_eq (h : b.toNat ≤ a.toNat) : (sub a b : Checked ε _) = pure (a - b) := if_pos h

theorem mul_eq (h : a.toNat * b.toNat < 2 ^ w) : (mul a b : Checked ε _) = pure (a * b) := if_pos h

theorem shl_eq (h : k < w) : (shl a k : Checked ε _) = pure (a <<< k) := if_pos h

theorem shr_eq (h : k < w) : (shr a k : Checked ε _) = pure (a >>> k) := if_pos h

end Words

/-! ## Positions and lengths

`usize` has 32 bits or more; the bound here is the least of them. -/

section Positions

variable {ε : Type} {i j : ℕ}

def posAdd (i j : ℕ) : Checked ε ℕ := require (i + j < 2 ^ 32) (i + j)

def posSub (i j : ℕ) : Checked ε ℕ := require (j ≤ i) (i - j)

def posMul (i j : ℕ) : Checked ε ℕ := require (i * j < 2 ^ 32) (i * j)

theorem posAdd_eq (h : i + j < 2 ^ 32) : (posAdd i j : Checked ε _) = pure (i + j) := if_pos h

theorem posSub_eq (h : j ≤ i) : (posSub i j : Checked ε _) = pure (i - j) := if_pos h

theorem posSub_succ (i : ℕ) : (posSub (i + 1) 1 : Checked ε _) = pure i := by
  rw [posSub_eq (Nat.le_add_left 1 i), Nat.add_sub_cancel]

theorem posMul_eq (h : i * j < 2 ^ 32) : (posMul i j : Checked ε _) = pure (i * j) := if_pos h

end Positions

/-! ## Arrays -/

section Arrays

variable {l : List α} {i : ℕ}

/-- `l[i]`. -/
def index (l : List α) (i : ℕ) : Checked ε α := (l[i]?).elim stuck pure

/-- `l[i] = a`. -/
def store (l : List α) (i : ℕ) (a : α) : Checked ε (List α) := require (i < l.length) (l.set i a)

/-- `l[i..]`. -/
def sliceFrom (l : List α) (i : ℕ) : Checked ε (List α) := require (i ≤ l.length) (l.drop i)

/-- `l[i..j]`. -/
def slice (l : List α) (i j : ℕ) : Checked ε (List α) :=
  require (i ≤ j ∧ j ≤ l.length) ((l.drop i).take (j - i))

/-- `l[..i]`. -/
def sliceTo (l : List α) (i : ℕ) : Checked ε (List α) := require (i ≤ l.length) (l.take i)

theorem index_eq_getElem (h : i < l.length) : (index l i : Checked ε α) = pure l[i] := by
  rw [index, List.getElem?_eq_getElem h]
  rfl

theorem index_eq [Inhabited α] (h : i < l.length) : (index l i : Checked ε α) = pure l[i]! := by
  rw [index_eq_getElem h, getElem!_pos l i h]

theorem store_eq {a : α} (h : i < l.length) : (store l i a : Checked ε _) = pure (l.set i a) :=
  if_pos h

theorem sliceFrom_eq (h : i ≤ l.length) : (sliceFrom l i : Checked ε _) = pure (l.drop i) :=
  if_pos h

theorem slice_eq {j : ℕ} (h : i ≤ j ∧ j ≤ l.length) :
    (slice l i j : Checked ε _) = pure ((l.drop i).take (j - i)) := if_pos h

theorem sliceTo_eq (h : i ≤ l.length) : (sliceTo l i : Checked ε _) = pure (l.take i) := if_pos h

end Arrays

/-! ## Loops -/

/-- `while cond { body }`, given up after `fuel` tests of the condition. -/
def whileM {ε σ : Type} (cond : σ → Checked ε Bool) (body : σ → Checked ε σ) :
    ℕ → σ → Checked ε σ
  | 0, _ => stuck
  | fuel + 1, s => do
      if ← cond s then
        let s ← body s
        whileM cond body fuel s
      else
        pure s

section While

variable {ε σ ρ : Type} {cond : σ → Checked ε Bool} {body : σ → Checked ε σ}
  {k : σ → Checked ε ρ} {s : σ} {fuel : ℕ}

theorem whileM_of_true (h : cond s = pure true) :
    whileM cond body (fuel + 1) s = body s >>= whileM cond body fuel := by
  rw [whileM, h, pure_bind]
  rfl

theorem whileM_of_false (h : cond s = pure false) : whileM cond body (fuel + 1) s = pure s := by
  rw [whileM, h, pure_bind]
  rfl

/-- A loop and what follows it return what a function of the state says, when
the body keeps the value of that function and makes the measure smaller. -/
theorem whileM_bind_eq (spec : σ → Except ε ρ) (inv : σ → Prop) (measure : σ → ℕ)
    (step : ∀ s, inv s →
      (cond s = pure false ∧ k s = ofExcept (spec s)) ∨
      (cond s = pure true ∧
        ((∃ s', body s = pure s' ∧ inv s' ∧ measure s' < measure s ∧ spec s' = spec s) ∨
          ∃ e, body s = throw e ∧ spec s = .error e)))
    (hs : inv s) (hfuel : measure s < fuel) :
    whileM cond body fuel s >>= k = ofExcept (spec s) := by
  induction fuel generalizing s with
  | zero => exact absurd hfuel (Nat.not_lt_zero _)
  | succ fuel ih =>
      rcases step s hs with ⟨hc, hk⟩ | ⟨hc, ⟨s', hbody, hinv, hlt, hspec⟩ | ⟨e, hbody, hspec⟩⟩
      · rw [whileM_of_false hc, pure_bind, hk]
      · rw [whileM_of_true hc, hbody, pure_bind, ← hspec]
        exact ih hinv (lt_of_lt_of_le hlt (Nat.le_of_lt_succ hfuel))
      · rw [whileM_of_true hc, hbody, hspec]
        rfl

end While

section Passes

variable {ρ : Type u} {s : σ}

/-- A pass over a list and what follows it return what the unchecked ones
return, when each round does under an invariant. -/
theorem foldlM_bind_eq {γ : Type v} {f : σ → γ → Checked ε σ} {g : σ → γ → Except ε σ}
    {k : σ → Checked ε ρ} {l : List γ} (spec : σ → Except ε ρ) (inv : σ → Prop)
    (step : ∀ s, inv s → ∀ a ∈ l, f s a = ofExcept (g s a) ∧ ∀ s', g s a = .ok s' → inv s')
    (hk : ∀ s, inv s → k s = ofExcept (spec s)) (hs : inv s) :
    l.foldlM f s >>= k = ofExcept (l.foldlM g s >>= spec) := by
  induction l generalizing s with
  | nil =>
      rw [List.foldlM_nil, List.foldlM_nil, pure_bind, pure_bind]
      exact hk s hs
  | cons a l ih =>
      obtain ⟨hround, hnext⟩ := step s hs a List.mem_cons_self
      rw [List.foldlM_cons, List.foldlM_cons, hround]
      cases hg : g s a with
      | error e => rfl
      | ok s' =>
          rw [ofExcept_ok, pure_bind]
          exact ih (fun s hs b hb ↦ step s hs b (List.mem_cons_of_mem a hb)) (hnext s' hg)

/-- The same for a pass that returns no errors; the invariant holds at its end. -/
theorem foldlM_eq_pure {γ : Type v} {f : σ → γ → Checked ε σ} {g : σ → γ → σ} {l : List γ}
    (inv : σ → Prop) (step : ∀ s, inv s → ∀ a ∈ l, f s a = pure (g s a) ∧ inv (g s a))
    (hs : inv s) : l.foldlM f s = pure (l.foldl g s) ∧ inv (l.foldl g s) := by
  induction l generalizing s with
  | nil => exact ⟨rfl, hs⟩
  | cons a l ih =>
      obtain ⟨hround, hnext⟩ := step s hs a List.mem_cons_self
      rw [List.foldlM_cons, List.foldl_cons, hround, pure_bind]
      exact ih (fun s hs b hb ↦ step s hs b (List.mem_cons_of_mem a hb)) hnext

theorem mapM_eq_pure {γ : Type v} {f : γ → Checked ε α} {g : γ → α} {l : List γ}
    (h : ∀ a ∈ l, f a = pure (g a)) : l.mapM f = pure (l.map g) := by
  induction l with
  | nil => rfl
  | cons a l ih =>
      rw [List.mapM_cons, h a List.mem_cons_self, pure_bind,
        ih fun b hb ↦ h b (List.mem_cons_of_mem a hb), pure_bind]
      rfl

end Passes

end Checked

/-! ## Passes that write -/

section Sweep

variable {α σ ε : Type u}

/-- `for x in xs.iter_mut()`: each round replaces an element and hands a value on. -/
def sweep (f : σ → α → α × σ) : σ → List α → List α × σ
  | s, [] => ([], s)
  | s, a :: l =>
      let rest := sweep f (f s a).2 l
      ((f s a).1 :: rest.1, rest.2)

/-- A pass whose rounds are checked. -/
def sweepM (f : σ → α → Checked ε (α × σ)) : σ → List α → Checked ε (List α × σ)
  | s, [] => pure ([], s)
  | s, a :: l => do
      let r ← f s a
      let rest ← sweepM f r.2 l
      pure (r.1 :: rest.1, rest.2)

variable {f : σ → α → α × σ} {s : σ}

@[simp] theorem length_sweep (l : List α) : (sweep f s l).1.length = l.length := by
  induction l generalizing s with
  | nil => rfl
  | cons a l ih => exact congrArg Nat.succ ih

/-- What every round keeps holds of the value handed out, and what every round
writes holds of every element. -/
theorem sweep_invariant {I : σ → Prop} {P Q : α → Prop} {l : List α}
    (step : ∀ s a, I s → P a → Q (f s a).1 ∧ I (f s a).2) (hs : I s) (hl : ∀ a ∈ l, P a) :
    (∀ a ∈ (sweep f s l).1, Q a) ∧ I (sweep f s l).2 := by
  induction l generalizing s with
  | nil => exact ⟨fun a ha ↦ absurd ha List.not_mem_nil, hs⟩
  | cons a l ih =>
      obtain ⟨hq, hi⟩ := step s a hs (hl a List.mem_cons_self)
      obtain ⟨hrest, hout⟩ := ih hi fun b hb ↦ hl b (List.mem_cons_of_mem a hb)
      exact ⟨List.forall_mem_cons.mpr ⟨hq, hrest⟩, hout⟩

/-- A checked pass returns what the unchecked pass returns. -/
theorem sweepM_eq {fM : σ → α → Checked ε (α × σ)} {I : σ → Prop} {P : α → Prop} {l : List α}
    (step : ∀ s a, I s → P a → fM s a = pure (f s a) ∧ I (f s a).2) (hs : I s)
    (hl : ∀ a ∈ l, P a) : sweepM fM s l = pure (sweep f s l) := by
  induction l generalizing s with
  | nil => rfl
  | cons a l ih =>
      obtain ⟨hround, hi⟩ := step s a hs (hl a List.mem_cons_self)
      rw [sweepM, hround, pure_bind, ih hi fun b hb ↦ hl b (List.mem_cons_of_mem a hb)]
      rfl

theorem sweep_append (l m : List α) : sweep f s (l ++ m) =
    ((sweep f s l).1 ++ (sweep f (sweep f s l).2 m).1, (sweep f (sweep f s l).2 m).2) := by
  induction l generalizing s with
  | nil => rfl
  | cons a l ih => rw [List.cons_append, sweep, ih]; rfl

end Sweep
