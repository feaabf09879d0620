import Mathlib.Logic.Basic
import Mathlib.Tactic.TypeStar

/-!
# Walks between the forms of a value

A library that writes one value in several forms offers partial conversions between them.
If each conversion keeps what a text means and writes the canonical text of its target, then
so does a walk along any number of them, whichever way it goes.

Some forms are exact: whatever they accept is the text of a value.  A walk that touches one
of these throws on everything else.
-/

/-- A walk along conversions, each from where the last one led to. -/
inductive Walk {φ : Type*} (C : φ → φ → Type*) : φ → φ → Type _ where
  | nil (f : φ) : Walk C f f
  | cons {f g h : φ} (c : C f g) (rest : Walk C g h) : Walk C f h

namespace Walk

variable {φ α ν ε : Type*} {C : φ → φ → Type*} {f g h : φ}

/-- What the conversions make of a text, up to the first one that throws. -/
def run (call : ∀ f g, C f g → α → Except ε α) : ∀ {f g : φ}, Walk C f g → α → Except ε α
  | _, _, nil _, a => .ok a
  | _, _, cons c rest, a =>
      match call _ _ c a with
      | .error e => .error e
      | .ok b => rest.run call b

/-- There is nothing to convert. -/
def IsEmpty : ∀ {f g : φ}, Walk C f g → Prop
  | _, _, nil _ => True
  | _, _, cons _ _ => False

/-- A conversion of the walk starts or ends in a form with `p`. -/
def Touches (p : φ → Prop) : ∀ {f g : φ}, Walk C f g → Prop
  | _, _, nil _ => False
  | f, _, cons (g := g) _ rest => p f ∨ p g ∨ rest.Touches p

/-- The conversions of a library keep the meaning of a text. -/
structure Keeps (call : ∀ f g, C f g → α → Except ε α) (Means : φ → α → ν → Prop)
    (text : φ → ν → α) (Exact : φ → Prop) : Prop where
  means_text : ∀ f v, Means f (text f v) v
  call_of_means : ∀ {f g a v} (c : C f g), Means f a v → call f g c a = .ok (text g v)
  means_of_call : ∀ {f g a b v} (c : C f g), call f g c a = .ok b → Means g b v → Means f a v
  exists_means : ∀ {f g a b} (c : C f g), call f g c a = .ok b → Exact f ∨ Exact g →
    ∃ v, Means f a v

namespace Keeps

variable {call : ∀ f g, C f g → α → Except ε α} {Means : φ → α → ν → Prop}
  {text : φ → ν → α} {Exact : φ → Prop} (K : Keeps call Means text Exact)

include K

/-- From a canonical text to a canonical text. -/
theorem run_text (w : Walk C f g) (v : ν) : w.run call (text f v) = .ok (text g v) := by
  induction w with
  | nil f => rfl
  | cons c rest ih =>
      rw [run, K.call_of_means c (K.means_text _ v)]
      exact ih

/-- The first conversion already writes the canonical text. -/
theorem run_of_means {w : Walk C f g} (hw : ¬ w.IsEmpty) {a : α} {v : ν} (h : Means f a v) :
    w.run call a = .ok (text g v) := by
  cases w with
  | nil f => exact absurd trivial hw
  | cons c rest =>
      rw [run, K.call_of_means c h]
      exact K.run_text rest v

/-- What an exact form on the way has accepted had a meaning from the start. -/
theorem exists_means_of_run {w : Walk C f g} (hw : w.Touches Exact) {a b : α}
    (h : w.run call a = .ok b) : ∃ v, Means f a v := by
  induction w generalizing a with
  | nil f => exact hw.elim
  | cons c rest ih =>
      rw [run] at h
      split at h
      · cases h
      · rename_i b' hcall
        rcases hw with hf | hg | hrest
        · exact K.exists_means c hcall (Or.inl hf)
        · exact K.exists_means c hcall (Or.inr hg)
        · obtain ⟨v, hv⟩ := ih hrest h
          exact ⟨v, K.means_of_call c hcall hv⟩

theorem run_eq_ok_iff {w : Walk C f g} (hw : w.Touches Exact) {a b : α} :
    w.run call a = .ok b ↔ ∃ v, Means f a v ∧ b = text g v := by
  have hne : ¬ w.IsEmpty := by
    cases w with
    | nil f => exact hw.elim
    | cons c rest => exact id
  constructor
  · intro h
    obtain ⟨v, hv⟩ := K.exists_means_of_run hw h
    rw [K.run_of_means hne hv, Except.ok.injEq] at h
    exact ⟨v, hv, h.symm⟩
  · rintro ⟨v, hv, rfl⟩
    exact K.run_of_means hne hv

end Keeps

end Walk
