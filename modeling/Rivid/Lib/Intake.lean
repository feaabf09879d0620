import Mathlib.Data.List.Basic

/-!
# Computations that take from the front of a list

A computation that reads its inputs from a list, one after another, and hands on the rest
does not depend on the inputs it has not come to.  `Local` says so of a computation whose
result holds what it computes and the rest: whatever follows the inputs that it takes, it
takes these, computes the same and leaves what follows.  Computations that are put together
from local ones are local.
-/

universe u v w x

namespace Intake

variable {ε : Type u} {α : Type v} {α' : Type v} {β : Type w} {γ : Type w}

/-- The computation `f` on a list of inputs takes some of them and does not look further;
`put` makes its result of a value and the rest of the list. -/
def Local (f : List ε → Option β) (put : α → List ε → β) : Prop :=
  ∀ l b, f l = some b → ∃ p a rest, l = p ++ rest ∧ b = put a rest ∧
    ∀ r, f (p ++ r) = some (put a r)

variable {f : List ε → Option β} {put : α → List ε → β} {put' : α' → List ε → γ}

/-- Where nothing is taken. -/
theorem local_some (a : α) (hf : ∀ l, f l = some (put a l)) : Local f put := by
  intro l b h
  rw [hf] at h
  exact ⟨[], a, l, rfl, (Option.some.inj h).symm, hf⟩

theorem local_none (hf : ∀ l, f l = none) : Local f put := by
  intro l b h
  rw [hf] at h
  cases h

/-- One computation and, on what it leaves, another. -/
theorem Local.bind {k : β → Option γ} (hf : Local f put)
    (hk : ∀ a, Local (fun l ↦ k (put a l)) put') : Local (fun l ↦ (f l).bind k) put' := by
  intro l c h
  obtain ⟨b, hb, hc⟩ := Option.bind_eq_some_iff.mp h
  obtain ⟨p, a, rest, rfl, rfl, hfall⟩ := hf l b hb
  obtain ⟨p', a', rest', rfl, rfl, hkall⟩ := hk a rest c hc
  refine ⟨p ++ p', a', rest', (List.append_assoc _ _ _).symm, rfl, fun r ↦ ?_⟩
  calc (f (p ++ p' ++ r)).bind k = k (put a (p' ++ r)) := by
        rw [List.append_assoc, hfall, Option.bind_some]
    _ = some (put' a' r) := hkall r

theorem Local.map {g : β → γ} (hf : Local f put) {k : α → α'}
    (hg : ∀ a l, g (put a l) = put' (k a) l) : Local (fun l ↦ (f l).map g) put' := by
  intro l c h
  obtain ⟨b, hb, rfl⟩ := Option.map_eq_some_iff.mp h
  obtain ⟨p, a, rest, rfl, rfl, hfall⟩ := hf l b hb
  refine ⟨p, k a, rest, rfl, hg a rest, fun r ↦ ?_⟩
  calc (f (p ++ r)).map g = some (g (put a r)) := by rw [hfall, Option.map_some]
    _ = some (put' (k a) r) := by rw [hg]

end Intake
