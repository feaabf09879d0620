import Mathlib.Data.List.Induction
import Mathlib.Logic.Function.Basic
import Rivid.Lib.LastWrite

/-!
# Writes one after another

A store gives each place a value.  Where values are written one after another, each place
holds what was written there last, or what it held before if nothing was.
-/

universe v w

variable {κ : Type v} {ν : Type w} [DecidableEq κ] {f : κ → ν} {ws : List (κ × ν)} {k : κ}

/-- The writes `ws`, each of a value at a place, one after another over `f`. -/
def writeAll (f : κ → ν) (ws : List (κ × ν)) : κ → ν :=
  ws.foldl (fun f w ↦ Function.update f w.1 w.2) f

theorem writeAll_cons (f : κ → ν) (k : κ) (x : ν) (ws : List (κ × ν)) :
    writeAll f ((k, x) :: ws) = writeAll (Function.update f k x) ws := rfl

/-- At each place stands what was written there last. -/
theorem writeAll_apply (f : κ → ν) (ws : List (κ × ν)) (k : κ) :
    writeAll f ws k = ((lastWhere (fun w ↦ decide (w.1 = k)) ws).map Prod.snd).getD (f k) := by
  induction ws using List.reverseRecOn with
  | nil => rfl
  | append_singleton ws w ih =>
      have hlast : writeAll f (ws ++ [w]) = Function.update (writeAll f ws) w.1 w.2 := by
        rw [writeAll, List.foldl_append]
        rfl
      rw [hlast]
      by_cases hk : w.1 = k
      · have hpos : lastWhere (fun w ↦ decide (w.1 = k)) (ws ++ [w]) = some w :=
          lastWhere_concat_of_pos (decide_eq_true hk)
        rw [hpos]
        subst hk
        exact Function.update_self ..
      · have hneg : lastWhere (fun w ↦ decide (w.1 = k)) (ws ++ [w]) =
            lastWhere (fun w ↦ decide (w.1 = k)) ws :=
          lastWhere_concat_of_neg (decide_eq_false hk)
        rw [hneg, ← ih]
        exact Function.update_of_ne (Ne.symm hk) ..

theorem writeAll_of_not_mem (h : k ∉ ws.map Prod.fst) : writeAll f ws k = f k := by
  have hnone : lastWhere (fun w ↦ decide (w.1 = k)) ws = none := by
    rw [← Option.not_isSome_iff_eq_none, isSome_lastWhere_iff]
    rintro ⟨w, hw, hk⟩
    exact h (List.mem_map.mpr ⟨w, hw, of_decide_eq_true hk⟩)
  rw [writeAll_apply, hnone]
  rfl

/-- What is written somewhere is one of the values written. -/
theorem writeAll_mem (h : k ∈ ws.map Prod.fst) : writeAll f ws k ∈ ws.map Prod.snd := by
  obtain ⟨w, hw, hk⟩ := List.mem_map.mp h
  have hsome : (lastWhere (fun w ↦ decide (w.1 = k)) ws).isSome :=
    isSome_lastWhere_iff.mpr ⟨w, hw, decide_eq_true hk⟩
  obtain ⟨last, hlast⟩ := Option.isSome_iff_exists.mp hsome
  rw [writeAll_apply, hlast]
  exact List.mem_map.mpr ⟨last, (lastWhere_spec hlast).1, rfl⟩
