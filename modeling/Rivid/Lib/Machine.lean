import Mathlib.Order.Defs.PartialOrder
import Mathlib.Data.List.Basic

/-!
# Runs of a deterministic machine

A machine answers an input with an output and a new state, or with `none` when
the step does not complete.  `run` feeds it a list of inputs and records an
`Event` for each step.

Two rules are all a stream needs: what every step preserves holds at every
event (`run_invariant`), and a measure of the state grows along the run exactly
when it grows at each event (`pairwise_measure_iff`, `pairwise_le`).
-/

universe u v w

/-- One step of a run. -/
structure Event (σ : Type u) (ι : Type v) (ο : Type w) where
  before : σ
  input : ι
  output : ο
  after : σ

/-- The same event, its states seen through `f`. -/
def Event.mapState {σ : Type u} {ι : Type v} {ο : Type w} {τ : Type*} (f : σ → τ)
    (e : Event σ ι ο) : Event τ ι ο :=
  ⟨f e.before, e.input, e.output, f e.after⟩

namespace Machine

variable {σ : Type u} {ι : Type v} {ο : Type w} {step : σ → ι → Option (ο × σ)}

/-- The events of feeding the inputs one after another, if every step completes. -/
def run (step : σ → ι → Option (ο × σ)) : σ → List ι → Option (List (Event σ ι ο))
  | _, [] => some []
  | s, i :: is => (step s i).bind fun r ↦ (run step r.2 is).map (⟨s, i, r.1, r.2⟩ :: ·)

@[simp] theorem run_nil (s : σ) : run step s [] = some [] := rfl

/-- A run of at least one input is a step and the run from there. -/
theorem run_cons_eq_some_iff {s : σ} {i : ι} {is : List ι} {es : List (Event σ ι ο)} :
    run step s (i :: is) = some es ↔
      ∃ o s' es', step s i = some (o, s') ∧ run step s' is = some es' ∧
        es = ⟨s, i, o, s'⟩ :: es' := by
  constructor
  · intro h
    obtain ⟨⟨o, s'⟩, hstep, h⟩ := Option.bind_eq_some_iff.mp h
    obtain ⟨es', hrun, rfl⟩ := Option.map_eq_some_iff.mp h
    exact ⟨o, s', es', hstep, hrun, rfl⟩
  · rintro ⟨o, s', es', hstep, hrun, rfl⟩
    rw [run, hstep, Option.bind_some, hrun]
    rfl

variable {s : σ} {is : List ι} {es : List (Event σ ι ο)}

theorem before_of_run_cons {e : Event σ ι ο} (h : run step s is = some (e :: es)) :
    e.before = s := by
  cases is with
  | nil => cases h
  | cons i is =>
      obtain ⟨o, s', es', -, -, he⟩ := run_cons_eq_some_iff.mp h
      cases he
      rfl

/-- The inputs of the events are the inputs of the run. -/
theorem map_input (h : run step s is = some es) : es.map Event.input = is := by
  induction is generalizing s es with
  | nil =>
      cases h
      rfl
  | cons i is ih =>
      obtain ⟨o, s', es', -, hrun, rfl⟩ := run_cons_eq_some_iff.mp h
      rw [List.map_cons, ih hrun]

/-- What every step preserves holds before every event. -/
theorem run_invariant {I : σ → Prop} {J : ι → Prop}
    (hstep : ∀ s i o s', I s → J i → step s i = some (o, s') → I s')
    (hs : I s) (his : ∀ i ∈ is, J i) (h : run step s is = some es) :
    ∀ e ∈ es, I e.before ∧ J e.input ∧ step e.before e.input = some (e.output, e.after) := by
  induction is generalizing s es with
  | nil =>
      cases h
      simp
  | cons i is ih =>
      obtain ⟨o, s', es', hi, hrun, rfl⟩ := run_cons_eq_some_iff.mp h
      have hJ : J i := his i (by simp)
      intro e he
      rcases List.mem_cons.mp he with rfl | he
      · exact ⟨hs, hJ, hi⟩
      · exact ih (hstep s i o s' hs hJ hi) (fun j hj ↦ his j (by simp [hj])) hrun e he

/-! ## One run after another -/

/-- The state a run from `s` ends in. -/
def final (s : σ) (es : List (Event σ ι ο)) : σ := (es.getLast?.map Event.after).getD s

@[simp] theorem final_nil (s : σ) : final s ([] : List (Event σ ι ο)) = s := rfl

theorem final_cons (s : σ) (e : Event σ ι ο) (es : List (Event σ ι ο)) :
    final s (e :: es) = final e.after es := by
  cases es with
  | nil => rfl
  | cons f es => rw [final, final, List.getLast?_cons_cons, List.getLast?_cons]; rfl

theorem final_append (s : σ) (es es' : List (Event σ ι ο)) :
    final s (es ++ es') = final (final s es) es' := by
  induction es generalizing s with
  | nil => rfl
  | cons e es ih => rw [List.cons_append, final_cons, final_cons, ih]

theorem run_append {is' : List ι} {es' : List (Event σ ι ο)} (h : run step s is = some es)
    (h' : run step (final s es) is' = some es') : run step s (is ++ is') = some (es ++ es') := by
  induction is generalizing s es with
  | nil =>
      cases h
      exact h'
  | cons i is ih =>
      obtain ⟨o, s', es₁, hi, hrun, rfl⟩ := run_cons_eq_some_iff.mp h
      rw [final_cons] at h'
      exact run_cons_eq_some_iff.mpr ⟨o, s', _, hi, ih hrun h', rfl⟩

/-- A loop that makes one step on the same input in each of its rounds: `P n s xs s'` says
that `n` rounds from `s` make `xs` and end in `s'`. -/
theorem run_replicate {γ : Type*} {i : ι} {g : Event σ ι ο → List γ}
    {P : ℕ → σ → List γ → σ → Prop} (hzero : ∀ {s xs s'}, P 0 s xs s' → xs = [] ∧ s' = s)
    (hsucc : ∀ {n s xs s''}, P (n + 1) s xs s'' → ∃ o s' x xs', step s i = some (o, s') ∧
      g ⟨s, i, o, s'⟩ = [x] ∧ P n s' xs' s'' ∧ xs = x :: xs')
    {n : ℕ} {xs : List γ} {s' : σ} (h : P n s xs s') :
    ∃ es, run step s (List.replicate n i) = some es ∧ final s es = s' ∧ es.flatMap g = xs := by
  induction n generalizing s xs with
  | zero =>
      obtain ⟨rfl, rfl⟩ := hzero h
      exact ⟨[], rfl, rfl, rfl⟩
  | succ n ih =>
      obtain ⟨o, s₁, x, xs', hi, hx, hrest, rfl⟩ := hsucc h
      obtain ⟨es, hrun, hfinal, hxs⟩ := ih hrest
      refine ⟨⟨s, i, o, s₁⟩ :: es, run_cons_eq_some_iff.mpr ⟨o, s₁, es, hi, hrun, rfl⟩, ?_, ?_⟩
      · rw [final_cons, hfinal]
      · rw [List.flatMap_cons, hx, hxs, List.singleton_append]

/-- A run is replayed by a run of another machine, each event by the run of several inputs.
The states of the two are matched from the end: for whatever the replay of an event is to
end in there is a state it starts in. -/
theorem exists_replay {σ' ι' ο' : Type*} {γ : Type*} {step' : σ' → ι' → Option (ο' × σ')}
    {R : σ → σ' → Prop} {inputs : Event σ ι ο → List ι'} {f : Event σ ι ο → List γ}
    {g : Event σ' ι' ο' → List γ} (h : run step s is = some es)
    (hreplay : ∀ e ∈ es, ∀ t', R e.after t' → ∃ t es', R e.before t ∧
      run step' t (inputs e) = some es' ∧ final t es' = t' ∧ es'.flatMap g = f e)
    {u : σ'} (hu : R (final s es) u) :
    ∃ t es', R s t ∧ run step' t (es.flatMap inputs) = some es' ∧ final t es' = u ∧
      es'.flatMap g = es.flatMap f := by
  induction is generalizing s es with
  | nil =>
      cases h
      exact ⟨u, [], hu, rfl, rfl, rfl⟩
  | cons i is ih =>
      obtain ⟨o, s₁, es₁, hi, hrun, rfl⟩ := run_cons_eq_some_iff.mp h
      rw [final_cons] at hu
      obtain ⟨t₁, es₁', ht₁, hrun₁, hfinal₁, hobs₁⟩ :=
        ih hrun (fun e he ↦ hreplay e (List.mem_cons_of_mem _ he)) hu
      obtain ⟨t, es', ht, hrun', hfinal', hobs'⟩ := hreplay _ List.mem_cons_self t₁ ht₁
      rw [← hfinal'] at hrun₁ hfinal₁
      refine ⟨t, es' ++ es₁', ht, ?_, ?_, ?_⟩
      · rw [List.flatMap_cons]
        exact run_append hrun' hrun₁
      · rw [final_append, hfinal₁]
      · rw [List.flatMap_append, List.flatMap_cons, hobs', hobs₁]

/-! ## Events by their index -/

theorem length_run (h : run step s is = some es) : es.length = is.length := by
  rw [← map_input h, List.length_map]

/-- The first event starts in the state the run starts in. -/
theorem before_getElem_zero (h : run step s is = some es) (h0 : 0 < es.length) :
    es[0].before = s := by
  cases es with
  | nil => cases h0
  | cons e es => exact before_of_run_cons h

/-- Each event starts in the state that the one before it leaves. -/
theorem before_getElem_succ (h : run step s is = some es) {n : ℕ} (hn : n + 1 < es.length) :
    es[n + 1].before = es[n].after := by
  induction is generalizing s es n with
  | nil =>
      cases h
      cases hn
  | cons i is ih =>
      obtain ⟨o, s', es', -, hrun, rfl⟩ := run_cons_eq_some_iff.mp h
      have hn' : n < es'.length := Nat.lt_of_succ_lt_succ hn
      cases n with
      | zero => exact before_getElem_zero hrun hn'
      | succ n => exact ih hrun hn'

theorem run_take (h : run step s is = some es) (n : ℕ) :
    run step s (is.take n) = some (es.take n) := by
  induction is generalizing s es n with
  | nil =>
      cases h
      rw [List.take_nil, List.take_nil, run_nil]
  | cons i is ih =>
      obtain ⟨o, s', es', hi, hrun, rfl⟩ := run_cons_eq_some_iff.mp h
      cases n with
      | zero => rfl
      | succ n => exact run_cons_eq_some_iff.mpr ⟨o, s', _, hi, ih hrun n, rfl⟩

/-- Each event starts in the state that those before it end in. -/
theorem before_getElem (h : run step s is = some es) {n : ℕ} (hn : n < es.length) :
    es[n].before = final s (es.take n) := by
  induction n with
  | zero => exact before_getElem_zero h hn
  | succ n ih =>
      rw [before_getElem_succ h hn, List.take_succ_eq_append_getElem (Nat.lt_of_succ_lt hn),
        final_append]
      rfl

theorem step_getElem (h : run step s is = some es) {n : ℕ} (hn : n < es.length) :
    step es[n].before es[n].input = some (es[n].output, es[n].after) :=
  (run_invariant (I := fun _ ↦ True) (J := fun _ ↦ True) (fun _ _ _ _ _ _ _ ↦ trivial) trivial
    (fun _ _ ↦ trivial) h _ (List.getElem_mem hn)).2.2

/-- What an event brings about, and all events after it keep, a later one finds. -/
theorem before_of_kept (h : run step s is = some es) {P : σ → Prop} {m n : ℕ} (hmn : m < n)
    (hn : n < es.length) (hm : P es[m].after)
    (hkept : ∀ k (hk : k < n), m < k → P es[k].before → P es[k].after) : P es[n].before := by
  induction n with
  | zero => exact absurd hmn (Nat.not_lt_zero m)
  | succ n ih =>
      rw [before_getElem_succ h hn]
      rcases Nat.lt_succ_iff_lt_or_eq.mp hmn with hlt | rfl
      · refine hkept n (Nat.lt_succ_self n) hlt (ih hlt (Nat.lt_of_succ_lt hn) hm ?_)
        exact fun k hk ↦ hkept k (Nat.lt_succ_of_lt hk)
      · exact hm

/-- A run completes, and says `Q` of each event, when at every index the step
completes from a state that satisfies `I`, says `Q` and keeps `I`. -/
theorem exists_run {I : ℕ → σ → Prop} {Q : ℕ → Event σ ι ο → Prop}
    (hstep : ∀ n (hn : n < is.length) s, I n s →
      ∃ o s', step s is[n] = some (o, s') ∧ I (n + 1) s' ∧ Q n ⟨s, is[n], o, s'⟩)
    (hs : I 0 s) :
    ∃ es, run step s is = some es ∧ ∀ n (hn : n < es.length), Q n es[n] := by
  induction is generalizing s I Q with
  | nil => exact ⟨[], rfl, fun n hn ↦ absurd hn (Nat.not_lt_zero n)⟩
  | cons i is ih =>
      obtain ⟨o, s', hi, hs', hq⟩ := hstep 0 (Nat.succ_pos _) s hs
      have hrest : ∃ es, run step s' is = some es ∧ ∀ n (hn : n < es.length), Q (n + 1) es[n] :=
        ih (I := fun n ↦ I (n + 1)) (fun n hn s ↦ hstep (n + 1) (Nat.succ_lt_succ hn) s) hs'
      obtain ⟨es, hrun, hes⟩ := hrest
      refine ⟨_, run_cons_eq_some_iff.mpr ⟨o, s', es, hi, hrun, rfl⟩, ?_⟩
      intro n hn
      cases n with
      | zero => exact hq
      | succ n => exact hes n (Nat.lt_of_succ_lt_succ hn)

/-- A machine whose steps on the images of states are the images of another's steps runs as
this one does. -/
theorem run_map {τ : Type*} {step' : τ → ι → Option (ο × τ)} {f : σ → τ}
    (hstep : ∀ s i, step' (f s) i = (step s i).map fun r ↦ (r.1, f r.2)) (s : σ) (is : List ι) :
    run step' (f s) is = (run step s is).map (List.map (Event.mapState f)) := by
  induction is generalizing s with
  | nil => rfl
  | cons i is ih =>
      rw [run, run, hstep]
      cases step s i with
      | none => rfl
      | some r =>
          rw [Option.map_some, Option.bind_some, Option.bind_some, ih, Option.map_map,
            Option.map_map]
          rfl

/-- Two runs on the same inputs.  If the observation `f` of a step decides its
observation `g`, and whether the two states stay related, then runs that agree on
`f` agree on `g`. -/
theorem run_lockstep {α β : Type*} {R : σ → σ → Prop} {f : Event σ ι ο → α} {g : Event σ ι ο → β}
    (hstep : ∀ {s₁ s₂ i o₁ s₁' o₂ s₂'}, R s₁ s₂ → step s₁ i = some (o₁, s₁') →
      step s₂ i = some (o₂, s₂') → f ⟨s₁, i, o₁, s₁'⟩ = f ⟨s₂, i, o₂, s₂'⟩ →
      g ⟨s₁, i, o₁, s₁'⟩ = g ⟨s₂, i, o₂, s₂'⟩ ∧ R s₁' s₂')
    {s₁ s₂ : σ} {es₁ es₂ : List (Event σ ι ο)} (hs : R s₁ s₂) (h₁ : run step s₁ is = some es₁)
    (h₂ : run step s₂ is = some es₂) (hf : es₁.map f = es₂.map f) : es₁.map g = es₂.map g := by
  induction is generalizing s₁ s₂ es₁ es₂ with
  | nil =>
      cases h₁
      cases h₂
      rfl
  | cons i is ih =>
      obtain ⟨o₁, s₁', es₁', hi₁, hrun₁, rfl⟩ := run_cons_eq_some_iff.mp h₁
      obtain ⟨o₂, s₂', es₂', hi₂, hrun₂, rfl⟩ := run_cons_eq_some_iff.mp h₂
      rw [List.map_cons, List.map_cons, List.cons.injEq] at hf
      obtain ⟨hg, hs'⟩ := hstep hs hi₁ hi₂ hf.1
      rw [List.map_cons, List.map_cons, hg, ih hs' hrun₁ hrun₂ hf.2]

/-! ## Measures -/

/-- A measure that no step decreases: what an event leaves is at most what a
later one finds. -/
theorem pairwise_le {α : Type*} [Preorder α] {m : σ → α}
    (hle : ∀ e ∈ es, m e.before ≤ m e.after) (h : run step s is = some es) :
    (∀ e ∈ es, m s ≤ m e.before) ∧ es.Pairwise fun e f ↦ m e.after ≤ m f.before := by
  induction is generalizing s es with
  | nil =>
      cases h
      simp
  | cons i is ih =>
      obtain ⟨o, s', es', -, hrun, rfl⟩ := run_cons_eq_some_iff.mp h
      obtain ⟨hfrom, hpair⟩ := ih (fun e he ↦ hle e (by simp [he])) hrun
      have hfirst : m s ≤ m s' := hle ⟨s, i, o, s'⟩ (by simp)
      refine ⟨?_, List.pairwise_cons.mpr ⟨hfrom, hpair⟩⟩
      intro e he
      rcases List.mem_cons.mp he with rfl | he
      · exact le_refl _
      · exact le_trans hfirst (hfrom e he)

/-- The measure along a run, with the initial one in front, is strictly
increasing exactly when every event increases it. -/
theorem pairwise_measure_iff {α : Type*} [Preorder α] {m : σ → α} (h : run step s is = some es) :
    (m s :: es.map fun e ↦ m e.after).Pairwise (· < ·) ↔ ∀ e ∈ es, m e.before < m e.after := by
  induction is generalizing s es with
  | nil =>
      cases h
      simp
  | cons i is ih =>
      obtain ⟨o, s', es', -, hrun, rfl⟩ := run_cons_eq_some_iff.mp h
      rw [List.map_cons, List.pairwise_cons, ih hrun]
      constructor
      · rintro ⟨hfirst, hrest⟩ e he
        rcases List.mem_cons.mp he with rfl | he
        · exact hfirst _ (by simp)
        · exact hrest e he
      · intro hall
        have hfirst : m s < m s' := hall ⟨s, i, o, s'⟩ (by simp)
        have hrest : ∀ e ∈ es', m e.before < m e.after := fun e he ↦ hall e (by simp [he])
        have htail := List.pairwise_cons.mp ((ih hrun).mpr hrest)
        refine ⟨?_, hrest⟩
        intro x hx
        rcases List.mem_cons.mp hx with rfl | hx
        · exact hfirst
        · exact lt_trans hfirst (htail.1 x hx)

end Machine
