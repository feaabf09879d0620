import Rivid.Core.Monotonic
import Mathlib.Data.List.Pairwise

/-!
# Monotonic streams behind a binding

A language binding keeps one or more `MonotonicState`s and lets its callers pin
the timestamp of a call.  `Honours` is what its callers rely on: a call that
fails changes nothing, a call that returns has a ULID at or after the time that
was asked for, and the ULIDs of one stream are strictly increasing.

`honours_of_streamSteps` reduces the promise, for runs of any machine, to a fact
about each of its steps.
-/

namespace Rivid

/-- A machine that keeps monotonic streams, seen from outside. -/
structure Streams (σ ι ο κ : Type) where
  /-- The state of a stream. -/
  state : σ → κ → MonotonicState
  /-- The stream a call is made on. -/
  key : ι → κ
  /-- The ULID a call returns, if it does not fail. -/
  returned : ο → Option Str
  /-- A timestamp is at or after the one a call asks for. -/
  atLeast : ι → ℕ → Prop

namespace Streams

variable {σ ι ο κ : Type} (S : Streams σ ι ο κ)

/-- The call fails and no stream changes. -/
def FailsUnchanged (e : Event σ ι ο) : Prop :=
  S.returned e.output = none ∧ ∀ k, S.state e.after k = S.state e.before k

/-- The call returns a ULID at or after the time it asks for. -/
def ReturnsInTime (e : Event σ ι ο) : Prop :=
  ∃ id t, S.returned e.output = some id ∧ Ulid.decodeTime id = .ok t ∧ S.atLeast e.input t.toNat

/-- What callers rely on in a run. -/
structure Honours (es : List (Event σ ι ο)) : Prop where
  each : ∀ e ∈ es, S.FailsUnchanged e ∨ S.ReturnsInTime e
  increasing : es.Pairwise fun e f ↦ S.key e.input = S.key f.input →
    ∀ id id', S.returned e.output = some id → S.returned f.output = some id' → Increases id id'

/-- One step of the state machine on the call's stream, the others unchanged,
that returns the text of the new state and is stamped `now` or later. -/
def StreamStep (e : Event σ ι ο) : Prop :=
  ∃ now clock clock', (S.state e.before (S.key e.input)).Emits now clock
      (S.state e.after (S.key e.input)) clock' ∧
    ¬ (S.state e.before (S.key e.input)).Exhausted now ∧
    S.returned e.output = some (S.state e.after (S.key e.input)).text ∧
    (∀ t, now.toNat ≤ t → S.atLeast e.input t) ∧
    ∀ k, k ≠ S.key e.input → S.state e.after k = S.state e.before k

variable {S}

/-- A step makes the number of its own stream larger. -/
theorem StreamStep.num_lt {e : Event σ ι ο} (h : S.StreamStep e)
    (hdom : (S.state e.before (S.key e.input)).InDomain) :
    (S.state e.before (S.key e.input)).num < (S.state e.after (S.key e.input)).num := by
  obtain ⟨now, clock, clock', hemits, hex, -, -, -⟩ := h
  rw [hemits.num_lt_iff hdom]
  intro hex'
  exact absurd hex' hex

theorem StreamStep.returned_eq {e : Event σ ι ο} (h : S.StreamStep e) :
    S.returned e.output = some (S.state e.after (S.key e.input)).text := by
  obtain ⟨_, _, _, -, -, hret, -, -⟩ := h
  exact hret

theorem StreamStep.returnsInTime {e : Event σ ι ο} (h : S.StreamStep e)
    (hdom : (S.state e.after (S.key e.input)).InDomain) : S.ReturnsInTime e := by
  obtain ⟨now, clock, clock', hemits, hex, hret, htime, -⟩ := h
  exact ⟨_, _, hret, MonotonicState.decodeTime_text hdom, htime _ (hemits.now_le hex)⟩

/-- No step makes the number of any stream smaller. -/
theorem num_le {e : Event σ ι ο} (h : S.FailsUnchanged e ∨ S.StreamStep e)
    (hdom : ∀ k, (S.state e.before k).InDomain) (k : κ) :
    (S.state e.before k).num ≤ (S.state e.after k).num := by
  rcases h with ⟨-, hsame⟩ | hstep
  · rw [hsame k]
  · by_cases hk : k = S.key e.input
    · subst hk
      exact le_of_lt (hstep.num_lt (hdom _))
    · obtain ⟨_, _, _, -, -, -, -, hother⟩ := hstep
      rw [hother k hk]

/-- A run of steps inside the domains keeps the promise. -/
theorem honours_of_streamSteps {step : σ → ι → Option (ο × σ)} {s : σ} {is : List ι}
    {es : List (Event σ ι ο)} (hrun : Machine.run step s is = some es)
    (hdom : ∀ e ∈ es, ∀ k, (S.state e.before k).InDomain ∧ (S.state e.after k).InDomain)
    (hstep : ∀ e ∈ es, S.FailsUnchanged e ∨ S.StreamStep e) : S.Honours es := by
  constructor
  · intro e he
    rcases hstep e he with h | h
    · exact Or.inl h
    · exact Or.inr (h.returnsInTime (hdom e he _).2)
  · have hgrow : ∀ k, es.Pairwise fun e f ↦ (S.state e.after k).num ≤ (S.state f.before k).num :=
      fun k ↦ (Machine.pairwise_le (m := fun w ↦ (S.state w k).num)
        (fun e he ↦ num_le (hstep e he) (fun k ↦ (hdom e he k).1) k) hrun).2
    have hall : es.Pairwise fun e f ↦ ∀ k, (S.state e.after k).num ≤ (S.state f.before k).num :=
      List.pairwise_iff_getElem.mpr fun i j hi hj hij k ↦
        List.pairwise_iff_getElem.mp (hgrow k) i j hi hj hij
    refine hall.imp_of_mem fun {e f} he hf hle hkey id id' hid hid' ↦ ?_
    have hreturned : ∀ g ∈ es, ∀ id, S.returned g.output = some id →
        S.StreamStep g ∧ id = (S.state g.after (S.key g.input)).text := by
      intro g hg id hid
      rcases hstep g hg with ⟨hnone, -⟩ | h
      · rw [hnone] at hid
        cases hid
      · rw [h.returned_eq, Option.some.injEq] at hid
        exact ⟨h, hid.symm⟩
    obtain ⟨-, hid⟩ := hreturned e he id hid
    obtain ⟨hf', hid'⟩ := hreturned f hf id' hid'
    rw [hid, hid', MonotonicState.increases_text_iff (hdom e he _).2 (hdom f hf _).2, hkey]
    exact lt_of_le_of_lt (hle _) (hf'.num_lt (hdom f hf _).1)

end Streams

end Rivid
