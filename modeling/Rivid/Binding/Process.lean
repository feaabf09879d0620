import Rivid.Binding.Batches

/-!
# Generator objects in one process

The functions of the Node binding and the generator objects that a client makes, at any time
and as many as it likes, all read the one clock of their thread, and those that are not
seeded draw from its secure generator and its entropy pool.

A seeded generator keeps its draws to itself: whatever else is called in between, it returns
what it would return if nothing else was there, on a clock without the readings that the
others made.
-/

namespace Rivid.Napi

open Intake Machine

/-! ## The functions -/

def exceedsMax (ts : U64) : NapiError :=
  ⟨.invalidArg, "timestamp " ++ toString ts.toNat ++ " exceeds ULID max " ++
    toString timeMax.toNat⟩

section Functions

variable {ρ : Type} [Rng ρ]

omit [Rng ρ] in
/-- Generates a canonical ULID. -/
def ulid (th : Thread ρ) (timestampMs : Option JsNumber) :
    Option (Except NapiError Str × Thread ρ) :=
  match explicitTs timestampMs with
  | .error e => some (.error e, th)
  | .ok ts => do
      let (ts, clock) ← orNow ts th.clock
      if timeMax < ts then return (.error (exceedsMax ts), { th with clock })
      let (r, pool, fills) ← random80 th.pool th.fills
      return (.ok (Crockford.encodeString (Id128.fromParts ts r).asU128),
        { th with pool, fills, clock })

/-- Generates a ULID of the module's own monotonic stream. -/
def monotonicUlid (mono : MonotonicState) (th : Thread ρ) (timestampMs : Option JsNumber) :
    Option (Except NapiError Str × MonotonicState × Thread ρ) := do
  let (r, mono, secure, clock) ←
    Shared.monotonicUlid explicitTs timestampMs mono th.secure th.clock
  return (r, mono, { th with secure, clock })

/-- Generates `count` ULIDs that share one captured timestamp. -/
def generateMany (th : Thread ρ) (count : ℤ) : Option (Except NapiError (List Str) × Thread ρ) :=
  if ¬ (0 ≤ count ∧ count ≤ maxBatch) then some (.error (invalidCount count), th)
  else do
    let (ts, clock) ← nowMs th.clock
    let strings := UlidGenerator.nextLoopSecure ts th.secure count.toNat
    return (.ok strings.1, { th with secure := strings.2, clock })

end Functions

/-! ## The process -/

/-- The objects made so far, the module's stream, and what everything reads. -/
structure Process (ρ : Type) where
  generators : List UlidGenerator
  mono : MonotonicState
  thread : Thread ρ

/-- A process that has just loaded the module. -/
def Process.new {ρ : Type} (th : Thread ρ) : Process ρ := ⟨[], .new, th⟩

/-- The calls of a client; a generator is known by the place at which it was made. -/
inductive ProcessCall where
  | create (seed : Option U64)
  | on (handle : ℕ) (call : GeneratorCall)
  | ulid (timestampMs : Option JsNumber)
  | monotonicUlid (timestampMs : Option JsNumber)
  | generateMany (count : ℤ)

namespace ProcessCall

/-- The seed option of a constructor call. -/
def seed? : ProcessCall → Option (Option U64)
  | create seed => some seed
  | _ => none

/-- The call on the generator `k`. -/
def on? (k : ℕ) : ProcessCall → Option GeneratorCall
  | on handle call => if handle = k then some call else none
  | _ => none

end ProcessCall

/-- One call; a constructor returns no ULID. -/
def Process.step {ρ : Type} [Rng ρ] (p : Process ρ) (c : ProcessCall) :
    Option (Except NapiError (List Str) × Process ρ) :=
  match c with
  | .create seed => some (.ok [], { p with generators := p.generators ++ [.new seed] })
  | .on handle call => do
      let g ← p.generators[handle]?
      let (r, g, thread) ← call.step (g, p.thread)
      return (r, { p with generators := p.generators.set handle g, thread })
  | .ulid timestampMs =>
      (Napi.ulid p.thread timestampMs).map fun r ↦ (r.1.map ([·]), { p with thread := r.2 })
  | .monotonicUlid timestampMs =>
      (Napi.monotonicUlid p.mono p.thread timestampMs).map fun r ↦
        (r.1.map ([·]), { p with mono := r.2.1, thread := r.2.2 })
  | .generateMany count =>
      (Napi.generateMany p.thread count).map fun r ↦ (r.1, { p with thread := r.2 })

/-- What a run of the process records of a call. -/
abbrev ProcessEvent (ρ : Type) := Event (Process ρ) ProcessCall (Except NapiError (List Str))

/-- What the generator `k` returns. -/
def ProcessEvent.of {ρ : Type} (k : ℕ) (e : ProcessEvent ρ) :
    Option (Except NapiError (List Str)) := (e.input.on? k).map fun _ ↦ e.output

/-! ## A seeded generator on its own -/

section Seeded

variable {ρ : Type} [Rng ρ] {g : UlidGenerator} {det : DeterministicRng}

/-- A seeded generator reads nothing but the clock, and changes nothing but the clock. -/
theorem step_of_det (hdet : g.det = some det) (th : Thread ρ) (c : GeneratorCall) :
    c.step (g, th) = (c.step (g, clockThread th.clock)).map fun r ↦
      (r.1, r.2.1, { th with clock := r.2.2.clock }) := by
  cases c with
  | next timestampMs =>
      simp only [GeneratorCall.step, UlidGenerator.next, hdet, clockThread]
      cases explicitTs timestampMs with
      | error e => rfl
      | ok ts => cases hnow : orNow ts th.clock <;> simp only [hnow] <;> rfl
  | monotonic timestampMs =>
      simp only [GeneratorCall.step, UlidGenerator.monotonic, hdet, clockThread]
      cases explicitTs timestampMs with
      | error e => rfl
      | ok ts =>
          cases ts with
          | none =>
              cases hnext : g.mono.nextDeterministic det th.clock <;> simp only [hnext] <;> rfl
          | some t =>
              cases hnext : g.mono.nextDeterministicAt t det th.clock <;> simp only [hnext] <;> rfl
  | nextMany count =>
      simp only [GeneratorCall.step, UlidGenerator.nextMany, hdet, clockThread]
      split
      · rfl
      · cases nowMs th.clock <;> rfl
  | monotonicMany count =>
      simp only [GeneratorCall.step, UlidGenerator.monotonicMany, hdet, clockThread]
      split
      · rfl
      · cases UlidGenerator.monotonicLoop g.mono det th.clock count.toNat <;> rfl

/-- A generator stays seeded, or not. -/
theorem isSome_det_of_step {th th' : Thread ρ} {c : GeneratorCall}
    {o : Except NapiError (List Str)} {g' : UlidGenerator}
    (h : c.step (g, th) = some (o, g', th')) : g'.det.isSome = g.det.isSome := by
  cases c with
  | next timestampMs =>
      obtain ⟨⟨r, g₁, th₁⟩, hcall, heq⟩ := Option.map_eq_some_iff.mp h
      cases heq
      rw [UlidGenerator.next] at hcall
      split at hcall
      · cases hcall
        rfl
      · rename_i hdet _
        obtain ⟨_, -, hcall⟩ := Option.bind_eq_some_iff.mp hcall
        cases hcall
        rw [hdet]
        rfl
      · cases hcall
        rfl
      · obtain ⟨_, -, hcall⟩ := Option.bind_eq_some_iff.mp hcall
        cases hcall
        rfl
  | monotonic timestampMs =>
      obtain ⟨⟨r, g₁, th₁⟩, hcall, heq⟩ := Option.map_eq_some_iff.mp h
      cases heq
      rw [UlidGenerator.monotonic] at hcall
      split at hcall
      · cases hcall
        rfl
      · rename_i hdet _
        obtain ⟨_, -, hcall⟩ := Option.bind_eq_some_iff.mp hcall
        cases hcall
        rw [hdet]
        rfl
      · rename_i hdet _
        obtain ⟨_, -, hcall⟩ := Option.bind_eq_some_iff.mp hcall
        cases hcall
        rw [hdet]
        rfl
      · obtain ⟨_, -, hcall⟩ := Option.bind_eq_some_iff.mp hcall
        cases hcall
        rfl
      · obtain ⟨_, -, hcall⟩ := Option.bind_eq_some_iff.mp hcall
        cases hcall
        rfl
  | nextMany count =>
      simp only [GeneratorCall.step, UlidGenerator.nextMany] at h
      split at h
      · cases h
        rfl
      · obtain ⟨_, -, h⟩ := Option.bind_eq_some_iff.mp h
        cases hdet : g.det <;> rw [hdet] at h <;> cases h
        · rw [hdet]
        · rfl
  | monotonicMany count =>
      simp only [GeneratorCall.step, UlidGenerator.monotonicMany] at h
      split at h
      · cases h
        rfl
      · cases hdet : g.det <;> rw [hdet] at h <;>
          obtain ⟨_, -, h⟩ := Option.bind_eq_some_iff.mp h <;> cases h <;> rfl

/-- On its own, with the readings it makes and others behind them. -/
theorem exists_alone (hdet : g.det.isSome) {th th' : Thread ρ} {c : GeneratorCall}
    {o : Except NapiError (List Str)} {g' : UlidGenerator}
    (h : c.step (g, th) = some (o, g', th')) :
    ∃ p, th.clock = p ++ th'.clock ∧
      ∀ clock, c.step (g, clockThread (p ++ clock)) = some (o, g', clockThread clock) := by
  obtain ⟨det, hdet⟩ := Option.isSome_iff_exists.mp hdet
  rw [step_of_det hdet] at h
  obtain ⟨⟨o', g₁, t⟩, halone, heq⟩ := Option.map_eq_some_iff.mp h
  cases heq
  obtain ⟨p, rest, hclock, hrest, hall⟩ := exists_readings halone
  have hthread : ∀ clock, ({ t with clock } : Thread Tape) = clockThread clock := by
    intro clock
    rw [step_of_det hdet] at halone
    obtain ⟨_, -, heq⟩ := Option.map_eq_some_iff.mp halone
    cases heq
    rfl
  refine ⟨p, hclock.trans (by rw [← hrest]), fun clock ↦ ?_⟩
  have hstep := hall clock
  rw [hthread] at hstep
  exact hstep

end Seeded

/-! ## What the others read -/

section Suffix

variable {ρ : Type} [Rng ρ]

theorem suffix_of_local {α β : Type} {f : Clock → Option β} {put : α → Clock → β}
    (rest : β → Clock) (hf : Local f put) (hrest : ∀ a l, rest (put a l) = l) {clock : Clock}
    {b : β} (h : f clock = some b) : rest b <:+ clock := by
  obtain ⟨p, a, l, rfl, rfl, -⟩ := hf clock b h
  rw [hrest]
  exact List.suffix_append p l

/-- A call takes its readings from the front of the clock. -/
theorem clock_suffix {p p' : Process ρ} {c : ProcessCall} {o : Except NapiError (List Str)}
    (h : p.step c = some (o, p')) : p'.thread.clock <:+ p.thread.clock := by
  cases c with
  | create seed =>
      cases h
      exact List.suffix_rfl
  | on handle call =>
      obtain ⟨g, -, h⟩ := Option.bind_eq_some_iff.mp h
      obtain ⟨⟨r, g', th⟩, hcall, h⟩ := Option.bind_eq_some_iff.mp h
      cases h
      obtain ⟨q, rest, hclock, rfl, -⟩ := exists_readings hcall
      rw [hclock]
      exact List.suffix_append q _
  | ulid timestampMs =>
      obtain ⟨⟨r, th⟩, hcall, heq⟩ := Option.map_eq_some_iff.mp h
      cases heq
      rw [ulid] at hcall
      split at hcall
      · cases hcall
        exact List.suffix_rfl
      · rename_i ts _
        obtain ⟨⟨t, clock⟩, hnow, hcall⟩ := Option.bind_eq_some_iff.mp hcall
        have hsuffix := suffix_of_local Prod.snd (local_orNow ts) (fun _ _ ↦ rfl) hnow
        dsimp only at hcall
        split at hcall
        · cases hcall
          exact hsuffix
        · obtain ⟨_, -, hcall⟩ := Option.bind_eq_some_iff.mp hcall
          cases hcall
          exact hsuffix
  | monotonicUlid timestampMs =>
      obtain ⟨⟨r, mono, th⟩, hcall, heq⟩ := Option.map_eq_some_iff.mp h
      cases heq
      obtain ⟨⟨r, mono, secure, clock⟩, hshared, heq⟩ := Option.bind_eq_some_iff.mp hcall
      cases heq
      rw [Shared.monotonicUlid] at hshared
      split at hshared
      · cases hshared
        exact List.suffix_rfl
      · obtain ⟨⟨id, mono', secure', clock'⟩, hnext, heq⟩ := Option.map_eq_some_iff.mp hshared
        cases heq
        exact suffix_of_local (fun r ↦ r.2.2.2)
          (MonotonicState.local_nextWith p.mono _ p.thread.secure) (fun _ _ ↦ rfl) hnext
      · obtain ⟨⟨id, mono', secure', clock'⟩, hnext, heq⟩ := Option.map_eq_some_iff.mp hshared
        cases heq
        exact suffix_of_local (fun r ↦ r.2.2.2)
          (MonotonicState.local_nextSecure p.mono p.thread.secure) (fun _ _ ↦ rfl) hnext
  | generateMany count =>
      obtain ⟨⟨r, th⟩, hcall, heq⟩ := Option.map_eq_some_iff.mp h
      cases heq
      rw [generateMany] at hcall
      split at hcall
      · cases hcall
        exact List.suffix_rfl
      · obtain ⟨⟨ts, clock⟩, hnow, hcall⟩ := Option.bind_eq_some_iff.mp hcall
        cases hcall
        rw [MonotonicState.nowMs_eq_some_iff.mp hnow]
        exact List.suffix_cons ts clock

end Suffix

/-! ## Isolation -/

section Isolation

variable {ρ : Type} [Rng ρ] {p : Process ρ} {calls : List ProcessCall} {es : List (ProcessEvent ρ)}
  {k : ℕ}

omit [Rng ρ] in
/-- The run of a generator alone: it makes the calls on `k`, reads some of the clock's readings and
uses them up, returns what the process returns for `k`, and ends in the state it has there. -/
def IsAlone (k : ℕ) (g : UlidGenerator) (p : Process ρ) (calls : List ProcessCall)
    (es : List (ProcessEvent ρ)) : Prop :=
  ∃ clock es' g', clock.Sublist p.thread.clock ∧
    run GeneratorCall.step (g, clockThread clock) (calls.filterMap (ProcessCall.on? k)) =
      some es' ∧
    es'.map Event.output = es.filterMap (ProcessEvent.of k) ∧
    (final p es).generators[k]? = some g' ∧
    final (g, clockThread clock) es' = (g', clockThread [])

omit [Rng ρ] in
/-- The generator `k`, made already or to be made by one of the calls. -/
def generator? (p : Process ρ) (calls : List ProcessCall) (k : ℕ) : Option UlidGenerator :=
  (p.generators ++ (calls.filterMap ProcessCall.seed?).map UlidGenerator.new)[k]?

section Call

variable {p' : Process ρ} {c : ProcessCall} {o : Except NapiError (List Str)} {g g₁ : UlidGenerator}

theorem eq_on_of_on? {call : GeneratorCall} (h : c.on? k = some call) : c = .on k call := by
  cases c with
  | on handle call' =>
      rw [ProcessCall.on?] at h
      split at h
      · rename_i hk
        cases h
        rw [hk]
      · cases h
  | create _ | ulid _ | monotonicUlid _ | generateMany _ => cases h

/-- A call on something else leaves the generator alone. -/
theorem generator?_of_other (hstep : p.step c = some (o, p')) (hon : c.on? k = none) :
    generator? p' calls k = generator? p (c :: calls) k := by
  cases c with
  | create seed =>
      cases hstep
      exact congrArg (·[k]?) (List.append_assoc ..)
  | on handle call =>
      obtain ⟨g₀, hg₀, hparts⟩ := Option.bind_eq_some_iff.mp hstep
      obtain ⟨⟨r, g₁, th⟩, -, heq⟩ := Option.bind_eq_some_iff.mp hparts
      cases heq
      have hk : handle ≠ k := fun hk ↦ by
        rw [ProcessCall.on?, if_pos hk] at hon
        cases hon
      rw [generator?, generator?, List.getElem?_append, List.length_set, List.getElem?_set_ne hk,
        ← List.getElem?_append]
      rfl
  | ulid timestampMs =>
      obtain ⟨_, -, heq⟩ := Option.map_eq_some_iff.mp hstep
      cases heq
      rfl
  | monotonicUlid timestampMs =>
      obtain ⟨_, -, heq⟩ := Option.map_eq_some_iff.mp hstep
      cases heq
      rfl
  | generateMany count =>
      obtain ⟨_, -, heq⟩ := Option.map_eq_some_iff.mp hstep
      cases heq
      rfl

theorem IsAlone.of_other (hstep : p.step c = some (o, p')) (hon : c.on? k = none)
    (h : IsAlone k g p' calls es) : IsAlone k g p (c :: calls) (⟨p, c, o, p'⟩ :: es) := by
  obtain ⟨clock, es', g', hsub, halone, hout, hlast, hfinal⟩ := h
  have hof : ProcessEvent.of k ⟨p, c, o, p'⟩ = none := by
    rw [ProcessEvent.of, hon, Option.map_none]
  refine ⟨clock, es', g', hsub.trans (clock_suffix hstep).sublist, ?_, ?_, ?_, hfinal⟩
  · rw [List.filterMap_cons_none hon]
    exact halone
  · rw [List.filterMap_cons_none hof]
    exact hout
  · rw [final_cons]
    exact hlast

/-- A call on the generator is a call of it alone, at the readings it takes. -/
theorem IsAlone.of_own {call : GeneratorCall} {th : Thread ρ} (hdet : g.det.isSome)
    (hcall : call.step (g, p.thread) = some (o, g₁, th)) (hth : p'.thread = th)
    (h : IsAlone k g₁ p' calls es) :
    IsAlone k g p (.on k call :: calls) (⟨p, .on k call, o, p'⟩ :: es) := by
  obtain ⟨clock, es', g', hsub, halone, hout, hlast, hfinal⟩ := h
  obtain ⟨q, hclock, hreads⟩ := exists_alone hdet hcall
  have hon : (ProcessCall.on k call).on? k = some call := if_pos rfl
  have hof : ProcessEvent.of k ⟨p, .on k call, o, p'⟩ = some o := by
    rw [ProcessEvent.of, hon, Option.map_some]
  refine ⟨q ++ clock, ⟨(g, clockThread (q ++ clock)), call, o, g₁, clockThread clock⟩ :: es', g',
    ?_, ?_, ?_, ?_, ?_⟩
  · rw [hclock, ← hth]
    exact (List.append_sublist_append_left q).mpr hsub
  · rw [List.filterMap_cons_some hon]
    exact run_cons_eq_some_iff.mpr ⟨o, _, es', hreads clock, halone, rfl⟩
  · rw [List.filterMap_cons_some hof, List.map_cons, hout]
  · rw [final_cons]
    exact hlast
  · rw [final_cons]
    exact hfinal

end Call

theorem alone_of_run (h : run Process.step p calls = some es) {g : UlidGenerator}
    (hg : generator? p calls k = some g) (hdet : g.det.isSome) : IsAlone k g p calls es := by
  induction calls generalizing p es g with
  | nil =>
      cases h
      rw [generator?, List.filterMap_nil, List.map_nil, List.append_nil] at hg
      exact ⟨[], [], g, List.nil_sublist _, rfl, rfl, hg, rfl⟩
  | cons c calls ih =>
      obtain ⟨o, p', es₁, hstep, hrun, rfl⟩ := run_cons_eq_some_iff.mp h
      cases hon : c.on? k with
      | none =>
          rw [← generator?_of_other hstep hon] at hg
          exact (ih hrun hg hdet).of_other hstep hon
      | some call =>
          obtain rfl := eq_on_of_on? hon
          obtain ⟨g₀, hg₀, hparts⟩ := Option.bind_eq_some_iff.mp hstep
          obtain ⟨⟨r, g₁, th⟩, hcall, heq⟩ := Option.bind_eq_some_iff.mp hparts
          cases heq
          have hlt : k < p.generators.length := (List.getElem?_eq_some_iff.mp hg₀).1
          rw [generator?, List.getElem?_append_left hlt, hg₀, Option.some.injEq] at hg
          subst hg
          have hg₁ : generator? { p with generators := p.generators.set k g₁, thread := th } calls
              k = some g₁ := by
            rw [generator?, List.getElem?_append_left (by rw [List.length_set]; exact hlt),
              List.getElem?_set_self hlt]
          have hdet₁ : g₁.det.isSome := by rw [isSome_det_of_step hcall]; exact hdet
          exact (ih hrun hg₁ hdet₁).of_own hdet hcall rfl

/-- **Isolation.**  In every run of a process a seeded generator returns, call by call, what
it returns alone, with nothing else in the process and on some of the clock's readings,
which its calls use up; and it ends in the same state. -/
theorem seeded_isolated {th : Thread ρ} (h : run Process.step (.new th) calls = some es)
    {seed : U64} (hseed : (calls.filterMap ProcessCall.seed?)[k]? = some (some seed)) :
    ∃ clock es' g', clock.Sublist th.clock ∧
      run GeneratorCall.step (.new (some seed), clockThread clock)
        (calls.filterMap (ProcessCall.on? k)) = some es' ∧
      es'.map Event.output = es.filterMap (ProcessEvent.of k) ∧
      (final (.new th) es).generators[k]? = some g' ∧
      final (.new (some seed), clockThread clock) es' = (g', clockThread []) := by
  refine alone_of_run h ?_ rfl
  rw [generator?, Process.new, List.nil_append, List.getElem?_map, hseed, Option.map_some]

end Isolation

/-- Two generators of one seed that take turns. -/
def twins : List ProcessCall :=
  [.create (some 42), .create (some 42), .on 0 (.monotonic none), .on 1 (.monotonic none),
    .on 0 (.monotonic none)]

theorem run_twins : ∃ es, run Process.step (.new (clockThread [5, 5, 5])) twins = some es := by
  have hfirst : ∀ clock, GeneratorCall.step (.new (some 42), clockThread (5 :: clock))
      (.monotonic none) = some (.ok [MonotonicState.text ⟨5, draw42.1⟩],
        ⟨⟨5, draw42.1⟩, some draw42.2⟩, clockThread clock) :=
    fun clock ↦ step_monotonic (advance_first (by decide) clock)
  have hagain := step_monotonic (advance_again 5 draw42.2)
  have hon : ∀ {p : Process Tape} {handle : ℕ} {call : GeneratorCall} {g g' : UlidGenerator}
      {th : Thread Tape} {o : Except NapiError (List Str)}, p.generators[handle]? = some g →
      call.step (g, p.thread) = some (o, g', th) → p.step (.on handle call) =
        some (o, { p with generators := p.generators.set handle g', thread := th }) := by
    intro p handle call g g' th o hg hcall
    rw [Process.step, hg, Option.bind_eq_bind, Option.bind_some, hcall]
    rfl
  refine ⟨_, run_cons_eq_some_iff.mpr ⟨_, _, _, rfl, run_cons_eq_some_iff.mpr ⟨_, _, _, rfl,
    run_cons_eq_some_iff.mpr ⟨_, _, _, hon rfl (hfirst _),
      run_cons_eq_some_iff.mpr ⟨_, _, _, hon rfl (hfirst _),
        run_cons_eq_some_iff.mpr ⟨_, _, _, hon rfl hagain, run_nil _, rfl⟩, rfl⟩, rfl⟩, rfl⟩, rfl⟩⟩

theorem seeded_isolated_twins : ∃ es clock es' g',
    run Process.step (.new (clockThread [5, 5, 5])) twins = some es ∧
      clock.Sublist [5, 5, 5] ∧
      run GeneratorCall.step (.new (some 42), clockThread clock)
        [.monotonic none, .monotonic none] = some es' ∧
      es'.map Event.output = es.filterMap (ProcessEvent.of 0) ∧
      (final (.new (clockThread [5, 5, 5])) es).generators[0]? = some g' ∧
      final (.new (some 42), clockThread clock) es' = (g', clockThread []) := by
  obtain ⟨es, hrun⟩ := run_twins
  obtain ⟨clock, es', g', hall⟩ := seeded_isolated hrun (k := 0) rfl
  exact ⟨es, clock, es', g', hrun, hall⟩

end Rivid.Napi
