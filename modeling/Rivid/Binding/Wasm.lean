import Rivid.Binding.Js
import Rivid.Binding.Python

/-!
# The WebAssembly binding's monotonic streams

`monotonicUlid` steps a module-level state and every `MonotonicGenerator` a
state of its own.  Both resolve the time with `resolve_ts`, which checks that it
is finite, integral and not negative, and leaves the upper bound to the engine.
-/

namespace Rivid

namespace Wasm

variable {ρ : Type} [Rng ρ]

/-- The errors thrown by the binding. -/
structure JsError where
  message : String
deriving DecidableEq, Repr

/-- Milliseconds since epoch from a reading of `Date.now()`; clamps to 0. -/
def nowMs (t : JsNumber) : U64 := if t.isFinite && t.isPositive then t.asU64 else 0

/-- Validate an optional explicit seed time, or read the host clock. -/
def resolveTs (seedTime : Option JsNumber) (date : List JsNumber) :
    Option (Except JsError U64 × List JsNumber) :=
  match seedTime, date with
  | none, [] => none
  | none, t :: date => some (.ok (nowMs t), date)
  | some t, date =>
      if !t.isFinite || t.isNegative || t.hasFraction then
        some (.error ⟨"seedTime must be a finite, non-negative integer number of milliseconds"⟩,
          date)
      else some (.ok t.asU64, date)

/-- The states the binding keeps: the module's and those of the generator objects. -/
inductive StreamId where
  | module
  | generator (n : ℕ)
deriving DecidableEq, Repr

/-- The streams, with the randomness, the host clock and the engine's clock they read. -/
structure World (ρ : Type) where
  states : StreamId → MonotonicState
  rng : ρ
  date : List JsNumber
  clock : Clock

/-- The body that `monotonic_ulid` and `MonotonicGenerator::next` share. -/
def nextOn (w : World ρ) (stream : StreamId) (seedTime : Option JsNumber) :
    Option (Except JsError Str × World ρ) := do
  let (ts, date) ← resolveTs seedTime w.date
  match ts with
  | .error e => return (.error e, { w with date })
  | .ok ts =>
      let (id, state, rng, clock) ← (w.states stream).nextSecureAt ts w.rng w.clock
      return (.ok id, ⟨Function.update w.states stream state, rng, date, clock⟩)

def monotonicUlid (w : World ρ) (seedTime : Option JsNumber) :
    Option (Except JsError Str × World ρ) := nextOn w .module seedTime

def MonotonicGenerator.next (w : World ρ) (n : ℕ) (seedTime : Option JsNumber) :
    Option (Except JsError Str × World ρ) := nextOn w (.generator n) seedTime

/-- A call of either function: its stream and its argument. -/
abbrev Call := StreamId × Option JsNumber

def step (w : World ρ) (c : Call) : Option (Except JsError Str × World ρ) :=
  match c.1 with
  | .module => monotonicUlid w c.2
  | .generator n => MonotonicGenerator.next w n c.2

/-- The call does not hit 80-bit exhaustion. -/
def Spared (w : World ρ) (c : Call) : Prop :=
  ∀ ts date, resolveTs c.2 w.date = some (.ok ts, date) → ¬ (w.states c.1).Exhausted ts

/-- The streams of the binding, by stream. -/
def streams : Streams (World ρ) Call (Except JsError Str) StreamId where
  state w := w.states
  key c := c.1
  returned r := r.toOption
  atLeast c t := ∀ q, c.2 = some (.finite q) → q ≤ t

/-- A time that `resolve_ts` lets through is in the 48-bit domain. -/
def SeedInDomain (c : Call) : Prop :=
  ∀ q : ℚ, c.2 = some (.finite q) → 0 ≤ q → q.den = 1 → q ≤ 2 ^ 48 - 1

/-- States, host clock and engine clock are in their domains. -/
structure World.InDomain (w : World ρ) : Prop where
  states : ∀ k, (w.states k).InDomain
  date : ∀ t ∈ w.date, nowMs t ≤ timeMax
  clock : ∀ t ∈ w.clock, t ≤ timeMax

variable {w w' : World ρ} {c : Call} {r : Except JsError Str}

omit [Rng ρ] in
/-- What `resolve_ts` lets through. -/
theorem resolveTs_ok {seedTime : Option JsNumber} {date date' : List JsNumber} {ts : U64}
    (h : resolveTs seedTime date = some (.ok ts, date')) :
    (seedTime = none ∧ ∃ t, date = t :: date' ∧ ts = nowMs t) ∨
      ∃ q : ℚ, seedTime = some (.finite q) ∧ 0 ≤ q ∧ q.den = 1 ∧ ts = (JsNumber.finite q).asU64 ∧
        date' = date := by
  cases seedTime with
  | none =>
      cases date with
      | nil => cases h
      | cons t date =>
          cases h
          exact Or.inl ⟨rfl, t, rfl, rfl⟩
  | some t =>
      rw [resolveTs] at h
      split at h
      · cases h
      · rename_i hok
        cases h
        cases t with
        | nan => exact absurd rfl hok
        | infinity negative => exact absurd rfl hok
        | finite q =>
            simp only [JsNumber.isFinite, JsNumber.isNegative, JsNumber.hasFraction, Bool.not_true,
              Bool.false_or, Bool.or_eq_true, decide_eq_true_eq, not_or, not_lt, not_not] at hok
            exact Or.inr ⟨q, rfl, hok.1, hok.2, rfl, rfl⟩

omit [Rng ρ] in
theorem date_of_resolveTs {seedTime : Option JsNumber} {date date' : List JsNumber}
    {ts : Except JsError U64} (h : resolveTs seedTime date = some (ts, date')) :
    ∀ t ∈ date', t ∈ date := by
  cases seedTime with
  | none =>
      cases date with
      | nil => cases h
      | cons t date =>
          cases h
          exact fun u hu ↦ List.mem_cons_of_mem _ hu
  | some t =>
      rw [resolveTs] at h
      split at h
      · cases h
        exact fun u hu ↦ hu
      · cases h
        exact fun u hu ↦ hu

theorem step_eq_nextOn (w : World ρ) (c : Call) : step w c = nextOn w c.1 c.2 := by
  obtain ⟨stream, seedTime⟩ := c
  cases stream <;> rfl

/-- A call throws and leaves the states alone, or is a step of the state machine
on its own stream at the resolved time. -/
theorem step_cases (h : step w c = some (r, w')) :
    (∃ e date, resolveTs c.2 w.date = some (.error e, date) ∧ r = .error e ∧
      w' = { w with date }) ∨
    ∃ ts date state, resolveTs c.2 w.date = some (.ok ts, date) ∧
      (w.states c.1).Emits ts w.clock state w'.clock ∧ r = .ok state.text ∧
      w'.states = Function.update w.states c.1 state ∧ w'.date = date := by
  rw [step_eq_nextOn, nextOn] at h
  obtain ⟨⟨ts, date⟩, hts, h⟩ := Option.bind_eq_some_iff.mp h
  cases ts with
  | error e =>
      cases h
      exact Or.inl ⟨e, date, hts, rfl, rfl⟩
  | ok ts =>
      obtain ⟨⟨id, state, rng, clock⟩, hnext, h⟩ := Option.bind_eq_some_iff.mp h
      obtain ⟨hemits, hid⟩ := MonotonicState.nextWith_emits hnext
      simp only [Option.pure_def, Option.some.injEq, Prod.mk.injEq] at h
      obtain ⟨rfl, rfl⟩ := h
      exact Or.inr ⟨ts, date, state, hts, hemits, congrArg Except.ok hid, rfl, rfl⟩

/-- A spared call completes when the host clock can be read. -/
theorem step_isSome (hread : c.2.isSome ∨ w.date ≠ []) (hex : Spared w c) :
    (step w c).isSome := by
  have hres : ∃ ts date, resolveTs c.2 w.date = some (ts, date) := by
    obtain ⟨stream, seedTime⟩ := c
    cases seedTime with
    | none =>
        obtain ⟨t, date, hdate⟩ := List.exists_cons_of_ne_nil (hread.resolve_left (by simp))
        exact ⟨_, _, by rw [hdate, resolveTs]⟩
    | some t =>
        rw [resolveTs]
        split
        · exact ⟨_, _, rfl⟩
        · exact ⟨_, _, rfl⟩
  obtain ⟨ts, date, hts⟩ := hres
  rw [step_eq_nextOn, nextOn, hts]
  cases ts with
  | error e => rfl
  | ok ts =>
      obtain ⟨n, hn⟩ := Option.isSome_iff_exists.mp
        (MonotonicState.nextWith_isSome w.rng w.clock (hex ts date hts))
      simp only [MonotonicState.nextSecureAt, hn, Option.bind_eq_bind, Option.bind_some,
        Option.pure_def, Option.isSome_some]

omit [Rng ρ] in
/-- The resolved time is in the domain, and at or after a time asked for, if that time and the
host clock are in the domain. -/
theorem resolveTs_le (hw : w.InDomain) (hc : SeedInDomain c) {ts : U64} {date : List JsNumber}
    (h : resolveTs c.2 w.date = some (.ok ts, date)) :
    ts ≤ timeMax ∧ ∀ q : ℚ, c.2 = some (.finite q) → q ≤ ts.toNat := by
  rcases resolveTs_ok h with ⟨hnone, t, hdate, rfl⟩ | ⟨q, hq, hneg, hint, rfl, -⟩
  · refine ⟨hw.date t (by rw [hdate]; exact List.mem_cons_self), fun q hq ↦ ?_⟩
    rw [hnone] at hq
    cases hq
  · obtain ⟨n, hn, hcast⟩ := JsNumber.exists_nat_of_integral hneg hint
    have hle : (n : ℚ) ≤ 2 ^ 48 - 1 := hn ▸ hc q hq hneg hint
    have hle' : n + 1 ≤ 2 ^ 48 := by
      have : (n : ℚ) + 1 ≤ 2 ^ 48 := by linarith
      exact_mod_cast this
    refine ⟨le_timeMax_iff.mpr (by omega), fun q' hq' ↦ ?_⟩
    rw [hq] at hq'
    cases hq'
    rw [hcast, hn, Nat.min_eq_left (by omega)]

theorem step_inDomain (hw : w.InDomain) (hc : SeedInDomain c) (h : step w c = some (r, w')) :
    w'.InDomain := by
  rcases step_cases h with ⟨e, date, hts, -, rfl⟩ | ⟨ts, date, state, hts, hemits, -, hst, hdate⟩
  · exact ⟨hw.states, fun t ht ↦ hw.date t (date_of_resolveTs hts t ht), hw.clock⟩
  · obtain ⟨hstate, hclock⟩ := hemits.inDomain (hw.states c.1) (resolveTs_le hw hc hts).1 hw.clock
    refine ⟨fun k ↦ ?_, fun t ht ↦ hw.date t (date_of_resolveTs hts t (hdate ▸ ht)), hclock⟩
    rw [hst]
    by_cases hk : k = c.1
    · subst hk
      rw [Function.update_self]
      exact hstate
    · rw [Function.update_of_ne hk]
      exact hw.states k

/-- A spared call in the domain throws and changes no stream, or steps its own. -/
theorem failsUnchanged_or_streamStep (hw : w.InDomain) (hc : SeedInDomain c)
    (h : step w c = some (r, w')) (hex : Spared w c) :
    streams.FailsUnchanged ⟨w, c, r, w'⟩ ∨ streams.StreamStep ⟨w, c, r, w'⟩ := by
  rcases step_cases h with ⟨e, date, -, rfl, rfl⟩ | ⟨ts, date, state, hts, hemits, rfl, hst, -⟩
  · exact Or.inl ⟨rfl, fun _ ↦ rfl⟩
  · have hself : w'.states c.1 = state := by rw [hst, Function.update_self]
    refine Or.inr ⟨ts, w.clock, w'.clock, ?_, hex ts date hts, ?_, ?_, ?_⟩
    · exact hself.symm ▸ hemits
    · exact congrArg some (congrArg MonotonicState.text hself.symm)
    · intro t ht q hq
      exact le_trans ((resolveTs_le hw hc hts).2 q hq) (by exact_mod_cast ht)
    · intro k hk
      exact (congrFun hst k).trans (Function.update_of_ne hk _ _)

/-- Runs of the binding's streams that do not hit exhaustion keep the promise exactly
when every time that `resolve_ts` lets through is in the 48-bit domain. -/
theorem honours_iff {rng : ρ} {date : List JsNumber} {clock : Clock} {calls : List Call}
    {es : List (Event (World ρ) Call (Except JsError Str))}
    (hdate : ∀ t ∈ date, nowMs t ≤ timeMax) (hclock : ∀ t ∈ clock, t ≤ timeMax)
    (hrun : Machine.run step ⟨fun _ ↦ .new, rng, date, clock⟩ calls = some es)
    (hex : ∀ e ∈ es, Spared e.before e.input) :
    streams.Honours es ↔ ∀ c ∈ calls, SeedInDomain c := by
  constructor
  · intro hkeeps c hmem q hq hneg hint
    rw [← Machine.map_input hrun] at hmem
    obtain ⟨e, he, rfl⟩ := List.mem_map.mp hmem
    have hstep := (Machine.run_invariant (I := fun _ ↦ True) (J := fun _ ↦ True)
      (fun _ _ _ _ _ _ _ ↦ trivial) trivial (fun _ _ ↦ trivial) hrun e he).2.2
    rcases hkeeps.each e he with ⟨hfail, -⟩ | ⟨id, t, -, htime, hle⟩
    · rcases step_cases hstep with ⟨err, date', hts, -, -⟩ | ⟨_, _, _, -, -, hok, -, -⟩
      · rw [hq, resolveTs] at hts
        simp [JsNumber.isFinite, JsNumber.isNegative, JsNumber.hasFraction, not_lt.mpr hneg,
          hint] at hts
      · have hsome : e.output.toOption = none := hfail
        rw [hok] at hsome
        cases hsome
    · have ht := le_timeMax_iff.mp (Ulid.decodeTime_le htime)
      have hcast : ((t.toNat + 1 : ℕ) : ℚ) ≤ ((2 ^ 48 : ℕ) : ℚ) := by exact_mod_cast ht
      have hq' : q ≤ t.toNat := hle q hq
      push_cast at hcast
      linarith
  · intro hcalls
    have hstart : World.InDomain ⟨fun _ ↦ MonotonicState.new, rng, date, clock⟩ :=
      ⟨fun _ ↦ MonotonicState.inDomain_new, hdate, hclock⟩
    have hinv := Machine.run_invariant (fun _ _ _ _ hw hc h ↦ step_inDomain hw hc h)
      hstart hcalls hrun
    refine Streams.honours_of_streamSteps hrun ?_ ?_
    · intro e he k
      obtain ⟨hw, hc, hstep⟩ := hinv e he
      exact ⟨hw.states k, (step_inDomain hw hc hstep).states k⟩
    · intro e he
      obtain ⟨hw, hc, hstep⟩ := hinv e he
      exact failsUnchanged_or_streamStep hw hc hstep (hex e he)

end Wasm

/-- **Pinned times through the Python and WebAssembly bindings.**  Outside
exhaustion every call completes, and a run from fresh states keeps the promise of
its streams exactly when no accepted time is above the 48-bit domain. -/
theorem pinned_streams_honour_iff {ρ : Type} [Rng ρ] (rng : ρ) (clock : Clock)
    (hclock : ∀ t ∈ clock, t ≤ timeMax) :
    (∀ (m : Python.Module ρ) (seedTime : Option U64), seedTime.isSome ∨ m.clock ≠ [] →
      Python.Spared m seedTime → (Python.monotonicUlid m seedTime).isSome) ∧
    (∀ (seeds : List (Option U64)) (es : List (Event (Python.Module ρ) (Option U64) Str)),
      Machine.run Python.monotonicUlid ⟨.new, rng, clock⟩ seeds = some es →
      (∀ e ∈ es, Python.Spared e.before e.input) →
      (Python.streams.Honours es ↔ ∀ seedTime ∈ seeds, Python.SeedInDomain seedTime)) ∧
    (∀ (w : Wasm.World ρ) (c : Wasm.Call), c.2.isSome ∨ w.date ≠ [] → Wasm.Spared w c →
      (Wasm.step w c).isSome) ∧
    ∀ (date : List JsNumber) (calls : List Wasm.Call)
      (es : List (Event (Wasm.World ρ) Wasm.Call (Except Wasm.JsError Str))),
      (∀ t ∈ date, Wasm.nowMs t ≤ timeMax) →
      Machine.run Wasm.step ⟨fun _ ↦ .new, rng, date, clock⟩ calls = some es →
      (∀ e ∈ es, Wasm.Spared e.before e.input) →
      (Wasm.streams.Honours es ↔ ∀ c ∈ calls, Wasm.SeedInDomain c) :=
  ⟨fun _ _ ↦ Python.monotonicUlid_isSome, fun _ _ ↦ Python.honours_iff hclock,
    fun _ _ ↦ Wasm.step_isSome, fun _ _ _ hdate ↦ Wasm.honours_iff hdate hclock⟩

/-- A Python run of one pinned call. -/
theorem python_run_pinned {t : U64} (ht : 0 < t) :
    Machine.run Python.monotonicUlid ⟨.new, allOnes, []⟩ [some t] =
      some [⟨⟨.new, allOnes, []⟩, some t, MonotonicState.text ⟨t, Id128.randomMask⟩,
        ⟨⟨t, Id128.randomMask⟩, allOnes, []⟩⟩] := by
  refine Machine.run_cons_eq_some_iff.mpr ⟨_, _, _, ?_, Machine.run_nil _, rfl⟩
  simp only [Python.monotonicUlid, MonotonicState.nextSecureAt,
    MonotonicState.nextWith_of_advance (advance_allOnes ht _),
    Option.bind_eq_bind, Option.bind_some, Option.pure_def]

/-- A WebAssembly run of one call of `monotonicUlid` with an integral time. -/
theorem wasm_run_pinned {x : JsNumber} {t : U64} (hx : x.asU64 = t) (ht : 0 < t)
    (hres : Wasm.resolveTs (some x) [] = some (.ok x.asU64, [])) :
    Machine.run Wasm.step ⟨fun _ ↦ .new, allOnes, [], []⟩ [(.module, some x)] =
      some [⟨⟨fun _ ↦ .new, allOnes, [], []⟩, (.module, some x),
        .ok (MonotonicState.text ⟨t, Id128.randomMask⟩),
        ⟨Function.update (fun _ ↦ .new) .module ⟨t, Id128.randomMask⟩, allOnes, [], []⟩⟩] := by
  refine Machine.run_cons_eq_some_iff.mpr ⟨_, _, _, ?_, Machine.run_nil _, rfl⟩
  rw [Wasm.step_eq_nextOn, Wasm.nextOn]
  simp only [hres, hx, MonotonicState.nextSecureAt,
    MonotonicState.nextWith_of_advance (advance_allOnes ht _), Option.bind_eq_bind,
    Option.bind_some, Option.pure_def]

/-- The theorem at one call of each binding, pinned to time 5. -/
theorem pinned_streams_honour_at_five :
    (∃ es, Machine.run Python.monotonicUlid ⟨.new, allOnes, []⟩ [some 5] = some es ∧
      (Python.streams.Honours es ↔ ∀ seedTime ∈ [some 5], Python.SeedInDomain seedTime)) ∧
    ∃ es, Machine.run Wasm.step ⟨fun _ ↦ .new, allOnes, [], []⟩ [(.module, some (.finite 5))] =
        some es ∧
      (Wasm.streams.Honours es ↔
        ∀ c ∈ [(Wasm.StreamId.module, some (JsNumber.finite 5))], Wasm.SeedInDomain c) := by
  have hnew : ∀ t, ¬ MonotonicState.Exhausted .new t := by
    rintro t ⟨-, hfull⟩
    exact absurd hfull (show ¬ Id128.randomMask ≤ 0 by decide)
  have hpython := python_run_pinned (show (0 : U64) < 5 by decide)
  have hwasm := wasm_run_pinned (x := .finite 5) (t := 5) (by decide) (by decide) rfl
  have hiff := pinned_streams_honour_iff allOnes [] (by simp)
  refine ⟨⟨_, hpython, hiff.2.1 _ _ hpython ?_⟩, ⟨_, hwasm, hiff.2.2.2 _ _ _ (by simp) hwasm ?_⟩⟩
  · intro e he now clock _
    obtain rfl := List.mem_singleton.mp he
    exact hnew now
  · intro e he ts date _
    obtain rfl := List.mem_singleton.mp he
    exact hnew ts

/-- A time just above the domain is truncated away: through either binding the
call returns a ULID stamped before the time asked for. -/
theorem pinned_streams_break_above_domain :
    (∃ es, Machine.run Python.monotonicUlid ⟨.new, allOnes, []⟩ [some 281474976710656] = some es ∧
      ¬ Python.streams.Honours es) ∧
    ∃ es, Machine.run Wasm.step ⟨fun _ ↦ .new, allOnes, [], []⟩
        [(.module, some (.finite 281474976710656))] = some es ∧
      ¬ Wasm.streams.Honours es := by
  refine ⟨⟨_, python_run_pinned (show (0 : U64) < 281474976710656 by decide), ?_⟩,
    ⟨_, wasm_run_pinned (x := .finite 281474976710656) (t := 281474976710656) (by decide)
      (by decide) rfl, ?_⟩⟩
  · intro hkeeps
    rcases hkeeps.each _ (List.mem_singleton_self _) with ⟨hfail, -⟩ | ⟨id, t, -, htime, hle⟩
    · cases hfail
    · have hlt := le_timeMax_iff.mp (Ulid.decodeTime_le htime)
      have hge := hle _ rfl
      rw [show (281474976710656 : U64).toNat = 2 ^ 48 from rfl] at hge
      omega
  · intro hkeeps
    rcases hkeeps.each _ (List.mem_singleton_self _) with ⟨hfail, -⟩ | ⟨id, t, -, htime, hle⟩
    · cases hfail
    · have hlt := le_timeMax_iff.mp (Ulid.decodeTime_le htime)
      have hge : ((2 ^ 48 : ℕ) : ℚ) ≤ (t.toNat : ℚ) := hle _ rfl
      have : 2 ^ 48 ≤ t.toNat := by exact_mod_cast hge
      omega

end Rivid
