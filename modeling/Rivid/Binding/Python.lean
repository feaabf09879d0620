import Rivid.Binding.Streams

/-!
# The Python binding's monotonic stream

`monotonic_ulid` steps one module-level state.  A pinned time goes to the engine
as it is, although the engine's identifiers only have room for 48 bits of it.
-/

namespace Rivid.Python

variable {ρ : Type} [Rng ρ]

/-- The module-level stream `MONOTONIC`, with the randomness and the clock it reads. -/
structure Module (ρ : Type) where
  monotonic : MonotonicState
  rng : ρ
  clock : Clock

/-- Strictly increasing ULIDs within the same millisecond. -/
def monotonicUlid (m : Module ρ) (seedTime : Option U64) : Option (Str × Module ρ) :=
  match seedTime with
  | some ts => do
      let (id, monotonic, rng, clock) ← m.monotonic.nextSecureAt ts m.rng m.clock
      return (id, ⟨monotonic, rng, clock⟩)
  | none => do
      let (id, monotonic, rng, clock) ← m.monotonic.nextSecure m.rng m.clock
      return (id, ⟨monotonic, rng, clock⟩)

/-- The time a call is stamped with, and the readings left for its spin. -/
def timestamp (seedTime : Option U64) (clock : Clock) : Option (U64 × Clock) :=
  match seedTime with
  | some ts => some (ts, clock)
  | none => nowMs clock

/-- The call does not hit 80-bit exhaustion. -/
def Spared (m : Module ρ) (seedTime : Option U64) : Prop :=
  ∀ now clock, timestamp seedTime m.clock = some (now, clock) → ¬ m.monotonic.Exhausted now

/-- The one stream of the module. -/
def streams : Streams (Module ρ) (Option U64) Str Unit where
  state m _ := m.monotonic
  key _ := ()
  returned id := some id
  atLeast seedTime t := ∀ ts, seedTime = some ts → ts.toNat ≤ t

/-- The time asked for is in the 48-bit domain. -/
def SeedInDomain (seedTime : Option U64) : Prop := ∀ ts, seedTime = some ts → ts ≤ timeMax

structure Module.InDomain (m : Module ρ) : Prop where
  monotonic : m.monotonic.InDomain
  clock : ∀ t ∈ m.clock, t ≤ timeMax

variable {m m' : Module ρ} {seedTime : Option U64} {id : Str}

/-- A call is a step of the state machine at its timestamp. -/
theorem monotonicUlid_emits (h : monotonicUlid m seedTime = some (id, m')) :
    ∃ now clock, timestamp seedTime m.clock = some (now, clock) ∧
      m.monotonic.Emits now clock m'.monotonic m'.clock ∧ id = m'.monotonic.text := by
  cases seedTime with
  | some ts =>
      simp only [monotonicUlid, MonotonicState.nextSecureAt, Option.bind_eq_bind,
        Option.bind_eq_some_iff, Option.pure_def, Option.some.injEq, Prod.exists,
        Prod.mk.injEq] at h
      obtain ⟨_, _, _, _, hnext, rfl, rfl⟩ := h
      exact ⟨ts, m.clock, rfl, MonotonicState.nextWith_emits hnext⟩
  | none =>
      simp only [monotonicUlid, MonotonicState.nextSecure, Option.bind_eq_bind,
        Option.bind_eq_some_iff, Option.pure_def, Option.some.injEq, Prod.exists,
        Prod.mk.injEq] at h
      obtain ⟨_, _, _, _, ⟨now, clock, hnow, hnext⟩, rfl, rfl⟩ := h
      exact ⟨now, clock, hnow, MonotonicState.nextWith_emits hnext⟩

/-- A spared call completes when the clock can be read. -/
theorem monotonicUlid_isSome (hread : seedTime.isSome ∨ m.clock ≠ []) (hex : Spared m seedTime) :
    (monotonicUlid m seedTime).isSome := by
  cases seedTime with
  | some ts =>
      have hnext := MonotonicState.nextWith_isSome m.rng m.clock (hex ts m.clock rfl)
      obtain ⟨r, hr⟩ := Option.isSome_iff_exists.mp hnext
      simp only [monotonicUlid, MonotonicState.nextSecureAt, hr, Option.bind_eq_bind,
        Option.bind_some, Option.pure_def, Option.isSome_some]
  | none =>
      obtain ⟨t, clock, hclock⟩ := List.exists_cons_of_ne_nil (hread.resolve_left (by simp))
      have hnow : nowMs m.clock = some (t, clock) := MonotonicState.nowMs_eq_some_iff.mpr hclock
      have hnext := MonotonicState.nextWith_isSome m.rng clock (hex t clock hnow)
      obtain ⟨r, hr⟩ := Option.isSome_iff_exists.mp hnext
      simp only [monotonicUlid, MonotonicState.nextSecure, hnow, hr, Option.bind_eq_bind,
        Option.bind_some, Option.pure_def, Option.isSome_some]

omit [Rng ρ] in
/-- A timestamp is in the domain if the time asked for and the clock are. -/
theorem timestamp_le (hm : m.InDomain) (hseed : SeedInDomain seedTime) {now : U64} {clock : Clock}
    (h : timestamp seedTime m.clock = some (now, clock)) :
    now ≤ timeMax ∧ ∀ t ∈ clock, t ≤ timeMax := by
  have hclock := hm.clock
  cases seedTime with
  | some ts =>
      cases h
      exact ⟨hseed now rfl, hclock⟩
  | none =>
      rw [MonotonicState.nowMs_eq_some_iff.mp h] at hclock
      exact ⟨hclock now (by simp), fun t ht ↦ hclock t (by simp [ht])⟩

theorem monotonicUlid_inDomain (hm : m.InDomain) (hseed : SeedInDomain seedTime)
    (h : monotonicUlid m seedTime = some (id, m')) : m'.InDomain := by
  obtain ⟨now, clock, htime, hemits, -⟩ := monotonicUlid_emits h
  obtain ⟨hnow, hclock⟩ := timestamp_le hm hseed htime
  obtain ⟨hstate, hrest⟩ := hemits.inDomain hm.monotonic hnow hclock
  exact ⟨hstate, hrest⟩

/-- A spared call steps the stream at or after the time asked for. -/
theorem streamStep_of_spared (h : monotonicUlid m seedTime = some (id, m'))
    (hex : Spared m seedTime) : streams.StreamStep ⟨m, seedTime, id, m'⟩ := by
  obtain ⟨now, clock, htime, hemits, hid⟩ := monotonicUlid_emits h
  refine ⟨now, clock, m'.clock, hemits, hex now clock htime, congrArg some hid, ?_, ?_⟩
  · rintro t ht ts rfl
    cases htime
    exact ht
  · intro k hk
    exact absurd rfl hk

/-- Runs of the Python stream that do not hit exhaustion keep the promise exactly
when every time asked for is in the 48-bit domain. -/
theorem honours_iff {rng : ρ} {clock : Clock} {seeds : List (Option U64)}
    {es : List (Event (Module ρ) (Option U64) Str)} (hclock : ∀ t ∈ clock, t ≤ timeMax)
    (hrun : Machine.run monotonicUlid ⟨.new, rng, clock⟩ seeds = some es)
    (hex : ∀ e ∈ es, Spared e.before e.input) :
    streams.Honours es ↔ ∀ seedTime ∈ seeds, SeedInDomain seedTime := by
  constructor
  · rintro hkeeps seedTime hmem ts rfl
    rw [← Machine.map_input hrun] at hmem
    obtain ⟨e, he, hinput⟩ := List.mem_map.mp hmem
    rcases hkeeps.each e he with ⟨hfail, -⟩ | ⟨id, t, -, htime, hle⟩
    · cases hfail
    · exact BitVec.le_trans (BitVec.le_def.mpr (hle ts hinput)) (Ulid.decodeTime_le htime)
  · intro hseeds
    have hstart : Module.InDomain ⟨MonotonicState.new, rng, clock⟩ :=
      ⟨MonotonicState.inDomain_new, hclock⟩
    have hinv := Machine.run_invariant
      (fun _ _ _ _ hm hseed h ↦ monotonicUlid_inDomain hm hseed h) hstart hseeds hrun
    refine Streams.honours_of_streamSteps hrun ?_ ?_
    · intro e he _
      obtain ⟨hm, hseed, hstep⟩ := hinv e he
      exact ⟨hm.monotonic, (monotonicUlid_inDomain hm hseed hstep).monotonic⟩
    · intro e he
      exact Or.inr (streamStep_of_spared (hinv e he).2.2 (hex e he))

end Rivid.Python
