import Rivid.Binding.Shared
import Rivid.Lib.Intake

/-!
# Batches of a generator

`monotonic_many` is that many calls of `monotonic` under one lock, and `next_many` is that
many calls of `next` pinned to the one reading of the clock that it makes.  So in every run
of a generator each batch can be replaced by single calls: these return the same ULIDs, in
the same order, and leave the generator, the thread's generators and the clock in the same
state.  The single calls find a clock without the readings that `next_many` makes.
-/

namespace Rivid

open Intake Machine

/-! ## What the calls read of the clock -/

namespace MonotonicState

variable {ρ : Type} [Rng ρ]

theorem local_nowMs : Local nowMs Prod.mk := by
  rintro clock ⟨t, rest⟩ h
  exact ⟨[t], t, rest, nowMs_eq_some_iff.mp h, rfl, fun _ ↦ rfl⟩

theorem local_spin (current : U64) :
    Local (spinUntilNextMs current) fun (_ : Unit) clock ↦ clock := by
  intro clock rest h
  induction clock with
  | nil => cases h
  | cons a clock ih =>
      rw [spinUntilNextMs] at h
      split at h
      · rename_i ha
        obtain ⟨p, _, _, rfl, rfl, hall⟩ := ih h
        refine ⟨a :: p, (), _, rfl, rfl, fun r ↦ ?_⟩
        rw [List.cons_append, spinUntilNextMs, if_pos ha, hall]
      · rename_i ha
        cases h
        refine ⟨[a], (), _, rfl, rfl, fun r ↦ ?_⟩
        rw [List.singleton_append, spinUntilNextMs, if_neg ha]

theorem local_advance (st : MonotonicState) (now : U64) (rng : ρ) :
    Local (st.advance now rng) fun (a : MonotonicState × ρ) clock ↦ (a.1, a.2, clock) := by
  have heq : st.advance now rng = fun clock ↦
      if now > st.lastMs then some (⟨now, (draw80 rng).1⟩, (draw80 rng).2, clock)
      else if st.lastRand < Id128.randomMask then
        some (⟨st.lastMs, st.lastRand + 1⟩, rng, clock)
      else (spinUntilNextMs st.lastMs clock).bind fun clock ↦ (nowMs clock).bind fun r ↦
        some (⟨r.1, (draw80 rng).1⟩, (draw80 rng).2, r.2) := by
    funext clock
    rfl
  rw [heq]
  split
  · exact local_some (⟨now, (draw80 rng).1⟩, (draw80 rng).2) fun _ ↦ rfl
  · split
    · exact local_some (⟨st.lastMs, st.lastRand + 1⟩, rng) fun _ ↦ rfl
    · exact (local_spin _).bind fun _ ↦ local_nowMs.bind fun t ↦
        local_some (⟨t, (draw80 rng).1⟩, (draw80 rng).2) fun _ ↦ rfl

theorem local_nextWith (st : MonotonicState) (now : U64) (rng : ρ) :
    Local (st.nextWith now rng)
      fun (a : Str × MonotonicState × ρ) clock ↦ (a.1, a.2.1, a.2.2, clock) :=
  (local_advance st now rng).bind fun a ↦ local_some
    (Crockford.encodeString (Id128.fromParts a.1.lastMs a.1.lastRand).asU128, a.1, a.2)
      fun _ ↦ by dsimp only [Option.pure_def]

theorem local_nextSecure (st : MonotonicState) (rng : ρ) :
    Local (st.nextSecure rng)
      fun (a : Str × MonotonicState × ρ) clock ↦ (a.1, a.2.1, a.2.2, clock) :=
  local_nowMs.bind fun now ↦ local_nextWith st now rng

end MonotonicState

namespace Napi

variable {ρ : Type} [Rng ρ]

open MonotonicState

/-- A call's result, with a clock. -/
def withClock {α : Type} (a : α × GeneratorWorld ρ) (clock : Clock) : α × GeneratorWorld ρ :=
  (a.1, a.2.1, { a.2.2 with clock })

omit [Rng ρ] in
theorem local_orNow (ts : Option U64) : Local (orNow ts) Prod.mk := by
  cases ts with
  | none => exact local_nowMs
  | some t => exact local_some t fun _ ↦ rfl

theorem local_next (g : UlidGenerator) (th : Thread ρ) (timestampMs : Option JsNumber) :
    Local (fun clock ↦ g.next { th with clock } timestampMs) withClock := by
  simp only [UlidGenerator.next]
  split
  · rename_i e _
    exact local_some (.error e, g, th) fun _ ↦ rfl
  · rename_i det ts _ _
    exact (local_orNow ts).bind fun t ↦ local_some
      (.ok (UlidGenerator.blockString (ulidBlock t det.drawU64.1 det.drawU64.2.drawU64.1)),
        { g with det := some det.drawU64.2.drawU64.2 }, th) fun _ ↦ rfl
  · rename_i t _ _
    exact local_some (.ok (UlidGenerator.blockString (ulidBlockSecure t th.secure).1), g,
      { th with secure := (ulidBlockSecure t th.secure).2 }) fun _ ↦ rfl
  · have hgen : Local (fun clock ↦ Ulid.generate th.pool th.fills clock)
        fun (a : Str × EntropyPool × Fills) clock ↦ (a.1, a.2.1, a.2.2, clock) := by
      refine local_nowMs.bind fun now ↦ ?_
      cases random80 th.pool th.fills with
      | none => exact local_none fun _ ↦ rfl
      | some r =>
          exact local_some
            (Crockford.encodeString (Id128.fromParts now r.1).asU128, r.2.1, r.2.2)
            fun _ ↦ by dsimp only [Option.pure_def, Option.bind_eq_bind, Option.bind_some]
    exact hgen.bind fun a ↦
      local_some (.ok a.1, g, { th with pool := a.2.1, fills := a.2.2 }) fun _ ↦ rfl

theorem local_monotonic (g : UlidGenerator) (th : Thread ρ) (timestampMs : Option JsNumber) :
    Local (fun clock ↦ g.monotonic { th with clock } timestampMs) withClock := by
  simp only [UlidGenerator.monotonic]
  split
  · rename_i e _
    exact local_some (.error e, g, th) fun _ ↦ rfl
  · rename_i det ts _ _
    exact (local_nextWith g.mono ts det).bind fun a ↦
      local_some (.ok a.1, ⟨a.2.1, some a.2.2⟩, th) fun _ ↦ rfl
  · rename_i det _ _
    exact (local_nextSecure g.mono det).bind fun a ↦
      local_some (.ok a.1, ⟨a.2.1, some a.2.2⟩, th) fun _ ↦ rfl
  · rename_i ts _ _
    exact (local_nextWith g.mono ts th.secure).bind fun a ↦
      local_some (.ok a.1, { g with mono := a.2.1 }, { th with secure := a.2.2 }) fun _ ↦ rfl
  · exact (local_nextSecure g.mono th.secure).bind fun a ↦
      local_some (.ok a.1, { g with mono := a.2.1 }, { th with secure := a.2.2 }) fun _ ↦ rfl

theorem local_nextMany (g : UlidGenerator) (th : Thread ρ) (count : ℤ) :
    Local (fun clock ↦ g.nextMany { th with clock } count) withClock := by
  simp only [UlidGenerator.nextMany]
  split
  · exact local_some (.error (invalidCount count), g, th) fun _ ↦ rfl
  · refine local_nowMs.bind fun ts ↦ ?_
    cases hdet : g.det with
    | some det =>
        exact local_some (.ok (UlidGenerator.nextLoop ts det count.toNat).1,
          { g with det := some (UlidGenerator.nextLoop ts det count.toNat).2 }, th) fun _ ↦ rfl
    | none =>
        exact local_some (.ok (UlidGenerator.nextLoopSecure ts th.secure count.toNat).1, g,
          { th with secure := (UlidGenerator.nextLoopSecure ts th.secure count.toNat).2 })
          fun _ ↦ rfl

theorem local_monotonicLoop {δ : Type} [Rng δ] (mono : MonotonicState) (rng : δ) (count : ℕ) :
    Local (fun clock ↦ UlidGenerator.monotonicLoop mono rng clock count)
      fun (a : List Str × MonotonicState × δ) clock ↦ (a.1, a.2.1, a.2.2, clock) := by
  induction count generalizing mono rng with
  | zero => exact local_some ([], mono, rng) fun _ ↦ rfl
  | succ count ih =>
      exact (local_nextSecure mono rng).bind fun a ↦ (ih a.2.1 a.2.2).bind fun b ↦
        local_some (a.1 :: b.1, b.2) fun _ ↦ rfl

theorem local_monotonicMany (g : UlidGenerator) (th : Thread ρ) (count : ℤ) :
    Local (fun clock ↦ g.monotonicMany { th with clock } count) withClock := by
  simp only [UlidGenerator.monotonicMany]
  split
  · exact local_some (.error (invalidCount count), g, th) fun _ ↦ rfl
  · split
    · rename_i det _
      exact (local_monotonicLoop g.mono det _).bind fun a ↦
        local_some (.ok a.1, ⟨a.2.1, some a.2.2⟩, th) fun _ ↦ rfl
    · exact (local_monotonicLoop g.mono th.secure _).bind fun a ↦
        local_some (.ok a.1, { g with mono := a.2.1 }, { th with secure := a.2.2 }) fun _ ↦ rfl

/-- A call takes its readings from the front of the clock. -/
theorem local_step (c : GeneratorCall) (g : UlidGenerator) (th : Thread ρ) :
    Local (fun clock ↦ c.step (g, { th with clock })) withClock := by
  cases c with
  | next ts => exact (local_next g th ts).map (k := fun a ↦ (a.1.map ([·]), a.2)) fun _ _ ↦ rfl
  | monotonic ts =>
      exact (local_monotonic g th ts).map (k := fun a ↦ (a.1.map ([·]), a.2)) fun _ _ ↦ rfl
  | nextMany count => exact local_nextMany g th count
  | monotonicMany count => exact local_monotonicMany g th count

/-! ## Single calls -/

/-- What a run records of a call. -/
abbrev GeneratorEvent (ρ : Type) :=
  Event (GeneratorWorld ρ) GeneratorCall (Except NapiError (List Str))

/-- The single calls that a call stands for.  Those of a batch of non-monotonic ULIDs are
pinned to the reading that the batch makes; a batch that throws stands for none. -/
def singles (e : GeneratorEvent ρ) : List GeneratorCall :=
  match e.input, e.output with
  | .nextMany count, .ok _ =>
      List.replicate count.toNat (.next ((nowMs e.before.2.clock).map fun r ↦ .ofU64 r.1))
  | .monotonicMany count, .ok _ => List.replicate count.toNat (.monotonic none)
  | .nextMany _, .error _ | .monotonicMany _, .error _ => []
  | c, _ => [c]

/-- The ULIDs that a call returns. -/
def returnedIds (e : GeneratorEvent ρ) : List Str := e.output.toOption.getD []

def GeneratorCall.isBatch : GeneratorCall → Bool
  | nextMany _ | monotonicMany _ => true
  | next _ | monotonic _ => false

omit [Rng ρ] in
theorem isBatch_of_mem_singles {e : GeneratorEvent ρ} {c : GeneratorCall} (h : c ∈ singles e) :
    c.isBatch = false := by
  obtain ⟨w, i, o, w'⟩ := e
  cases i <;> cases o <;> simp [singles] at h <;> simp [h, GeneratorCall.isBatch]

/-- A time of the domain passes the validation as it is. -/
theorem explicitTs_ofU64 {ts : U64} (hts : ts ≤ timeMax) :
    explicitTs (some (.ofU64 ts)) = .ok (some ts) := by
  have hlt : ts.toNat < 2 ^ 48 := le_timeMax_iff.mp hts
  have hcast : (JsNumber.finite ts.toNat).asU64 = ts := by
    refine BitVec.eq_of_toNat_eq ?_
    rw [JsNumber.asU64, Int.floor_natCast, Int.toNat_natCast, BitVec.toNat_ofNat]
    omega
  rw [explicitTs, JsNumber.ofU64_of_lt (by omega), hcast, if_neg]
  simp [JsNumber.isFinite, JsNumber.hasFraction, inTimeDomain]
  omega

section Steps

variable {g : UlidGenerator} {th : Thread ρ}

theorem step_next_det {det : DeterministicRng} (hdet : g.det = some det) {ts : U64}
    (hts : ts ≤ timeMax) :
    GeneratorCall.step (g, th) (.next (some (.ofU64 ts))) =
      some (.ok [UlidGenerator.blockString (ulidBlock ts det.drawU64.1 det.drawU64.2.drawU64.1)],
        { g with det := some det.drawU64.2.drawU64.2 }, th) := by
  simp only [GeneratorCall.step, UlidGenerator.next, hdet, explicitTs_ofU64 hts]
  rfl

theorem step_next_secure (hdet : g.det = none) {ts : U64} (hts : ts ≤ timeMax) :
    GeneratorCall.step (g, th) (.next (some (.ofU64 ts))) =
      some (.ok [UlidGenerator.blockString (ulidBlockSecure ts th.secure).1], g,
        { th with secure := (ulidBlockSecure ts th.secure).2 }) := by
  simp only [GeneratorCall.step, UlidGenerator.next, hdet, explicitTs_ofU64 hts]
  rfl

theorem step_monotonic_det {det d : DeterministicRng} (hdet : g.det = some det) {id : Str}
    {m : MonotonicState} {k : Clock}
    (h : g.mono.nextDeterministic det th.clock = some (id, m, d, k)) :
    GeneratorCall.step (g, th) (.monotonic none) =
      some (.ok [id], ⟨m, some d⟩, { th with clock := k }) := by
  have hexplicit : explicitTs none = .ok none := rfl
  simp only [GeneratorCall.step, UlidGenerator.monotonic, hdet, hexplicit, h]
  rfl

theorem step_monotonic_secure {d : ρ} (hdet : g.det = none) {id : Str} {m : MonotonicState}
    {k : Clock} (h : g.mono.nextSecure th.secure th.clock = some (id, m, d, k)) :
    GeneratorCall.step (g, th) (.monotonic none) =
      some (.ok [id], { g with mono := m }, { th with secure := d, clock := k }) := by
  have hexplicit : explicitTs none = .ok none := rfl
  simp only [GeneratorCall.step, UlidGenerator.monotonic, hdet, hexplicit, h]
  rfl

end Steps

section Loops

variable {g g' : UlidGenerator} {th th' : Thread ρ} {count : ℤ} {ids : List Str}

/-- A batch of non-monotonic ULIDs, replayed on any clock. -/
theorem run_nextMany {ts : U64} {rest : Clock} (hts : ts ≤ timeMax)
    (hclock : th.clock = ts :: rest) (h : g.nextMany th count = some (.ok ids, g', th'))
    (clock : Clock) :
    ∃ es, run GeneratorCall.step (g, { th with clock })
        (List.replicate count.toNat (.next (some (.ofU64 ts)))) = some es ∧
      final (g, { th with clock }) es = (g', { th' with clock }) ∧
      es.flatMap returnedIds = ids := by
  rw [UlidGenerator.nextMany] at h
  split at h
  · cases h
  · rw [hclock] at h
    cases hdet : g.det with
    | some det =>
        rw [hdet] at h
        cases h
        refine run_replicate (P := fun n s xs s' ↦ ∃ det, s.1.det = some det ∧
          xs = (UlidGenerator.nextLoop ts det n).1 ∧
          s' = ({ s.1 with det := some (UlidGenerator.nextLoop ts det n).2 }, s.2)) ?_ ?_
          ⟨det, hdet, rfl, rfl⟩
        · rintro s xs s' ⟨det, hdet, rfl, rfl⟩
          exact ⟨rfl, by rw [UlidGenerator.nextLoop, ← hdet]⟩
        · rintro n s xs s' ⟨det, hdet, rfl, rfl⟩
          exact ⟨_, _, _, _, step_next_det hdet hts, rfl, ⟨_, rfl, rfl, rfl⟩, rfl⟩
    | none =>
        rw [hdet] at h
        cases h
        refine run_replicate (P := fun n s xs s' ↦ s.1.det = none ∧
          xs = (UlidGenerator.nextLoopSecure ts s.2.secure n).1 ∧
          s' = (s.1, { s.2 with secure := (UlidGenerator.nextLoopSecure ts s.2.secure n).2 }))
          ?_ ?_ ⟨hdet, rfl, rfl⟩
        · rintro s xs s' ⟨-, rfl, rfl⟩
          exact ⟨rfl, rfl⟩
        · rintro n s xs s' ⟨hdet, rfl, rfl⟩
          exact ⟨_, _, _, _, step_next_secure hdet hts, rfl, ⟨hdet, rfl, rfl⟩, rfl⟩

/-- A batch of monotonic ULIDs, replayed on the clock that it finds. -/
theorem run_monotonicMany (h : g.monotonicMany th count = some (.ok ids, g', th')) :
    ∃ es, run GeneratorCall.step (g, th) (List.replicate count.toNat (.monotonic none)) = some es ∧
      final (g, th) es = (g', th') ∧ es.flatMap returnedIds = ids := by
  rw [UlidGenerator.monotonicMany] at h
  split at h
  · cases h
  · cases hdet : g.det with
    | some det =>
        rw [hdet] at h
        obtain ⟨⟨ids', mono, det', clock⟩, hloop, h⟩ := Option.bind_eq_some_iff.mp h
        cases h
        refine run_replicate (P := fun n s xs s' ↦ ∃ det mono' det' clock', s.1.det = some det ∧
          UlidGenerator.monotonicLoop s.1.mono det s.2.clock n = some (xs, mono', det', clock') ∧
          s' = (⟨mono', some det'⟩, { s.2 with clock := clock' })) ?_ ?_
          ⟨det, mono, det', clock, hdet, hloop, rfl⟩
        · rintro ⟨g, th⟩ xs s' ⟨det, mono', det', clock', hdet, hloop, rfl⟩
          cases hloop
          exact ⟨rfl, by rw [← hdet]⟩
        · rintro n ⟨g, th⟩ xs s' ⟨det, mono', det', clock', hdet, hloop, rfl⟩
          obtain ⟨⟨id, m, d, k⟩, hnext, hloop⟩ := Option.bind_eq_some_iff.mp hloop
          obtain ⟨⟨ids', m', d', k'⟩, hrest, hloop⟩ := Option.bind_eq_some_iff.mp hloop
          cases hloop
          exact ⟨_, _, id, ids', step_monotonic_det hdet hnext, rfl,
            ⟨d, mono', det', clock', rfl, hrest, rfl⟩, rfl⟩
    | none =>
        rw [hdet] at h
        obtain ⟨⟨ids', mono, secure, clock⟩, hloop, h⟩ := Option.bind_eq_some_iff.mp h
        cases h
        refine run_replicate (P := fun n s xs s' ↦ ∃ mono' secure' clock', s.1.det = none ∧
          UlidGenerator.monotonicLoop s.1.mono s.2.secure s.2.clock n =
            some (xs, mono', secure', clock') ∧
          s' = ({ s.1 with mono := mono' }, { s.2 with secure := secure', clock := clock' })) ?_ ?_
          ⟨mono, secure, clock, hdet, hloop, by rw [← hdet]⟩
        · rintro ⟨g, th⟩ xs s' ⟨mono', secure', clock', hdet, hloop, rfl⟩
          cases hloop
          exact ⟨rfl, rfl⟩
        · rintro n ⟨g, th⟩ xs s' ⟨mono', secure', clock', hdet, hloop, rfl⟩
          obtain ⟨⟨id, m, d, k⟩, hnext, hloop⟩ := Option.bind_eq_some_iff.mp hloop
          obtain ⟨⟨ids', m', d', k'⟩, hrest, hloop⟩ := Option.bind_eq_some_iff.mp hloop
          cases hloop
          exact ⟨_, _, id, ids', step_monotonic_secure hdet hnext, rfl,
            ⟨mono', secure', clock', hdet, hrest, rfl⟩, rfl⟩

end Loops

/-! ## Runs -/

section Runs

variable {w w' : GeneratorWorld ρ} {c : GeneratorCall} {o : Except NapiError (List Str)}

/-- What a call reads is gone from the clock, and with another clock after it the call does
the same. -/
theorem exists_readings (h : c.step w = some (o, w')) :
    ∃ p rest, w.2.clock = p ++ rest ∧ w'.2.clock = rest ∧
      ∀ clock, c.step (w.1, { w.2 with clock := p ++ clock }) =
        some (o, w'.1, { w'.2 with clock }) := by
  obtain ⟨p, a, rest, hclock, heq, hall⟩ := local_step c w.1 w.2 w.2.clock (o, w') h
  cases heq
  exact ⟨p, rest, hclock, rfl, hall⟩

/-- A batch that throws has changed nothing. -/
theorem eq_of_batch_error {x : NapiError} (hc : c.isBatch) (h : c.step w = some (.error x, w')) :
    w' = w := by
  cases c with
  | next | monotonic => cases hc
  | nextMany count =>
      simp only [GeneratorCall.step, UlidGenerator.nextMany] at h
      split at h
      · cases h
        rfl
      · obtain ⟨⟨ts, rest⟩, -, h⟩ := Option.bind_eq_some_iff.mp h
        cases hdet : w.1.det <;> rw [hdet] at h <;> cases h
  | monotonicMany count =>
      simp only [GeneratorCall.step, UlidGenerator.monotonicMany] at h
      split at h
      · cases h
        rfl
      · cases hdet : w.1.det <;> rw [hdet] at h <;>
          obtain ⟨_, -, h⟩ := Option.bind_eq_some_iff.mp h <;> cases h

/-- The same generator and thread, on a clock without some of the readings. -/
def Thinned (w t : GeneratorWorld ρ) : Prop :=
  ∃ clock, clock.Sublist w.2.clock ∧ t = (w.1, { w.2 with clock })

/-- The single calls of an event, from the end of the replay back to its start. -/
theorem replay {e : GeneratorEvent ρ} (hclock : ∀ t ∈ e.before.2.clock, t ≤ timeMax)
    (h : GeneratorCall.step e.before e.input = some (e.output, e.after)) {t' : GeneratorWorld ρ}
    (ht' : Thinned e.after t') :
    ∃ t es', Thinned e.before t ∧ run GeneratorCall.step t (singles e) = some es' ∧
      final t es' = t' ∧ es'.flatMap returnedIds = returnedIds e := by
  obtain ⟨w, c, o, w'⟩ := e
  obtain ⟨clock, hsub, rfl⟩ := ht'
  obtain ⟨p, rest, hw, hrest, hall⟩ := exists_readings h
  dsimp only at hclock h hsub hw hrest hall ⊢
  have hp : (p ++ clock).Sublist w.2.clock := by
    rw [hw]
    exact (List.append_sublist_append_left p).mpr (hrest ▸ hsub)
  have hsingle : ∀ _ : singles ⟨w, c, o, w'⟩ = [c], ∃ t es', Thinned w t ∧
      run GeneratorCall.step t (singles ⟨w, c, o, w'⟩) = some es' ∧
      final t es' = (w'.1, { w'.2 with clock }) ∧
      es'.flatMap returnedIds = returnedIds ⟨w, c, o, w'⟩ := by
    intro hs
    rw [hs]
    exact ⟨_, _, ⟨_, hp, rfl⟩, run_cons_eq_some_iff.mpr ⟨o, _, [], hall clock, rfl, rfl⟩, rfl,
      List.append_nil _⟩
  have hthrown : ∀ x, o = .error x → c.isBatch → ∃ t es', Thinned w t ∧
      run GeneratorCall.step t [] = some es' ∧ final t es' = (w'.1, { w'.2 with clock }) ∧
      es'.flatMap returnedIds = [] := by
    rintro x rfl hc
    obtain rfl := eq_of_batch_error hc h
    exact ⟨_, [], ⟨clock, hsub, rfl⟩, rfl, rfl, rfl⟩
  cases c with
  | next | monotonic => cases o <;> exact hsingle rfl
  | nextMany count =>
      cases o with
      | error x => exact hthrown x rfl rfl
      | ok ids =>
          have hcall : w.1.nextMany w.2 count = some (.ok ids, w'.1, w'.2) := h
          obtain ⟨ts, k, hk⟩ : ∃ ts k, w.2.clock = ts :: k := by
            rw [UlidGenerator.nextMany] at hcall
            split at hcall
            · cases hcall
            · obtain ⟨⟨ts, k⟩, hnow, -⟩ := Option.bind_eq_some_iff.mp hcall
              exact ⟨ts, k, MonotonicState.nowMs_eq_some_iff.mp hnow⟩
          have hts : ts ≤ timeMax := hclock ts (hk ▸ List.mem_cons_self)
          obtain ⟨es', hrun, hfinal, hids⟩ := run_nextMany hts hk hcall clock
          have hnow : nowMs w.2.clock = some (ts, k) := MonotonicState.nowMs_eq_some_iff.mpr hk
          refine ⟨_, es', ⟨clock, ?_, rfl⟩, ?_, hfinal, hids⟩
          · exact (List.sublist_append_right p clock).trans hp
          · simp only [singles, hnow]
            exact hrun
  | monotonicMany count =>
      cases o with
      | error x => exact hthrown x rfl rfl
      | ok ids =>
          obtain ⟨es', hrun, hfinal, hids⟩ := run_monotonicMany (hall clock)
          exact ⟨_, es', ⟨_, hp, rfl⟩, hrun, hfinal, hids⟩

/-- **Batches are single calls.**  In every run of a generator each batch can be replaced by
single calls: the same ULIDs are returned in the same order, and the generator, the thread and
its clock end in the same state. -/
theorem batches_eq_singles {g : UlidGenerator} {th : Thread ρ} {calls : List GeneratorCall}
    {es : List (GeneratorEvent ρ)} (hclock : ∀ t ∈ th.clock, t ≤ timeMax)
    (h : run GeneratorCall.step (g, th) calls = some es) :
    ∃ clock es', clock.Sublist th.clock ∧ (∀ c ∈ es.flatMap singles, ¬ c.isBatch) ∧
      run GeneratorCall.step (g, { th with clock }) (es.flatMap singles) = some es' ∧
      es'.flatMap returnedIds = es.flatMap returnedIds ∧
      final (g, { th with clock }) es' = final (g, th) es := by
  have hinv := run_invariant (I := fun w ↦ ∀ t ∈ w.2.clock, t ≤ timeMax) (J := fun _ ↦ True)
    (fun w c o w' hw _ hstep t ht ↦ by
      obtain ⟨p, rest, hsplit, hrest, -⟩ := exists_readings hstep
      exact hw t (by rw [hsplit]; exact List.mem_append_right p (hrest ▸ ht)))
    hclock (fun _ _ ↦ trivial) h
  obtain ⟨t, es', ⟨clock, hsub, rfl⟩, hrun, hfinal, hids⟩ :=
    exists_replay h (fun e he t' ht' ↦ replay (hinv e he).1 (hinv e he).2.2 ht')
      (u := final (g, th) es) ⟨_, List.Sublist.refl _, rfl⟩
  refine ⟨clock, es', hsub, fun c hc ↦ ?_, hrun, hids, hfinal⟩
  obtain ⟨e, -, hc⟩ := List.mem_flatMap.mp hc
  rw [isBatch_of_mem_singles hc]
  nofun

/-- Two batches of two, with a call that throws between them. -/
theorem batches_eq_singles_two :
    ∃ es clock es', run GeneratorCall.step (.new (some 42), clockThread [5, 5, 6])
        [.nextMany 2, .monotonicMany (-1), .monotonicMany 2] = some es ∧
      List.Sublist clock [5, 5, 6] ∧ (∀ c ∈ es.flatMap singles, ¬ c.isBatch) ∧
      run GeneratorCall.step (.new (some 42), { clockThread [5, 5, 6] with clock })
        (es.flatMap singles) = some es' ∧
      es'.flatMap returnedIds = es.flatMap returnedIds ∧
      final (.new (some 42), { clockThread [5, 5, 6] with clock }) es' =
        final (.new (some 42), clockThread [5, 5, 6]) es := by
  have hsome : (run GeneratorCall.step (.new (some 42), clockThread [5, 5, 6])
      [.nextMany 2, .monotonicMany (-1), .monotonicMany 2]).isSome = true := rfl
  obtain ⟨es, hes⟩ := Option.isSome_iff_exists.mp hsome
  have hclock : ∀ t ∈ (clockThread [5, 5, 6]).clock, t ≤ timeMax := by
    simp [clockThread, le_timeMax_iff]
  obtain ⟨clock, es', hall⟩ := batches_eq_singles hclock hes
  exact ⟨es, clock, es', hes, hall⟩

end Runs

end Napi

end Rivid
