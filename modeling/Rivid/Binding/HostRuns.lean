import Rivid.Binding.HostCalls

/-!
# Runs of the module

Between two calls an instance keeps its override, so a call without a reading of its own finds the
one of the last call that had one.  With it each identifier gets its time (`Instance.stamped`), a
call stops for good only where a stream waits for that reading to change (`Instance.halts_iff`),
and the monotonic streams increase (`Instance.streams_increasing`).
-/

namespace Rivid

namespace Wasm

/-! ## Runs -/

/-- What a run records of a call. -/
abbrev HostEvent (ρ : Type) := Event (Instance ρ) Request (Except JsError Returned)

/-- The reading that a call has set the override to. -/
def syncedMs {ρ : Type} (e : HostEvent ρ) : Option U64 :=
  match e.output with
  | .ok _ => if e.input.entry.syncs then some (nowMs e.input.date) else none
  | .error _ => none

/-- The last of these in a run. -/
def lastSynced {ρ : Type} (es : List (HostEvent ρ)) : Option U64 := (es.filterMap syncedMs).getLast?

/-- A call throws and changes nothing, or returns as many identifiers as it is asked for, all
stamped with its time. -/
def Stamped {ρ : Type} (e : HostEvent ρ) : Prop :=
  (¬ e.input.Accepted ∧ e.after = e.before ∧ ∃ x, e.output = .error x) ∨
    ∃ ts v, seedTs e.input.entry.seedTime e.input.date = .ok ts ∧ e.input.entry.Accepts ts ∧
      e.output = .ok v ∧ e.input.entry.times v =
        List.replicate e.input.entry.count (.ok (low48 (e.input.entry.stamp e.before ts)))

namespace Instance

section Runs

variable {ρ : Type} [Rng ρ] {w w' : Instance ρ} {c : Request} {o : Except JsError Returned}
  {rng : ρ} {fills : Fills} {calls : List Request} {es : List (HostEvent ρ)}

/-- What a call does that returns or throws. -/
theorem step_cases (hw : w.pool.idx ≤ 32) (h : w.step c = some (o, w')) :
    (¬ c.Accepted ∧ w' = w ∧ ∃ x, o = .error x) ∨
      ∃ ts v, seedTs c.entry.seedTime c.date = .ok ts ∧ c.entry.Accepts ts ∧ o = .ok v ∧
        w.Returns c ts v w' := by
  rw [step] at h
  rcases call_cases hw c with ⟨hno, x, hx⟩ | ⟨ts, hts, hacc, hcall⟩
  · rw [hx] at h
    cases h
    exact Or.inl ⟨hno, rfl, x, rfl⟩
  · rcases hcall with ⟨_, _, x, -, -, hx⟩ | ⟨v, w₁, hx, hret⟩
    · rw [hx] at h
      cases h
    · rw [hx] at h
      cases h
      exact Or.inr ⟨ts, v, hts, hacc, rfl, hret⟩

theorem pool_of_step (hw : w.pool.idx ≤ 32) (h : w.step c = some (o, w')) : w'.pool.idx ≤ 32 := by
  rcases step_cases hw h with ⟨-, rfl, -⟩ | ⟨ts, v, -, -, -, hret⟩
  · exact hw
  · exact hret.pool

theorem override_of_step (hw : w.pool.idx ≤ 32) (h : w.step c = some (o, w')) :
    w'.override = (syncedMs ⟨w, c, o, w'⟩).elim w.override fun t ↦ ⟨t, true⟩ := by
  rcases step_cases hw h with ⟨-, rfl, x, rfl⟩ | ⟨ts, v, -, -, rfl, hret⟩
  · rfl
  · rw [hret.override]
    by_cases hsync : c.entry.syncs = true
    · simp [syncedMs, hsync]
    · simp [syncedMs, hsync]

/-- The override is the last reading that a call has set it to. -/
theorem override_final (hw : w.pool.idx ≤ 32) (h : Machine.run step w calls = some es) :
    (Machine.final w es).override = (lastSynced es).elim w.override fun t ↦ ⟨t, true⟩ := by
  induction calls generalizing w es with
  | nil =>
      cases h
      rfl
  | cons c calls ih =>
      obtain ⟨o, w', es', hstep, hrun, rfl⟩ := Machine.run_cons_eq_some_iff.mp h
      rw [Machine.final_cons, ih (pool_of_step hw hstep) hrun, override_of_step hw hstep,
        lastSynced, lastSynced, List.filterMap_cons]
      cases syncedMs ⟨w, c, o, w'⟩ with
      | none => rfl
      | some t =>
          dsimp only
          rw [List.getLast?_cons]
          cases (es'.filterMap syncedMs).getLast? with
          | none => rfl
          | some u => rfl

theorem pool_final (hw : w.pool.idx ≤ 32) (h : Machine.run step w calls = some es) :
    (Machine.final w es).pool.idx ≤ 32 := by
  induction calls generalizing w es with
  | nil =>
      cases h
      exact hw
  | cons c calls ih =>
      obtain ⟨o, w', es', hstep, hrun, rfl⟩ := Machine.run_cons_eq_some_iff.mp h
      rw [Machine.final_cons]
      exact ih (pool_of_step hw hstep) hrun

omit [Rng ρ] in
theorem pool_new : (new rng fills).pool.idx ≤ 32 := le_rfl

theorem override_of_run (h : Machine.run step (new rng fills) calls = some es) :
    (Machine.final (new rng fills) es).override =
      (lastSynced es).elim ⟨0, false⟩ fun t ↦ ⟨t, true⟩ := override_final pool_new h

/-- **Every identifier says its call's time.**  In every run of a module, a call whose arguments
are in order returns as many identifiers as it is asked for.  Each says, to 48 bits, the time that
the caller pinned or else what `Date.now()` showed for that very call, whatever calls before have
left in the override; a monotonic one does not go back behind its stream, and on an exhausted
stream it says the override, which is the reading of the last call that set it.  Any other call
throws and changes nothing. -/
theorem stamped (h : Machine.run step (new rng fills) calls = some es) {n : ℕ}
    (hn : n < es.length) :
    es[n].before.override = (lastSynced (es.take n)).elim ⟨0, false⟩ (fun t ↦ ⟨t, true⟩) ∧
      Stamped es[n] := by
  have hbefore := Machine.run_take h n
  have hpool : es[n].before.pool.idx ≤ 32 := by
    rw [Machine.before_getElem h hn]
    exact pool_final pool_new hbefore
  refine ⟨?_, ?_⟩
  · rw [Machine.before_getElem h hn]
    exact override_of_run hbefore
  · rcases step_cases hpool (Machine.step_getElem h hn) with hno | ⟨ts, v, hts, hacc, hv, hret⟩
    · exact Or.inl hno
    · exact Or.inr ⟨ts, v, hts, hacc, hv, hret.times⟩

/-- **When a call does not return.**  After every run of a module, the only call that does not
return is a monotonic one on an exhausted stream.  It reads `SystemTime` if no call has set the
override yet, and spins forever if the last one that did has set it no further than the stream's
last millisecond. -/
theorem halts_iff (h : Machine.run step (new rng fills) calls = some es) (c : Request) (x : Halt) :
    (Machine.final (new rng fills) es).call c = .error x ↔ ∃ k seedTime ts,
      c.entry = .monotonic k seedTime ∧ seedTs seedTime c.date = .ok ts ∧
      ((Machine.final (new rng fills) es).states k).Exhausted ts ∧
      (lastSynced es = none ∧ x = .systemTime ∨ ∃ t, lastSynced es = some t ∧
        t ≤ ((Machine.final (new rng fills) es).states k).lastMs ∧ x = .spin) := by
  have hpool := pool_final pool_new h
  have hoverride := override_of_run h
  generalize Machine.final (new rng fills) es = w at hpool hoverride
  have hadvance : ∀ {k ts}, advance w.override (w.states k) ts w.rng = .error x ↔
      (w.states k).Exhausted ts ∧ (lastSynced es = none ∧ x = .systemTime ∨
        ∃ t, lastSynced es = some t ∧ t ≤ (w.states k).lastMs ∧ x = .spin) := by
    intro k ts
    rw [advance_error_iff, hoverride]
    cases lastSynced es with
    | none => simp
    | some t => simp
  constructor
  · intro hx
    rcases call_cases hpool c with ⟨-, y, hy⟩ | ⟨ts, hts, -, hcall⟩
    · rw [hy] at hx
      cases hx
    · rcases hcall with ⟨k, seedTime, y, hentry, hadv, hy⟩ | ⟨v, w', hy, -⟩
      · rw [hy] at hx
        cases hx
        rw [hentry] at hts
        exact ⟨k, seedTime, ts, hentry, hts, hadvance.mp hadv⟩
      · rw [hy] at hx
        cases hx
  · rintro ⟨k, seedTime, ts, hentry, hts, hwhen⟩
    have hadv := hadvance.mpr hwhen
    rw [call, hentry]
    simp only [monotonic, hts, hadv]
    rfl

end Runs

/-! ## The monotonic streams -/

section Streams

variable {ρ : Type} [Rng ρ] {w w' : Instance ρ} {c : Request} {o : Except JsError Returned}
  {rng : ρ} {fills : Fills} {calls : List Request} {es : List (HostEvent ρ)}

/-- The times of a call are in the 48-bit domain. -/
def TimesInDomain (c : Request) : Prop :=
  ∀ ts, seedTs c.entry.seedTime c.date = .ok ts → ts ≤ timeMax

/-- States and override are in their domains. -/
structure InDomain (w : Instance ρ) : Prop where
  pool : w.pool.idx ≤ 32
  states : ∀ k, (w.states k).InDomain
  override : w.override.ms ≤ timeMax

omit [Rng ρ] in
theorem inDomain_new : (new rng fills).InDomain :=
  ⟨le_rfl, fun _ ↦ MonotonicState.inDomain_new, show (0 : U64) ≤ timeMax by decide⟩

/-- The readings of an override are past what the spin waits for, or it does not end. -/
theorem clockKeepsUp_readings (o : ClockOverride) (st : MonotonicState) (now : U64) :
    st.ClockKeepsUp now o.readings := by
  intro _ t ht
  rw [ClockOverride.readings] at ht
  split at ht
  · rw [MonotonicState.readingAfterSpin] at ht
    by_cases hle : o.ms ≤ st.lastMs
    · simp [hle] at ht
    · simp [hle] at ht
      exact ht ▸ BitVec.not_le.mp hle
  · cases ht

theorem InDomain.step (hw : w.InDomain) (hc : TimesInDomain c)
    (h : w.step c = some (o, w')) : w'.InDomain ∧ ∀ k, (w.states k).num ≤ (w'.states k).num ∧
      ∀ seedTime, c.entry = .monotonic k seedTime → ∀ id, o = .ok (.string id) →
        id = (w'.states k).text ∧ (w.states k).num < (w'.states k).num := by
  rcases step_cases hw.pool h with ⟨-, rfl, x, rfl⟩ | ⟨ts, v, hts, -, rfl, hret⟩
  · exact ⟨hw, fun k ↦ ⟨le_rfl, nofun⟩⟩
  · have hnow := hc ts hts
    have hreads : ∀ t ∈ w.override.readings, t ≤ timeMax := by
      intro t ht
      rw [ClockOverride.readings] at ht
      split at ht
      · simp at ht
        exact ht ▸ hw.override
      · cases ht
    have hown : ∀ k seedTime, c.entry = .monotonic k seedTime →
        (w'.states k).InDomain ∧ (w.states k).num < (w'.states k).num := by
      intro k seedTime hentry
      obtain ⟨-, clock, hemits⟩ := hret.own k seedTime hentry
      exact ⟨(hemits.inDomain (hw.states k) hnow hreads).1,
        (hemits.num_lt_iff (hw.states k)).mpr (clockKeepsUp_readings _ _ _)⟩
    refine ⟨⟨hret.pool, fun k ↦ ?_, ?_⟩, fun k ↦ ⟨?_, fun seedTime hentry id hid ↦ ?_⟩⟩
    · by_cases hk : ∃ seedTime, c.entry = .monotonic k seedTime
      · exact (hown k _ hk.choose_spec).1
      · rw [hret.others k fun s hs ↦ hk ⟨s, hs⟩]
        exact hw.states k
    · rw [hret.override]
      split
      · rename_i hsync
        have hnone : c.entry.seedTime = none := by
          cases hentry : c.entry <;> rw [hentry] at hsync <;> first | rfl | cases hsync
        rw [hnone] at hts
        cases hts
        exact hnow
      · exact hw.override
    · by_cases hk : ∃ seedTime, c.entry = .monotonic k seedTime
      · exact le_of_lt (hown k _ hk.choose_spec).2
      · rw [hret.others k fun s hs ↦ hk ⟨s, hs⟩]
    · cases hid
      exact ⟨Returned.string.inj (hret.own k seedTime hentry).1, (hown k seedTime hentry).2⟩

/-- **The streams of a module.**  In every run whose times are in the 48-bit domain, exhausted
calls and calls that move the override between them included, the ULIDs of each stream are
strictly increasing. -/
theorem streams_increasing (hcalls : ∀ c ∈ calls, TimesInDomain c)
    (h : Machine.run step (new rng fills) calls = some es) :
    es.Pairwise fun e f ↦ ∀ k s t id id', e.input.entry = .monotonic k s →
      f.input.entry = .monotonic k t → e.output = .ok (.string id) →
      f.output = .ok (.string id') → Increases id id' := by
  have hinv := Machine.run_invariant (I := InDomain) (J := TimesInDomain)
    (fun _ _ _ _ hw hc h ↦ (hw.step hc h).1) inDomain_new hcalls h
  have hgrow : ∀ k, es.Pairwise fun e f ↦
      (e.after.states k).num ≤ (f.before.states k).num := fun k ↦
    (Machine.pairwise_le (m := fun w : Instance ρ ↦ (w.states k).num) (fun e he ↦ by
      obtain ⟨hw, hc, hstep⟩ := hinv e he
      exact ((hw.step hc hstep).2 k).1) h).2
  have hall : es.Pairwise fun e f ↦ ∀ k, (e.after.states k).num ≤ (f.before.states k).num :=
    List.pairwise_iff_getElem.mpr fun i j hi hj hij k ↦
      List.pairwise_iff_getElem.mp (hgrow k) i j hi hj hij
  refine hall.imp_of_mem fun {e f} he hf hle k s t id id' hek hfk hid hid' ↦ ?_
  obtain ⟨hwe, hce, hstepe⟩ := hinv e he
  obtain ⟨hwf, hcf, hstepf⟩ := hinv f hf
  obtain ⟨hwe', hnume⟩ := hwe.step hce hstepe
  obtain ⟨hwf', hnumf⟩ := hwf.step hcf hstepf
  obtain ⟨htext, -⟩ := (hnume k).2 s hek id hid
  obtain ⟨htext', hlt⟩ := (hnumf k).2 t hfk id' hid'
  rw [htext, htext', MonotonicState.increases_text_iff (hwe'.states k) (hwf'.states k)]
  exact lt_of_le_of_lt (hle k) hlt

end Streams

/-! ## An exhausted stream -/

def words : Fills := fun _ ↦ EntropyPool.new.words

/-- A batch while the host clock shows 7, then two calls pinned to 5 on a source that exhausts
their stream at once. -/
def exhausting : List Request :=
  [⟨.generateMany 2, .finite 7⟩, ⟨.monotonic .module (some (.finite 5)), .finite 9⟩,
    ⟨.monotonic .module (some (.finite 5)), .finite 9⟩]

theorem run_exhausting : ∃ es : List (HostEvent (ℕ → U64)),
    Machine.run step (new allOnes words) exhausting = some es ∧
      es.map (fun e ↦ (e.after.states .module).lastMs) = [0, 5, 7] := by
  have h : (Machine.run step (new allOnes words) exhausting).map
      (fun es ↦ es.map fun e ↦ (e.after.states .module).lastMs) = some [0, 5, 7] := rfl
  obtain ⟨es, hes, hlast⟩ := Option.map_eq_some_iff.mp h
  exact ⟨es, hes, hlast⟩

theorem stamped_exhausting : ∃ es : List (HostEvent (ℕ → U64)),
    Machine.run step (new allOnes words) exhausting = some es ∧ ∃ hn : 2 < es.length,
      es[2].before.override = (lastSynced (es.take 2)).elim ⟨0, false⟩ (fun t ↦ ⟨t, true⟩) ∧
        Stamped es[2] := by
  obtain ⟨es, hes, -⟩ := run_exhausting
  have hn : 2 < es.length := by
    rw [Machine.length_run hes]
    decide
  exact ⟨es, hes, hn, stamped hes hn⟩

theorem streams_increasing_exhausting : ∃ es : List (HostEvent (ℕ → U64)),
    Machine.run step (new allOnes words) exhausting = some es ∧ es.Pairwise fun e f ↦
      ∀ k s t id id', e.input.entry = .monotonic k s → f.input.entry = .monotonic k t →
        e.output = .ok (.string id) → f.output = .ok (.string id') → Increases id id' := by
  obtain ⟨es, hes, -⟩ := run_exhausting
  refine ⟨es, hes, streams_increasing ?_ hes⟩
  have hbatch : TimesInDomain ⟨.generateMany 2, .finite 7⟩ := by
    rintro _ ⟨⟩
    decide
  have hpinned : TimesInDomain ⟨.monotonic .module (some (.finite 5)), .finite 9⟩ := by
    rintro _ ⟨⟩
    decide
  simp only [exhausting, List.forall_mem_cons]
  exact ⟨hbatch, hpinned, hpinned, nofun⟩

/-- Without a call that sets the override, `SystemTime` is what an exhausted stream finds. -/
theorem halts_exhausted : ∃ es : List (HostEvent (ℕ → U64)),
    Machine.run step (new allOnes words) (exhausting.drop 2) = some es ∧
      (Machine.final (new allOnes words) es).call
        ⟨.monotonic .module (some (.finite 5)), .finite 9⟩ = .error .systemTime := by
  have h : (Machine.run step (new allOnes words) (exhausting.drop 2)).map
      (fun es ↦ (lastSynced es, (Machine.final (new allOnes words) es).states .module)) =
        some (none, ⟨5, Id128.randomMask⟩) := rfl
  obtain ⟨es, hes, hlast⟩ := Option.map_eq_some_iff.mp h
  rw [Prod.mk.injEq] at hlast
  refine ⟨es, hes, (halts_iff hes _ _).mpr ⟨.module, _, 5, rfl, rfl, ?_, Or.inl ⟨hlast.1, rfl⟩⟩⟩
  rw [hlast.2]
  decide

end Instance

end Wasm

end Rivid
