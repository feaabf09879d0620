import Rivid.Binding.Process

/-!
# The monotonic streams of a process

In one Node process run the module's monotonic stream and one stream for each generator
object, seeded or not, through single calls and batches.  On a clock that is not set back the
ULIDs of each stream are strictly increasing, in whatever order the calls come.
-/

namespace Rivid

open Machine

namespace MonotonicState

/-! ## Emitting several ULIDs -/

/-- Between `st` and `st'` the ULIDs `ids` are emitted, each from a later state. -/
structure Grows (st : MonotonicState) (ids : List Str) (st' : MonotonicState) : Prop where
  inDomain : st'.InDomain
  le : st.num ≤ st'.num
  texts : ∃ sts : List MonotonicState, ids = sts.map text ∧
    (∀ s ∈ sts, s.InDomain ∧ st.num < s.num ∧ s.num ≤ st'.num) ∧
    sts.Pairwise fun s t ↦ s.num < t.num

namespace Grows

variable {st st' st'' : MonotonicState} {ids ids' : List Str}

theorem refl (h : st.InDomain) : Grows st [] st :=
  ⟨h, le_rfl, [], rfl, fun _ hs ↦ absurd hs List.not_mem_nil, List.Pairwise.nil⟩

theorem single (h : st'.InDomain) (hlt : st.num < st'.num) : Grows st [st'.text] st' := by
  refine ⟨h, le_of_lt hlt, [st'], rfl, fun s hs ↦ ?_, List.pairwise_singleton _ _⟩
  obtain rfl := List.mem_singleton.mp hs
  exact ⟨h, hlt, le_rfl⟩

theorem trans (h : Grows st ids st') (h' : Grows st' ids' st'') : Grows st (ids ++ ids') st'' := by
  obtain ⟨sts, rfl, hsts, hpair⟩ := h.texts
  obtain ⟨sts', rfl, hsts', hpair'⟩ := h'.texts
  refine ⟨h'.inDomain, le_trans h.le h'.le, sts ++ sts', List.map_append.symm, fun s hs ↦ ?_, ?_⟩
  · rcases List.mem_append.mp hs with hs | hs
    · obtain ⟨hdom, hlt, hle⟩ := hsts s hs
      exact ⟨hdom, hlt, le_trans hle h'.le⟩
    · obtain ⟨hdom, hlt, hle⟩ := hsts' s hs
      exact ⟨hdom, lt_of_le_of_lt h.le hlt, hle⟩
  · refine List.pairwise_append.mpr ⟨hpair, hpair', fun s hs t ht ↦ ?_⟩
    exact lt_of_le_of_lt (hsts s hs).2.2 (hsts' t ht).2.1

theorem strictlyIncreasing (h : Grows st ids st') : StrictlyIncreasing ids := by
  obtain ⟨sts, rfl, hsts, hpair⟩ := h.texts
  refine List.pairwise_map.mpr (hpair.imp_of_mem fun {s t} hs ht hlt ↦ ?_)
  exact (increases_text_iff (hsts s hs).1 (hsts t ht).1).mpr hlt

/-- What is emitted later is larger. -/
theorem increases (h : Grows st ids st') {u u' : MonotonicState} (h' : Grows u ids' u')
    (hle : st'.num ≤ u.num) {id id' : Str} (hid : id ∈ ids) (hid' : id' ∈ ids') :
    Increases id id' := by
  obtain ⟨sts, rfl, hsts, -⟩ := h.texts
  obtain ⟨sts', rfl, hsts', -⟩ := h'.texts
  obtain ⟨s, hs, rfl⟩ := List.mem_map.mp hid
  obtain ⟨t, ht, rfl⟩ := List.mem_map.mp hid'
  refine (increases_text_iff (hsts s hs).1 (hsts' t ht).1).mpr ?_
  exact lt_of_le_of_lt (hsts s hs).2.2 (lt_of_le_of_lt hle (hsts' t ht).2.1)

end Grows

end MonotonicState

/-- A clock in the 48-bit domain that is not set back. -/
structure SteadyClock (clock : Clock) : Prop where
  inDomain : ∀ t ∈ clock, t ≤ timeMax
  forward : clock.Pairwise (· ≤ ·)

theorem SteadyClock.suffix {clock clock' : Clock} (h : SteadyClock clock)
    (hsuffix : clock' <:+ clock) : SteadyClock clock' :=
  ⟨fun t ht ↦ h.inDomain t (hsuffix.subset ht), h.forward.sublist hsuffix.sublist⟩

namespace MonotonicState

section Steady

variable {ρ : Type} [Rng ρ] {st st' : MonotonicState} {rng rng' : ρ} {clock clock' : Clock}
  {id : Str}

theorem nextWith_grows (hst : st.InDomain) {now : U64} (hnow : now ≤ timeMax)
    (hclock : SteadyClock clock) (h : st.nextWith now rng clock = some (id, st', rng', clock')) :
    Grows st [id] st' ∧ SteadyClock clock' := by
  obtain ⟨hemits, hid⟩ := nextWith_emits h
  have htext : id = st'.text := hid
  have hlt : st.num < st'.num := (hemits.num_lt_iff hst).mpr fun _ t ht ↦
    Shared.lt_of_readingAfterSpin hclock.forward ht
  rw [htext]
  exact ⟨.single (hemits.inDomain hst hnow hclock.inDomain).1 hlt,
    hclock.suffix (Shared.suffix_of_emits hemits)⟩

theorem nextSecure_grows (hst : st.InDomain) (hclock : SteadyClock clock)
    (h : st.nextSecure rng clock = some (id, st', rng', clock')) :
    Grows st [id] st' ∧ SteadyClock clock' := by
  obtain ⟨⟨now, rest⟩, hnow, hnext⟩ := Option.bind_eq_some_iff.mp h
  obtain rfl := nowMs_eq_some_iff.mp hnow
  exact nextWith_grows hst (hclock.inDomain now List.mem_cons_self)
    (hclock.suffix (List.suffix_cons now rest)) hnext

end Steady

end MonotonicState

namespace Napi

open MonotonicState

variable {ρ : Type} [Rng ρ]

theorem monotonicLoop_grows {δ : Type} [Rng δ] {st st' : MonotonicState} {rng rng' : δ}
    {clock clock' : Clock} {count : ℕ} {ids : List Str} (hst : st.InDomain)
    (hclock : SteadyClock clock)
    (h : UlidGenerator.monotonicLoop st rng clock count = some (ids, st', rng', clock')) :
    Grows st ids st' := by
  induction count generalizing st rng clock ids with
  | zero =>
      cases h
      exact .refl hst
  | succ count ih =>
      obtain ⟨⟨id, st₁, rng₁, clock₁⟩, hnext, h⟩ := Option.bind_eq_some_iff.mp h
      obtain ⟨⟨ids₁, r⟩, hloop, h⟩ := Option.bind_eq_some_iff.mp h
      cases h
      obtain ⟨hfirst, hclock₁⟩ := nextSecure_grows hst hclock hnext
      exact hfirst.trans (ih hfirst.inDomain hclock₁ hloop)

/-! ## One generator -/

/-- The monotonic ULIDs that a call returns. -/
def GeneratorCall.monotonicIds (c : GeneratorCall) (o : Except NapiError (List Str)) : List Str :=
  match c, o with
  | monotonic _, .ok ids | monotonicMany _, .ok ids => ids
  | _, _ => []

theorem mono_of_next {g g' : UlidGenerator} {th th' : Thread ρ} {timestampMs : Option JsNumber}
    {r : Except NapiError Str} (h : g.next th timestampMs = some (r, g', th')) :
    g'.mono = g.mono := by
  rw [UlidGenerator.next] at h
  split at h
  · cases h
    rfl
  · obtain ⟨_, -, h⟩ := Option.bind_eq_some_iff.mp h
    cases h
    rfl
  · cases h
    rfl
  · obtain ⟨_, -, h⟩ := Option.bind_eq_some_iff.mp h
    cases h
    rfl

theorem mono_of_nextMany {g g' : UlidGenerator} {th th' : Thread ρ} {count : ℤ}
    {r : Except NapiError (List Str)} (h : g.nextMany th count = some (r, g', th')) :
    g'.mono = g.mono := by
  rw [UlidGenerator.nextMany] at h
  split at h
  · cases h
    rfl
  · obtain ⟨_, -, h⟩ := Option.bind_eq_some_iff.mp h
    cases hdet : g.det <;> rw [hdet] at h <;> cases h <;> rfl

theorem step_grows {g g' : UlidGenerator} {th th' : Thread ρ} {c : GeneratorCall}
    {o : Except NapiError (List Str)} (hst : g.mono.InDomain) (hclock : SteadyClock th.clock)
    (h : c.step (g, th) = some (o, g', th')) : Grows g.mono (c.monotonicIds o) g'.mono := by
  cases c with
  | next timestampMs =>
      obtain ⟨⟨r, g₁, th₁⟩, hcall, heq⟩ := Option.map_eq_some_iff.mp h
      cases heq
      rw [mono_of_next hcall]
      exact .refl hst
  | nextMany count =>
      rw [mono_of_nextMany h]
      exact .refl hst
  | monotonic timestampMs =>
      obtain ⟨⟨r, g₁, th₁⟩, hcall, heq⟩ := Option.map_eq_some_iff.mp h
      cases heq
      rw [UlidGenerator.monotonic] at hcall
      split at hcall
      · cases hcall
        exact .refl hst
      · rename_i hts
        obtain ⟨_, hnext, hcall⟩ := Option.bind_eq_some_iff.mp hcall
        cases hcall
        exact (nextWith_grows hst (explicitTs_le hts) hclock hnext).1
      · obtain ⟨_, hnext, hcall⟩ := Option.bind_eq_some_iff.mp hcall
        cases hcall
        exact (nextSecure_grows hst hclock hnext).1
      · rename_i hts
        obtain ⟨_, hnext, hcall⟩ := Option.bind_eq_some_iff.mp hcall
        cases hcall
        exact (nextWith_grows hst (explicitTs_le hts) hclock hnext).1
      · obtain ⟨_, hnext, hcall⟩ := Option.bind_eq_some_iff.mp hcall
        cases hcall
        exact (nextSecure_grows hst hclock hnext).1
  | monotonicMany count =>
      simp only [GeneratorCall.step, UlidGenerator.monotonicMany] at h
      split at h
      · cases h
        exact .refl hst
      · cases hdet : g.det <;> rw [hdet] at h <;>
          obtain ⟨_, hloop, h⟩ := Option.bind_eq_some_iff.mp h <;> cases h <;>
          exact monotonicLoop_grows hst hclock hloop

/-! ## The process -/

/-- The state of the module's stream, or of a generator object's; that of an object that is
not made yet is the one it is made with. -/
def Process.stream (p : Process ρ) : Option ℕ → MonotonicState
  | none => p.mono
  | some k => (p.generators[k]?.map UlidGenerator.mono).getD .new

/-- The ULIDs that a call returns of a stream. -/
def monotonicIds (stream : Option ℕ) (e : ProcessEvent ρ) : List Str :=
  match e.input, e.output, stream with
  | .monotonicUlid _, .ok ids, none => ids
  | .on handle call, o, some k => if handle = k then call.monotonicIds o else []
  | _, _, _ => []

/-- The streams are in their domains, and the clock is steady. -/
structure Process.Steady (p : Process ρ) : Prop where
  streams : ∀ stream, (p.stream stream).InDomain
  clock : SteadyClock p.thread.clock

omit [Rng ρ] in
theorem steady_new {th : Thread ρ} (hclock : SteadyClock th.clock) : (Process.new th).Steady := by
  refine ⟨fun stream ↦ ?_, hclock⟩
  cases stream <;> exact inDomain_new

omit [Rng ρ] in
/-- An object that is made changes no stream. -/
theorem stream_create (p : Process ρ) (seed : Option U64) (stream : Option ℕ) :
    ({ p with generators := p.generators ++ [.new seed] } : Process ρ).stream stream =
      p.stream stream := by
  cases stream with
  | none => rfl
  | some k =>
      rw [Process.stream, Process.stream]
      rcases Nat.lt_trichotomy k p.generators.length with hlt | rfl | hgt
      · rw [List.getElem?_append_left hlt]
      · rw [List.getElem?_concat_length, List.getElem?_eq_none le_rfl]
        rfl
      · have hlen : (p.generators ++ [UlidGenerator.new seed]).length ≤ k := by
          rw [List.length_append]
          exact hgt
        rw [List.getElem?_eq_none hlen, List.getElem?_eq_none (le_of_lt hgt)]

theorem monotonicUlid_grows {mono mono' : MonotonicState} {th th' : Thread ρ}
    {timestampMs : Option JsNumber} {r : Except NapiError Str} (hst : mono.InDomain)
    (hclock : SteadyClock th.clock) (h : monotonicUlid mono th timestampMs = some (r, mono', th')) :
    Grows mono (match r with | .ok id => [id] | .error _ => []) mono' := by
  obtain ⟨⟨r, mono₁, secure, clock⟩, hshared, heq⟩ := Option.bind_eq_some_iff.mp h
  cases heq
  rw [Shared.monotonicUlid] at hshared
  split at hshared
  · cases hshared
    exact .refl hst
  · rename_i hts
    obtain ⟨⟨id, r⟩, hnext, heq⟩ := Option.map_eq_some_iff.mp hshared
    cases heq
    exact (nextWith_grows hst (explicitTs_le hts) hclock hnext).1
  · obtain ⟨⟨id, r⟩, hnext, heq⟩ := Option.map_eq_some_iff.mp hshared
    cases heq
    exact (nextSecure_grows hst hclock hnext).1

/-- What a call does to a stream. -/
theorem stream_grows {p p' : Process ρ} {c : ProcessCall} {o : Except NapiError (List Str)}
    (hp : p.Steady) (h : p.step c = some (o, p')) (stream : Option ℕ) :
    Grows (p.stream stream) (monotonicIds stream ⟨p, c, o, p'⟩) (p'.stream stream) := by
  have hdom := hp.streams stream
  cases c with
  | create seed =>
      cases h
      rw [stream_create]
      cases stream <;> exact .refl hdom
  | on handle call =>
      obtain ⟨g, hg, h⟩ := Option.bind_eq_some_iff.mp h
      obtain ⟨⟨r, g', th⟩, hcall, heq⟩ := Option.bind_eq_some_iff.mp h
      cases heq
      cases stream with
      | none => exact .refl hdom
      | some k =>
          by_cases hk : handle = k
          · subst hk
            have hlt : handle < p.generators.length := (List.getElem?_eq_some_iff.mp hg).1
            rw [Process.stream, hg] at hdom
            rw [Process.stream, Process.stream, hg, List.getElem?_set_self hlt]
            have hids : monotonicIds (some handle) ⟨p, .on handle call, o,
                { p with generators := p.generators.set handle g', thread := th }⟩ =
                  call.monotonicIds o := if_pos rfl
            rw [hids]
            exact step_grows hdom hp.clock hcall
          · have hids : monotonicIds (some k) ⟨p, .on handle call, o,
                { p with generators := p.generators.set handle g', thread := th }⟩ = [] := if_neg hk
            rw [hids, Process.stream, Process.stream, List.getElem?_set_ne hk]
            exact .refl hdom
  | ulid timestampMs =>
      obtain ⟨_, -, heq⟩ := Option.map_eq_some_iff.mp h
      cases heq
      cases stream <;> exact .refl hdom
  | monotonicUlid timestampMs =>
      obtain ⟨⟨r, mono, th⟩, hcall, heq⟩ := Option.map_eq_some_iff.mp h
      cases heq
      cases stream with
      | none =>
          have hgrows := monotonicUlid_grows hdom hp.clock hcall
          cases r <;> exact hgrows
      | some k => cases r <;> exact .refl hdom
  | generateMany count =>
      obtain ⟨_, -, heq⟩ := Option.map_eq_some_iff.mp h
      cases heq
      cases stream <;> exact .refl hdom

theorem Process.Steady.step {p p' : Process ρ} {c : ProcessCall}
    {o : Except NapiError (List Str)} (hp : p.Steady) (h : p.step c = some (o, p')) : p'.Steady :=
  ⟨fun stream ↦ (stream_grows hp h stream).inDomain, hp.clock.suffix (clock_suffix h)⟩

/-- **One stream for each object.**  On a clock that is not set back, the ULIDs of the
module's stream, and of each generator object, are strictly increasing in the order in which
they are returned, whatever is called in between. -/
theorem monotonicIds_increasing {th : Thread ρ} {calls : List ProcessCall}
    {es : List (ProcessEvent ρ)} (h : run Process.step (.new th) calls = some es)
    (hclock : ∀ t ∈ th.clock, t ≤ timeMax) (hforward : th.clock.Pairwise (· ≤ ·))
    (stream : Option ℕ) : StrictlyIncreasing (es.flatMap (monotonicIds stream)) := by
  have hinv := Machine.run_invariant (I := Process.Steady) (J := fun _ ↦ True)
    (fun _ _ _ _ hp _ h ↦ hp.step h) (steady_new ⟨hclock, hforward⟩) (fun _ _ ↦ trivial) h
  have hgrows : ∀ e ∈ es, Grows (e.before.stream stream) (monotonicIds stream e)
      (e.after.stream stream) := fun e he ↦ stream_grows (hinv e he).1 (hinv e he).2.2 stream
  have hpair := (Machine.pairwise_le (m := fun p : Process ρ ↦ (p.stream stream).num)
    (fun e he ↦ (hgrows e he).le) h).2
  refine List.pairwise_flatMap.mpr ⟨fun e he ↦ (hgrows e he).strictlyIncreasing, ?_⟩
  refine hpair.imp_of_mem fun {e f} he hf hle id hid id' hid' ↦ ?_
  exact (hgrows e he).increases (hgrows f hf) hle hid hid'

theorem monotonicIds_increasing_twins : ∃ es,
    run Process.step (.new (clockThread [5, 5, 5])) twins = some es ∧
      StrictlyIncreasing (es.flatMap (monotonicIds (some 0))) := by
  obtain ⟨es, hrun⟩ := run_twins
  have hclock : ∀ t ∈ ([5, 5, 5] : Clock), t ≤ timeMax := by
    intro t ht
    have hfive : t = 5 := by simpa using ht
    rw [hfive]
    decide
  have hforward : ([5, 5, 5] : Clock).Pairwise (· ≤ ·) := by decide
  exact ⟨es, hrun, monotonicIds_increasing hrun hclock hforward (some 0)⟩

end Napi

end Rivid
