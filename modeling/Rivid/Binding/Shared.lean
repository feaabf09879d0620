import Rivid.Binding.Generator
import Rivid.Lib.Critical

/-!
# The monotonic stream that threads share

The module-level stream of the Node binding is one `MonotonicState` behind a mutex, for all
threads of the process.  A call takes the lock, validates its time, reads the clock when
there is none, and updates the state field by field; each thread has a secure generator of
its own.  The Python binding's stream is the same but for the validation.

Here a call is a `Critical.Routine`, a point between any two statements.  Whatever way the
statements of the threads interleave, the calls return what they return one after another,
and on a clock that is not set back the ULIDs of the process are strictly increasing in the
order in which they are returned.
-/

namespace Rivid

open Id128 Critical

namespace Shared

variable {ρ ι φ : Type} [Rng ρ]

/-- The points of a call. -/
inductive Point (ι : Type) where
  /-- Before the time is resolved. -/
  | resolve (input : ι)
  /-- `crate::now_ms()`. -/
  | readClock
  /-- `advance`, before its comparisons. -/
  | advance (now : U64)
  /-- `self.last_ms = now`. -/
  | setMs (now : U64)
  /-- `self.last_rand += 1`. -/
  | increment
  /-- `spin_until_next_ms`. -/
  | spin (current : U64)
  /-- `self.last_ms = crate::now_ms()`. -/
  | reread
  /-- `draw_80`, a word at a time. -/
  | drawHi
  | drawLo (hi : U64)
  /-- `self.last_rand = draw_80(rng)`. -/
  | setRand (r : U128)
  /-- The two fields are read and encoded. -/
  | encode

/-- The statement at a point; `resolve` validates the time that a call asks for. -/
def move (resolve : ι → Except φ (Option U64)) (p : Point ι) (st : MonotonicState) (rng : ρ) :
    Move U64 (Point ι × MonotonicState × ρ) (Except φ Str) :=
  match p with
  | .resolve input =>
      match resolve input with
      | .error e => .ret (.error e)
      | .ok (some t) => .go (.advance t, st, rng)
      | .ok none => .go (.readClock, st, rng)
  | .readClock => .read fun now ↦ (.advance now, st, rng)
  | .advance now =>
      if now > st.lastMs then .go (.setMs now, st, rng)
      else if st.lastRand < randomMask then .go (.increment, st, rng)
      else .go (.spin st.lastMs, st, rng)
  | .setMs now => .go (.drawHi, { st with lastMs := now }, rng)
  | .increment => .go (.encode, { st with lastRand := st.lastRand + 1 }, rng)
  | .spin current =>
      .read fun t ↦ if t ≤ current then (.spin current, st, rng) else (.reread, st, rng)
  | .reread => .read fun t ↦ (.drawHi, { st with lastMs := t }, rng)
  | .drawHi =>
      let hi := Rng.nextU64 rng
      .go (.drawLo hi.1, st, hi.2)
  | .drawLo hi =>
      let lo := Rng.nextU64 rng
      .go (.setRand ((hi.setWidth 128 <<< 64 ||| lo.1.setWidth 128) &&& randomMask), st, lo.2)
  | .setRand r => .go (.encode, { st with lastRand := r }, rng)
  | .encode => .ret (.ok st.text)

/-- A call, statement by statement. -/
def routine (resolve : ι → Except φ (Option U64)) :
    Routine MonotonicState ρ (Point ι) ι U64 (Except φ Str) where
  start := .resolve
  move := move resolve

/-- What an engine call leaves, with its ULID as a result. -/
def returned (r : Option (Str × MonotonicState × ρ × Clock)) :
    Option (Except φ Str × MonotonicState × ρ × Clock) :=
  r.map fun r ↦ (.ok r.1, r.2)

/-- A call as a whole. -/
def monotonicUlid (resolve : ι → Except φ (Option U64)) (input : ι) (st : MonotonicState)
    (rng : ρ) (clock : Clock) : Option (Except φ Str × MonotonicState × ρ × Clock) :=
  match resolve input with
  | .error e => some (.error e, st, rng, clock)
  | .ok (some t) => returned (st.nextSecureAt t rng clock)
  | .ok none => returned (st.nextSecure rng clock)

/-! ## A call from each of its points -/

/-- From a state that is set. -/
def encoded (st : MonotonicState) (rng : ρ) (clock : Clock) :
    Option (Str × MonotonicState × ρ × Clock) := some (st.text, st, rng, clock)

omit [Rng ρ] in
theorem returned_encoded (st : MonotonicState) (rng : ρ) (clock : Clock) :
    returned (φ := φ) (encoded st rng clock) = some (.ok st.text, st, rng, clock) := by
  rw [returned, encoded, Option.map_some]

/-- From a state whose time is set, with the draw. -/
def drawn (st : MonotonicState) (r : U128 × ρ) (clock : Clock) :
    Option (Str × MonotonicState × ρ × Clock) := encoded ⟨st.lastMs, r.1⟩ r.2 clock

/-- From the reading after the spin. -/
def reseeded (st : MonotonicState) (rng : ρ) (clock : Clock) :
    Option (Str × MonotonicState × ρ × Clock) :=
  (nowMs clock).bind fun r ↦ drawn { st with lastMs := r.1 } (draw80 rng) r.2

/-- How a call ends from each of its points. -/
def finish (resolve : ι → Except φ (Option U64)) (x : Point ι × MonotonicState × ρ)
    (clock : Clock) : Option (Except φ Str × MonotonicState × ρ × Clock) :=
  match x with
  | (.resolve input, st, rng) => monotonicUlid resolve input st rng clock
  | (.readClock, st, rng) => returned (st.nextSecure rng clock)
  | (.advance now, st, rng) => returned (st.nextWith now rng clock)
  | (.setMs now, st, rng) => returned (drawn { st with lastMs := now } (draw80 rng) clock)
  | (.increment, st, rng) => returned (encoded ⟨st.lastMs, st.lastRand + 1⟩ rng clock)
  | (.spin current, st, rng) =>
      returned ((spinUntilNextMs current clock).bind (reseeded st rng))
  | (.reread, st, rng) => returned (reseeded st rng clock)
  | (.drawHi, st, rng) => returned (drawn st (draw80 rng) clock)
  | (.drawLo hi, st, rng) =>
      let lo := Rng.nextU64 rng
      let r := (hi.setWidth 128 <<< 64 ||| lo.1.setWidth 128) &&& randomMask
      returned (drawn st (r, lo.2) clock)
  | (.setRand r, st, rng) => returned (drawn st (r, rng) clock)
  | (.encode, st, rng) => returned (encoded st rng clock)

/-- The branches of `advance`. -/
theorem nextWith_eq (st : MonotonicState) (now : U64) (rng : ρ) (clock : Clock) :
    st.nextWith now rng clock =
      if now > st.lastMs then drawn { st with lastMs := now } (draw80 rng) clock
      else if st.lastRand < randomMask then encoded ⟨st.lastMs, st.lastRand + 1⟩ rng clock
      else (spinUntilNextMs st.lastMs clock).bind (reseeded st rng) := by
  rw [MonotonicState.nextWith, MonotonicState.advance]
  split
  · rfl
  · split
    · rfl
    · cases spinUntilNextMs st.lastMs clock with
      | none => rfl
      | some clock' => cases clock' <;> rfl

theorem finishes (resolve : ι → Except φ (Option U64)) :
    (routine (ρ := ρ) resolve).Finishes (finish resolve) where
  go := by
    intro p st rng next clock h
    cases p with
    | resolve input =>
        simp only [routine, move] at h
        rw [finish, monotonicUlid]
        cases hr : resolve input with
        | error e => rw [hr] at h; cases h
        | ok t =>
            rw [hr] at h
            cases t with
            | none => cases h; rfl
            | some t => cases h; rfl
    | advance now =>
        simp only [routine, move] at h
        rw [finish, nextWith_eq]
        split at h
        · rename_i hnew
          cases h
          rw [if_pos hnew]
          rfl
        · rename_i hold
          rw [if_neg hold]
          split at h
          · rename_i hroom
            cases h
            rw [if_pos hroom]
            rfl
          · rename_i hfull
            cases h
            rw [if_neg hfull]
            rfl
    | readClock | spin current | reread | encode => cases h
    | setMs now | increment | drawHi | drawLo hi | setRand r => cases h; rfl
  read := by
    intro p st rng next t clock h
    cases p with
    | resolve input =>
        simp only [routine, move] at h
        split at h <;> cases h
    | advance now =>
        simp only [routine, move] at h
        split at h
        · cases h
        · split at h <;> cases h
    | spin current =>
        cases h
        by_cases ht : t ≤ current
        · simp only [if_pos ht, finish, spinUntilNextMs]
        · simp only [if_neg ht, finish, spinUntilNextMs, Option.bind_some]
    | setMs now | increment | drawHi | drawLo hi | setRand r | encode => cases h
    | readClock | reread => cases h; rfl
  ret := by
    intro p st rng o clock h
    cases p with
    | resolve input =>
        simp only [routine, move] at h
        rw [finish, monotonicUlid]
        cases hr : resolve input with
        | error e => rw [hr] at h; cases h; rfl
        | ok t =>
            rw [hr] at h
            cases t <;> cases h
    | advance now =>
        simp only [routine, move] at h
        split at h
        · cases h
        · split at h <;> cases h
    | readClock | spin current | reread | setMs now | increment | drawHi | drawLo hi | setRand r =>
        cases h
    | encode => cases h; exact returned_encoded st rng clock

/-! ## Calls one after another -/

section Runs

variable {τ : Type} [DecidableEq τ] {resolve : ι → Except φ (Option U64)}
  {w w' : Memory τ MonotonicState ρ U64} {tc : τ × ι} {o : Except φ Str}

/-- A reading that follows the spin on a clock that is not set back is past the time that
the spin waits for. -/
theorem lt_of_readingAfterSpin {current t : U64} {clock : Clock}
    (hsorted : clock.Pairwise (· ≤ ·))
    (h : MonotonicState.readingAfterSpin current clock = some t) : current < t := by
  induction clock with
  | nil => cases h
  | cons a clock ih =>
      rw [MonotonicState.readingAfterSpin] at h
      by_cases ha : a ≤ current
      · rw [List.dropWhile_cons_of_pos (by simpa using ha)] at h
        exact ih (List.pairwise_cons.mp hsorted).2 h
      · rw [List.dropWhile_cons_of_neg (by simpa using ha), List.drop_succ_cons,
          List.drop_zero] at h
        have hle : a ≤ t := (List.pairwise_cons.mp hsorted).1 t (List.mem_of_mem_head? h)
        have hlt := BitVec.lt_def.mp (BitVec.not_le.mp ha)
        exact BitVec.lt_def.mpr (lt_of_lt_of_le hlt (BitVec.le_def.mp hle))

theorem spin_suffix {current : U64} {clock clock' : Clock}
    (h : spinUntilNextMs current clock = some clock') : clock' <:+ clock := by
  induction clock with
  | nil => cases h
  | cons a clock ih =>
      rw [spinUntilNextMs] at h
      split at h
      · exact (ih h).trans (List.suffix_cons a clock)
      · cases h
        exact List.suffix_cons a _

/-- A step leaves the rest of the clock it finds. -/
theorem suffix_of_emits {st st' : MonotonicState} {now : U64} {clock clock' : Clock}
    (h : st.Emits now clock st' clock') : clock' <:+ clock := by
  cases h with
  | newMs r hnew hr => exact List.suffix_rfl
  | increment hold hroom => exact List.suffix_rfl
  | reseed ms r _ hex hspin hr => exact (List.suffix_cons ms _).trans (spin_suffix hspin)

/-- A call fails and changes nothing, or is a step of the state machine at its own time or at
the next reading. -/
theorem call_cases (h : Memory.call (monotonicUlid resolve) w tc = some (o, w')) :
    (∃ e, o = .error e ∧ w' = w) ∨
      ∃ now clock, ((resolve tc.2 = .ok (some now) ∧ clock = w.env) ∨
          resolve tc.2 = .ok none ∧ w.env = now :: clock) ∧
        w.shared.Emits now clock w'.shared w'.env ∧ o = .ok w'.shared.text := by
  obtain ⟨⟨o', st, rng, clock'⟩, hcall, heq⟩ := Option.map_eq_some_iff.mp h
  cases heq
  rw [monotonicUlid] at hcall
  split at hcall
  · rename_i e he
    cases hcall
    refine Or.inl ⟨e, rfl, ?_⟩
    rw [Function.update_eq_self]
  · rename_i t ht
    obtain ⟨⟨id, r⟩, hnext, heq⟩ := Option.map_eq_some_iff.mp hcall
    cases heq
    obtain ⟨hemits, hid⟩ := MonotonicState.nextWith_emits hnext
    exact Or.inr ⟨t, w.env, Or.inl ⟨ht, rfl⟩, hemits, congrArg Except.ok hid⟩
  · rename_i hnone
    obtain ⟨⟨id, r⟩, hnext, heq⟩ := Option.map_eq_some_iff.mp hcall
    cases heq
    obtain ⟨⟨now, clock⟩, hnow, hnext⟩ := Option.bind_eq_some_iff.mp hnext
    obtain ⟨hemits, hid⟩ := MonotonicState.nextWith_emits hnext
    exact Or.inr ⟨now, clock, Or.inr ⟨hnone, MonotonicState.nowMs_eq_some_iff.mp hnow⟩, hemits,
      congrArg Except.ok hid⟩

/-- The state is in its domains, and the clock is in its own and not set back. -/
structure Steady (w : Memory τ MonotonicState ρ U64) : Prop where
  state : w.shared.InDomain
  clock : ∀ t ∈ w.env, t ≤ timeMax
  forward : w.env.Pairwise (· ≤ ·)

/-- One call on a steady clock. -/
theorem Steady.call (hw : Steady w) (hres : ∀ t, resolve tc.2 = .ok (some t) → t ≤ timeMax)
    (h : Memory.call (monotonicUlid resolve) w tc = some (o, w')) :
    Steady w' ∧ ((∃ e, o = .error e ∧ w'.shared = w.shared) ∨
      o = .ok w'.shared.text ∧ w.shared.num < w'.shared.num) := by
  rcases call_cases h with ⟨e, rfl, rfl⟩ | ⟨now, clock, htime, hemits, rfl⟩
  · exact ⟨hw, Or.inl ⟨e, rfl, rfl⟩⟩
  · have hread : now ≤ timeMax ∧ clock <:+ w.env := by
      rcases htime with ⟨ht, rfl⟩ | ⟨-, henv⟩
      · exact ⟨hres now ht, List.suffix_rfl⟩
      · exact ⟨hw.clock now (by rw [henv]; exact List.mem_cons_self),
          henv ▸ List.suffix_cons now clock⟩
    have hclock : ∀ t ∈ clock, t ≤ timeMax := fun t ht ↦ hw.clock t (hread.2.subset ht)
    have hforward : clock.Pairwise (· ≤ ·) := hw.forward.sublist hread.2.sublist
    obtain ⟨hstate, hrest⟩ := hemits.inDomain hw.state hread.1 hclock
    refine ⟨⟨hstate, hrest, hforward.sublist (suffix_of_emits hemits).sublist⟩, Or.inr ⟨rfl, ?_⟩⟩
    rw [hemits.num_lt_iff hw.state]
    exact fun _ t ht ↦ lt_of_readingAfterSpin hforward ht

/-- On a steady clock the ULIDs of a run are strictly increasing. -/
theorem increasing_of_run {calls : List (τ × ι)}
    {es : List (Event (Memory τ MonotonicState ρ U64) (τ × ι) (Except φ Str))} (hw : Steady w)
    (hres : ∀ i t, resolve i = .ok (some t) → t ≤ timeMax)
    (hrun : Machine.run (Memory.call (monotonicUlid resolve)) w calls = some es) :
    StrictlyIncreasing ((es.map Event.output).filterMap Except.toOption) := by
  have hinv := Machine.run_invariant (I := Steady) (J := fun _ ↦ True)
    (fun _ c _ _ hw _ h ↦ (hw.call (hres c.2) h).1) hw (fun _ _ ↦ trivial) hrun
  have hstep : ∀ e ∈ es, Steady e.after ∧ ((∃ x, e.output = .error x ∧
      e.after.shared = e.before.shared) ∨
      e.output = .ok e.after.shared.text ∧ e.before.shared.num < e.after.shared.num) := by
    intro e he
    obtain ⟨hw, -, hstep⟩ := hinv e he
    exact hw.call (hres e.input.2) hstep
  have hgrows : es.Pairwise fun e f ↦ e.after.shared.num ≤ f.before.shared.num := by
    refine (Machine.pairwise_le (m := fun w ↦ w.shared.num) (fun e he ↦ ?_) hrun).2
    rcases (hstep e he).2 with ⟨_, -, hsame⟩ | ⟨-, hlt⟩
    · rw [hsame]
    · exact le_of_lt hlt
  rw [List.filterMap_map]
  refine List.pairwise_filterMap.mpr (hgrows.imp_of_mem fun {e f} he hf hle id hid id' hid' ↦ ?_)
  -- Only a call that returns a ULID has one, and it is the text of the state it leaves.
  have htext : ∀ g ∈ es, ∀ id, Except.toOption g.output = some id →
      id = g.after.shared.text ∧ g.before.shared.num < g.after.shared.num := by
    intro g hg id hid
    rcases (hstep g hg).2 with ⟨x, herr, -⟩ | ⟨hok, hlt⟩
    · rw [herr, Except.toOption] at hid
      cases hid
    · rw [hok, Except.toOption, Option.some.injEq] at hid
      exact ⟨hid.symm, hlt⟩
  obtain ⟨hid, -⟩ := htext e he id hid
  obtain ⟨hid', hlt⟩ := htext f hf id' hid'
  rw [hid, hid', MonotonicState.increases_text_iff (hstep e he).1.state (hstep f hf).1.state]
  exact lt_of_le_of_lt hle hlt

end Runs

/-! ## Executions -/

section Executions

variable {τ : Type} [DecidableEq τ] {resolve : ι → Except φ (Option U64)} {todo : τ → List ι}
  {rng : τ → ρ} {acts : List (Action τ ι U64 (Except φ Str))}
  {c : Config τ MonotonicState ρ (Point ι) ι (Except φ Str)}

/-- Fresh state, and threads that have not called yet, each with the times it is going to ask
for and a generator of its own. -/
def start (todo : τ → List ι) (rng : τ → ρ) :
    Config τ MonotonicState ρ (Point ι) ι (Except φ Str) where
  shared := .new
  holder := none
  todo := todo
  phase _ := .idle
  loc := rng

omit [DecidableEq τ] [Rng ρ] in
theorem start_quiet :
    (start todo rng : Config τ MonotonicState ρ (Point ι) ι (Except φ Str)).Quiet :=
  ⟨rfl, fun _ ↦ rfl⟩

/-- The ULIDs of an execution, in the order in which they are returned. -/
def ids (acts : List (Action τ ι U64 (Except φ Str))) : List Str :=
  ((answers acts).map fun r ↦ r.2.2).filterMap Except.toOption

/-- What an execution is to its callers. -/
structure Linearized (resolve : ι → Except φ (Option U64)) (todo : τ → List ι) (rng : τ → ρ)
    (acts : List (Action τ ι U64 (Except φ Str)))
    (c : Config τ MonotonicState ρ (Point ι) ι (Except φ Str)) : Prop where
  /-- Its answers are those of its calls one after another, in the order in which they
  return, on the readings that it makes; the state they leave is the shared one whenever the
  lock is free. -/
  serial : ∃ es, Machine.run (Memory.call (monotonicUlid resolve)) ⟨.new, rng, readings acts⟩
      ((answers acts).map fun r ↦ (r.1, r.2.1)) = some es ∧
    es.map Event.output = (answers acts).map (fun r ↦ r.2.2) ∧
    (c.holder = none →
      Machine.final ⟨.new, rng, readings acts⟩ es = ⟨c.shared, c.loc, []⟩)
  /-- No call of a thread is lost, repeated or served out of order. -/
  order : ∀ t, served t acts ++ (c.phase t).input ++ c.todo t = todo t
  /-- The threads do not block one another forever. -/
  progress : (∃ t, c.phase t ≠ .idle ∨ c.todo t ≠ []) → ∃ a c', Step (routine resolve) c a c'

theorem linearized (h : Exec (routine resolve) (start todo rng) acts c) :
    Linearized resolve todo rng acts c where
  serial := exists_run (finishes resolve) (fun _ _ _ _ ↦ rfl) start_quiet h
  order := program_order start_quiet h
  progress := exists_step start_quiet h

/-- On a steady clock the ULIDs of an execution are strictly increasing. -/
theorem increasing (hres : ∀ i t, resolve i = .ok (some t) → t ≤ timeMax)
    (h : Exec (routine resolve) (start todo rng) acts c)
    (hclock : ∀ t ∈ readings acts, t ≤ timeMax) (hforward : (readings acts).Pairwise (· ≤ ·)) :
    StrictlyIncreasing (ids acts) := by
  obtain ⟨es, hrun, hout, -⟩ := (linearized h).serial
  rw [ids, ← hout]
  exact increasing_of_run ⟨MonotonicState.inDomain_new, hclock, hforward⟩ hres hrun

end Executions

end Shared

namespace Napi

variable {τ ρ : Type} [DecidableEq τ] [Rng ρ] {todo : τ → List (Option JsNumber)} {rng : τ → ρ}
  {acts : List (Action τ (Option JsNumber) U64 (Except NapiError Str))}
  {c : Config τ MonotonicState ρ (Shared.Point (Option JsNumber)) (Option JsNumber)
    (Except NapiError Str)}

theorem explicitTs_le {timestampMs : Option JsNumber} {t : U64}
    (h : explicitTs timestampMs = .ok (some t)) : t ≤ timeMax := by
  cases timestampMs with
  | none => cases h
  | some v =>
      rw [explicitTs] at h
      split at h
      · cases h
      · rename_i hok
        cases h
        cases v with
        | nan => exact absurd rfl hok
        | infinity negative => exact absurd rfl hok
        | finite q =>
            simp only [JsNumber.isFinite, JsNumber.hasFraction, inTimeDomain, Bool.not_true,
              Bool.false_or, Bool.or_eq_true, decide_eq_true_eq, Bool.not_eq_true', not_or,
              not_not, Bool.and_eq_false_iff, decide_eq_false_iff_not, not_le, not_lt] at hok
            obtain ⟨hint, hneg, hle⟩ := hok
            obtain ⟨n, rfl, hcast⟩ := JsNumber.exists_nat_of_integral hneg hint
            have hn : n ≤ timeMax.toNat := by exact_mod_cast hle
            rw [BitVec.le_def, hcast]
            exact le_trans (min_le_left _ _) hn

/-- **`monotonicUlid` is safe for threads.**  Whatever way the statements of its calls
interleave, each thread drawing from a generator of its own, the calls are answered as if
they ran one after another. -/
theorem monotonicUlid_linearized
    (h : Exec (Shared.routine explicitTs) (Shared.start todo rng) acts c) :
    Shared.Linearized explicitTs todo rng acts c := Shared.linearized h

/-- **One stream for the process.**  On a clock that is not set back, the ULIDs that all
threads get are strictly increasing in the order in which they are returned; no two threads
get the same one. -/
theorem monotonicUlid_increasing
    (h : Exec (Shared.routine explicitTs) (Shared.start todo rng) acts c)
    (hclock : ∀ t ∈ readings acts, t ≤ timeMax) (hforward : (readings acts).Pairwise (· ≤ ·)) :
    StrictlyIncreasing (Shared.ids acts) :=
  Shared.increasing (fun _ _ ↦ explicitTs_le) h hclock hforward

/-- Two threads: one asks for no time and reads 5 from the clock, the other asks for 5. -/
def twoThreads : Config Bool MonotonicState Tape (Shared.Point (Option JsNumber))
    (Option JsNumber) (Except NapiError Str) :=
  Shared.start (fun t ↦ if t then [none] else [some (.finite 5)]) fun _ ↦ Tape.const 0

/-- Whose turn it is. -/
def turns : List (Bool × U64) := List.replicate 10 (true, 5) ++ List.replicate 6 (false, 5)

theorem exec_turns : ∃ acts c, Exec (Shared.routine explicitTs) twoThreads acts c ∧
    readings acts = [5] ∧ (Shared.ids acts).length = 2 :=
  ⟨_, _, exec_of_schedule (l := turns) rfl, rfl, rfl⟩

theorem monotonicUlid_linearized_turns :
    ∃ acts c, (Shared.ids acts).length = 2 ∧
      Shared.Linearized explicitTs twoThreads.todo twoThreads.loc acts c := by
  obtain ⟨acts, c, h, -, htwo⟩ := exec_turns
  exact ⟨acts, c, htwo, monotonicUlid_linearized h⟩

theorem monotonicUlid_increasing_turns :
    ∃ acts c, Exec (Shared.routine explicitTs) twoThreads acts c ∧ (Shared.ids acts).length = 2 ∧
      StrictlyIncreasing (Shared.ids acts) := by
  obtain ⟨acts, c, h, hread, htwo⟩ := exec_turns
  refine ⟨acts, c, h, htwo, monotonicUlid_increasing h ?_ ?_⟩
  · simp [hread, le_timeMax_iff]
  · simp [hread]

end Napi

end Rivid
