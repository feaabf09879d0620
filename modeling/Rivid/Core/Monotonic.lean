import Rivid.Core.Id128
import Rivid.Lib.Machine

/-!
# Monotonic ULIDs

Within a millisecond, or when the clock appears to move backwards, the random
part of the previous ULID is incremented instead of being replaced.  When it is
at its maximum the generator spins until the wall clock advances and reseeds,
at the time of another reading of the clock.

Random words come from any `Rng`; clock readings are a list, consumed in the
order in which they are made, and a step that is still spinning when they run
out does not complete.  `Emits` is what a step can do to the state, whatever
the random words are.
-/

namespace Rivid

open Id128

/-- A source of random words. -/
class Rng (ρ : Type) where
  nextU64 : ρ → U64 × ρ

/-- A recorded sequence of words is a source that replays it. -/
instance : Rng (ℕ → U64) where
  nextU64 words := (words 0, fun n ↦ words (n + 1))

/-- Readings of the wall clock, in the order in which they will be made. -/
abbrev Clock := List U64

/-- Current wall-clock time in milliseconds: the next reading. -/
def nowMs : Clock → Option (U64 × Clock)
  | [] => none
  | t :: clock => some (t, clock)

/-- Reads the clock until it is past `current`. -/
def spinUntilNextMs (current : U64) : Clock → Option Clock
  | [] => none
  | t :: clock => if t ≤ current then spinUntilNextMs current clock else some clock

/-- The low 80 bits of two random words. -/
def draw80 {ρ : Type} [Rng ρ] (rng : ρ) : U128 × ρ :=
  let hi := Rng.nextU64 rng
  let lo := Rng.nextU64 hi.2
  ((hi.1.setWidth 128 <<< 64 ||| lo.1.setWidth 128) &&& randomMask, lo.2)

/-- State machine shared by `monotonicUlid()` and generator instances. -/
structure MonotonicState where
  lastMs : U64
  lastRand : U128
deriving DecidableEq, Repr

namespace MonotonicState

variable {ρ δ : Type} [Rng ρ] [Rng δ]

/-- Fresh state. -/
def new : MonotonicState := ⟨0, 0⟩

/-- One step of the state machine.  The pair that `advance` returns is the two
fields of the new state. -/
def advance (st : MonotonicState) (now : U64) (rng : ρ) (clock : Clock) :
    Option (MonotonicState × ρ × Clock) :=
  if now > st.lastMs then
    -- New millisecond: fresh randomness.
    let drawn := draw80 rng
    some (⟨now, drawn.1⟩, drawn.2, clock)
  else if st.lastRand < randomMask then
    -- Same millisecond, or the clock went backwards: increment.
    some (⟨st.lastMs, st.lastRand + 1⟩, rng, clock)
  else do
    -- Exhausted: wait for the clock to move on, then reseed.
    let clock ← spinUntilNextMs st.lastMs clock
    let (ms, clock) ← nowMs clock
    let drawn := draw80 rng
    return (⟨ms, drawn.1⟩, drawn.2, clock)

def nextWith (st : MonotonicState) (now : U64) (rng : ρ) (clock : Clock) :
    Option (Str × MonotonicState × ρ × Clock) := do
  let (st, rng, clock) ← st.advance now rng clock
  return (Crockford.encodeString (fromParts st.lastMs st.lastRand).asU128, st, rng, clock)

/-- The next monotonic ULID using secure randomness. -/
def nextSecure (st : MonotonicState) (rng : ρ) (clock : Clock) :
    Option (Str × MonotonicState × ρ × Clock) := do
  let (now, clock) ← nowMs clock
  st.nextWith now rng clock

/-- The next monotonic ULID using a deterministic RNG. -/
def nextDeterministic (st : MonotonicState) (rng : δ) (clock : Clock) :
    Option (Str × MonotonicState × δ × Clock) := do
  let (now, clock) ← nowMs clock
  st.nextWith now rng clock

/-- Like `nextSecure` but stamped with an explicit timestamp. -/
def nextSecureAt (st : MonotonicState) (now : U64) (rng : ρ) (clock : Clock) :
    Option (Str × MonotonicState × ρ × Clock) := st.nextWith now rng clock

/-- Deterministic variant of `nextSecureAt`. -/
def nextDeterministicAt (st : MonotonicState) (now : U64) (rng : δ) (clock : Clock) :
    Option (Str × MonotonicState × δ × Clock) := st.nextWith now rng clock

/-! ## What a step can do -/

/-- The random space of the last millisecond is used up. -/
def Exhausted (st : MonotonicState) (now : U64) : Prop :=
  now ≤ st.lastMs ∧ randomMask ≤ st.lastRand

instance (st : MonotonicState) (now : U64) : Decidable (st.Exhausted now) :=
  inferInstanceAs (Decidable (_ ∧ _))

/-- The steps of the state machine over all sources of randomness. -/
inductive Emits (st : MonotonicState) (now : U64) (clock : Clock) :
    MonotonicState → Clock → Prop
  | newMs (r : U128) (hnew : st.lastMs < now) (hr : r ≤ randomMask) :
      Emits st now clock ⟨now, r⟩ clock
  | increment (hold : now ≤ st.lastMs) (hroom : st.lastRand < randomMask) :
      Emits st now clock ⟨st.lastMs, st.lastRand + 1⟩ clock
  | reseed (ms : U64) (r : U128) (clock' : Clock) (hex : st.Exhausted now)
      (hspin : spinUntilNextMs st.lastMs clock = some (ms :: clock')) (hr : r ≤ randomMask) :
      Emits st now clock ⟨ms, r⟩ clock'

theorem draw80_le (rng : ρ) : (draw80 rng).1 ≤ randomMask := by
  rw [le_randomMask_iff, draw80, toNat_and_mask (k := 80) rfl]
  exact Nat.mod_lt _ (by decide)

theorem nowMs_eq_some_iff {clock clock' : Clock} {t : U64} :
    nowMs clock = some (t, clock') ↔ clock = t :: clock' := by
  cases clock with
  | nil => simp [nowMs]
  | cons a clock => simp [nowMs]

variable {st st' : MonotonicState} {now : U64} {rng rng' : ρ} {clock clock' : Clock} {id : Str}

theorem advance_emits (h : st.advance now rng clock = some (st', rng', clock')) :
    Emits st now clock st' clock' := by
  rw [advance] at h
  split at h
  · rename_i hnew
    cases h
    exact .newMs _ hnew (draw80_le rng)
  · rename_i hold
    have hold' : now ≤ st.lastMs := BitVec.not_lt.mp hold
    split at h
    · rename_i hroom
      cases h
      exact .increment hold' hroom
    · rename_i hfull
      simp only [Option.bind_eq_bind, Option.bind_eq_some_iff, Option.pure_def, Option.some.injEq,
        Prod.exists, nowMs_eq_some_iff] at h
      obtain ⟨c, hspin, ms, c', rfl, hres⟩ := h
      cases hres
      exact .reseed ms _ _ ⟨hold', BitVec.not_lt.mp hfull⟩ hspin (draw80_le rng)

/-- A call emits the text of the state it leaves. -/
theorem nextWith_emits (h : st.nextWith now rng clock = some (id, st', rng', clock')) :
    Emits st now clock st' clock' ∧
      id = Crockford.encodeString (fromParts st'.lastMs st'.lastRand).asU128 := by
  simp only [nextWith, Option.bind_eq_bind, Option.bind_eq_some_iff, Option.pure_def,
    Option.some.injEq, Prod.exists, Prod.mk.injEq] at h
  obtain ⟨st₁, rng₁, clock₁, hadv, hid, rfl, rfl, rfl⟩ := h
  exact ⟨advance_emits hadv, hid.symm⟩

/-- A call that is not exhausted completes. -/
theorem nextWith_isSome (rng : ρ) (clock : Clock) (hex : ¬ st.Exhausted now) :
    (st.nextWith now rng clock).isSome := by
  rw [nextWith, advance]
  split
  · rfl
  · rename_i hold
    split
    · rfl
    · rename_i hfull
      exact absurd ⟨BitVec.not_lt.mp hold, BitVec.not_lt.mp hfull⟩ hex

/-! ## The invariant and the measure -/

/-- The parts of the state are in their 48-bit and 80-bit domains. -/
structure InDomain (st : MonotonicState) : Prop where
  ms : st.lastMs ≤ timeMax
  rand : st.lastRand ≤ randomMask

/-- The 128-bit number of a state: the value of the ULID it was left with. -/
def num (st : MonotonicState) : ℕ := st.lastMs.toNat * 2 ^ 80 + st.lastRand.toNat

theorem inDomain_new : new.InDomain := ⟨by decide, by decide⟩

theorem mem_of_spin {current : U64} {clock' : Clock} {t : U64}
    (h : spinUntilNextMs current clock = some clock') (ht : t ∈ clock') : t ∈ clock := by
  induction clock with
  | nil => cases h
  | cons a clock ih =>
      rw [spinUntilNextMs] at h
      split at h
      · exact List.mem_cons_of_mem _ (ih h)
      · cases h
        exact List.mem_cons_of_mem _ ht

theorem toNat_add_one_of_lt {r : U128} (h : r < randomMask) : (r + 1).toNat = r.toNat + 1 := by
  have h' := BitVec.lt_def.mp h
  rw [toNat_randomMask] at h'
  rw [BitVec.toNat_add, show (1 : U128).toNat = 1 from rfl]
  omega

/-- Steps made in the domain stay in it. -/
theorem Emits.inDomain (h : Emits st now clock st' clock') (hst : st.InDomain)
    (hnow : now ≤ timeMax) (hclock : ∀ t ∈ clock, t ≤ timeMax) :
    st'.InDomain ∧ ∀ t ∈ clock', t ≤ timeMax := by
  cases h with
  | newMs r hnew hr => exact ⟨⟨hnow, hr⟩, hclock⟩
  | increment hold hroom =>
      refine ⟨⟨hst.ms, ?_⟩, hclock⟩
      have h' := BitVec.lt_def.mp hroom
      rw [BitVec.le_def, toNat_add_one_of_lt hroom]
      exact h'
  | reseed ms r _ hex hspin hr =>
      have hmem : ∀ t ∈ ms :: clock', t ≤ timeMax := fun t ht ↦ hclock t (mem_of_spin hspin ht)
      exact ⟨⟨hmem ms (by simp), hr⟩, fun t ht ↦ hmem t (by simp [ht])⟩

/-- The reading that follows the one on which the spin ends. -/
def readingAfterSpin (current : U64) (clock : Clock) : Option U64 :=
  ((clock.dropWhile fun t ↦ decide (t ≤ current)).drop 1).head?

theorem readingAfterSpin_of_spin {current : U64} {ms : U64}
    (h : spinUntilNextMs current clock = some (ms :: clock')) :
    readingAfterSpin current clock = some ms := by
  induction clock with
  | nil => cases h
  | cons a clock ih =>
      rw [spinUntilNextMs] at h
      split at h
      · rename_i hle
        rw [readingAfterSpin, List.dropWhile_cons_of_pos (by simpa using hle)]
        exact ih h
      · rename_i hlt
        cases h
        rw [readingAfterSpin, List.dropWhile_cons_of_neg (by simpa using hlt)]
        rfl

/-- If the step is an exhausted one, the clock is still past the last
millisecond when it is read again after the spin. -/
def ClockKeepsUp (st : MonotonicState) (now : U64) (clock : Clock) : Prop :=
  st.Exhausted now → ∀ t, readingAfterSpin st.lastMs clock = some t → st.lastMs < t

/-- A step makes the number larger exactly when the clock keeps up. -/
theorem Emits.num_lt_iff (h : Emits st now clock st' clock') (hst : st.InDomain) :
    st.num < st'.num ↔ st.ClockKeepsUp now clock := by
  have hrand := le_randomMask_iff.mp hst.rand
  cases h with
  | newMs r hnew hr =>
      have hlt := BitVec.lt_def.mp hnew
      constructor
      · rintro - ⟨hold, -⟩
        exact absurd hnew (BitVec.not_lt.mpr hold)
      · intro _
        simp only [num]
        omega
  | increment hold hroom =>
      constructor
      · rintro - ⟨-, hfull⟩
        exact absurd hroom (BitVec.not_lt.mpr hfull)
      · intro _
        simp only [num, toNat_add_one_of_lt hroom]
        omega
  | reseed ms r _ hex hspin hr =>
      have hafter := readingAfterSpin_of_spin hspin
      have hfull := BitVec.le_def.mp hex.2
      have hr' := le_randomMask_iff.mp hr
      rw [toNat_randomMask] at hfull
      have hiff : st.num < num ⟨ms, r⟩ ↔ st.lastMs < ms := by
        simp only [num, BitVec.lt_def]
        omega
      rw [hiff]
      constructor
      · intro hlt _ t ht
        rw [hafter] at ht
        cases ht
        exact hlt
      · intro hkeeps
        exact hkeeps hex ms hafter

/-- Outside exhaustion the state's time does not fall behind the call's. -/
theorem Emits.now_le (h : Emits st now clock st' clock') (hex : ¬ st.Exhausted now) :
    now ≤ st'.lastMs := by
  cases h with
  | newMs r hnew hr => exact BitVec.le_refl _
  | increment hold hroom => exact hold
  | reseed ms r _ hex' hspin hr => exact absurd hex' hex

/-! ## The emitted text -/

/-- The text a state was left with. -/
def text (st : MonotonicState) : Str :=
  Crockford.encodeString (fromParts st.lastMs st.lastRand).asU128

/-- The text of a state denotes its number. -/
theorem decodeChars_text (hst : st.InDomain) :
    ∃ v, Crockford.decodeChars st.text = .ok v ∧ v.toNat = st.num :=
  ⟨_, Crockford.decodeChars_encodeString _, toNat_fromParts_of_le hst.ms hst.rand⟩

/-- The time in the text of a state is its last millisecond. -/
theorem decodeTime_text (hst : st.InDomain) : Ulid.decodeTime st.text = .ok st.lastMs := by
  rw [text, Ulid.decodeTime_of_decodeChars (Crockford.decodeChars_encodeString _)]
  exact congrArg Except.ok (timestampMs_fromParts hst.ms hst.rand)

end MonotonicState

/-- The second ULID is larger than the first, as a string and as a number. -/
def Increases (s t : Str) : Prop :=
  s < t ∧ ∃ v w, Crockford.decodeChars s = .ok v ∧ Crockford.decodeChars t = .ok w ∧ v < w

/-- Every ULID is larger than all before it. -/
def StrictlyIncreasing (ids : List Str) : Prop := ids.Pairwise Increases

namespace MonotonicState

theorem increases_text_iff {a b : MonotonicState} (ha : a.InDomain) (hb : b.InDomain) :
    Increases a.text b.text ↔ a.num < b.num := by
  obtain ⟨v, hv, hvnum⟩ := decodeChars_text ha
  obtain ⟨w, hw, hwnum⟩ := decodeChars_text hb
  have hlt : v < w ↔ a.num < b.num := by rw [BitVec.lt_def, hvnum, hwnum]
  constructor
  · rintro ⟨-, v', w', hv', hw', h⟩
    rw [hv, Except.ok.injEq] at hv'
    rw [hw, Except.ok.injEq] at hw'
    rw [← hv', ← hw'] at h
    exact hlt.mp h
  · intro h
    refine ⟨?_, v, w, hv, hw, hlt.mpr h⟩
    rw [text, text, Crockford.encodeString_lt_iff, BitVec.lt_def,
      toNat_fromParts_of_le ha.ms ha.rand, toNat_fromParts_of_le hb.ms hb.rand]
    exact h

end MonotonicState

theorem MonotonicState.nextWith_of_advance {ρ : Type} [Rng ρ] {st st' : MonotonicState} {now : U64}
    {rng rng' : ρ} {clock clock' : Clock}
    (h : st.advance now rng clock = some (st', rng', clock')) :
    st.nextWith now rng clock = some (st'.text, st', rng', clock') := by
  rw [nextWith, h]
  rfl

/-! ## Runs -/

/-- The calls a client makes. -/
inductive Call where
  | nextSecure
  | nextDeterministic
  | nextSecureAt (nowMs : U64)
  | nextDeterministicAt (nowMs : U64)
deriving DecidableEq, Repr

/-- The state with everything a call reads: both sources of randomness and the clock. -/
structure World (ρ δ : Type) where
  state : MonotonicState
  secure : ρ
  det : δ
  clock : Clock

/-- The time a call is stamped with, and the readings left for its spin. -/
def Call.timestamp (c : Call) (clock : Clock) : Option (U64 × Clock) :=
  match c with
  | nextSecure | nextDeterministic => nowMs clock
  | nextSecureAt t | nextDeterministicAt t => some (t, clock)

/-- A pinned timestamp is in the 48-bit domain. -/
def Call.InDomain : Call → Prop
  | nextSecure | nextDeterministic => True
  | nextSecureAt t | nextDeterministicAt t => t ≤ timeMax

namespace World

variable {ρ δ : Type} [Rng ρ] [Rng δ]

def step (w : World ρ δ) (c : Call) : Option (Str × World ρ δ) :=
  match c with
  | .nextSecure => do
      let (id, state, secure, clock) ← w.state.nextSecure w.secure w.clock
      return (id, { w with state, secure, clock })
  | .nextDeterministic => do
      let (id, state, det, clock) ← w.state.nextDeterministic w.det w.clock
      return (id, { w with state, det, clock })
  | .nextSecureAt t => do
      let (id, state, secure, clock) ← w.state.nextSecureAt t w.secure w.clock
      return (id, { w with state, secure, clock })
  | .nextDeterministicAt t => do
      let (id, state, det, clock) ← w.state.nextDeterministicAt t w.det w.clock
      return (id, { w with state, det, clock })

/-- The clock keeps up with a call: see `MonotonicState.ClockKeepsUp`. -/
def ClockKeepsUp (w : World ρ δ) (c : Call) : Prop :=
  ∀ now clock, c.timestamp w.clock = some (now, clock) → w.state.ClockKeepsUp now clock

/-- State and clock are in their domains. -/
structure InDomain (w : World ρ δ) : Prop where
  state : w.state.InDomain
  clock : ∀ t ∈ w.clock, t ≤ timeMax

variable {w w' : World ρ δ} {c : Call} {id : Str}

/-- Every call is a step of the state machine at its timestamp. -/
theorem step_emits (h : w.step c = some (id, w')) :
    ∃ now clock, c.timestamp w.clock = some (now, clock) ∧
      w.state.Emits now clock w'.state w'.clock ∧ id = w'.state.text := by
  cases c with
  | nextSecure | nextDeterministic =>
      simp only [step, MonotonicState.nextSecure, MonotonicState.nextDeterministic,
        Option.bind_eq_bind, Option.bind_eq_some_iff, Option.pure_def, Option.some.injEq,
        Prod.exists, Prod.mk.injEq] at h
      obtain ⟨_, _, _, _, ⟨now, clock, hnow, hnext⟩, rfl, rfl⟩ := h
      exact ⟨now, clock, hnow, MonotonicState.nextWith_emits hnext⟩
  | nextSecureAt t | nextDeterministicAt t =>
      simp only [step, MonotonicState.nextSecureAt, MonotonicState.nextDeterministicAt,
        Option.bind_eq_bind, Option.bind_eq_some_iff, Option.pure_def, Option.some.injEq,
        Prod.exists, Prod.mk.injEq] at h
      obtain ⟨_, _, _, _, hnext, rfl, rfl⟩ := h
      exact ⟨t, w.clock, rfl, MonotonicState.nextWith_emits hnext⟩

omit [Rng ρ] [Rng δ] in
/-- The timestamp of a call in the domain is in the domain. -/
theorem timestamp_inDomain {now : U64} {clock : Clock} (hw : w.InDomain) (hc : c.InDomain)
    (h : c.timestamp w.clock = some (now, clock)) :
    now ≤ timeMax ∧ ∀ t ∈ clock, t ≤ timeMax := by
  have hclock := hw.clock
  cases c with
  | nextSecure | nextDeterministic =>
      rw [MonotonicState.nowMs_eq_some_iff.mp h] at hclock
      exact ⟨hclock now (by simp), fun t ht ↦ hclock t (by simp [ht])⟩
  | nextSecureAt t | nextDeterministicAt t =>
      cases h
      exact ⟨hc, hclock⟩

theorem step_inDomain (hw : w.InDomain) (hc : c.InDomain) (h : w.step c = some (id, w')) :
    w'.InDomain := by
  obtain ⟨now, clock, htime, hemits, -⟩ := step_emits h
  obtain ⟨hnow, hclock⟩ := timestamp_inDomain hw hc htime
  obtain ⟨hstate, hrest⟩ := hemits.inDomain hw.state hnow hclock
  exact ⟨hstate, hrest⟩

theorem step_num_lt_iff (hw : w.InDomain) (h : w.step c = some (id, w')) :
    w.state.num < w'.state.num ↔ w.ClockKeepsUp c := by
  obtain ⟨now, clock, htime, hemits, -⟩ := step_emits h
  rw [hemits.num_lt_iff hw.state]
  constructor
  · intro hkeeps now' clock' htime'
    rw [htime] at htime'
    cases htime'
    exact hkeeps
  · intro hkeeps
    exact hkeeps now clock htime

end World

/-- **Strict monotonicity.**  In every run from fresh state whose pinned
timestamps and clock readings are in the 48-bit domain, the ULIDs are strictly
increasing exactly when, at every exhausted step, the clock is still past the
last millisecond when it is read again after the spin. -/
theorem strictlyIncreasing_iff {ρ δ : Type} [Rng ρ] [Rng δ] {secure : ρ} {det : δ}
    {clock : Clock} {calls : List Call} {es : List (Event (World ρ δ) Call Str)}
    (hclock : ∀ t ∈ clock, t ≤ timeMax) (hcalls : ∀ c ∈ calls, c.InDomain)
    (hrun : Machine.run World.step ⟨MonotonicState.new, secure, det, clock⟩ calls = some es) :
    StrictlyIncreasing (es.map Event.output) ↔ ∀ e ∈ es, e.before.ClockKeepsUp e.input := by
  have hstart : World.InDomain ⟨MonotonicState.new, secure, det, clock⟩ :=
    ⟨MonotonicState.inDomain_new, hclock⟩
  have hinv := Machine.run_invariant (fun w c _ w' hw hc h ↦ World.step_inDomain hw hc h)
    hstart hcalls hrun
  have hafter : ∀ e ∈ es, e.after.state.InDomain := by
    intro e he
    obtain ⟨hw, hc, hstep⟩ := hinv e he
    exact (World.step_inDomain hw hc hstep).state
  have houtput : ∀ e ∈ es, e.output = e.after.state.text := by
    intro e he
    obtain ⟨_, _, -, -, hid⟩ := World.step_emits (hinv e he).2.2
    exact hid
  have hkeeps : (∀ e ∈ es, e.before.ClockKeepsUp e.input) ↔
      ∀ e ∈ es, e.before.state.num < e.after.state.num := by
    refine forall₂_congr fun e he ↦ ?_
    obtain ⟨hw, -, hstep⟩ := hinv e he
    exact (World.step_num_lt_iff hw hstep).symm
  have hpairs : StrictlyIncreasing (es.map Event.output) ↔
      (es.map fun e ↦ e.after.state.num).Pairwise (· < ·) := by
    rw [StrictlyIncreasing, List.pairwise_map, List.pairwise_map]
    refine List.Pairwise.iff_of_mem fun {e f} he hf ↦ ?_
    rw [houtput e he, houtput f hf]
    exact MonotonicState.increases_text_iff (hafter e he) (hafter f hf)
  have hgrows := Machine.pairwise_measure_iff (m := fun w ↦ w.state.num) hrun
  rw [hkeeps, hpairs, ← hgrows, List.pairwise_cons]
  refine ⟨fun h ↦ ⟨?_, h⟩, And.right⟩
  -- Fresh state is not exhausted, so the first call increases the number.
  cases es with
  | nil => simp
  | cons e es =>
      have hfirst : MonotonicState.num .new < e.after.state.num := by
        obtain ⟨hw, -, hstep⟩ := hinv e (by simp)
        have hnew := Machine.before_of_run_cons hrun
        have hlt : e.before.state.num < e.after.state.num := by
          rw [World.step_num_lt_iff hw hstep]
          rintro now clock' - ⟨-, hfull⟩
          rw [hnew] at hfull
          exact absurd hfull (show ¬ randomMask ≤ 0 by decide)
        rwa [hnew] at hlt
      have hrest := List.pairwise_cons.mp h
      intro x hx
      rcases List.mem_cons.mp hx with rfl | hx
      · exact hfirst
      · exact lt_trans hfirst (hrest.1 x hx)

/-- A source that returns only ones. -/
def allOnes : ℕ → U64 := fun _ ↦ BitVec.allOnes 64

/-- A world whose random words are all ones: every draw exhausts its millisecond. -/
def onesWorld (st : MonotonicState) (clock : Clock) : World (ℕ → U64) (ℕ → U64) :=
  ⟨st, allOnes, allOnes, clock⟩

theorem draw80_allOnes : draw80 allOnes = (randomMask, allOnes) := rfl

/-- A first call at a positive time, all random words ones. -/
theorem advance_allOnes {t : U64} (ht : 0 < t) (clock : Clock) :
    MonotonicState.advance .new t allOnes clock = some (⟨t, randomMask⟩, allOnes, clock) := by
  have hnew : t > MonotonicState.new.lastMs := ht
  rw [MonotonicState.advance, if_pos hnew, draw80_allOnes]

/-- Two calls pinned to one millisecond; the second spins past a reading of 6 and is
stamped with the next reading. -/
theorem run_exhausting (t : U64) :
    Machine.run World.step (onesWorld .new [6, t]) [.nextSecureAt 5, .nextSecureAt 5] =
      some [⟨onesWorld .new [6, t], .nextSecureAt 5, MonotonicState.text ⟨5, randomMask⟩,
          onesWorld ⟨5, randomMask⟩ [6, t]⟩,
        ⟨onesWorld ⟨5, randomMask⟩ [6, t], .nextSecureAt 5, MonotonicState.text ⟨t, randomMask⟩,
          onesWorld ⟨t, randomMask⟩ []⟩] := by
  have hfirst : MonotonicState.advance .new 5 allOnes [6, t] =
      some (⟨5, randomMask⟩, allOnes, [6, t]) := advance_allOnes (by decide) _
  have hspin : spinUntilNextMs 5 [6, t] = some [t] := by
    rw [spinUntilNextMs, if_neg (by decide)]
  have hsecond : MonotonicState.advance ⟨5, randomMask⟩ 5 allOnes [6, t] =
      some (⟨t, randomMask⟩, allOnes, []) := by
    rw [MonotonicState.advance, if_neg (by decide), if_neg (by decide), draw80_allOnes]
    simp only [hspin]
    rfl
  have hstep : ∀ {st st' : MonotonicState} {clock clock' : Clock},
      st.advance 5 allOnes clock = some (st', allOnes, clock') →
      (onesWorld st clock).step (.nextSecureAt 5) = some (st'.text, onesWorld st' clock') := by
    intro st st' clock clock' h
    simp only [World.step, MonotonicState.nextSecureAt, onesWorld,
      MonotonicState.nextWith_of_advance h, Option.bind_eq_bind, Option.bind_some, Option.pure_def]
  exact Machine.run_cons_eq_some_iff.mpr ⟨_, _, _, hstep hfirst,
    Machine.run_cons_eq_some_iff.mpr ⟨_, _, _, hstep hsecond, Machine.run_nil _, rfl⟩, rfl⟩

theorem strictlyIncreasing_at_exhaustion :
    ∃ es, Machine.run World.step (onesWorld .new [6, 8]) [.nextSecureAt 5, .nextSecureAt 5] =
        some es ∧
      (StrictlyIncreasing (es.map Event.output) ↔ ∀ e ∈ es, e.before.ClockKeepsUp e.input) := by
  have hclock : ∀ t ∈ ([6, 8] : Clock), t ≤ timeMax := by simp [le_timeMax_iff]
  refine ⟨_, run_exhausting 8, strictlyIncreasing_iff hclock ?_ (run_exhausting 8)⟩
  · intro c hc
    simp only [List.mem_cons, List.not_mem_nil, or_false, or_self] at hc
    rw [hc]
    exact (by decide : (5 : U64) ≤ timeMax)

/-- A clock that is set back between the spin and the reading after it: the
second ULID is smaller than the first. -/
theorem not_strictlyIncreasing_of_clock_back :
    ∃ es, Machine.run World.step (onesWorld .new [6, 3]) [.nextSecureAt 5, .nextSecureAt 5] =
        some es ∧
      ¬ StrictlyIncreasing (es.map Event.output) := by
  refine ⟨_, run_exhausting 3, ?_⟩
  intro h
  have hlt := (List.pairwise_cons.mp h).1 _ (List.mem_singleton_self _)
  have h5 : MonotonicState.InDomain ⟨5, randomMask⟩ := ⟨by decide, by decide⟩
  have h3 : MonotonicState.InDomain ⟨3, randomMask⟩ := ⟨by decide, by decide⟩
  exact absurd ((MonotonicState.increases_text_iff h5 h3).mp hlt) (by decide)

end Rivid
