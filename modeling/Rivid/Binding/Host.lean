import Rivid.Binding.Wasm
import Rivid.Core.Fill

/-!
# The WebAssembly module and the host clock

`SystemTime` cannot be read in the module, so each entry point takes its time from a reading of
`Date.now()`: some hand it to the engine as an argument, the others set the engine's clock
override to it and let the engine ask its clock.  The override is process-wide and stays when the
call is over.

A `monotonicUlid` whose stream is exhausted is the one call that asks the engine's clock without
having set it: it finds the reading of the last call that did, or `SystemTime`.
-/

namespace Rivid

namespace Wasm

/-- `CLOCK_OVERRIDE_MS` and `CLOCK_OVERRIDE_ACTIVE`. -/
structure ClockOverride where
  ms : U64
  active : Bool
deriving DecidableEq, Repr

/-- Why a call does not return. -/
inductive Halt where
  /-- `SystemTime` was read, which panics on this target. -/
  | systemTime
  /-- A spin on a clock that nobody moves. -/
  | spin
  /-- An index out of bounds, or `unreachable!`. -/
  | panic
deriving DecidableEq, Repr

namespace ClockOverride

/-- The engine's `now_ms`. -/
def nowMs (o : ClockOverride) : Except Halt U64 :=
  if o.active then .ok o.ms else .error .systemTime

/-- The override does not change while a call waits, so the loop ends in its first round or
never. -/
def spinUntilNextMs (o : ClockOverride) (current : U64) : Except Halt Unit := do
  let t ← o.nowMs
  if t ≤ current then .error .spin else .ok ()

/-- The readings of an exhausted step, all the same: the one that ends the spin, and the one
that the state is reseeded at. -/
def readings (o : ClockOverride) : Clock := if o.active then [o.ms, o.ms] else []

end ClockOverride

/-- The module: the statics of the engine and of the binding, with the `MonotonicGenerator`
objects and the randomness. -/
structure Instance (ρ : Type) where
  override : ClockOverride
  states : StreamId → MonotonicState
  rng : ρ
  pool : EntropyPool
  fills : Fills

/-- A module that has just been loaded. -/
def Instance.new {ρ : Type} (rng : ρ) (fills : Fills) : Instance ρ :=
  ⟨⟨0, false⟩, fun _ ↦ .new, rng, .new, fills⟩

/-- The values that go back to JavaScript: a `string`, a `string[]` or a `Uint8Array`. -/
inductive Returned where
  | string (s : Str)
  | strings (l : List Str)
  | bytes (l : List U8)
deriving DecidableEq, Repr

/-- What a call that returns leaves: a value or an error that is thrown, and the module. -/
abbrev Answer (ρ : Type) := Except JsError Returned × Instance ρ

def toJs (e : Error) : JsError := ⟨e.display⟩

/-- `resolve_ts`, when `Date.now()` shows `date`. -/
def seedTs (seedTime : Option JsNumber) (date : JsNumber) : Except JsError U64 :=
  match seedTime with
  | none => .ok (nowMs date)
  | some t =>
      if !t.isFinite || t.isNegative || t.hasFraction then
        .error ⟨"seedTime must be a finite, non-negative integer number of milliseconds"⟩
      else .ok t.asU64

/-- Matches the NAPI layer's ceiling, but lets no empty batch through. -/
def maxBatch (count : ℕ) : Except JsError Unit :=
  if count = 0 ∨ count > 100000000 then .error ⟨"count must be between 1 and 100000000"⟩
  else .ok ()

namespace Instance

variable {ρ : Type} [Rng ρ]

/-- Feeds the host clock to the engine. -/
def syncClock (w : Instance ρ) (date : JsNumber) : Instance ρ :=
  { w with override := ⟨nowMs date, true⟩ }

/-- `rng::random_80`. -/
def random80 (w : Instance ρ) : Except Halt (U128 × Instance ρ) :=
  match Rivid.random80 w.pool w.fills with
  | none => .error .panic
  | some (r, pool, fills) => .ok (r, { w with pool, fills })

/-- `MonotonicState::advance`, on the engine's clock in the module. -/
def advance (o : ClockOverride) (st : MonotonicState) (now : U64) (rng : ρ) :
    Except Halt (MonotonicState × ρ) :=
  if now > st.lastMs then
    let drawn := draw80 rng
    .ok (⟨now, drawn.1⟩, drawn.2)
  else if st.lastRand < Id128.randomMask then .ok (⟨st.lastMs, st.lastRand + 1⟩, rng)
  else do
    o.spinUntilNextMs st.lastMs
    let ms ← o.nowMs
    let drawn := draw80 rng
    return (⟨ms, drawn.1⟩, drawn.2)

def ulid (w : Instance ρ) (date : JsNumber) (seedTime : Option JsNumber) : Except Halt (Answer ρ) :=
  match seedTs seedTime date with
  | .error e => .ok (.error e, w)
  | .ok ts =>
      if ts > timeMax then .ok (.error (toJs (.timestampOutOfRange ts)), w)
      else do
        let (r, w) ← w.random80
        return (.ok (.string (Crockford.encodeString (Id128.fromParts ts r).asU128)), w)

def ulidBytes (w : Instance ρ) (date : JsNumber) : Except Halt (Answer ρ) := do
  let w := w.syncClock date
  let now ← w.override.nowMs
  let (r, w) ← w.random80
  return (.ok (.bytes (Convert.toBeBytes (Id128.fromParts now r).asU128).val), w)

/-- The body that `monotonic_ulid` and `MonotonicGenerator::next` share. -/
def monotonic (w : Instance ρ) (date : JsNumber) (stream : StreamId)
    (seedTime : Option JsNumber) : Except Halt (Answer ρ) :=
  match seedTs seedTime date with
  | .error e => .ok (.error e, w)
  | .ok ts => do
      let (state, rng) ← advance w.override (w.states stream) ts w.rng
      return (.ok (.string state.text),
        { w with states := Function.update w.states stream state, rng })

def generateMany (w : Instance ρ) (date : JsNumber) (count : ℕ) : Except Halt (Answer ρ) :=
  match maxBatch count with
  | .error e => .ok (.error e, w)
  | .ok () => do
      let w := w.syncClock date
      let ts ← w.override.nowMs
      let out := generateUlidStrings count ts w.rng
      return (.ok (.strings out.1), { w with rng := out.2 })

def generateBytes (w : Instance ρ) (date : JsNumber) (count : ℕ) : Except Halt (Answer ρ) :=
  match maxBatch count with
  | .error e => .ok (.error e, w)
  | .ok () => do
      let w := w.syncClock date
      let ts ← w.override.nowMs
      let out := fillUlidWithTs (List.replicate (count * 16) 0) ts w.rng
      match out.result with
      | .error _ => .error .panic
      | .ok _ => return (.ok (.bytes out.buf), { w with rng := out.rng })

def encodeTime (w : Instance ρ) (date : JsNumber) (seedTime : Option JsNumber) :
    Except Halt (Answer ρ) :=
  match seedTs seedTime date with
  | .error e => .ok (.error e, w)
  | .ok ts =>
      match Crockford.encodeTimeStr ts with
      | .error e => .ok (.error (toJs e), w)
      | .ok s => .ok (.ok (.string s), w)

def uuidv7 (w : Instance ρ) (date : JsNumber) : Except Halt (Answer ρ) := do
  let w := w.syncClock date
  let ts ← w.override.nowMs
  let block := Uuidv7.generateBlock w.rng ts
  return (.ok (.string (Uuidv7.formatHyphenated block.1)), { w with rng := block.2 })

def uuidv7Bytes (w : Instance ρ) (date : JsNumber) : Except Halt (Answer ρ) := do
  let w := w.syncClock date
  let ts ← w.override.nowMs
  let block := Uuidv7.generateBlock w.rng ts
  return (.ok (.bytes block.1.val), { w with rng := block.2 })

def generateUuidV7Many (w : Instance ρ) (date : JsNumber) (count : ℕ) : Except Halt (Answer ρ) :=
  match maxBatch count with
  | .error e => .ok (.error e, w)
  | .ok () => do
      let w := w.syncClock date
      let ts ← w.override.nowMs
      let out := Uuidv7.generateStrings count ts w.rng
      return (.ok (.strings out.1), { w with rng := out.2 })

end Instance

/-- The entry points that make identifiers or times. -/
inductive EntryPoint where
  | ulid (seedTime : Option JsNumber)
  | ulidBytes
  | monotonic (stream : StreamId) (seedTime : Option JsNumber)
  | generateMany (count : ℕ)
  | generateBytes (count : ℕ)
  | encodeTime (seedTime : Option JsNumber)
  | uuidv7
  | uuidv7Bytes
  | generateUuidV7Many (count : ℕ)

/-- A call of an entry point, with what `Date.now()` shows when it is made. -/
structure Request where
  entry : EntryPoint
  date : JsNumber

namespace Instance

variable {ρ : Type} [Rng ρ]

def call (w : Instance ρ) (c : Request) : Except Halt (Answer ρ) :=
  match c.entry with
  | .ulid seedTime => w.ulid c.date seedTime
  | .ulidBytes => w.ulidBytes c.date
  | .monotonic stream seedTime => w.monotonic c.date stream seedTime
  | .generateMany count => w.generateMany c.date count
  | .generateBytes count => w.generateBytes c.date count
  | .encodeTime seedTime => w.encodeTime c.date seedTime
  | .uuidv7 => w.uuidv7 c.date
  | .uuidv7Bytes => w.uuidv7Bytes c.date
  | .generateUuidV7Many count => w.generateUuidV7Many c.date count

/-- A call that returns. -/
def step (w : Instance ρ) (c : Request) : Option (Answer ρ) :=
  (w.call c).toOption

end Instance

/-! ## The engine's clock -/

section Advance

variable {ρ : Type} [Rng ρ] {o : ClockOverride} {st st' : MonotonicState} {now : U64}
  {rng rng' : ρ}

/-- A step on the override is the engine's step on its readings. -/
theorem advance_eq (o : ClockOverride) (st : MonotonicState) (now : U64) (rng : ρ) :
    Instance.advance o st now rng =
      match st.advance now rng o.readings with
      | some r => .ok (r.1, r.2.1)
      | none => .error (if o.active then .spin else .systemTime) := by
  obtain ⟨ms, active⟩ := o
  rw [Instance.advance, MonotonicState.advance]
  by_cases hnew : now > st.lastMs
  · rw [if_pos hnew, if_pos hnew]
  · rw [if_neg hnew, if_neg hnew]
    by_cases hroom : st.lastRand < Id128.randomMask
    · rw [if_pos hroom, if_pos hroom]
    · rw [if_neg hroom, if_neg hroom]
      cases active with
      | false => rfl
      | true =>
          simp only [ClockOverride.spinUntilNextMs, ClockOverride.nowMs, ClockOverride.readings,
            if_true, ok_bind, Rivid.spinUntilNextMs]
          by_cases hle : ms ≤ st.lastMs
          · simp [hle]
          · simp [hle, Rivid.nowMs]

/-- What a step on the override can do to the state: it asks the override, twice, only if the
state is exhausted. -/
theorem advance_ok (h : Instance.advance o st now rng = .ok (st', rng')) :
    ∃ clock, st.Emits now o.readings st' clock := by
  rw [advance_eq] at h
  split at h
  · rename_i r hadv
    cases h
    exact ⟨r.2.2, MonotonicState.advance_emits hadv⟩
  · cases h

/-- When a step does not return. -/
theorem advance_error_iff {x : Halt} : Instance.advance o st now rng = .error x ↔
    st.Exhausted now ∧ (o.active = false ∧ x = .systemTime ∨
      o.active = true ∧ o.ms ≤ st.lastMs ∧ x = .spin) := by
  obtain ⟨ms, active⟩ := o
  rw [Instance.advance, MonotonicState.Exhausted]
  by_cases hnew : now > st.lastMs
  · rw [if_pos hnew]
    exact iff_of_false nofun fun h ↦ absurd hnew (BitVec.not_lt.mpr h.1.1)
  · rw [if_neg hnew]
    by_cases hroom : st.lastRand < Id128.randomMask
    · rw [if_pos hroom]
      exact iff_of_false nofun fun h ↦ absurd hroom (BitVec.not_lt.mpr h.1.2)
    · rw [if_neg hroom]
      have hex : now ≤ st.lastMs ∧ Id128.randomMask ≤ st.lastRand :=
        ⟨BitVec.not_lt.mp hnew, BitVec.not_lt.mp hroom⟩
      cases active with
      | false =>
          simp [ClockOverride.spinUntilNextMs, ClockOverride.nowMs, hex, eq_comm]
      | true =>
          by_cases hle : ms ≤ st.lastMs
          · simp [ClockOverride.spinUntilNextMs, ClockOverride.nowMs, hex, hle, eq_comm]
          · simp [ClockOverride.spinUntilNextMs, ClockOverride.nowMs, hle, pure, Except.pure]

/-- The last millisecond that a step leaves. -/
theorem lastMs_of_advance (h : Instance.advance o st now rng = .ok (st', rng')) :
    st'.lastMs = if st.Exhausted now then o.ms else if st.lastMs < now then now else st.lastMs := by
  obtain ⟨clock, hemits⟩ := advance_ok h
  generalize hreads : o.readings = clock₀ at hemits
  cases hemits with
  | newMs r hnew hr =>
      rw [if_neg fun hex ↦ absurd hnew (BitVec.not_lt.mpr hex.1), if_pos hnew]
  | increment hold hroom =>
      rw [if_neg fun hex ↦ absurd hroom (BitVec.not_lt.mpr hex.2), if_neg (BitVec.not_lt.mpr hold)]
  | reseed ms r clock' hex hspin hr =>
      rw [if_pos hex]
      rw [← hreads, ClockOverride.readings] at hspin
      split at hspin
      · rw [Rivid.spinUntilNextMs, Rivid.spinUntilNextMs] at hspin
        split at hspin
        · cases hspin
        · cases hspin
          rfl
      · cases hspin

end Advance

end Wasm

end Rivid
