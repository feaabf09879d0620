import Rivid.Binding.Napi
import Rivid.Binding.Js
import Rivid.Core.Batch
import Rivid.Core.FreshDraw

/-!
# The Node binding's generator objects

A `UlidGenerator` owns a monotonic state and, in deterministic mode, a seeded
source of randomness that both its monotonic and its other calls draw from.
`next` and `next_many` take two words for each ULID.  `monotonic` and
`monotonic_many` take two words when the clock has moved on and none when it has
not, so the branch a monotonic call takes decides which words all later calls get.

A call that is still waiting for the clock when its readings run out does not
complete.
-/

namespace Rivid.Napi

def maxBatch : ℤ := 100000000

def invalidCount (count : ℤ) : NapiError :=
  ⟨.invalidArg, "count must be between 0 and " ++ toString maxBatch ++ ", got " ++ toString count⟩

/-- Formats a range-check failure for a timestamp. -/
def tsOutOfRange (v : JsNumber) : NapiError := toNapi (.timestampOutOfRange v.asU64)

/-- `(0.0..=TIME_MAX as f64).contains(&v)`. -/
def inTimeDomain : JsNumber → Bool
  | .finite q => 0 ≤ q && q ≤ timeMax.toNat
  | _ => false

/-- Validates an explicitly provided timestamp. -/
def explicitTs (timestampMs : Option JsNumber) : Except NapiError (Option U64) :=
  match timestampMs with
  | none => .ok none
  | some v =>
      if !v.isFinite || v.hasFraction || !inTimeDomain v then .error (tsOutOfRange v)
      else .ok (some v.asU64)

/-- `ts.unwrap_or_else(now_ms)`. -/
def orNow (ts : Option U64) (clock : Clock) : Option (U64 × Clock) :=
  match ts with
  | some t => some (t, clock)
  | none => nowMs clock

structure UlidGenerator where
  mono : MonotonicState
  det : Option DeterministicRng

/-- What a call reads besides its generator: the thread's secure generator, its
entropy pool with the fills to come, and the clock. -/
structure Thread (ρ : Type) where
  secure : ρ
  pool : EntropyPool
  fills : Fills
  clock : Clock

namespace UlidGenerator

/-- The seed is an `i64` cast to `u64`, which keeps its bits. -/
def new (seed : Option U64) : UlidGenerator := ⟨.new, seed.map DeterministicRng.new⟩

/-- The string of a block. -/
def blockString (block : Bytes 16) : Str := Crockford.encodeString (fromBeBytes 128 block.val)

variable {ρ : Type} [Rng ρ]

/-- Next non-monotonic ULID. -/
def next (g : UlidGenerator) (th : Thread ρ) (timestampMs : Option JsNumber) :
    Option (Except NapiError Str × UlidGenerator × Thread ρ) :=
  match g.det, explicitTs timestampMs with
  | _, .error e => some (.error e, g, th)
  | some det, .ok ts => do
      let (t, clock) ← orNow ts th.clock
      let hi := det.drawU64
      let lo := hi.2.drawU64
      return (.ok (blockString (ulidBlock t hi.1 lo.1)), { g with det := some lo.2 },
        { th with clock })
  | none, .ok (some t) =>
      let block := ulidBlockSecure t th.secure
      some (.ok (blockString block.1), g, { th with secure := block.2 })
  | none, .ok none => do
      let (id, pool, fills, clock) ← Ulid.generate th.pool th.fills th.clock
      return (.ok id, g, { th with pool, fills, clock })

/-- Next monotonic ULID. -/
def monotonic (g : UlidGenerator) (th : Thread ρ) (timestampMs : Option JsNumber) :
    Option (Except NapiError Str × UlidGenerator × Thread ρ) :=
  match g.det, explicitTs timestampMs with
  | _, .error e => some (.error e, g, th)
  | some det, .ok (some ts) => do
      let (id, mono, det, clock) ← g.mono.nextDeterministicAt ts det th.clock
      return (.ok id, ⟨mono, some det⟩, { th with clock })
  | some det, .ok none => do
      let (id, mono, det, clock) ← g.mono.nextDeterministic det th.clock
      return (.ok id, ⟨mono, some det⟩, { th with clock })
  | none, .ok (some ts) => do
      let (id, mono, secure, clock) ← g.mono.nextSecureAt ts th.secure th.clock
      return (.ok id, { g with mono }, { th with secure, clock })
  | none, .ok none => do
      let (id, mono, secure, clock) ← g.mono.nextSecure th.secure th.clock
      return (.ok id, { g with mono }, { th with secure, clock })

/-- The loop of `next_many` in deterministic mode. -/
def nextLoop (ts : U64) (det : DeterministicRng) : ℕ → List Str × DeterministicRng
  | 0 => ([], det)
  | count + 1 =>
      let hi := det.drawU64
      let lo := hi.2.drawU64
      let rest := nextLoop ts lo.2 count
      (blockString (ulidBlock ts hi.1 lo.1) :: rest.1, rest.2)

/-- The loop of `next_many` otherwise. -/
def nextLoopSecure (ts : U64) (secure : ρ) : ℕ → List Str × ρ
  | 0 => ([], secure)
  | count + 1 =>
      let block := ulidBlockSecure ts secure
      let rest := nextLoopSecure ts block.2 count
      (blockString block.1 :: rest.1, rest.2)

/-- Generates `count` non-monotonic ULIDs that share one timestamp. -/
def nextMany (g : UlidGenerator) (th : Thread ρ) (count : ℤ) :
    Option (Except NapiError (List Str) × UlidGenerator × Thread ρ) :=
  if ¬ (0 ≤ count ∧ count ≤ maxBatch) then some (.error (invalidCount count), g, th)
  else do
    let (ts, clock) ← nowMs th.clock
    match g.det with
    | some det =>
        let strings := nextLoop ts det count.toNat
        return (.ok strings.1, { g with det := some strings.2 }, { th with clock })
    | none =>
        let strings := nextLoopSecure ts th.secure count.toNat
        return (.ok strings.1, g, { th with secure := strings.2, clock })

/-- The loop of `monotonic_many`: `count` calls of `next_deterministic` or of `next_secure`. -/
def monotonicLoop {δ : Type} [Rng δ] (mono : MonotonicState) (rng : δ) (clock : Clock) :
    ℕ → Option (List Str × MonotonicState × δ × Clock)
  | 0 => some ([], mono, rng, clock)
  | count + 1 => do
      let (id, mono, rng, clock) ← mono.nextDeterministic rng clock
      let (ids, mono, rng, clock) ← monotonicLoop mono rng clock count
      return (id :: ids, mono, rng, clock)

/-- Generates `count` monotonic ULIDs. -/
def monotonicMany (g : UlidGenerator) (th : Thread ρ) (count : ℤ) :
    Option (Except NapiError (List Str) × UlidGenerator × Thread ρ) :=
  if ¬ (0 ≤ count ∧ count ≤ maxBatch) then some (.error (invalidCount count), g, th)
  else
    match g.det with
    | some det => do
        let (ids, mono, det, clock) ← monotonicLoop g.mono det th.clock count.toNat
        return (.ok ids, ⟨mono, some det⟩, { th with clock })
    | none => do
        let (ids, mono, secure, clock) ← monotonicLoop g.mono th.secure th.clock count.toNat
        return (.ok ids, { g with mono }, { th with secure, clock })

end UlidGenerator

/-- The calls a client makes on a generator. -/
inductive GeneratorCall where
  | next (timestampMs : Option JsNumber)
  | monotonic (timestampMs : Option JsNumber)
  | nextMany (count : ℤ)
  | monotonicMany (count : ℤ)

/-- A generator with what it reads. -/
abbrev GeneratorWorld (ρ : Type) := UlidGenerator × Thread ρ

/-- One call; the IDs of a single call are a list of one. -/
def GeneratorCall.step {ρ : Type} [Rng ρ] (w : GeneratorWorld ρ) (c : GeneratorCall) :
    Option (Except NapiError (List Str) × GeneratorWorld ρ) :=
  match c with
  | next timestampMs => (w.1.next w.2 timestampMs).map fun r ↦ (r.1.map ([·]), r.2)
  | monotonic timestampMs => (w.1.monotonic w.2 timestampMs).map fun r ↦ (r.1.map ([·]), r.2)
  | nextMany count => w.1.nextMany w.2 count
  | monotonicMany count => w.1.monotonicMany w.2 count

/-! ## What the clock decides -/

/-- For each of `count` calls of `next_deterministic`, whether it gets a new millisecond. -/
def newMsLoop {δ : Type} [Rng δ] (mono : MonotonicState) (rng : δ) (clock : Clock) :
    ℕ → List Bool
  | 0 => []
  | count + 1 =>
      match nowMs clock with
      | none => []
      | some (now, rest) =>
          decide (mono.NewMs now) ::
            match mono.advance now rng rest with
            | none => []
            | some (mono, rng, clock) => newMsLoop mono rng clock count

/-- For each monotonic ULID of a call in deterministic mode, whether it gets a new millisecond
in the state it finds. -/
def GeneratorCall.newMs {ρ : Type} (w : GeneratorWorld ρ) (c : GeneratorCall) : List Bool :=
  match c, w.1.det with
  | monotonic timestampMs, some _ =>
      match explicitTs timestampMs with
      | .error _ => []
      | .ok ts => (orNow ts w.2.clock).toList.map fun r ↦ decide (w.1.mono.NewMs r.1)
  | monotonicMany count, some det =>
      if ¬ (0 ≤ count ∧ count ≤ maxBatch) then []
      else newMsLoop w.1.mono det w.2.clock count.toNat
  | _, _ => []

/-! ## Two clocks -/

/-- The random component of an ID. -/
def randomPart (id : Str) : Result U128 :=
  (Crockford.decodeChars id).map fun v ↦ (Id128.mk v).randomness

/-- The random components of what a call returns. -/
def randomParts (r : Except NapiError (List Str)) : Except NapiError (List (Result U128)) :=
  r.map (List.map randomPart)

theorem randomPart_encodeString (t : U64) (r : U128) :
    randomPart (Crockford.encodeString (Id128.fromParts t r).asU128) =
      .ok (r &&& Id128.randomMask) := by
  rw [randomPart, Crockford.decodeChars_encodeString]
  refine congrArg Except.ok (BitVec.eq_of_toNat_eq ?_)
  rw [Id128.toNat_randomness, Id128.toNat_fromParts, Id128.toNat_and_randomMask]
  omega

/-- The random component of a block's string is that of its two words. -/
theorem randomPart_blockString (t hi lo : U64) :
    randomPart (UlidGenerator.blockString (ulidBlock t hi lo)) =
      randomPart (UlidGenerator.blockString (ulidBlock 0 hi lo)) := by
  simp only [UlidGenerator.blockString, ulidBlock, Convert.fromBeBytes_toBeBytes,
    randomPart_encodeString]

section Agree

variable {δ : Type} [Rng δ] {mono₁ mono₂ mono₁' mono₂' : MonotonicState} {now₁ now₂ : U64}
  {rng rng₁ rng₂ : δ} {clock₁ clock₂ clock₁' clock₂' : Clock} {id₁ id₂ : Str}

/-- Two steps with the same random state and the same words, both with a new millisecond or
neither, leave the same random state and the same words. -/
theorem advance_agree (hrand : mono₁.lastRand = mono₂.lastRand)
    (hsame : mono₁.NewMs now₁ ↔ mono₂.NewMs now₂)
    (h₁ : mono₁.advance now₁ rng clock₁ = some (mono₁', rng₁, clock₁'))
    (h₂ : mono₂.advance now₂ rng clock₂ = some (mono₂', rng₂, clock₂')) :
    mono₁'.lastRand = mono₂'.lastRand ∧ rng₁ = rng₂ := by
  rcases MonotonicState.advance_draws_or_counts h₁ with ⟨hr₁, hw₁, hnew₁⟩ | ⟨hr₁, hw₁, hold₁⟩
  · rcases MonotonicState.advance_draws_or_counts h₂ with ⟨hr₂, hw₂, -⟩ | ⟨-, -, hold₂⟩
    · exact ⟨hr₁.trans hr₂.symm, hw₁.trans hw₂.symm⟩
    · exact absurd (hsame.mp hnew₁) hold₂
  · rcases MonotonicState.advance_draws_or_counts h₂ with ⟨-, -, hnew₂⟩ | ⟨hr₂, hw₂, -⟩
    · exact absurd (hsame.mpr hnew₂) hold₁
    · exact ⟨by rw [hr₁, hr₂, hrand], hw₁.trans hw₂.symm⟩

theorem nextWith_agree (hrand : mono₁.lastRand = mono₂.lastRand)
    (hsame : mono₁.NewMs now₁ ↔ mono₂.NewMs now₂)
    (h₁ : mono₁.nextWith now₁ rng clock₁ = some (id₁, mono₁', rng₁, clock₁'))
    (h₂ : mono₂.nextWith now₂ rng clock₂ = some (id₂, mono₂', rng₂, clock₂')) :
    randomPart id₁ = randomPart id₂ ∧ mono₁'.lastRand = mono₂'.lastRand ∧ rng₁ = rng₂ := by
  simp only [MonotonicState.nextWith, Option.bind_eq_bind, Option.bind_eq_some_iff,
    Option.pure_def, Option.some.injEq, Prod.exists, Prod.mk.injEq] at h₁ h₂
  obtain ⟨_, _, _, hadv₁, rfl, rfl, rfl, -⟩ := h₁
  obtain ⟨_, _, _, hadv₂, rfl, rfl, rfl, -⟩ := h₂
  obtain ⟨hrand', hrng⟩ := advance_agree hrand hsame hadv₁ hadv₂
  refine ⟨?_, hrand', hrng⟩
  rw [randomPart_encodeString, randomPart_encodeString, hrand']

theorem advance_of_nextWith {mono mono' : MonotonicState} {now : U64} {rng' : δ}
    {clock clock' : Clock} {id : Str}
    (h : mono.nextWith now rng clock = some (id, mono', rng', clock')) :
    mono.advance now rng clock = some (mono', rng', clock') := by
  simp only [MonotonicState.nextWith, Option.bind_eq_bind, Option.bind_eq_some_iff,
    Option.pure_def, Option.some.injEq, Prod.exists, Prod.mk.injEq] at h
  obtain ⟨_, _, _, hadv, -, rfl, rfl, rfl⟩ := h
  exact hadv

/-- A loop of at least one call is a call and the loop from there. -/
theorem monotonicLoop_succ {mono mono' : MonotonicState} {rng' : δ} {clock clock' : Clock}
    {ids : List Str} {count : ℕ}
    (h : UlidGenerator.monotonicLoop mono rng clock (count + 1) = some (ids, mono', rng', clock')) :
    ∃ now rest id mono'' rng'' clock'' ids', nowMs clock = some (now, rest) ∧
      mono.nextWith now rng rest = some (id, mono'', rng'', clock'') ∧
      UlidGenerator.monotonicLoop mono'' rng'' clock'' count = some (ids', mono', rng', clock') ∧
      ids = id :: ids' ∧
      newMsLoop mono rng clock (count + 1) =
        decide (mono.NewMs now) :: newMsLoop mono'' rng'' clock'' count := by
  simp only [UlidGenerator.monotonicLoop, MonotonicState.nextDeterministic, Option.bind_eq_bind,
    Option.bind_eq_some_iff, Option.pure_def, Option.some.injEq, Prod.exists, Prod.mk.injEq] at h
  obtain ⟨id, mono'', rng'', clock'', ⟨now, rest, hnow, hnext⟩, ids', _, _, _, hloop, hids, rfl,
    rfl, rfl⟩ := h
  refine ⟨now, rest, id, mono'', rng'', clock'', ids', hnow, hnext, hloop, hids.symm, ?_⟩
  simp only [newMsLoop, hnow, advance_of_nextWith hnext]

theorem monotonicLoop_agree {ids₁ ids₂ : List Str} {count : ℕ}
    (hrand : mono₁.lastRand = mono₂.lastRand)
    (hsame : newMsLoop mono₁ rng clock₁ count = newMsLoop mono₂ rng clock₂ count)
    (h₁ : UlidGenerator.monotonicLoop mono₁ rng clock₁ count = some (ids₁, mono₁', rng₁, clock₁'))
    (h₂ : UlidGenerator.monotonicLoop mono₂ rng clock₂ count = some (ids₂, mono₂', rng₂, clock₂')) :
    ids₁.map randomPart = ids₂.map randomPart ∧ mono₁'.lastRand = mono₂'.lastRand ∧
      rng₁ = rng₂ := by
  induction count generalizing mono₁ mono₂ rng clock₁ clock₂ ids₁ ids₂ with
  | zero =>
      cases h₁
      cases h₂
      exact ⟨rfl, hrand, rfl⟩
  | succ count ih =>
      obtain ⟨now₁, _, _, _, _, _, _, -, hnext₁, hloop₁, rfl, hnew₁⟩ := monotonicLoop_succ h₁
      obtain ⟨now₂, _, _, _, _, _, _, -, hnext₂, hloop₂, rfl, hnew₂⟩ := monotonicLoop_succ h₂
      rw [hnew₁, hnew₂, List.cons.injEq, decide_eq_decide] at hsame
      obtain ⟨hid, hrand', rfl⟩ := nextWith_agree hrand hsame.1 hnext₁ hnext₂
      obtain ⟨hids, hlast, hrng⟩ := ih hrand' hsame.2 hloop₁ hloop₂
      exact ⟨by rw [List.map_cons, List.map_cons, hid, hids], hlast, hrng⟩

end Agree

/-- The words a batch takes do not depend on its timestamp. -/
theorem nextLoop_agree (ts₁ ts₂ : U64) (det : DeterministicRng) (count : ℕ) :
    (UlidGenerator.nextLoop ts₁ det count).1.map randomPart =
        (UlidGenerator.nextLoop ts₂ det count).1.map randomPart ∧
      (UlidGenerator.nextLoop ts₁ det count).2 = (UlidGenerator.nextLoop ts₂ det count).2 := by
  induction count generalizing det with
  | zero => exact ⟨rfl, rfl⟩
  | succ count ih =>
      obtain ⟨hids, hdet⟩ := ih det.drawU64.2.drawU64.2
      refine ⟨?_, hdet⟩
      rw [UlidGenerator.nextLoop, UlidGenerator.nextLoop, List.map_cons, List.map_cons, hids,
        randomPart_blockString ts₁, randomPart_blockString ts₂]

/-- Two worlds whose generators are in deterministic mode and in the same random state. -/
structure Agree {ρ : Type} (w₁ w₂ : GeneratorWorld ρ) : Prop where
  deterministic : w₁.1.det.isSome
  det : w₁.1.det = w₂.1.det
  rand : w₁.1.mono.lastRand = w₂.1.mono.lastRand

section Step

variable {ρ : Type} [Rng ρ] {g₁ g₂ g₁' g₂' : UlidGenerator} {th₁ th₂ th₁' th₂' : Thread ρ}
  {det : DeterministicRng}

omit [Rng ρ] in
theorem Agree.of_det (hdet₁ : g₁.det = some det) (hdet₂ : g₂.det = some det)
    (hrand : g₁.mono.lastRand = g₂.mono.lastRand) : Agree (g₁, th₁) (g₂, th₂) where
  deterministic := Option.isSome_of_eq_some hdet₁
  det := hdet₁.trans hdet₂.symm
  rand := hrand

theorem next_agree {timestampMs : Option JsNumber} {r₁ r₂ : Except NapiError Str}
    (hdet₁ : g₁.det = some det) (hdet₂ : g₂.det = some det)
    (hrand : g₁.mono.lastRand = g₂.mono.lastRand)
    (h₁ : g₁.next th₁ timestampMs = some (r₁, g₁', th₁'))
    (h₂ : g₂.next th₂ timestampMs = some (r₂, g₂', th₂')) :
    r₁.map randomPart = r₂.map randomPart ∧ Agree (g₁', th₁') (g₂', th₂') := by
  cases hts : explicitTs timestampMs with
  | error e =>
      simp only [UlidGenerator.next, hts, Option.some.injEq, Prod.mk.injEq] at h₁ h₂
      obtain ⟨rfl, rfl, rfl⟩ := h₁
      obtain ⟨rfl, rfl, rfl⟩ := h₂
      exact ⟨rfl, .of_det hdet₁ hdet₂ hrand⟩
  | ok ts =>
      simp only [UlidGenerator.next, hdet₁, hdet₂, hts, Option.bind_eq_bind,
        Option.bind_eq_some_iff, Option.pure_def, Option.some.injEq, Prod.exists,
        Prod.mk.injEq] at h₁ h₂
      obtain ⟨t₁, _, -, rfl, rfl, rfl⟩ := h₁
      obtain ⟨t₂, _, -, rfl, rfl, rfl⟩ := h₂
      refine ⟨?_, rfl, rfl, hrand⟩
      simp only [Except.map, randomPart_blockString t₁, randomPart_blockString t₂]

theorem monotonic_agree {timestampMs : Option JsNumber} {r₁ r₂ : Except NapiError Str}
    (hdet₁ : g₁.det = some det) (hdet₂ : g₂.det = some det)
    (hrand : g₁.mono.lastRand = g₂.mono.lastRand)
    (hsame : GeneratorCall.newMs (g₁, th₁) (.monotonic timestampMs) =
      GeneratorCall.newMs (g₂, th₂) (.monotonic timestampMs))
    (h₁ : g₁.monotonic th₁ timestampMs = some (r₁, g₁', th₁'))
    (h₂ : g₂.monotonic th₂ timestampMs = some (r₂, g₂', th₂')) :
    r₁.map randomPart = r₂.map randomPart ∧ Agree (g₁', th₁') (g₂', th₂') := by
  cases hts : explicitTs timestampMs with
  | error e =>
      simp only [UlidGenerator.monotonic, hts, Option.some.injEq, Prod.mk.injEq] at h₁ h₂
      obtain ⟨rfl, rfl, rfl⟩ := h₁
      obtain ⟨rfl, rfl, rfl⟩ := h₂
      exact ⟨rfl, .of_det hdet₁ hdet₂ hrand⟩
  | ok ts =>
      simp only [GeneratorCall.newMs, hdet₁, hdet₂, hts] at hsame
      -- Either way the call is `next_with` at the time it resolves.
      have hcall : ∀ {g g' : UlidGenerator} {th th' : Thread ρ} {r : Except NapiError Str},
          g.det = some det → g.monotonic th timestampMs = some (r, g', th') →
          ∃ now clock id mono det' clock', orNow ts th.clock = some (now, clock) ∧
            g.mono.nextWith now det clock = some (id, mono, det', clock') ∧ r = .ok id ∧
            g' = ⟨mono, some det'⟩ := by
        intro g g' th th' r hdet h
        cases ts with
        | none =>
            simp only [UlidGenerator.monotonic, hdet, hts, MonotonicState.nextDeterministic,
              Option.bind_eq_bind, Option.bind_eq_some_iff, Option.pure_def, Option.some.injEq,
              Prod.exists, Prod.mk.injEq] at h
            obtain ⟨id, mono, det', clock', ⟨now, clock, hnow, hnext⟩, rfl, rfl, -⟩ := h
            exact ⟨now, clock, id, mono, det', clock', hnow, hnext, rfl, rfl⟩
        | some t =>
            simp only [UlidGenerator.monotonic, hdet, hts, MonotonicState.nextDeterministicAt,
              Option.bind_eq_bind, Option.bind_eq_some_iff, Option.pure_def, Option.some.injEq,
              Prod.exists, Prod.mk.injEq] at h
            obtain ⟨id, mono, det', clock', hnext, rfl, rfl, -⟩ := h
            exact ⟨t, th.clock, id, mono, det', clock', rfl, hnext, rfl, rfl⟩
      obtain ⟨now₁, _, _, _, _, _, hnow₁, hnext₁, rfl, rfl⟩ := hcall hdet₁ h₁
      obtain ⟨now₂, _, _, _, _, _, hnow₂, hnext₂, rfl, rfl⟩ := hcall hdet₂ h₂
      simp only [hnow₁, hnow₂, Option.toList_some, List.map_cons, List.map_nil, List.cons.injEq,
        and_true, decide_eq_decide] at hsame
      obtain ⟨hid, hrand', rfl⟩ := nextWith_agree hrand hsame hnext₁ hnext₂
      exact ⟨congrArg Except.ok hid, rfl, rfl, hrand'⟩

theorem nextMany_agree {count : ℤ} {r₁ r₂ : Except NapiError (List Str)}
    (hdet₁ : g₁.det = some det) (hdet₂ : g₂.det = some det)
    (hrand : g₁.mono.lastRand = g₂.mono.lastRand)
    (h₁ : g₁.nextMany th₁ count = some (r₁, g₁', th₁'))
    (h₂ : g₂.nextMany th₂ count = some (r₂, g₂', th₂')) :
    randomParts r₁ = randomParts r₂ ∧ Agree (g₁', th₁') (g₂', th₂') := by
  rw [UlidGenerator.nextMany] at h₁ h₂
  split at h₁
  · rename_i hcount
    rw [if_pos hcount] at h₂
    cases h₁
    cases h₂
    exact ⟨rfl, .of_det hdet₁ hdet₂ hrand⟩
  · rename_i hcount
    rw [if_neg hcount] at h₂
    simp only [hdet₁, hdet₂, Option.bind_eq_bind, Option.bind_eq_some_iff, Option.pure_def,
      Option.some.injEq, Prod.exists, Prod.mk.injEq] at h₁ h₂
    obtain ⟨ts₁, _, -, rfl, rfl, rfl⟩ := h₁
    obtain ⟨ts₂, _, -, rfl, rfl, rfl⟩ := h₂
    obtain ⟨hids, hdet⟩ := nextLoop_agree ts₁ ts₂ det count.toNat
    exact ⟨congrArg Except.ok hids, rfl, congrArg some hdet, hrand⟩

theorem monotonicMany_agree {count : ℤ} {r₁ r₂ : Except NapiError (List Str)}
    (hdet₁ : g₁.det = some det) (hdet₂ : g₂.det = some det)
    (hrand : g₁.mono.lastRand = g₂.mono.lastRand)
    (hsame : GeneratorCall.newMs (g₁, th₁) (.monotonicMany count) =
      GeneratorCall.newMs (g₂, th₂) (.monotonicMany count))
    (h₁ : g₁.monotonicMany th₁ count = some (r₁, g₁', th₁'))
    (h₂ : g₂.monotonicMany th₂ count = some (r₂, g₂', th₂')) :
    randomParts r₁ = randomParts r₂ ∧ Agree (g₁', th₁') (g₂', th₂') := by
  rw [UlidGenerator.monotonicMany] at h₁ h₂
  split at h₁
  · rename_i hcount
    rw [if_pos hcount] at h₂
    cases h₁
    cases h₂
    exact ⟨rfl, .of_det hdet₁ hdet₂ hrand⟩
  · rename_i hcount
    rw [if_neg hcount] at h₂
    simp only [GeneratorCall.newMs, hdet₁, hdet₂, if_neg hcount] at hsame
    simp only [hdet₁, hdet₂, Option.bind_eq_bind, Option.bind_eq_some_iff, Option.pure_def,
      Option.some.injEq, Prod.exists, Prod.mk.injEq] at h₁ h₂
    obtain ⟨_, _, _, _, hloop₁, rfl, rfl, rfl⟩ := h₁
    obtain ⟨_, _, _, _, hloop₂, rfl, rfl, rfl⟩ := h₂
    obtain ⟨hids, hrand', rfl⟩ := monotonicLoop_agree hrand hsame hloop₁ hloop₂
    exact ⟨congrArg Except.ok hids, rfl, rfl, hrand'⟩

/-- One call: worlds that agree still agree after it, and it returns the same random
components in both, if the clock decides the same in both. -/
theorem GeneratorCall.step_agree {w₁ w₂ w₁' w₂' : GeneratorWorld ρ} {c : GeneratorCall}
    {r₁ r₂ : Except NapiError (List Str)} (hw : Agree w₁ w₂) (h₁ : c.step w₁ = some (r₁, w₁'))
    (h₂ : c.step w₂ = some (r₂, w₂')) (hsame : c.newMs w₁ = c.newMs w₂) :
    randomParts r₁ = randomParts r₂ ∧ Agree w₁' w₂' := by
  obtain ⟨det, hdet₁⟩ := Option.isSome_iff_exists.mp hw.deterministic
  have hdet₂ := hw.det.symm.trans hdet₁
  -- A single call's ID becomes a list of one.
  have hsingle : ∀ {r₁ r₂ : Except NapiError Str}, r₁.map randomPart = r₂.map randomPart →
      randomParts (r₁.map ([·])) = randomParts (r₂.map ([·])) := by
    intro r₁ r₂ h
    cases r₁ <;> cases r₂ <;> simp_all [randomParts, Except.map]
  cases c with
  | next timestampMs =>
      obtain ⟨⟨r₁, g₁', th₁'⟩, hnext₁, h₁⟩ := Option.map_eq_some_iff.mp h₁
      obtain ⟨⟨r₂, g₂', th₂'⟩, hnext₂, h₂⟩ := Option.map_eq_some_iff.mp h₂
      cases h₁
      cases h₂
      obtain ⟨hparts, hagree⟩ := next_agree hdet₁ hdet₂ hw.rand hnext₁ hnext₂
      exact ⟨hsingle hparts, hagree⟩
  | monotonic timestampMs =>
      obtain ⟨⟨r₁, g₁', th₁'⟩, hnext₁, h₁⟩ := Option.map_eq_some_iff.mp h₁
      obtain ⟨⟨r₂, g₂', th₂'⟩, hnext₂, h₂⟩ := Option.map_eq_some_iff.mp h₂
      cases h₁
      cases h₂
      obtain ⟨hparts, hagree⟩ := monotonic_agree hdet₁ hdet₂ hw.rand hsame hnext₁ hnext₂
      exact ⟨hsingle hparts, hagree⟩
  | nextMany count => exact nextMany_agree hdet₁ hdet₂ hw.rand h₁ h₂
  | monotonicMany count => exact monotonicMany_agree hdet₁ hdet₂ hw.rand hsame h₁ h₂

end Step

/-- **Clock independence.**  Two runs of the same calls on generators with the same
seed return the same random components at every position, provided that every monotonic
ULID gets a new millisecond in both runs or in neither. -/
theorem randomParts_eq_of_newMs_eq {ρ : Type} [Rng ρ] {seed : U64} {th₁ th₂ : Thread ρ}
    {calls : List GeneratorCall}
    {es₁ es₂ : List (Event (GeneratorWorld ρ) GeneratorCall (Except NapiError (List Str)))}
    (h₁ : Machine.run GeneratorCall.step (.new (some seed), th₁) calls = some es₁)
    (h₂ : Machine.run GeneratorCall.step (.new (some seed), th₂) calls = some es₂)
    (hsame : es₁.map (fun e ↦ e.input.newMs e.before) = es₂.map fun e ↦ e.input.newMs e.before) :
    es₁.map (fun e ↦ randomParts e.output) = es₂.map fun e ↦ randomParts e.output := by
  have hstart : Agree (UlidGenerator.new (some seed), th₁) (.new (some seed), th₂) :=
    .of_det rfl rfl rfl
  refine Machine.run_lockstep ?_ hstart h₁ h₂ hsame
  intro w₁ w₂ c r₁ w₁' r₂ w₂' hw hstep₁ hstep₂ hnew
  exact GeneratorCall.step_agree hw hstep₁ hstep₂ hnew

/-! ## A clock that shows -/

/-- A thread with nothing secure in it, whose clock shows `clock`. -/
def clockThread (clock : Clock) : Thread Tape :=
  ⟨.const 0, .new, fun _ ↦ EntropyPool.new.words, clock⟩

/-- A monotonic call in deterministic mode at a clock reading is a step of the state. -/
theorem step_monotonic {mono mono' : MonotonicState} {det det' : DeterministicRng} {t : U64}
    {clock clock' : Clock} (h : mono.advance t det clock = some (mono', det', clock')) :
    GeneratorCall.step (⟨mono, some det⟩, clockThread (t :: clock)) (.monotonic none) =
      some (.ok [mono'.text], ⟨mono', some det'⟩, clockThread clock') := by
  simp only [GeneratorCall.step, UlidGenerator.monotonic, explicitTs,
    MonotonicState.nextDeterministic, clockThread, nowMs, MonotonicState.nextWith_of_advance h,
    Option.bind_eq_bind, Option.bind_some, Option.pure_def, Option.map_some, Except.map]

/-- The events of two monotonic calls on a generator with seed 42. -/
def twoMonotonic (t₁ t₂ : U64) (st₁ st₂ : MonotonicState) (rng₁ rng₂ : DeterministicRng) :
    List (Event (GeneratorWorld Tape) GeneratorCall (Except NapiError (List Str))) :=
  [⟨(.new (some 42), clockThread [t₁, t₂]), .monotonic none, .ok [st₁.text],
      (⟨st₁, some rng₁⟩, clockThread [t₂])⟩,
    ⟨(⟨st₁, some rng₁⟩, clockThread [t₂]), .monotonic none, .ok [st₂.text],
      (⟨st₂, some rng₂⟩, clockThread [])⟩]

theorem run_twoMonotonic {t₁ t₂ : U64} {st₁ st₂ : MonotonicState} {rng₁ rng₂ : DeterministicRng}
    (h₁ : MonotonicState.new.advance t₁ (DeterministicRng.new 42) [t₂] = some (st₁, rng₁, [t₂]))
    (h₂ : st₁.advance t₂ rng₁ [] = some (st₂, rng₂, [])) :
    Machine.run GeneratorCall.step (.new (some 42), clockThread [t₁, t₂])
      [.monotonic none, .monotonic none] = some (twoMonotonic t₁ t₂ st₁ st₂ rng₁ rng₂) :=
  Machine.run_cons_eq_some_iff.mpr ⟨_, _, _, step_monotonic h₁,
    Machine.run_cons_eq_some_iff.mpr ⟨_, _, _, step_monotonic h₂, Machine.run_nil _, rfl⟩, rfl⟩

/-- The first two draws of seed 42. -/
def draw42 : U128 × DeterministicRng := draw80 (DeterministicRng.new 42)

theorem advance_first {t₁ : U64} (ht : t₁ ≠ 0) (clock : Clock) :
    MonotonicState.new.advance t₁ (DeterministicRng.new 42) clock =
      some (⟨t₁, draw42.1⟩, draw42.2, clock) := by
  rw [MonotonicState.advance_new, if_neg ht]
  rfl

theorem advance_again (t : U64) (rng : DeterministicRng) :
    MonotonicState.advance ⟨t, draw42.1⟩ t rng [] = some (⟨t, draw42.1 + 1⟩, rng, []) := by
  have hold : ¬ t > t := BitVec.lt_irrefl t
  rw [MonotonicState.advance, if_neg hold, if_pos (show draw42.1 < Id128.randomMask by decide)]

theorem randomParts_eq_for_still_clocks :
    (twoMonotonic 5 5 ⟨5, draw42.1⟩ ⟨5, draw42.1 + 1⟩ draw42.2 draw42.2).map
        (fun e ↦ randomParts e.output) =
      (twoMonotonic 7 7 ⟨7, draw42.1⟩ ⟨7, draw42.1 + 1⟩ draw42.2 draw42.2).map
        fun e ↦ randomParts e.output :=
  randomParts_eq_of_newMs_eq (run_twoMonotonic (advance_first (by decide) _) (advance_again 5 _))
    (run_twoMonotonic (advance_first (by decide) _) (advance_again 7 _)) rfl

/-- Seed 42 with a clock that stands still and with one that moves on by a millisecond:
the second IDs have different random components. -/
theorem randomParts_ne_of_tick :
    ∃ es₁ es₂, Machine.run GeneratorCall.step (.new (some 42), clockThread [5, 5])
        [.monotonic none, .monotonic none] = some es₁ ∧
      Machine.run GeneratorCall.step (.new (some 42), clockThread [5, 6])
        [.monotonic none, .monotonic none] = some es₂ ∧
      es₁.map (fun e ↦ randomParts e.output) ≠ es₂.map fun e ↦ randomParts e.output := by
  have htick : MonotonicState.advance ⟨5, draw42.1⟩ 6 draw42.2 [] =
      some (⟨6, (draw80 draw42.2).1⟩, (draw80 draw42.2).2, []) := by
    rw [MonotonicState.advance, if_pos (by decide)]
  refine ⟨_, _, run_twoMonotonic (advance_first (by decide) _) (advance_again 5 _),
    run_twoMonotonic (advance_first (by decide) _) htick, fun heq ↦ ?_⟩
  simp only [twoMonotonic, List.map_cons, List.map_nil, randomParts, Except.map,
    MonotonicState.text, randomPart_encodeString, List.cons.injEq, Except.ok.injEq] at heq
  exact absurd heq.2.1.1 (by decide)

end Rivid.Napi
