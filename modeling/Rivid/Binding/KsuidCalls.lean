import Rivid.Binding.Generator
import Rivid.Core.Fill
import Rivid.Core.Pool

/-!
# The Node binding: making and reading KSUIDs

A KSUID is made as a string, as its bytes, in batches of either, or into a buffer of the
caller; the single ones draw from the entropy pool and the filled ones from the secure
source.  All of them are stamped with the second of one clock reading, unless an explicit
millisecond is given.

Whatever a client calls, in whatever order, each KSUID it gets is read back with the second
it was made at, and the KSUIDs are in the order of the clock.
-/

namespace Rivid.Napi

open Chunks Machine

/-! ## Times -/

/-- `(EPOCH_MS as f64..=TIME_MAX_MS as f64).contains(&v)`. -/
def inKsuidWindow : JsNumber → Bool
  | .finite q => Ksuid.epochMs.toNat ≤ q && q ≤ Ksuid.timeMaxMs.toNat
  | _ => false

/-- Formats a range-check failure; `display` is how a double is written. -/
def ksuidTsOutOfRange (display : JsNumber → String) (v : JsNumber) : NapiError :=
  ⟨.invalidArg, "timestamp " ++ display v ++
    " out of range for KSUID: must be an integer between " ++ toString Ksuid.epochMs.toNat ++
    " and " ++ toString Ksuid.timeMaxMs.toNat ++ " milliseconds"⟩

/-- Validates an explicitly provided KSUID timestamp. -/
def explicitKsuidTs (display : JsNumber → String) (timestampMs : Option JsNumber) :
    Except NapiError (Option U64) :=
  match timestampMs with
  | none => .ok none
  | some v =>
      if !v.isFinite || v.hasFraction || !inKsuidWindow v then .error (ksuidTsOutOfRange display v)
      else .ok (some v.asU64)

/-! ## Making -/

section Calls

variable {ρ : Type}

/-- `Ksuid::generate` on the thread. -/
def generateKsuid (th : Thread ρ) : Option (Ksuid × Thread ρ) := do
  let (now, clock) ← nowMs th.clock
  let (payload, pool, fills) ← random128 th.pool th.fills
  return (Ksuid.generate now payload, { th with pool, fills, clock })

/-- `Ksuid::generate_at_unix_ms` on the thread: a payload is drawn for a time that fits. -/
def generateKsuidAtUnixMs (th : Thread ρ) (unixMs : U64) : Option (Result Ksuid × Thread ρ) :=
  if ¬ (Ksuid.epochMs ≤ unixMs ∧ unixMs ≤ Ksuid.timeMaxMs) then
    some (.error (.ksuidTimestampOutOfRange unixMs), th)
  else
    match Ksuid.timestampField (unixMs / 1000) with
    | .error e => some (.error e, th)
    | .ok field => do
        let (payload, pool, fills) ← random128 th.pool th.fills
        return (.ok (Ksuid.fromField field (Convert.toBeBytes payload)), { th with pool, fills })

/-- A KSUID string, for the wall-clock second or that of an explicit millisecond. -/
def ksuid (display : JsNumber → String) (th : Thread ρ) (timestampMs : Option JsNumber) :
    Option (Except NapiError Str × Thread ρ) :=
  match explicitKsuidTs display timestampMs with
  | .error e => some (.error e, th)
  | .ok none => do
      let (k, th) ← generateKsuid th
      return (.ok k.encode, th)
  | .ok (some ms) => do
      let (k, th) ← generateKsuidAtUnixMs th ms
      return ((k.map Ksuid.encode).mapError toNapi, th)

def ksuidBytes (th : Thread ρ) : Option (List U8 × Thread ρ) := do
  let (k, th) ← generateKsuid th
  return (k.bytes.val, th)

/-- `count` KSUID strings that share one captured second. -/
def generateKsuidMany (th : Thread ρ) (count : ℤ) :
    Option (Except NapiError (List Str) × Thread ρ) :=
  if ¬ (0 ≤ count ∧ count ≤ maxBatch) then some (.error (invalidCount count), th)
  else do
    let (now, clock) ← nowMs th.clock
    let field := Ksuid.currentTimestampField now
    let (payloads, pool, fills) ← drawAll (List.replicate count.toNat .random128) th.pool th.fills
    return (.ok (payloads.map fun p ↦ (Ksuid.fromField field (Convert.toBeBytes p)).encode),
      { th with pool, fills, clock })

variable [SecureBytes ρ]

/-- `count` raw KSUIDs, one after the other. -/
def generateKsuidBytes (th : Thread ρ) (count : ℤ) :
    Option (Except NapiError (List U8) × Thread ρ) :=
  if ¬ (0 ≤ count ∧ count ≤ maxBatch) then some (.error (invalidCount count), th)
  else do
    let (now, clock) ← nowMs th.clock
    let filled := Ksuid.fillSecure (List.replicate (count.toNat * 20) 0) now th.secure
    match filled.result with
    | .error _ => none -- `unreachable!`
    | .ok _ => return (.ok filled.buf, { th with secure := filled.rng, clock })

/-- Fills a buffer of the caller with raw KSUIDs; the count goes back as a `u32`. -/
def generateKsuidInto (th : Thread ρ) (buffer : List U8) :
    Option (Except NapiError ℕ × List U8 × Thread ρ) :=
  match validateLen 20 buffer.length with
  | .error e => some (.error (toNapi e), buffer, th)
  | .ok () => do
      let (now, clock) ← nowMs th.clock
      let filled := Ksuid.fillSecure buffer now th.secure
      return ((filled.result.map (· % 2 ^ 32)).mapError toNapi, filled.buf,
        { th with secure := filled.rng, clock })

end Calls

/-! ## Reading -/

def isValidKsuid (id : Str) : Bool := Ksuid.isValid id

/-- The Unix timestamp (milliseconds) of a KSUID string. -/
def decodeKsuidTime (id : Str) : Except NapiError JsNumber :=
  ((Ksuid.decodeTimeMs id).map JsNumber.ofU64).mapError toNapi

/-- The Unix timestamp (milliseconds) of 20 bytes. -/
def ksuidTime (bytes : List U8) : Except NapiError JsNumber :=
  ((Ksuid.timeMs bytes).map JsNumber.ofU64).mapError toNapi

def decodeKsuid (id : Str) : Except NapiError (List U8) :=
  ((Ksuid.decode id).map Subtype.val).mapError toNapi

def encodeKsuid (bytes : List U8) : Except NapiError Str :=
  if h : bytes.length ≠ 20 then .error (toNapi (.invalidLength 20 bytes.length))
  else .ok (Ksuid.encodeString ⟨bytes, not_not.mp h⟩)

/-! ## A client -/

/-- The calls that make KSUIDs. -/
inductive KsuidCall where
  | ksuid (timestampMs : Option JsNumber)
  | ksuidBytes
  | generateKsuidMany (count : ℤ)
  | generateKsuidBytes (count : ℤ)
  | generateKsuidInto (buffer : List U8)

/-- What they return; a buffer of the caller is seen as the call leaves it. -/
inductive KsuidReply where
  | string (r : Except NapiError Str)
  | strings (r : Except NapiError (List Str))
  | bytes (r : Except NapiError (List U8))
  | written (r : Except NapiError ℕ) (buffer : List U8)

def KsuidCall.step {ρ : Type} [SecureBytes ρ] (display : JsNumber → String) (th : Thread ρ) :
    KsuidCall → Option (KsuidReply × Thread ρ)
  | ksuid timestampMs => (Napi.ksuid display th timestampMs).map fun r ↦ (.string r.1, r.2)
  | ksuidBytes => (Napi.ksuidBytes th).map fun r ↦ (.bytes (.ok r.1), r.2)
  | generateKsuidMany count => (Napi.generateKsuidMany th count).map fun r ↦ (.strings r.1, r.2)
  | generateKsuidBytes count => (Napi.generateKsuidBytes th count).map fun r ↦ (.bytes r.1, r.2)
  | generateKsuidInto buffer =>
      (Napi.generateKsuidInto th buffer).map fun r ↦ (.written r.1 r.2.1, r.2.2)

namespace KsuidReply

/-- The KSUIDs in packed bytes, as `encodeKsuid` writes them. -/
def packed (b : List U8) : List Str :=
  (List.range (b.length / 20)).filterMap fun i ↦ (encodeKsuid (chunk 20 b i)).toOption

/-- The KSUIDs in a reply. -/
def texts : KsuidReply → List Str
  | string (.ok s) => [s]
  | strings (.ok ids) => ids
  | bytes (.ok b) | written (.ok _) b => packed b
  | _ => []

/-- What is thrown. -/
def error? : KsuidReply → Option NapiError
  | string (.error e) | strings (.error e) | bytes (.error e) | written (.error e) _ => some e
  | _ => none

/-- The caller's buffer, as the call leaves it. -/
def buffer? : KsuidReply → Option (List U8)
  | written _ buffer => some buffer
  | _ => none

end KsuidReply

namespace KsuidCall

/-- The caller's buffer. -/
def buffer? : KsuidCall → Option (List U8)
  | generateKsuidInto buffer => some buffer
  | _ => none

/-- The calls that read the clock. -/
def ReadsClock : KsuidCall → Prop
  | ksuid timestampMs => timestampMs = none
  | _ => True

/-- What a call has to ask for. -/
def Accepts : KsuidCall → Prop
  | ksuid none | ksuidBytes => True
  | ksuid (some v) =>
      ∃ n : ℕ, v = .finite n ∧ Ksuid.epochMs.toNat ≤ n ∧ n ≤ Ksuid.timeMaxMs.toNat
  | generateKsuidMany count | generateKsuidBytes count => 0 ≤ count ∧ count ≤ maxBatch
  | generateKsuidInto buffer => buffer.length % 20 = 0

/-- How many KSUIDs a call asks for. -/
def count : KsuidCall → ℕ
  | ksuid _ | ksuidBytes => 1
  | generateKsuidMany count | generateKsuidBytes count => count.toNat
  | generateKsuidInto buffer => buffer.length / 20

end KsuidCall

/-! ## What a call makes -/

namespace KsuidCalls

/-- The texts of `n` KSUIDs with one field. -/
def Made (field : U32) (n : ℕ) (texts : List Str) : Prop :=
  ∃ payloads : List (Bytes 16), payloads.length = n ∧
    texts = payloads.map fun p ↦ (Ksuid.fromField field p).encode

section Made

variable {ρ : Type} {th th' : Thread ρ} {buf : List U8} {field : U32}

theorem Made.single (field : U32) (payload : Bytes 16) :
    Made field 1 [(Ksuid.fromField field payload).encode] := ⟨[payload], rfl, rfl⟩

theorem encodeKsuid_bytes (k : Ksuid) : encodeKsuid k.bytes.val = .ok k.encode := by
  rw [encodeKsuid, dif_neg (not_not.mpr k.bytes.property)]
  rfl

theorem packed_bytes (k : Ksuid) : KsuidReply.packed k.bytes.val = [k.encode] := by
  have hchunk : chunk 20 k.bytes.val 0 = k.bytes.val := by
    rw [chunk, Nat.mul_zero, List.drop_zero, List.take_of_length_le (le_of_eq k.bytes.property)]
  rw [KsuidReply.packed, k.bytes.property, show List.range (20 / 20) = [0] from rfl,
    List.filterMap_cons, hchunk, encodeKsuid_bytes]
  rfl

/-- A fill holds KSUIDs with the field it captured. -/
theorem made_fillSecure [SecureBytes ρ] (h : buf.length % 20 = 0) (now : U64) (rng : ρ) :
    (Ksuid.fillSecure buf now rng).result = .ok (buf.length / 20) ∧
      Made (Ksuid.currentTimestampField now) (buf.length / 20)
        (KsuidReply.packed (Ksuid.fillSecure buf now rng).buf) := by
  have hholds : HoldsBlocks (Ksuid.fieldBlock (Ksuid.currentTimestampField now)) buf rng
      (Ksuid.fillSecure buf now rng) := fillBlocks_of_dvd h rng
  refine ⟨hholds.result, (List.range (buf.length / 20)).map fun i ↦ (SecureBytes.fillSecure 16
    (sourceAfter (Ksuid.fieldBlock (Ksuid.currentTimestampField now)) rng i)).1, by simp, ?_⟩
  rw [KsuidReply.packed, hholds.length, List.map_map, ← List.filterMap_eq_map]
  refine List.filterMap_congr fun i hi ↦ ?_
  rw [hholds.blocks i (List.mem_range.mp hi), Ksuid.fieldBlock, encodeKsuid_bytes]
  rfl

theorem length_of_drawAll {draws : List Draw} {p p' : EntropyPool} {fills fills' : Fills}
    {vs : List U128} (h : drawAll draws p fills = some (vs, p', fills')) :
    vs.length = draws.length := by
  induction draws generalizing p fills vs with
  | nil =>
      cases h
      rfl
  | cons d draws ih =>
      obtain ⟨⟨v, p₁, fills₁⟩, -, h⟩ := Option.bind_eq_some_iff.mp h
      obtain ⟨⟨vs₁, r⟩, hrest, h⟩ := Option.bind_eq_some_iff.mp h
      cases h
      rw [List.length_cons, List.length_cons, ih hrest]

theorem of_generateKsuid {k : Ksuid} (h : generateKsuid th = some (k, th')) :
    ∃ now payload, th.clock = now :: th'.clock ∧
      k = Ksuid.fromField (Ksuid.currentTimestampField now) payload := by
  obtain ⟨⟨now, clock⟩, hnow, h⟩ := Option.bind_eq_some_iff.mp h
  obtain ⟨⟨payload, pool, fills⟩, -, h⟩ := Option.bind_eq_some_iff.mp h
  cases h
  exact ⟨now, _, MonotonicState.nowMs_eq_some_iff.mp hnow, rfl⟩

theorem of_generateKsuidAtUnixMs {ms : U64} {r : Result Ksuid} (hlo : Ksuid.epochMs ≤ ms)
    (hhi : ms ≤ Ksuid.timeMaxMs) (h : generateKsuidAtUnixMs th ms = some (r, th')) :
    ∃ field payload, field.toNat = ms.toNat / 1000 - 1400000000 ∧ th'.clock = th.clock ∧
      r = .ok (Ksuid.fromField field payload) := by
  obtain ⟨hlo', hhi'⟩ := Ksuid.second_mem hlo hhi
  obtain ⟨field, hfield, hval⟩ := Ksuid.timestampField_of_mem hlo' hhi'
  rw [generateKsuidAtUnixMs, if_neg (not_not.mpr ⟨hlo, hhi⟩), hfield] at h
  obtain ⟨⟨payload, pool, fills⟩, -, h⟩ := Option.bind_eq_some_iff.mp h
  cases h
  exact ⟨field, _, hval, rfl, rfl⟩

/-- An explicit time is a whole millisecond of the window, or refused. -/
theorem explicitKsuidTs_some (display : JsNumber → String) (v : JsNumber) :
    (∃ ms : U64, v = .finite ms.toNat ∧ Ksuid.epochMs ≤ ms ∧ ms ≤ Ksuid.timeMaxMs ∧
      explicitKsuidTs display (some v) = .ok (some ms)) ∨
    ¬ (KsuidCall.ksuid (some v)).Accepts ∧
      explicitKsuidTs display (some v) = .error (ksuidTsOutOfRange display v) := by
  cases v with
  | nan | infinity =>
      refine Or.inr ⟨?_, rfl⟩
      rintro ⟨n, hn, -⟩
      cases hn
  | finite q =>
      by_cases hden : q.den = 1
      · by_cases hwindow : inKsuidWindow (.finite q) = true
        · left
          have hwindow' := hwindow
          rw [inKsuidWindow, Bool.and_eq_true, decide_eq_true_eq, decide_eq_true_eq] at hwindow'
          obtain ⟨hlo, hhi⟩ := hwindow'
          obtain ⟨n, rfl, hn⟩ := JsNumber.exists_nat_of_integral (le_trans (Nat.cast_nonneg _) hlo)
            hden
          rw [Nat.cast_le, Ksuid.toNat_epochMs] at hlo
          rw [Nat.cast_le, Ksuid.toNat_timeMaxMs] at hhi
          have hval : (JsNumber.finite (n : ℚ)).asU64.toNat = n := by omega
          refine ⟨(JsNumber.finite (n : ℚ)).asU64, by rw [hval], ?_, ?_, ?_⟩
          · rw [BitVec.le_def, hval, Ksuid.toNat_epochMs]
            exact hlo
          · rw [BitVec.le_def, hval, Ksuid.toNat_timeMaxMs]
            exact hhi
          · simp [explicitKsuidTs, JsNumber.isFinite, JsNumber.hasFraction, hwindow]
        · right
          refine ⟨?_, by simp [explicitKsuidTs, hwindow]⟩
          rintro ⟨n, hn, hlo, hhi⟩
          obtain rfl : q = n := JsNumber.finite.inj hn
          refine hwindow ?_
          rw [inKsuidWindow, Bool.and_eq_true, decide_eq_true_eq, decide_eq_true_eq, Nat.cast_le,
            Nat.cast_le]
          exact ⟨hlo, hhi⟩
      · right
        refine ⟨?_, by simp [explicitKsuidTs, JsNumber.hasFraction, hden]⟩
        rintro ⟨n, hn, -⟩
        obtain rfl : q = n := JsNumber.finite.inj hn
        exact hden (Rat.den_natCast n)

/-- What a call can do: refuse and leave everything alone, or make the KSUIDs it is asked for
with one field, that of a clock reading or of the explicit time. -/
def Answers (c : KsuidCall) (th : Thread ρ) (r : KsuidReply) (th' : Thread ρ) : Prop :=
  (¬ c.Accepts ∧ r.error?.isSome ∧ r.texts = [] ∧ r.buffer? = c.buffer? ∧ th' = th) ∨
    c.Accepts ∧ r.error? = none ∧ ∃ field, Made field c.count r.texts ∧
      ((c.ReadsClock ∧ ∃ now, th.clock = now :: th'.clock ∧
          field = Ksuid.currentTimestampField now) ∨
        ∃ ms : U64, c = .ksuid (some (.finite ms.toNat)) ∧ th'.clock = th.clock ∧
          Ksuid.epochMs ≤ ms ∧ field.toNat = ms.toNat / 1000 - 1400000000)

theorem ksuid_answers {display : JsNumber → String} {timestampMs : Option JsNumber}
    {out : Except NapiError Str} (h : ksuid display th timestampMs = some (out, th')) :
    Answers (.ksuid timestampMs) th (.string out) th' := by
  cases timestampMs with
  | none =>
      obtain ⟨⟨k, th₁⟩, hmake, hout⟩ := Option.bind_eq_some_iff.mp h
      cases hout
      obtain ⟨now, payload, hclock, rfl⟩ := of_generateKsuid hmake
      exact Or.inr ⟨trivial, rfl, _, .single _ payload, Or.inl ⟨rfl, now, hclock, rfl⟩⟩
  | some v =>
      rw [ksuid] at h
      obtain ⟨ms, rfl, hlo, hhi, hts⟩ | ⟨hno, hts⟩ := explicitKsuidTs_some display v
      · rw [hts] at h
        obtain ⟨⟨k, th₁⟩, hmake, hout⟩ := Option.bind_eq_some_iff.mp h
        cases hout
        obtain ⟨field, payload, hfield, hclock, rfl⟩ := of_generateKsuidAtUnixMs hlo hhi hmake
        exact Or.inr ⟨⟨ms.toNat, rfl, hlo, hhi⟩, rfl, field, .single _ payload,
          Or.inr ⟨ms, rfl, hclock, hlo, hfield⟩⟩
      · rw [hts] at h
        cases h
        exact Or.inl ⟨hno, rfl, rfl, rfl, rfl⟩

theorem ksuidBytes_answers {out : List U8} (h : ksuidBytes th = some (out, th')) :
    Answers .ksuidBytes th (.bytes (.ok out)) th' := by
  obtain ⟨⟨k, th₁⟩, hmake, hout⟩ := Option.bind_eq_some_iff.mp h
  cases hout
  obtain ⟨now, payload, hclock, rfl⟩ := of_generateKsuid hmake
  refine Or.inr ⟨trivial, rfl, _, ?_, Or.inl ⟨trivial, now, hclock, rfl⟩⟩
  rw [KsuidReply.texts, packed_bytes]
  exact .single _ payload

theorem generateKsuidMany_answers {count : ℤ} {out : Except NapiError (List Str)}
    (h : generateKsuidMany th count = some (out, th')) :
    Answers (.generateKsuidMany count) th (.strings out) th' := by
  rw [generateKsuidMany] at h
  by_cases hcount : 0 ≤ count ∧ count ≤ maxBatch
  · rw [if_neg (not_not.mpr hcount)] at h
    obtain ⟨⟨now, clock⟩, hnow, hout⟩ := Option.bind_eq_some_iff.mp h
    obtain ⟨⟨payloads, pool, fills⟩, hdraw, hpure⟩ := Option.bind_eq_some_iff.mp hout
    cases hpure
    refine Or.inr ⟨hcount, rfl, Ksuid.currentTimestampField now,
      ⟨payloads.map Convert.toBeBytes, ?_, ?_⟩,
      Or.inl ⟨trivial, now, MonotonicState.nowMs_eq_some_iff.mp hnow, rfl⟩⟩
    · rw [List.length_map, length_of_drawAll hdraw, List.length_replicate]
      rfl
    · rw [List.map_map]
      rfl
  · rw [if_pos hcount] at h
    cases h
    exact Or.inl ⟨hcount, rfl, rfl, rfl, rfl⟩

theorem generateKsuidBytes_answers [SecureBytes ρ] {count : ℤ} {out : Except NapiError (List U8)}
    (h : generateKsuidBytes th count = some (out, th')) :
    Answers (.generateKsuidBytes count) th (.bytes out) th' := by
  rw [generateKsuidBytes] at h
  by_cases hcount : 0 ≤ count ∧ count ≤ maxBatch
  · rw [if_neg (not_not.mpr hcount)] at h
    obtain ⟨⟨now, clock⟩, hnow, hout⟩ := Option.bind_eq_some_iff.mp h
    have hlen : (List.replicate (count.toNat * 20) (0 : U8)).length / 20 = count.toNat := by
      rw [List.length_replicate, Nat.mul_div_cancel _ (by decide)]
    have hmod : (List.replicate (count.toNat * 20) (0 : U8)).length % 20 = 0 := by
      rw [List.length_replicate, Nat.mul_mod_left]
    obtain ⟨hresult, hmade⟩ := made_fillSecure hmod now th.secure
    simp only [hresult] at hout
    cases hout
    rw [hlen] at hmade
    exact Or.inr ⟨hcount, rfl, _, hmade,
      Or.inl ⟨trivial, now, MonotonicState.nowMs_eq_some_iff.mp hnow, rfl⟩⟩
  · rw [if_pos hcount] at h
    cases h
    exact Or.inl ⟨hcount, rfl, rfl, rfl, rfl⟩

theorem generateKsuidInto_answers [SecureBytes ρ] {buffer : List U8} {out : Except NapiError ℕ}
    (h : generateKsuidInto th buffer = some (out, buf, th')) :
    Answers (.generateKsuidInto buffer) th (.written out buf) th' := by
  rw [generateKsuidInto, validateLen] at h
  by_cases hlen : buffer.length % 20 = 0
  · rw [if_neg (not_not.mpr hlen)] at h
    obtain ⟨⟨now, clock⟩, hnow, hout⟩ := Option.bind_eq_some_iff.mp h
    obtain ⟨hresult, hmade⟩ := made_fillSecure hlen now th.secure
    simp only [hresult] at hout
    cases hout
    exact Or.inr ⟨hlen, rfl, _, hmade,
      Or.inl ⟨trivial, now, MonotonicState.nowMs_eq_some_iff.mp hnow, rfl⟩⟩
  · rw [if_pos hlen] at h
    cases h
    exact Or.inl ⟨hlen, rfl, rfl, rfl, rfl⟩

theorem step_cases [SecureBytes ρ] {display : JsNumber → String} {c : KsuidCall} {r : KsuidReply}
    (h : c.step display th = some (r, th')) : Answers c th r th' := by
  cases c with
  | ksuid timestampMs =>
      obtain ⟨⟨out, th₁⟩, hcall, hpair⟩ := Option.map_eq_some_iff.mp h
      cases hpair
      exact ksuid_answers hcall
  | ksuidBytes =>
      obtain ⟨⟨out, th₁⟩, hcall, hpair⟩ := Option.map_eq_some_iff.mp h
      cases hpair
      exact ksuidBytes_answers hcall
  | generateKsuidMany count =>
      obtain ⟨⟨out, th₁⟩, hcall, hpair⟩ := Option.map_eq_some_iff.mp h
      cases hpair
      exact generateKsuidMany_answers hcall
  | generateKsuidBytes count =>
      obtain ⟨⟨out, th₁⟩, hcall, hpair⟩ := Option.map_eq_some_iff.mp h
      cases hpair
      exact generateKsuidBytes_answers hcall
  | generateKsuidInto buffer =>
      obtain ⟨⟨out, buf, th₁⟩, hcall, hpair⟩ := Option.map_eq_some_iff.mp h
      cases hpair
      exact generateKsuidInto_answers hcall

end Made

/-! ## Reading it back -/

/-- Every reader takes `s` for a KSUID of the millisecond `ms`. -/
structure ReadsBack (ms : ℕ) (s : Str) : Prop where
  valid : isValidKsuid s = true
  text : decodeKsuidTime s = .ok (.finite ms)
  bytes : ∃ b, decodeKsuid s = .ok b ∧ encodeKsuid b = .ok s ∧ ksuidTime b = .ok (.finite ms)

theorem readsBack (k : Ksuid) : ReadsBack ((k.field.toNat + 1400000000) * 1000) k.encode := by
  have hlt := k.field.isLt
  have hms : JsNumber.ofU64 k.timestampMs =
      .finite ((k.field.toNat + 1400000000) * 1000 : ℕ) := by
    rw [JsNumber.ofU64_of_lt, Ksuid.toNat_timestampMs]
    rw [Ksuid.toNat_timestampMs]
    omega
  have hdecode := Ksuid.decodeBytes_encodeString k.bytes
  refine ⟨Ksuid.isValid_iff.mpr ⟨_, hdecode⟩, ?_, k.bytes.val, ?_, encodeKsuid_bytes k, ?_⟩
  · rw [decodeKsuidTime, Ksuid.decodeTimeMs_encode, ← hms]
    rfl
  · rw [decodeKsuid, Ksuid.decode_eq_decodeBytes, Ksuid.encode, hdecode]
    rfl
  · rw [ksuidTime, Ksuid.timeMs_bytes, ← hms]
    rfl

theorem Made.forall_readsBack {field : U32} {n : ℕ} {texts : List Str} (h : Made field n texts) :
    ∀ s ∈ texts, ReadsBack ((field.toNat + 1400000000) * 1000) s := by
  obtain ⟨payloads, -, rfl⟩ := h
  intro s hs
  obtain ⟨p, -, rfl⟩ := List.mem_map.mp hs
  have hread := readsBack (Ksuid.fromField field p)
  rwa [Ksuid.field_fromField] at hread

/-- KSUIDs with a greater field are greater. -/
theorem Made.lt {f g : U32} {m n : ℕ} {ss ts : List Str} (hf : Made f m ss) (hg : Made g n ts)
    (h : f < g) : ∀ s ∈ ss, ∀ t ∈ ts, s < t := by
  obtain ⟨ps, -, rfl⟩ := hf
  obtain ⟨qs, -, rfl⟩ := hg
  intro s hs t ht
  obtain ⟨p, -, rfl⟩ := List.mem_map.mp hs
  obtain ⟨q, -, rfl⟩ := List.mem_map.mp ht
  exact Ksuid.encode_fromField_lt h p q

end KsuidCalls

/-- The second that a KSUID is stamped with when the clock shows `now`, in milliseconds. -/
def ksuidSecondMs (now : U64) : ℕ :=
  max 1400000000 (min (now.toNat / 1000) (1400000000 + (2 ^ 32 - 1))) * 1000

/-- The second that a call stamps its KSUIDs with, in milliseconds. -/
def KsuidCall.stampMs (clock : Clock) : KsuidCall → ℕ
  | ksuid (some v) => v.asU64.toNat / 1000 * 1000
  | _ => clock.head?.elim 0 ksuidSecondMs

namespace KsuidCalls

theorem field_currentTimestampField (now : U64) :
    ((Ksuid.currentTimestampField now).toNat + 1400000000) * 1000 = ksuidSecondMs now := by
  rw [Ksuid.toNat_currentTimestampField, Ksuid.toNat_clamp, ksuidSecondMs, BitVec.toNat_udiv,
    show BitVec.toNat (1000 : U64) = 1000 from rfl]
  omega

theorem asU64_finite (ms : U64) : (JsNumber.finite ms.toNat).asU64 = ms := by
  have hlt := ms.isLt
  apply BitVec.eq_of_toNat_eq
  rw [JsNumber.asU64, Int.floor_natCast, Int.toNat_natCast, BitVec.toNat_ofNat]
  omega

/-! ## Runs -/

section Runs

variable {ρ : Type} [SecureBytes ρ] {display : JsNumber → String} {th th' : Thread ρ}
  {c : KsuidCall} {r : KsuidReply}

/-- What is made is stamped with the second of the call. -/
theorem made_of_accepts (h : c.step display th = some (r, th')) (hc : c.Accepts) :
    r.error? = none ∧ ∃ field, Made field c.count r.texts ∧
      (field.toNat + 1400000000) * 1000 = c.stampMs th.clock := by
  obtain ⟨hno, -⟩ | ⟨-, herror, field, hmade, hfield⟩ := step_cases h
  · exact absurd hc hno
  refine ⟨herror, field, hmade, ?_⟩
  obtain ⟨hreads, now, hclock, rfl⟩ | ⟨ms, rfl, -, hlo, hfield⟩ := hfield
  · rw [field_currentTimestampField, hclock]
    cases c with
    | ksuid timestampMs =>
        obtain rfl : timestampMs = none := hreads
        rfl
    | _ => rfl
  · rw [BitVec.le_def, Ksuid.toNat_epochMs] at hlo
    rw [KsuidCall.stampMs, asU64_finite, hfield]
    omega

/-- The next reading of a clock, or a time after all of them. -/
def nextReading (clock : Clock) : ℕ := clock.head?.elim (2 ^ 64) BitVec.toNat

theorem le_nextReading {now : U64} {clock : Clock} (h : (now :: clock).Pairwise (· ≤ ·)) :
    now.toNat ≤ nextReading clock := by
  cases clock with
  | nil => exact le_of_lt now.isLt
  | cons later clock => exact BitVec.le_def.mp (List.rel_of_pairwise_cons h List.mem_cons_self)

/-- A call reads the clock once or not at all. -/
theorem clock_of_step (h : c.step display th = some (r, th')) :
    th'.clock = th.clock ∨ ∃ now, th.clock = now :: th'.clock := by
  obtain ⟨-, -, -, -, rfl⟩ | ⟨-, -, -, -, ⟨-, now, hclock, -⟩ | ⟨ms, -, hclock, -⟩⟩ := step_cases h
  · exact Or.inl rfl
  · exact Or.inr ⟨now, hclock⟩
  · exact Or.inl hclock

theorem forward_of_step (h : c.step display th = some (r, th'))
    (hth : th.clock.Pairwise (· ≤ ·)) :
    th'.clock.Pairwise (· ≤ ·) ∧ nextReading th.clock ≤ nextReading th'.clock := by
  obtain hclock | ⟨now, hclock⟩ := clock_of_step h
  · rw [hclock]
    exact ⟨hth, le_rfl⟩
  · rw [hclock] at hth ⊢
    exact ⟨(List.pairwise_cons.mp hth).2, le_nextReading hth⟩

/-- A call that makes KSUIDs at the clock's second. -/
theorem made_of_readsClock (h : c.step display th = some (r, th')) (hreads : c.ReadsClock)
    {s : Str} (hs : s ∈ r.texts) : ∃ now, th.clock = now :: th'.clock ∧
      Made (Ksuid.currentTimestampField now) c.count r.texts ∧
      c.stampMs th.clock = ksuidSecondMs now := by
  obtain ⟨-, -, hnil, -⟩ | ⟨hc, -, field, hmade, hfield⟩ := step_cases h
  · rw [hnil] at hs
    cases hs
  obtain ⟨-, now, hclock, rfl⟩ | ⟨ms, rfl, -⟩ := hfield
  · refine ⟨now, hclock, hmade, ?_⟩
    rw [hclock]
    cases c with
    | ksuid timestampMs =>
        obtain rfl : timestampMs = none := hreads
        rfl
    | _ => rfl
  · cases hreads

end Runs

end KsuidCalls

open KsuidCalls in
/--
**KSUIDs follow the clock.**  In every run of calls that make KSUIDs, one by one, in batches
or into a buffer, a call that is refused leaves the thread and the buffer alone, and any other
makes as many as it was asked for, each read back, from its text and from its bytes, with the
second it was made at.  When the clock is not set back the KSUIDs stamped by it do not go back
either, and those of a later second are the greater texts.
-/
theorem ksuids_follow_clock {ρ : Type} [SecureBytes ρ] (display : JsNumber → String)
    {th : Thread ρ} {calls : List KsuidCall} {es : List (Event (Thread ρ) KsuidCall KsuidReply)}
    (h : run (KsuidCall.step display) th calls = some es) :
    (∀ e ∈ es,
      (¬ e.input.Accepts → e.output.error?.isSome ∧ e.output.texts = [] ∧
        e.output.buffer? = e.input.buffer? ∧ e.after = e.before) ∧
      (e.input.Accepts → e.output.error? = none ∧ e.output.texts.length = e.input.count ∧
        ∀ s ∈ e.output.texts, ReadsBack (e.input.stampMs e.before.clock) s)) ∧
    (th.clock.Pairwise (· ≤ ·) → es.Pairwise fun e f ↦ e.input.ReadsClock → f.input.ReadsClock →
      ∀ s ∈ e.output.texts, ∀ t ∈ f.output.texts,
        e.input.stampMs e.before.clock ≤ f.input.stampMs f.before.clock ∧
        (e.input.stampMs e.before.clock < f.input.stampMs f.before.clock → s < t)) := by
  constructor
  · have hsteps := run_invariant (I := fun _ ↦ True) (J := fun _ ↦ True)
      (fun _ _ _ _ _ _ _ ↦ trivial) trivial (fun _ _ ↦ trivial) h
    intro e he
    have hstep := (hsteps e he).2.2
    constructor
    · intro hno
      obtain ⟨-, hrefused⟩ | ⟨hc, -⟩ := step_cases hstep
      · exact hrefused
      · exact absurd hc hno
    · intro hc
      obtain ⟨herror, field, hmade, hstamp⟩ := made_of_accepts hstep hc
      obtain ⟨payloads, hlen, htexts⟩ := hmade
      refine ⟨herror, by rw [htexts, List.length_map, hlen], ?_⟩
      rw [← hstamp]
      exact Made.forall_readsBack ⟨payloads, hlen, htexts⟩
  · intro hclock
    have hsteps := run_invariant (I := fun th : Thread ρ ↦ th.clock.Pairwise (· ≤ ·))
      (J := fun _ ↦ True) (fun _ _ _ _ hth _ hstep ↦ (forward_of_step hstep hth).1) hclock
      (fun _ _ ↦ trivial) h
    have hpair := (pairwise_le (m := fun th : Thread ρ ↦ nextReading th.clock)
      (fun e he ↦ (forward_of_step (hsteps e he).2.2 (hsteps e he).1).2) h).2
    refine hpair.imp_of_mem fun {e f} he hf hle hreads hreads' s hs t ht ↦ ?_
    obtain ⟨now, hnow, hmade, hstamp⟩ := made_of_readsClock (hsteps e he).2.2 hreads hs
    obtain ⟨later, hlater, hmade', hstamp'⟩ := made_of_readsClock (hsteps f hf).2.2 hreads' ht
    have hforward := (hsteps e he).1
    rw [hnow] at hforward
    have hnext : nextReading f.before.clock = later.toNat := by
      rw [hlater]
      rfl
    have hlate : now ≤ later := by
      rw [BitVec.le_def]
      exact le_trans (le_nextReading hforward) (hnext ▸ hle)
    have hfield := BitVec.le_def.mp (Ksuid.currentTimestampField_mono hlate)
    rw [hstamp, hstamp', ← field_currentTimestampField, ← field_currentTimestampField]
    constructor
    · omega
    · intro hlt
      refine hmade.lt hmade' (BitVec.lt_def.mpr ?_) s hs t ht
      omega

/-- A source of zeros. -/
instance : SecureBytes Unit := ⟨fun n _ ↦ (⟨List.replicate n 0, List.length_replicate⟩, ())⟩

/-- A thread whose clock shows two times of one second. -/
def ksuidThread : Thread Unit where
  secure := ()
  pool := EntropyPool.new
  fills _ := ⟨List.replicate 32 0, rfl⟩
  clock := [1700000000000, 1700000000999]

theorem ksuids_follow_clock_ksuidThread : ∃ es,
    run (KsuidCall.step fun _ ↦ "") ksuidThread [.ksuid none, .ksuidBytes] = some es ∧
      ∀ e ∈ es, e.input.Accepts → e.output.texts.length = e.input.count := by
  have hcompletes : ∃ es, run (KsuidCall.step fun _ ↦ "") ksuidThread
      [.ksuid none, .ksuidBytes] = some es := ⟨_, rfl⟩
  obtain ⟨es, hes⟩ := hcompletes
  refine ⟨es, hes, ?_⟩
  intro e he hc
  exact (((ksuids_follow_clock _ hes).1 e he).2 hc).2.1

end Rivid.Napi
