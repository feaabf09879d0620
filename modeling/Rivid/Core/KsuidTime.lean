import Rivid.Core.Convert
import Rivid.Core.KsuidDecode

/-!
# The time of a KSUID

The API speaks milliseconds and the 32-bit field counts seconds from an epoch of its
own.  A time in the window of the field loses what is below the second and nothing else
on its way into the bytes and the text and back; the clock is clamped to the window.
-/

namespace Rivid.Ksuid

open Positional

/-! ## Constants -/

/-- KSUID's custom epoch in Unix milliseconds. -/
def epochMs : U64 := epochSeconds * 1000

/-- Maximum Unix second representable by the 32-bit KSUID timestamp. -/
def timeMaxSeconds : U64 := epochSeconds + (BitVec.allOnes 32).setWidth 64

/-- Maximum Unix millisecond accepted by the millisecond-facing API. -/
def timeMaxMs : U64 := timeMaxSeconds * 1000

/-- Number of bytes in a binary KSUID. -/
def byteLen : ℕ := 20

/-! ## Building -/

def timestampField (unixSeconds : U64) : Result U32 :=
  if ¬ (epochSeconds ≤ unixSeconds ∧ unixSeconds ≤ timeMaxSeconds) then
    .error (.ksuidTimestampOutOfRange unixSeconds)
  else .ok ((unixSeconds - epochSeconds).setWidth 32)

/-- `clamp`. -/
def clamp (x lo hi : U64) : U64 := if x < lo then lo else if hi < x then hi else x

/-- The field for a wall clock that shows `nowMs`. -/
def currentTimestampField (nowMs : U64) : U32 :=
  let now := nowMs / 1000
  -- Outside the KSUID era the clock is clamped to the representable window.
  (clamp now epochSeconds timeMaxSeconds - epochSeconds).setWidth 32

def fromField (field : U32) (payload : Bytes 16) : Ksuid :=
  ⟨⟨beBytes 4 field ++ payload.val, by rw [List.length_append, length_beBytes, payload.property]⟩⟩

/-- Generates a KSUID when the wall clock shows `nowMs`. -/
def generate (nowMs : U64) (payload : U128) : Ksuid :=
  fromField (currentTimestampField nowMs) (Convert.toBeBytes payload)

/-- Generates a KSUID at an explicit Unix timestamp in seconds. -/
def generateAtUnixSeconds (unixSeconds : U64) (payload : U128) : Result Ksuid := do
  let field ← timestampField unixSeconds
  return fromField field (Convert.toBeBytes payload)

/-- Generates a KSUID at an explicit Unix timestamp in milliseconds, floored to the second. -/
def generateAtUnixMs (unixMs : U64) (payload : U128) : Result Ksuid :=
  if ¬ (epochMs ≤ unixMs ∧ unixMs ≤ timeMaxMs) then .error (.ksuidTimestampOutOfRange unixMs)
  else generateAtUnixSeconds (unixMs / 1000) payload

/-! ## Reading -/

/-- Unix timestamp in milliseconds, truncated to the encoded second. -/
def timestampMs (k : Ksuid) : U64 := k.timestampSeconds * 1000

/-- The Unix timestamp (seconds) of a 20-byte KSUID. -/
def timeSeconds (bytes : Str) : Result U64 :=
  if bytes.length ≠ byteLen then .error (.invalidLength byteLen bytes.length)
  else .ok ((fromBeBytes 32 (bytes.take 4)).setWidth 64 + epochSeconds)

/-- The Unix timestamp (milliseconds) of a 20-byte KSUID. -/
def timeMs (bytes : Str) : Result U64 := (timeSeconds bytes).map fun s ↦ s * 1000

/-- The Unix timestamp (milliseconds) of a string KSUID. -/
def decodeTimeMs (id : Str) : Result U64 := (decodeStr id).map fun k ↦ k.timestampMs

/-! ## The field -/

/-- The number in the timestamp field. -/
def field (k : Ksuid) : U32 := fromBeBytes 32 (k.bytes.val.take 4)

theorem field_fromField (f : U32) (payload : Bytes 16) : (fromField f payload).field = f := by
  have htake : (beBytes 4 f ++ payload.val).take 4 = beBytes 4 f :=
    List.take_left' (length_beBytes 4 f)
  apply BitVec.eq_of_toNat_eq
  have hlt := f.isLt
  rw [field, fromField, htake, toNat_fromBeBytes (by rw [length_beBytes]), map_toNat_beBytes]
  exact value_digits hlt

/-- Seconds count from the epoch, and no addition overflows. -/
theorem toNat_timestampSeconds_eq (k : Ksuid) :
    k.timestampSeconds.toNat = k.field.toNat + 1400000000 := by
  have hlt := k.field.isLt
  have hwide : (k.field.setWidth 64 : U64).toNat = k.field.toNat :=
    BitVec.toNat_setWidth_of_le (by decide)
  rw [timestampSeconds, ← field, BitVec.toNat_add, hwide,
    show epochSeconds.toNat = 1400000000 from rfl]
  omega

/-- Nor does the multiplication. -/
theorem toNat_timestampMs (k : Ksuid) :
    k.timestampMs.toNat = (k.field.toNat + 1400000000) * 1000 := by
  have hlt := k.field.isLt
  rw [timestampMs, BitVec.toNat_mul, toNat_timestampSeconds_eq,
    show BitVec.toNat (1000 : U64) = 1000 from rfl]
  omega

/-- The bytes carry the time. -/
theorem timeMs_bytes (k : Ksuid) : timeMs k.bytes.val = .ok k.timestampMs := by
  have hlen : ¬ k.bytes.val.length ≠ byteLen := not_not.mpr k.bytes.property
  rw [timeMs, timeSeconds, if_neg hlen]
  rfl

/-- The text carries the time. -/
theorem decodeTimeMs_encode (k : Ksuid) : decodeTimeMs k.encode = .ok k.timestampMs := by
  rw [decodeTimeMs, decodeStr, encode, decodeBytes_encodeString]
  rfl

/-! ## The window -/

theorem toNat_epochSeconds : epochSeconds.toNat = 1400000000 := rfl

theorem toNat_timeMaxSeconds : timeMaxSeconds.toNat = 1400000000 + (2 ^ 32 - 1) := by decide

theorem toNat_epochMs : epochMs.toNat = 1400000000 * 1000 := by decide

theorem toNat_timeMaxMs : timeMaxMs.toNat = (1400000000 + (2 ^ 32 - 1)) * 1000 := by decide

/-- Within the window the subtraction does not wrap and the cast does not truncate. -/
theorem toNat_setWidth_sub {s : U64} (hlo : epochSeconds ≤ s) (hhi : s ≤ timeMaxSeconds) :
    ((s - epochSeconds).setWidth 32 : U32).toNat = s.toNat - 1400000000 := by
  rw [BitVec.le_def, toNat_epochSeconds] at hlo
  rw [BitVec.le_def, toNat_timeMaxSeconds] at hhi
  rw [BitVec.toNat_setWidth, BitVec.toNat_sub, toNat_epochSeconds]
  omega

theorem timestampField_of_mem {s : U64} (hlo : epochSeconds ≤ s) (hhi : s ≤ timeMaxSeconds) :
    ∃ f, timestampField s = .ok f ∧ f.toNat = s.toNat - 1400000000 :=
  ⟨_, if_neg (not_not.mpr ⟨hlo, hhi⟩), toNat_setWidth_sub hlo hhi⟩

section Milliseconds

variable {ms : U64} {payload : U128}

/-- A millisecond of the window has its second in the window. -/
theorem second_mem (hlo : epochMs ≤ ms) (hhi : ms ≤ timeMaxMs) :
    epochSeconds ≤ ms / 1000 ∧ ms / 1000 ≤ timeMaxSeconds := by
  rw [BitVec.le_def, toNat_epochMs] at hlo
  rw [BitVec.le_def, toNat_timeMaxMs] at hhi
  rw [BitVec.le_def, BitVec.le_def, BitVec.toNat_udiv, toNat_epochSeconds, toNat_timeMaxSeconds,
    show BitVec.toNat (1000 : U64) = 1000 from rfl]
  omega

theorem generateAtUnixMs_of_mem (payload : U128) (hlo : epochMs ≤ ms) (hhi : ms ≤ timeMaxMs) :
    ∃ f, timestampField (ms / 1000) = .ok f ∧ f.toNat = ms.toNat / 1000 - 1400000000 ∧
      generateAtUnixMs ms payload =
        .ok (fromField f (Convert.toBeBytes payload)) := by
  obtain ⟨hlo', hhi'⟩ := second_mem hlo hhi
  obtain ⟨f, hf, hval⟩ := timestampField_of_mem hlo' hhi'
  refine ⟨f, hf, hval, ?_⟩
  rw [generateAtUnixMs, if_neg (not_not.mpr ⟨hlo, hhi⟩), generateAtUnixSeconds, hf]
  rfl

theorem generateAtUnixMs_of_notMem (h : ¬ (epochMs ≤ ms ∧ ms ≤ timeMaxMs)) :
    generateAtUnixMs ms payload = .error (.ksuidTimestampOutOfRange ms) := if_pos h

/-- What is generated at a millisecond has its floored second. -/
theorem timestampMs_of_generateAtUnixMs {k : Ksuid} (h : generateAtUnixMs ms payload = .ok k) :
    k.timestampMs = ms - ms % 1000 := by
  by_cases hmem : epochMs ≤ ms ∧ ms ≤ timeMaxMs
  · obtain ⟨f, -, hval, hgen⟩ := generateAtUnixMs_of_mem payload hmem.1 hmem.2
    rw [hgen, Except.ok.injEq] at h
    have hlo := BitVec.le_def.mp hmem.1
    rw [toNat_epochMs] at hlo
    have hlt := ms.isLt
    apply BitVec.eq_of_toNat_eq
    rw [toNat_timestampMs, ← h, field_fromField, hval, BitVec.toNat_sub, BitVec.toNat_umod,
      show BitVec.toNat (1000 : U64) = 1000 from rfl]
    omega
  · rw [generateAtUnixMs_of_notMem hmem] at h
    cases h

end Milliseconds

/-! ## The clock -/

theorem clamp_mem (x : U64) : epochSeconds ≤ clamp x epochSeconds timeMaxSeconds ∧
    clamp x epochSeconds timeMaxSeconds ≤ timeMaxSeconds := by
  have hwindow : epochSeconds ≤ timeMaxSeconds := by decide
  rw [clamp]
  split
  · exact ⟨BitVec.le_refl _, hwindow⟩
  · next hlo =>
      split
      · exact ⟨hwindow, BitVec.le_refl _⟩
      · next hhi => exact ⟨BitVec.not_lt.mp hlo, BitVec.not_lt.mp hhi⟩

/-- The field is the clamped second of the clock: its cast does not truncate. -/
theorem toNat_currentTimestampField (now : U64) : (currentTimestampField now).toNat =
    (clamp (now / 1000) epochSeconds timeMaxSeconds).toNat - 1400000000 :=
  toNat_setWidth_sub (clamp_mem _).1 (clamp_mem _).2

theorem toNat_clamp (x : U64) : (clamp x epochSeconds timeMaxSeconds).toNat =
    max 1400000000 (min x.toNat (1400000000 + (2 ^ 32 - 1))) := by
  rw [clamp]
  simp only [BitVec.lt_def, toNat_epochSeconds, toNat_timeMaxSeconds]
  split
  · rw [toNat_epochSeconds]
    omega
  · split
    · rw [toNat_timeMaxSeconds]
      omega
    · omega

theorem currentTimestampField_mono {now later : U64} (h : now ≤ later) :
    currentTimestampField now ≤ currentTimestampField later := by
  have hdiv := Nat.div_le_div_right (c := 1000) (BitVec.le_def.mp h)
  rw [BitVec.le_def, toNat_currentTimestampField, toNat_currentTimestampField, toNat_clamp,
    toNat_clamp, BitVec.toNat_udiv, BitVec.toNat_udiv,
    show BitVec.toNat (1000 : U64) = 1000 from rfl]
  omega

/-- A later second of the era has the greater field. -/
theorem currentTimestampField_lt {now later : U64} (hlo : epochSeconds ≤ now / 1000)
    (hhi : later / 1000 ≤ timeMaxSeconds) (h : now / 1000 < later / 1000) :
    currentTimestampField now < currentTimestampField later := by
  rw [BitVec.le_def, toNat_epochSeconds] at hlo
  rw [BitVec.le_def, toNat_timeMaxSeconds] at hhi
  rw [BitVec.lt_def] at h
  rw [BitVec.lt_def, toNat_currentTimestampField, toNat_currentTimestampField, toNat_clamp,
    toNat_clamp]
  omega

/-- A greater field makes the greater string, whatever the payloads. -/
theorem encode_fromField_lt {f g : U32} (h : f < g) (p q : Bytes 16) :
    (fromField f p).encode < (fromField g q).encode := by
  refine encodeString_lt_iff.mpr (bytes_lt_of_timestampSeconds_lt ?_)
  rw [BitVec.lt_def, toNat_timestampSeconds_eq, toNat_timestampSeconds_eq, field_fromField,
    field_fromField]
  exact Nat.add_lt_add_right (BitVec.lt_def.mp h) _

/-- **KSUID times are exact.** -/
theorem exact_times :
    (∀ (ms : U64) (payload : U128),
      ((∃ k, generateAtUnixMs ms payload = .ok k) ↔ epochMs ≤ ms ∧ ms ≤ timeMaxMs) ∧
      (epochMs ≤ ms ∧ ms ≤ timeMaxMs → ∃ f, timestampField (ms / 1000) = .ok f) ∧
      ∀ k, generateAtUnixMs ms payload = .ok k → k.timestampMs = ms - ms % 1000 ∧
        timeMs k.bytes.val = .ok (ms - ms % 1000) ∧ decodeTimeMs k.encode = .ok (ms - ms % 1000)) ∧
    (∀ k : Ksuid, k.timestampMs.toNat = (k.field.toNat + 1400000000) * 1000 ∧
      timeMs k.bytes.val = .ok k.timestampMs ∧ decodeTimeMs k.encode = .ok k.timestampMs) ∧
    (∀ now : U64, (currentTimestampField now).toNat + 1400000000 =
      max 1400000000 (min (now.toNat / 1000) (1400000000 + (2 ^ 32 - 1)))) ∧
    (∀ now later : U64, now ≤ later → currentTimestampField now ≤ currentTimestampField later) ∧
    ∀ now later : U64, epochSeconds ≤ now / 1000 → later / 1000 ≤ timeMaxSeconds →
      now / 1000 < later / 1000 →
        ∀ p q : U128, (generate now p).encode < (generate later q).encode := by
  refine ⟨fun ms payload ↦ ⟨⟨?_, ?_⟩, ?_, fun k hk ↦ ?_⟩, fun k ↦ ⟨toNat_timestampMs k,
    timeMs_bytes k, decodeTimeMs_encode k⟩, fun now ↦ ?_, fun _ _ ↦ currentTimestampField_mono, ?_⟩
  · rintro ⟨k, hk⟩
    by_contra hmem
    rw [generateAtUnixMs_of_notMem hmem] at hk
    cases hk
  · rintro ⟨hlo, hhi⟩
    obtain ⟨f, -, -, hgen⟩ := generateAtUnixMs_of_mem payload hlo hhi
    exact ⟨_, hgen⟩
  · rintro ⟨hlo, hhi⟩
    obtain ⟨f, hf, -⟩ := generateAtUnixMs_of_mem payload hlo hhi
    exact ⟨f, hf⟩
  · have htime := timestampMs_of_generateAtUnixMs hk
    exact ⟨htime, htime ▸ timeMs_bytes k, htime ▸ decodeTimeMs_encode k⟩
  · rw [toNat_currentTimestampField, toNat_clamp, BitVec.toNat_udiv,
      show BitVec.toNat (1000 : U64) = 1000 from rfl]
    omega
  · intro now later hlo hhi h p q
    exact encode_fromField_lt (currentTimestampField_lt hlo hhi h) _ _

end Rivid.Ksuid
