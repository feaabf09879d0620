import Rivid.Core.Batch
import Rivid.Core.KsuidTime
import Rivid.Core.SeedTime
import Rivid.Core.Uuidv7
import Rivid.Lib.Chunks

/-!
# Filling buffers

The bulk functions write one identifier over each chunk of a buffer, all stamped with one
captured time; the functions that return strings push one text after the other.  Both draw
block by block from the source (`fillBlocks`, `pushLoop`), so a buffer holds what the
strings say.  A length that does not fit is rejected before anything is drawn or written.
-/

namespace Rivid

open Chunks Id128 Rng

/-! ## Fills -/

/-- What a fill leaves: what it returned, the buffer and the source. -/
structure Filled (ρ : Type) where
  result : Result ℕ
  buf : List U8
  rng : ρ

/-- `next_multiple_of`. -/
def nextMultipleOf (n m : ℕ) : ℕ :=
  match n % m with
  | 0 => n
  | r => n + (m - r)

/-- Validates that a fill-buffer length is a multiple of `n`; `validate_block_len` is the case
of 16 bytes. -/
def validateLen (n len : ℕ) : Result Unit :=
  if len % n ≠ 0 then .error (.invalidLength (nextMultipleOf len n) len) else .ok ()

/-- Fills `buf` with blocks of `n` bytes. -/
def fillBlocks {ρ : Type} {n : ℕ} (block : ρ → Bytes n × ρ) (buf : List U8) (rng : ρ) : Filled ρ :=
  match validateLen n buf.length with
  | .error e => ⟨.error e, buf, rng⟩
  | .ok () =>
      let st := fillLoop n (fun rng ↦ let b := block rng; (b.1.val, b.2)) (buf.length / n) buf rng
      ⟨.ok (buf.length / n), st.1, st.2⟩

section Source

variable {ρ : Type} [Rng ρ]

/-- Two words of the source make a block. -/
def drawBlock (block : U64 → U64 → Bytes 16) (rng : ρ) : Bytes 16 × ρ :=
  let hi := nextU64 rng
  let lo := nextU64 hi.2
  (block hi.1 lo.1, lo.2)

/-- Fills `buf` with ULIDs drawn from an explicit source, stamped with an explicit timestamp. -/
def fillUlidWithTs (buf : List U8) (ts : U64) (rng : ρ) : Filled ρ :=
  fillBlocks (drawBlock (ulidBlock ts)) buf rng

/-- Generates `count` ULID strings that share the captured timestamp `ts`. -/
def generateUlidStrings (count : ℕ) (ts : U64) (rng : ρ) : List Str × ρ :=
  pushLoop (fun rng ↦
    let b := drawBlock (ulidBlock ts) rng
    (Crockford.encodeString (fromBeBytes 128 b.1.val), b.2)) count rng

namespace Uuidv7

/-- Draws fresh randomness through `uuidv7Block` for one ID. -/
def generateBlock (rng : ρ) (ts : U64) : Bytes 16 × ρ :=
  drawBlock (fun hi lo ↦
    uuidv7Block ts (Convert.toBeBytes (hi.setWidth 128 <<< 64 ||| lo.setWidth 128))) rng

/-- Fills `buf` with UUIDv7 values when the wall clock shows `nowMs`. -/
def fillWith (buf : List U8) (nowMs : U64) (rng : ρ) : Filled ρ :=
  fillBlocks (fun rng ↦ generateBlock rng nowMs) buf rng

/-- Generates `count` UUIDv7 strings when the wall clock shows `nowMs`. -/
def generateStrings (count : ℕ) (nowMs : U64) (rng : ρ) : List Str × ρ :=
  pushLoop (fun rng ↦ let b := generateBlock rng nowMs; (formatHyphenated b.1, b.2)) count rng

end Uuidv7

end Source

/-- A source that fills byte strings. -/
class SecureBytes (ρ : Type) where
  fillSecure : (n : ℕ) → ρ → Bytes n × ρ

namespace Ksuid

/-- The bytes of one KSUID: the field, and a payload from the source. -/
def fieldBlock {ρ : Type} [SecureBytes ρ] (field : U32) (rng : ρ) : Bytes 20 × ρ :=
  let payload := SecureBytes.fillSecure 16 rng
  ((fromField field payload.1).bytes, payload.2)

/-- Fills `buf` with raw KSUIDs when the wall clock shows `nowMs`. -/
def fillSecure {ρ : Type} [SecureBytes ρ] (buf : List U8) (nowMs : U64) (rng : ρ) : Filled ρ :=
  fillBlocks (fieldBlock (currentTimestampField nowMs)) buf rng

end Ksuid

/-! ## What a fill writes -/

section Blocks

variable {ρ : Type} {n : ℕ} {block : ρ → Bytes n × ρ} {buf : List U8}

/-- A fill fails as a whole. -/
theorem fillBlocks_of_not_dvd (h : buf.length % n ≠ 0) (rng : ρ) : fillBlocks block buf rng =
    ⟨.error (.invalidLength (nextMultipleOf buf.length n) buf.length), buf, rng⟩ := by
  rw [fillBlocks, validateLen, if_pos h]

/-- The blocks that a fill writes, one after the other. -/
structure HoldsBlocks (block : ρ → Bytes n × ρ) (buf : List U8) (rng : ρ) (out : Filled ρ) :
    Prop where
  result : out.result = .ok (buf.length / n)
  length : out.buf.length = buf.length
  source : out.rng = sourceAfter block rng (buf.length / n)
  blocks : ∀ i < buf.length / n, chunk n out.buf i = (block (sourceAfter block rng i)).1.val

theorem fillBlocks_of_dvd (h : buf.length % n = 0) (rng : ρ) :
    HoldsBlocks block buf rng (fillBlocks block buf rng) := by
  have hfill : fillBlocks block buf rng = ⟨.ok (buf.length / n),
      (fillLoop n (fun rng ↦ ((block rng).1.val, (block rng).2)) (buf.length / n) buf rng).1,
      (fillLoop n (fun rng ↦ ((block rng).1.val, (block rng).2)) (buf.length / n) buf rng).2⟩ := by
    rw [fillBlocks, validateLen, if_neg (not_not.mpr h)]
  have hblock : ∀ rng, ((block rng).1.val, (block rng).2).1.length = n :=
    fun rng ↦ (block rng).1.property
  have hfits : n * (buf.length / n) ≤ buf.length := Nat.mul_div_le _ _
  rw [hfill]
  refine ⟨rfl, length_fillLoop hblock hfits rng, snd_fillLoop buf rng, fun i hi ↦ ?_⟩
  rw [chunk_fillLoop hblock hfits rng i, if_pos hi]
  rfl

end Blocks

/-! ## Words -/

section Words

variable {ρ : Type} [Rng ρ] {block : U64 → U64 → Bytes 16} {buf : List U8}

/-- The word at index `i` of a source. -/
def word (rng : ρ) (i : ℕ) : U64 := (nextU64 (skip rng i)).1

theorem drawBlock_skip (block : U64 → U64 → Bytes 16) (rng : ρ) (i : ℕ) :
    drawBlock block (skip rng i) = (block (word rng i) (word rng (i + 1)), skip rng (i + 2)) := rfl

/-- A block takes two words. -/
theorem sourceAfter_drawBlock (block : U64 → U64 → Bytes 16) (rng : ρ) (i : ℕ) :
    sourceAfter (drawBlock block) rng i = skip rng (2 * i) := by
  induction i with
  | zero => rfl
  | succ i ih => rw [sourceAfter_succ, ih, drawBlock_skip, Nat.mul_succ]

/-- The strings that a loop pushes for its blocks. -/
theorem pushLoop_drawBlock (write : Bytes 16 → Str) (count : ℕ) (rng : ρ) :
    pushLoop (fun rng ↦ (write (drawBlock block rng).1, (drawBlock block rng).2)) count rng =
      ((List.range count).map fun i ↦ write (block (word rng (2 * i)) (word rng (2 * i + 1))),
        skip rng (2 * count)) := by
  have hsource : ∀ i, sourceAfter
      (fun rng ↦ (write (drawBlock block rng).1, (drawBlock block rng).2)) rng i =
        skip rng (2 * i) := sourceAfter_drawBlock block rng
  rw [pushLoop_eq, hsource]
  simp only [hsource, drawBlock_skip]

/-- A fill of 16-byte blocks of two words each, against the strings of the same batch: what
it returns, what it consumes, and what each block is, says and tells as its time. -/
structure RepeatsGeneration (block : U64 → U64 → Bytes 16) (reads : Str → Result (Bytes 16))
    (time : Bytes 16 → U64) (ts : U64) (buf : List U8) (rng : ρ) (out : Filled ρ)
    (strings : List Str × ρ) : Prop where
  result : out.result = .ok (buf.length / 16)
  length : out.buf.length = buf.length
  consumed : out.rng = skip rng (2 * (buf.length / 16)) ∧ strings.2 = out.rng
  count : strings.1.length = buf.length / 16
  blocks : ∀ i < buf.length / 16, ∃ b : Bytes 16, chunk 16 out.buf i = b.val ∧
    b = block (word rng (2 * i)) (word rng (2 * i + 1)) ∧ time b = ts ∧
      ∃ s, strings.1[i]? = some s ∧ reads s = .ok b

theorem repeatsGeneration (write : Bytes 16 → Str) {reads : Str → Result (Bytes 16)}
    {time : Bytes 16 → U64} {ts : U64} (hreads : ∀ b, reads (write b) = .ok b)
    (htime : ∀ hi lo, time (block hi lo) = ts) (h : buf.length % 16 = 0) (rng : ρ) :
    RepeatsGeneration block reads time ts buf rng (fillBlocks (drawBlock block) buf rng)
      (pushLoop (fun rng ↦ (write (drawBlock block rng).1, (drawBlock block rng).2))
        (buf.length / 16) rng) := by
  have hholds : HoldsBlocks (drawBlock block) buf rng (fillBlocks (drawBlock block) buf rng) :=
    fillBlocks_of_dvd h rng
  have hrng := hholds.source
  rw [sourceAfter_drawBlock] at hrng
  rw [pushLoop_drawBlock]
  refine ⟨hholds.result, hholds.length, ⟨hrng, hrng.symm⟩, by simp, fun i hi ↦ ?_⟩
  refine ⟨block (word rng (2 * i)) (word rng (2 * i + 1)), ?_, rfl, htime _ _, _, ?_, hreads _⟩
  · rw [hholds.blocks i hi, sourceAfter_drawBlock, drawBlock_skip]
  · rw [List.getElem?_map, List.getElem?_range hi, Option.map_some]

end Words

/-! ## The three formats -/

/-- The time in the bytes of a ULID. -/
def ulidTime (b : Bytes 16) : U64 := (Id128.mk (fromBeBytes 128 b.val)).timestampMs

/-- The bytes that a ULID string stands for. -/
def ulidBytes (s : Str) : Result (Bytes 16) := (Crockford.decodeChars s).map Convert.toBeBytes

theorem ulidTime_ulidBlock {ts : U64} (h : ts ≤ timeMax) (hi lo : U64) :
    ulidTime (ulidBlock ts hi lo) = ts := by
  rw [ulidTime, ulidBlock, Convert.fromBeBytes_toBeBytes]
  refine timestampMs_fromParts h (le_randomMask_iff.mpr ?_)
  rw [toNat_and_randomMask]
  exact Nat.mod_lt _ (by decide)

theorem ulidBytes_encodeString (b : Bytes 16) :
    ulidBytes (Crockford.encodeString (fromBeBytes 128 b.val)) = .ok b := by
  rw [ulidBytes, Crockford.decodeChars_encodeString]
  exact congrArg Except.ok (Convert.toBeBytes_fromBeBytes b)

/-- **Bulk fills.**  A length that is no multiple of the block is an error that leaves the
buffer and the source as they are; any other buffer is filled with the blocks that
generation one by one makes of the same time and the same words. -/
theorem fills_repeat_generation :
    (∀ (ρ : Type) [Rng ρ] (buf : List U8) (ts : U64) (rng : ρ), ts ≤ timeMax →
      (buf.length % 16 ≠ 0 → fillUlidWithTs buf ts rng =
        ⟨.error (.invalidLength (nextMultipleOf buf.length 16) buf.length), buf, rng⟩) ∧
      (buf.length % 16 = 0 → RepeatsGeneration (ulidBlock ts) ulidBytes ulidTime ts buf rng
        (fillUlidWithTs buf ts rng) (generateUlidStrings (buf.length / 16) ts rng))) ∧
    (∀ (ρ : Type) [Rng ρ] (buf : List U8) (ts : U64) (rng : ρ), ts ≤ timeMax →
      (buf.length % 16 ≠ 0 → Uuidv7.fillWith buf ts rng =
        ⟨.error (.invalidLength (nextMultipleOf buf.length 16) buf.length), buf, rng⟩) ∧
      (buf.length % 16 = 0 → RepeatsGeneration
        (fun hi lo ↦ Uuidv7.uuidv7Block ts
          (Convert.toBeBytes (hi.setWidth 128 <<< 64 ||| lo.setWidth 128)))
        Convert.parseHyphenatedUuid Uuidv7.timestampMs ts buf rng
        (Uuidv7.fillWith buf ts rng) (Uuidv7.generateStrings (buf.length / 16) ts rng))) ∧
    ∀ (ρ : Type) [SecureBytes ρ] (buf : List U8) (now : U64) (rng : ρ),
      (buf.length % 20 ≠ 0 → Ksuid.fillSecure buf now rng =
        ⟨.error (.invalidLength (nextMultipleOf buf.length 20) buf.length), buf, rng⟩) ∧
      (buf.length % 20 = 0 → HoldsBlocks (Ksuid.fieldBlock (Ksuid.currentTimestampField now))
        buf rng (Ksuid.fillSecure buf now rng) ∧ ∀ i < buf.length / 20, ∃ k : Ksuid,
          chunk 20 (Ksuid.fillSecure buf now rng).buf i = k.bytes.val ∧
            k.field = Ksuid.currentTimestampField now) := by
  refine ⟨fun ρ _ buf ts rng hts ↦ ⟨fun h ↦ fillBlocks_of_not_dvd h rng, fun h ↦ ?_⟩,
    fun ρ _ buf ts rng hts ↦ ⟨fun h ↦ fillBlocks_of_not_dvd h rng, fun h ↦ ?_⟩,
    fun ρ _ buf now rng ↦ ⟨fun h ↦ fillBlocks_of_not_dvd h rng, fun h ↦ ?_⟩⟩
  · exact repeatsGeneration _ ulidBytes_encodeString (ulidTime_ulidBlock hts) h rng
  · exact repeatsGeneration Uuidv7.formatHyphenated Convert.parse_formatHyphenatedLower
      (fun _ _ ↦ Uuidv7.timestampMs_uuidv7Block _ hts) h rng
  · have hholds : HoldsBlocks (Ksuid.fieldBlock (Ksuid.currentTimestampField now)) buf rng
        (Ksuid.fillSecure buf now rng) := fillBlocks_of_dvd h rng
    exact ⟨hholds, fun i hi ↦ ⟨_, hholds.blocks i hi, Ksuid.field_fromField _ _⟩⟩

end Rivid
