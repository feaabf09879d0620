import Rivid.Binding.Host

/-!
# What a call of the module returns

A call that returns leaves the override as it found it, or sets it to the reading it was given,
and the identifiers in what it returns carry one time: the seed, the reading, or what the engine
read from its clock.  The calls are inverted one entry point at a time (`call_cases`).
-/

namespace Rivid

namespace Wasm

/-! ## The time in what a call returns -/

/-- The 48 bits of a time that go into an identifier. -/
def low48 (t : U64) : U64 := t &&& timeMax

theorem toNat_low48 (t : U64) : (low48 t).toNat = t.toNat % 2 ^ 48 := toNat_and_mask rfl

theorem low48_le (t : U64) : low48 t ≤ timeMax := by
  rw [le_timeMax_iff, toNat_low48]
  exact Nat.mod_lt _ (by decide)

theorem low48_of_le {t : U64} (h : t ≤ timeMax) : low48 t = t := by
  apply BitVec.eq_of_toNat_eq
  rw [toNat_low48, Nat.mod_eq_of_lt (le_timeMax_iff.mp h)]

theorem timestampMs_fromParts_eq (t : U64) (r : U128) :
    (Id128.fromParts t r).timestampMs = low48 t := by
  apply BitVec.eq_of_toNat_eq
  rw [Id128.toNat_timestampMs, Id128.toNat_fromParts, toNat_low48]
  omega

/-- The time in the 16 bytes of either format. -/
def blockTime (l : List U8) : U64 := (Id128.mk (fromBeBytes 128 l)).timestampMs

/-- The time in a UUID string. -/
def uuidTime (s : Str) : Result U64 := (Convert.parseHyphenatedUuid s).map fun b ↦ blockTime b.val

theorem blockTime_toBeBytes (t : U64) (r : U128) :
    blockTime (Convert.toBeBytes (Id128.fromParts t r).asU128).val = low48 t := by
  rw [blockTime, Convert.fromBeBytes_toBeBytes]
  exact timestampMs_fromParts_eq t r

theorem decodeTime_encodeString (t : U64) (r : U128) :
    Ulid.decodeTime (Crockford.encodeString (Id128.fromParts t r).asU128) = .ok (low48 t) := by
  rw [Ulid.decodeTime_of_decodeChars (Crockford.decodeChars_encodeString _)]
  exact congrArg Except.ok (timestampMs_fromParts_eq t r)

/-- A UUIDv7 block keeps the low 48 bits of its time as well. -/
theorem uuidv7Block_low48 (ts : U64) (r : Bytes 16) :
    Uuidv7.uuidv7Block (low48 ts) r = Uuidv7.uuidv7Block ts r := by
  apply Subtype.ext
  rw [Uuidv7.val_uuidv7Block, Uuidv7.val_uuidv7Block]
  congr 1
  refine List.map_congr_left fun i hi ↦ ?_
  have hi' : i < 6 := List.mem_range.mp hi
  apply BitVec.eq_of_toNat_eq
  rw [BitVec.toNat_setWidth, BitVec.toNat_setWidth, toNat_ushiftRight_eq_div,
    toNat_ushiftRight_eq_div, toNat_low48]
  -- The byte ends below the 48th bit.
  obtain ⟨k, hk⟩ : ∃ k, 48 = 8 * (6 - 1 - i) + (8 + k) := ⟨48 - 8 * (6 - 1 - i) - 8, by omega⟩
  rw [hk, Nat.pow_add, Nat.mod_mul_right_div_self,
    Nat.mod_mod_of_dvd _ (Nat.pow_dvd_pow 2 (Nat.le_add_right 8 k))]

theorem blockTime_uuidv7Block (ts : U64) (r : Bytes 16) :
    blockTime (Uuidv7.uuidv7Block ts r).val = low48 ts := by
  have htime := Uuidv7.timestampMs_uuidv7Block r (low48_le ts)
  rw [uuidv7Block_low48] at htime
  rw [← htime]
  apply BitVec.eq_of_toNat_eq
  rw [blockTime, Id128.toNat_timestampMs, Uuidv7.toNat_timestampMs]
  rfl

theorem uuidTime_formatHyphenated (b : Bytes 16) :
    uuidTime (Uuidv7.formatHyphenated b) = .ok (blockTime b.val) := by
  rw [uuidTime, Uuidv7.formatHyphenated, Convert.parse_formatHyphenatedLower]
  rfl

/-! ## Calls -/

namespace EntryPoint

/-- The argument that pins the time, where there is one. -/
def seedTime : EntryPoint → Option JsNumber
  | .ulid seedTime | .monotonic _ seedTime | .encodeTime seedTime => seedTime
  | _ => none

/-- How many identifiers a call asks for. -/
def count : EntryPoint → ℕ
  | .generateMany count | .generateBytes count | .generateUuidV7Many count => count
  | _ => 1

/-- Whether a call sets the override. -/
def syncs : EntryPoint → Bool
  | .ulid _ | .monotonic _ _ | .encodeTime _ => false
  | _ => true

/-- What a call asks for at the time `ts` besides that this is a time. -/
def Accepts (ts : U64) : EntryPoint → Prop
  | .ulid _ | .encodeTime _ => ts ≤ timeMax
  | .generateMany count | .generateBytes count | .generateUuidV7Many count =>
      0 < count ∧ count ≤ 100000000
  | _ => True

/-- The times that the identifiers in a value say. -/
def times : EntryPoint → Returned → List (Result U64)
  | .encodeTime _, .string s => [Crockford.decodeTimeBytes s]
  | .uuidv7, .string s => [uuidTime s]
  | _, .string s => [Ulid.decodeTime s]
  | .generateUuidV7Many _, .strings l => l.map uuidTime
  | _, .strings l => l.map Ulid.decodeTime
  | _, .bytes l => (List.range (l.length / 16)).map fun i ↦ .ok (blockTime (Chunks.chunk 16 l i))

/-- The time that a call at `ts` stamps its identifiers with.  A monotonic one does not go back
behind its stream; if its stream is exhausted, it is stamped with the override. -/
def stamp {ρ : Type} (w : Instance ρ) (ts : U64) : EntryPoint → U64
  | .monotonic k _ =>
      if (w.states k).Exhausted ts then w.override.ms
      else if (w.states k).lastMs < ts then ts else (w.states k).lastMs
  | _ => ts

end EntryPoint

/-- The arguments of a call are in order. -/
def Request.Accepted (c : Request) : Prop :=
  ∃ ts, seedTs c.entry.seedTime c.date = .ok ts ∧ c.entry.Accepts ts

namespace Instance

variable {ρ : Type}

/-- What a call at the time `ts` does that returns a value. -/
structure Returns (w : Instance ρ) (c : Request) (ts : U64) (v : Returned) (w' : Instance ρ) :
    Prop where
  override : w'.override = if c.entry.syncs then ⟨nowMs c.date, true⟩ else w.override
  pool : w'.pool.idx ≤ 32
  times : c.entry.times v = List.replicate c.entry.count (.ok (low48 (c.entry.stamp w ts)))
  own : ∀ k seedTime, c.entry = .monotonic k seedTime →
    v = .string (w'.states k).text ∧
      ∃ clock, (w.states k).Emits ts w.override.readings (w'.states k) clock
  others : ∀ k, (∀ seedTime, c.entry ≠ .monotonic k seedTime) → w'.states k = w.states k

variable {w : Instance ρ} {date : JsNumber} {ts : U64} {seedTime : Option JsNumber}

theorem random80_ok (hw : w.pool.idx ≤ 32) : ∃ r pool fills, pool.idx ≤ 32 ∧
    w.random80 = .ok (r, { w with pool, fills }) := by
  have hget : ∀ p : EntropyPool, p.idx < 32 → ∃ v, p.words.val[p.idx]? = some v := fun p hp ↦
    ⟨_, List.getElem?_eq_getElem (by rw [p.words.property]; exact hp)⟩
  have hnext : ∃ v pool fills, pool.idx ≤ 32 ∧
      nextPooled w.pool w.fills = some (v, pool, fills) := by
    rw [nextPooled, w.pool.words.property]
    by_cases hidx : w.pool.idx = 32
    · obtain ⟨v, hv⟩ := hget ⟨0, w.fills 0⟩ (Nat.succ_pos 31)
      refine ⟨v, ⟨1, w.fills 0⟩, fun n ↦ w.fills (n + 1), Nat.succ_le_succ (Nat.zero_le 31), ?_⟩
      rw [if_pos hidx]
      dsimp only at hv ⊢
      rw [hv, Option.map_some]
    · have hlt : w.pool.idx < 32 := Nat.lt_of_le_of_ne hw hidx
      obtain ⟨v, hv⟩ := hget w.pool hlt
      refine ⟨v, ⟨w.pool.idx + 1, w.pool.words⟩, w.fills, hlt, ?_⟩
      rw [if_neg hidx]
      dsimp only
      rw [hv, Option.map_some]
  obtain ⟨v, pool, fills, hle, heq⟩ := hnext
  exact ⟨v &&& Id128.randomMask, pool, fills, hle, by rw [random80, Rivid.random80, heq]; rfl⟩

theorem ulid_ok (hw : w.pool.idx ≤ 32) (hts : seedTs seedTime date = .ok ts) (hle : ts ≤ timeMax) :
    ∃ v w', w.ulid date seedTime = .ok (.ok v, w') ∧ w.Returns ⟨.ulid seedTime, date⟩ ts v w' := by
  obtain ⟨r, pool, fills, hpool, hr⟩ := random80_ok hw
  refine ⟨.string (Crockford.encodeString (Id128.fromParts ts r).asU128),
    { w with pool, fills }, ?_, rfl, hpool, ?_, nofun, fun _ _ ↦ rfl⟩
  · rw [ulid, hts]
    dsimp only
    rw [if_neg (BitVec.not_lt.mpr hle), hr]
    rfl
  · exact congrArg ([·]) (decodeTime_encodeString ts r)

theorem times_block (b : Bytes 16) :
    ((List.range (b.val.length / 16)).map fun i ↦
        (.ok (blockTime (Chunks.chunk 16 b.val i)) : Result U64)) = [.ok (blockTime b.val)] := by
  have hchunk : Chunks.chunk 16 b.val 0 = b.val := List.take_of_length_le (le_of_eq b.property)
  rw [b.property]
  exact congrArg (fun l ↦ [Except.ok (blockTime l)]) hchunk

theorem ulidBytes_ok (hw : w.pool.idx ≤ 32) :
    ∃ v w', w.ulidBytes date = .ok (.ok v, w') ∧
      w.Returns ⟨.ulidBytes, date⟩ (nowMs date) v w' := by
  obtain ⟨r, pool, fills, hpool, hr⟩ := random80_ok (w := w.syncClock date) hw
  have hnow : (w.syncClock date).override.nowMs = .ok (nowMs date) := rfl
  refine ⟨.bytes (Convert.toBeBytes (Id128.fromParts (nowMs date) r).asU128).val,
    { w.syncClock date with pool, fills }, ?_, rfl, hpool, ?_, nofun, fun _ _ ↦ rfl⟩
  · rw [ulidBytes]
    dsimp only
    rw [hnow, ok_bind, hr]
    rfl
  · refine (times_block _).trans ?_
    rw [blockTime_toBeBytes]
    rfl

variable [Rng ρ] {count : ℕ}

omit [Rng ρ] in
theorem maxBatch_ok (hcount : 0 < count ∧ count ≤ 100000000) : maxBatch count = .ok () := by
  rw [maxBatch, if_neg (by omega)]

theorem times_ulidBlock (ts hi lo : U64) :
    Ulid.decodeTime (Crockford.encodeString (fromBeBytes 128 (ulidBlock ts hi lo).val)) =
      .ok (low48 ts) := by
  rw [ulidBlock, Convert.fromBeBytes_toBeBytes]
  exact decodeTime_encodeString ts _

/-- The strings of a batch say the time that their blocks do. -/
theorem times_strings {block : U64 → U64 → Bytes 16} {f : Bytes 16 → Str}
    {time : Str → Result U64} {t : U64} (htime : ∀ hi lo, time (f (block hi lo)) = .ok t)
    (rng : ρ) : ((Chunks.pushLoop (fun rng ↦
        (f (drawBlock block rng).1, (drawBlock block rng).2)) count rng).1.map time) =
      List.replicate count (.ok t) := by
  rw [pushLoop_drawBlock]
  refine List.eq_replicate_iff.mpr ⟨by simp, fun x hx ↦ ?_⟩
  obtain ⟨id, hid, rfl⟩ := List.mem_map.mp hx
  obtain ⟨i, -, rfl⟩ := List.mem_map.mp hid
  exact htime _ _

theorem generateMany_ok (hw : w.pool.idx ≤ 32) (hcount : 0 < count ∧ count ≤ 100000000) :
    ∃ v w', w.generateMany date count = .ok (.ok v, w') ∧
      w.Returns ⟨.generateMany count, date⟩ (nowMs date) v w' := by
  refine ⟨.strings (generateUlidStrings count (nowMs date) w.rng).1,
    { w.syncClock date with rng := (generateUlidStrings count (nowMs date) w.rng).2 },
    ?_, rfl, hw, ?_, nofun, fun _ _ ↦ rfl⟩
  · rw [generateMany, maxBatch_ok hcount]
    rfl
  · exact times_strings (f := fun b ↦ Crockford.encodeString (fromBeBytes 128 b.val))
      (times_ulidBlock (nowMs date)) w.rng

theorem generateBytes_ok (hw : w.pool.idx ≤ 32) (hcount : 0 < count ∧ count ≤ 100000000) :
    ∃ v w', w.generateBytes date count = .ok (.ok v, w') ∧
      w.Returns ⟨.generateBytes count, date⟩ (nowMs date) v w' := by
  have hlen : (List.replicate (count * 16) (0 : U8)).length = count * 16 := List.length_replicate
  have hdvd : (List.replicate (count * 16) (0 : U8)).length % 16 = 0 := by
    rw [hlen]
    exact Nat.mul_mod_left count 16
  have hholds : HoldsBlocks (drawBlock (ulidBlock (nowMs date))) (List.replicate (count * 16) 0)
      w.rng (fillUlidWithTs (List.replicate (count * 16) 0) (nowMs date) w.rng) :=
    fillBlocks_of_dvd hdvd w.rng
  have hdiv : (List.replicate (count * 16) (0 : U8)).length / 16 = count := by
    rw [hlen]
    exact Nat.mul_div_left count (by decide)
  refine ⟨.bytes (fillUlidWithTs (List.replicate (count * 16) 0) (nowMs date) w.rng).buf,
    { w.syncClock date with
      rng := (fillUlidWithTs (List.replicate (count * 16) 0) (nowMs date) w.rng).rng },
    ?_, rfl, hw, ?_, nofun, fun _ _ ↦ rfl⟩
  · have hnow : (w.syncClock date).override.nowMs = .ok (nowMs date) := rfl
    rw [generateBytes, maxBatch_ok hcount]
    dsimp only
    rw [hnow, ok_bind]
    dsimp only [syncClock]
    rw [hholds.result]
    rfl
  · simp only [EntryPoint.times]
    refine List.eq_replicate_iff.mpr ⟨?_, fun t ht ↦ ?_⟩
    · rw [List.length_map, List.length_range, hholds.length, hdiv]
      rfl
    · obtain ⟨i, hi, rfl⟩ := List.mem_map.mp ht
      rw [hholds.length] at hi
      rw [hholds.blocks i (List.mem_range.mp hi)]
      exact congrArg Except.ok (blockTime_toBeBytes _ _)

theorem uuidv7_ok (hw : w.pool.idx ≤ 32) :
    ∃ v w', w.uuidv7 date = .ok (.ok v, w') ∧ w.Returns ⟨.uuidv7, date⟩ (nowMs date) v w' := by
  refine ⟨.string (Uuidv7.formatHyphenated (Uuidv7.generateBlock w.rng (nowMs date)).1),
    { w.syncClock date with rng := (Uuidv7.generateBlock w.rng (nowMs date)).2 }, rfl, rfl, hw,
    ?_, nofun, fun _ _ ↦ rfl⟩
  have htime := (uuidTime_formatHyphenated (Uuidv7.generateBlock w.rng (nowMs date)).1).trans
    (congrArg Except.ok (blockTime_uuidv7Block _ _))
  exact congrArg ([·]) htime

theorem uuidv7Bytes_ok (hw : w.pool.idx ≤ 32) :
    ∃ v w', w.uuidv7Bytes date = .ok (.ok v, w') ∧
      w.Returns ⟨.uuidv7Bytes, date⟩ (nowMs date) v w' := by
  refine ⟨.bytes (Uuidv7.generateBlock w.rng (nowMs date)).1.val,
    { w.syncClock date with rng := (Uuidv7.generateBlock w.rng (nowMs date)).2 }, rfl, rfl, hw,
    ?_, nofun, fun _ _ ↦ rfl⟩
  exact (times_block _).trans (congrArg (fun t ↦ [Except.ok t]) (blockTime_uuidv7Block _ _))

theorem generateUuidV7Many_ok (hw : w.pool.idx ≤ 32) (hcount : 0 < count ∧ count ≤ 100000000) :
    ∃ v w', w.generateUuidV7Many date count = .ok (.ok v, w') ∧
      w.Returns ⟨.generateUuidV7Many count, date⟩ (nowMs date) v w' := by
  refine ⟨.strings (Uuidv7.generateStrings count (nowMs date) w.rng).1,
    { w.syncClock date with rng := (Uuidv7.generateStrings count (nowMs date) w.rng).2 },
    ?_, rfl, hw, ?_, nofun, fun _ _ ↦ rfl⟩
  · rw [generateUuidV7Many, maxBatch_ok hcount]
    rfl
  · exact times_strings (f := Uuidv7.formatHyphenated) (fun hi lo ↦
      (uuidTime_formatHyphenated _).trans (congrArg Except.ok (blockTime_uuidv7Block _ _))) w.rng

omit [Rng ρ] in
theorem encodeTime_ok (hw : w.pool.idx ≤ 32) (hts : seedTs seedTime date = .ok ts)
    (hle : ts ≤ timeMax) :
    ∃ v w', w.encodeTime date seedTime = .ok (.ok v, w') ∧
      w.Returns ⟨.encodeTime seedTime, date⟩ ts v w' := by
  have htext := Crockford.encodeTimeStr_eq hle
  refine ⟨.string (Crockford.base32.text 10 ts.toNat), w, ?_, rfl, hw, ?_, nofun, fun _ _ ↦ rfl⟩
  · rw [encodeTime, hts]
    dsimp only
    rw [htext]
  · have hlt := le_timeMax_iff.mp hle
    obtain ⟨t, ht, hval⟩ := Crockford.decodeTimeBytes_of_parse (Crockford.base32.length_text 10 _)
      (Crockford.base32.parse_text (by decide) (show ts.toNat < 32 ^ 10 by omega)) hlt
    have htime : t = low48 ts := by
      rw [low48_of_le hle]
      exact BitVec.eq_of_toNat_eq hval
    exact congrArg ([·]) (htime ▸ ht)

theorem monotonic_cases (hw : w.pool.idx ≤ 32) {k : StreamId}
    (hts : seedTs seedTime date = .ok ts) :
    (∃ x, advance w.override (w.states k) ts w.rng = .error x ∧
      w.monotonic date k seedTime = .error x) ∨
    ∃ v w', w.monotonic date k seedTime = .ok (.ok v, w') ∧
      w.Returns ⟨.monotonic k seedTime, date⟩ ts v w' := by
  rw [monotonic, hts]
  dsimp only
  cases hadv : advance w.override (w.states k) ts w.rng with
  | error x => exact Or.inl ⟨x, rfl, rfl⟩
  | ok r =>
      obtain ⟨state, rng⟩ := r
      obtain ⟨clock, hemits⟩ := advance_ok hadv
      have hself : Function.update w.states k state k = state := Function.update_self ..
      refine Or.inr ⟨.string state.text,
        { w with states := Function.update w.states k state, rng }, rfl, rfl, hw, ?_, ?_, ?_⟩
      · have hstamp : EntryPoint.stamp w ts (.monotonic k seedTime) = state.lastMs :=
          (lastMs_of_advance hadv).symm
        rw [hstamp]
        exact congrArg ([·]) (decodeTime_encodeString state.lastMs state.lastRand)
      · rintro k' s heq
        cases heq
        dsimp only
        rw [hself]
        exact ⟨rfl, clock, hemits⟩
      · intro k' hk'
        refine Function.update_of_ne ?_ _ _
        rintro rfl
        exact hk' seedTime rfl

/-- A call throws and changes nothing, waits forever or panics as the clock of its exhausted
stream does, or returns; which it does is up to its arguments and this clock. -/
theorem call_cases (hw : w.pool.idx ≤ 32) (c : Request) :
    (¬ c.Accepted ∧ ∃ x, w.call c = .ok (.error x, w)) ∨
    ∃ ts, seedTs c.entry.seedTime c.date = .ok ts ∧ c.entry.Accepts ts ∧
      ((∃ k seedTime x, c.entry = .monotonic k seedTime ∧
        advance w.override (w.states k) ts w.rng = .error x ∧ w.call c = .error x) ∨
      ∃ v w', w.call c = .ok (.ok v, w') ∧ w.Returns c ts v w') := by
  obtain ⟨entry, date⟩ := c
  have hbatch : ∀ count, ¬ (0 < count ∧ count ≤ 100000000) → ∃ x, maxBatch count = .error x :=
    fun count h ↦ ⟨_, by rw [maxBatch, if_pos (by omega)]⟩
  have hseed : ∀ x, seedTs entry.seedTime date = .error x → ¬ Request.Accepted ⟨entry, date⟩ := by
    rintro x hx ⟨ts, hts, -⟩
    rw [hx] at hts
    cases hts
  cases entry with
  | ulid seedTime =>
      cases hts : seedTs seedTime date with
      | error x => exact Or.inl ⟨hseed x hts, x, by simp only [call, ulid, hts]⟩
      | ok ts =>
          by_cases hle : ts ≤ timeMax
          · exact Or.inr ⟨ts, hts, hle, Or.inr (ulid_ok hw hts hle)⟩
          · refine Or.inl ⟨?_, toJs (.timestampOutOfRange ts), ?_⟩
            · rintro ⟨ts', hts', hle'⟩
              cases hts.symm.trans hts'
              exact hle hle'
            · simp only [call, ulid, hts]
              rw [if_pos (BitVec.not_le.mp hle)]
  | ulidBytes => exact Or.inr ⟨_, rfl, trivial, Or.inr (ulidBytes_ok hw)⟩
  | monotonic k seedTime =>
      cases hts : seedTs seedTime date with
      | error x => exact Or.inl ⟨hseed x hts, x, by simp only [call, monotonic, hts]⟩
      | ok ts =>
          refine Or.inr ⟨ts, hts, trivial, ?_⟩
          rcases monotonic_cases hw hts with ⟨x, hadv, hx⟩ | hok
          · exact Or.inl ⟨k, seedTime, x, rfl, hadv, hx⟩
          · exact Or.inr hok
  | generateMany count =>
      by_cases hcount : 0 < count ∧ count ≤ 100000000
      · exact Or.inr ⟨_, rfl, hcount, Or.inr (generateMany_ok hw hcount)⟩
      · obtain ⟨x, hx⟩ := hbatch count hcount
        exact Or.inl ⟨fun h ↦ hcount h.choose_spec.2, x, by simp only [call, generateMany, hx]⟩
  | generateBytes count =>
      by_cases hcount : 0 < count ∧ count ≤ 100000000
      · exact Or.inr ⟨_, rfl, hcount, Or.inr (generateBytes_ok hw hcount)⟩
      · obtain ⟨x, hx⟩ := hbatch count hcount
        exact Or.inl ⟨fun h ↦ hcount h.choose_spec.2, x, by simp only [call, generateBytes, hx]⟩
  | encodeTime seedTime =>
      cases hts : seedTs seedTime date with
      | error x => exact Or.inl ⟨hseed x hts, x, by simp only [call, encodeTime, hts]⟩
      | ok ts =>
          by_cases hle : ts ≤ timeMax
          · exact Or.inr ⟨ts, hts, hle, Or.inr (encodeTime_ok hw hts hle)⟩
          · refine Or.inl ⟨?_, toJs (.timestampOutOfRange ts), ?_⟩
            · rintro ⟨ts', hts', hle'⟩
              cases hts.symm.trans hts'
              exact hle hle'
            · have herr : Crockford.encodeTimeStr ts = .error (.timestampOutOfRange ts) := by
                rw [Crockford.encodeTimeStr, Crockford.encodeTime, if_pos (BitVec.not_le.mp hle)]
                rfl
              simp only [call, encodeTime, hts, herr]
  | uuidv7 => exact Or.inr ⟨_, rfl, trivial, Or.inr (uuidv7_ok hw)⟩
  | uuidv7Bytes => exact Or.inr ⟨_, rfl, trivial, Or.inr (uuidv7Bytes_ok hw)⟩
  | generateUuidV7Many count =>
      by_cases hcount : 0 < count ∧ count ≤ 100000000
      · exact Or.inr ⟨_, rfl, hcount, Or.inr (generateUuidV7Many_ok hw hcount)⟩
      · obtain ⟨x, hx⟩ := hbatch count hcount
        exact Or.inl ⟨fun h ↦ hcount h.choose_spec.2, x, by
          simp only [call, generateUuidV7Many, hx]⟩

end Instance

end Wasm

end Rivid
