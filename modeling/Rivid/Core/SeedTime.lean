import Rivid.Core.Monotonic
import Mathlib.Data.Nat.Count
import Mathlib.Data.Nat.Find

/-!
# The stream under pinned times

A run of calls pinned to the times `ts` has a closed form.  The calls that
matter are the strict records of `ts`: each of them draws 80 fresh bits, and
every other call counts up from the draw of the record before it.  Which words a
record draws depends only on how many records there were, so the whole run can
be written down from `ts` and the source of randomness.
-/

namespace Rivid

open Id128

namespace Rng

variable {ρ : Type} [Rng ρ]

/-- What is left of a source after `n` words. -/
def skip (rng : ρ) : ℕ → ρ
  | 0 => rng
  | n + 1 => (nextU64 (skip rng n)).2

theorem skip_add (rng : ρ) (m n : ℕ) : skip rng (m + n) = skip (skip rng m) n := by
  induction n with
  | zero => rfl
  | succ n ih => rw [← Nat.add_assoc, skip, ih, skip]

end Rng

/-! ## Strict records -/

/-- Whether the time at index `j` exceeds all earlier ones. -/
def isRecord (ts : List U64) (j : ℕ) : Bool :=
  match ts[j]? with
  | none => false
  | some t => (ts.take j).all (· < t)

/-- The most recent strict record at or before index `i`. -/
def lastRecord (ts : List U64) (i : ℕ) : ℕ := Nat.findGreatest (isRecord ts ·) i

/-- The number of strict records before index `i`. -/
def recordCount (ts : List U64) (i : ℕ) : ℕ := Nat.count (isRecord ts ·) i

/-- The 80-bit draw that a record at index `j` makes. -/
def drawAt {ρ : Type} [Rng ρ] (rng : ρ) (ts : List U64) (j : ℕ) : U128 :=
  (draw80 (Rng.skip rng (2 * recordCount ts j))).1

/-- Counting up from the draws never leaves the 80-bit space. -/
def HasRoom {ρ : Type} [Rng ρ] (rng : ρ) (ts : List U64) : Prop :=
  ∀ i < ts.length, (drawAt rng ts (lastRecord ts i)).toNat + (i - lastRecord ts i) < 2 ^ 80

section Records

variable {ts : List U64} {i : ℕ}

theorem isRecord_eq_true_iff (hi : i < ts.length) :
    isRecord ts i = true ↔ ∀ s ∈ ts.take i, s < ts[i] := by
  simp only [isRecord, List.getElem?_eq_getElem hi, List.all_eq_true, decide_eq_true_eq]

theorem lastRecord_le (ts : List U64) (i : ℕ) : lastRecord ts i ≤ i := Nat.findGreatest_le i

theorem lastRecord_of_isRecord (h : isRecord ts i = true) : lastRecord ts i = i :=
  Nat.findGreatest_eq h

theorem lastRecord_succ_of_not (h : ¬ isRecord ts (i + 1) = true) :
    lastRecord ts (i + 1) = lastRecord ts i := Nat.findGreatest_of_not h

theorem recordCount_succ_of_isRecord (h : isRecord ts i = true) :
    recordCount ts (i + 1) = recordCount ts i + 1 := by
  rw [recordCount, Nat.count_succ, if_pos h]
  rfl

theorem recordCount_succ_of_not (h : ¬ isRecord ts i = true) :
    recordCount ts (i + 1) = recordCount ts i := by
  rw [recordCount, Nat.count_succ, if_neg h]
  rfl

theorem mem_take_succ_iff (hi : i < ts.length) {t : U64} :
    t ∈ ts.take (i + 1) ↔ t ∈ ts.take i ∨ t = ts[i] := by
  rw [List.take_succ_eq_append_getElem hi, List.mem_append, List.mem_singleton]

end Records

/-! ## The closed form -/

namespace MonotonicState

/-- The state after `n` calls pinned to the times `ts`, as the closed form has it. -/
structure Follows {δ : Type} [Rng δ] (rng : δ) (ts : List U64) (n : ℕ) (st : MonotonicState)
    (det : δ) : Prop where
  fresh : n = 0 → st = new
  greatest : ∀ i, n = i + 1 → IsGreatest {t | t ∈ ts.take (i + 1)} st.lastMs
  counted : ∀ i, n = i + 1 →
    st.lastRand.toNat = (drawAt rng ts (lastRecord ts i)).toNat + (i - lastRecord ts i)
  drawn : det = Rng.skip rng (2 * recordCount ts n)

variable {δ : Type} [Rng δ] {rng det : δ} {ts : List U64} {n : ℕ} {st : MonotonicState}

/-- Whether a pinned time is a new millisecond is whether it is a strict record. -/
theorem Follows.lt_iff (h : Follows rng ts n st det) (hn : n < ts.length)
    (hfirst : ∀ t ∈ ts.head?, 0 < t) : st.lastMs < ts[n] ↔ isRecord ts n = true := by
  rw [isRecord_eq_true_iff hn]
  cases n with
  | zero =>
      rw [h.fresh rfl]
      refine ⟨fun _ s hs ↦ absurd hs (by simp), fun _ ↦ ?_⟩
      exact hfirst _ (by rw [List.head?_eq_getElem?, List.getElem?_eq_getElem hn]; rfl)
  | succ i =>
      obtain ⟨hmem, hmax⟩ := h.greatest i rfl
      constructor
      · intro hlt s hs
        have hle := BitVec.le_def.mp (hmax hs)
        have hlt' := BitVec.lt_def.mp hlt
        exact BitVec.lt_def.mpr (lt_of_le_of_lt hle hlt')
      · intro hall
        exact hall _ hmem

/-- A strict record draws. -/
theorem Follows.record (h : Follows rng ts n st det) (hn : n < ts.length)
    (hrec : isRecord ts n = true) :
    Follows rng ts (n + 1) ⟨ts[n], (draw80 det).1⟩ (Rng.skip det 2) where
  fresh hzero := absurd hzero (Nat.succ_ne_zero n)
  greatest i hi := by
    obtain rfl : n = i := Nat.succ_injective hi
    refine ⟨(mem_take_succ_iff hn).mpr (Or.inr rfl), fun s hs ↦ ?_⟩
    rcases (mem_take_succ_iff hn).mp hs with hs | rfl
    · exact BitVec.le_of_lt ((isRecord_eq_true_iff hn).mp hrec s hs)
    · exact BitVec.le_refl _
  counted i hi := by
    obtain rfl : n = i := Nat.succ_injective hi
    rw [lastRecord_of_isRecord hrec, drawAt, ← h.drawn, Nat.sub_self, Nat.add_zero]
  drawn := by
    rw [h.drawn, ← Rng.skip_add, recordCount_succ_of_isRecord hrec, Nat.mul_succ]

/-- Every other call counts up. -/
theorem Follows.count (h : Follows rng ts n st det) (hn : n < ts.length)
    (hfirst : ∀ t ∈ ts.head?, 0 < t) (hroom : HasRoom rng ts) (hrec : ¬ isRecord ts n = true) :
    st.lastRand < randomMask ∧ Follows rng ts (n + 1) ⟨st.lastMs, st.lastRand + 1⟩ det := by
  cases n with
  | zero =>
      refine absurd ((isRecord_eq_true_iff hn).mpr fun s hs ↦ ?_) hrec
      simp at hs
  | succ i =>
      have hold : ¬ st.lastMs < ts[i + 1] := fun hlt ↦ hrec ((h.lt_iff hn hfirst).mp hlt)
      have hlast := lastRecord_succ_of_not hrec
      have hle := lastRecord_le ts i
      have hsub : i + 1 - lastRecord ts i = (i - lastRecord ts i) + 1 := by omega
      have hroom' := hroom (i + 1) hn
      rw [hlast, hsub, ← Nat.add_assoc, ← h.counted i rfl] at hroom'
      have hlt : st.lastRand < randomMask := by
        rw [BitVec.lt_def, toNat_randomMask]
        omega
      refine ⟨hlt, fun hzero ↦ absurd hzero (Nat.succ_ne_zero _), fun j hj ↦ ?_, fun j hj ↦ ?_, ?_⟩
      · obtain rfl : i + 1 = j := Nat.succ_injective hj
        obtain ⟨hmem, hmax⟩ := h.greatest i rfl
        refine ⟨(mem_take_succ_iff hn).mpr (Or.inl hmem), fun s hs ↦ ?_⟩
        rcases (mem_take_succ_iff hn).mp hs with hs | rfl
        · exact hmax hs
        · exact BitVec.not_lt.mp hold
      · obtain rfl : i + 1 = j := Nat.succ_injective hj
        rw [toNat_add_one_of_lt hlt, h.counted i rfl, hlast, hsub, Nat.add_assoc]
      · rw [h.drawn, recordCount_succ_of_not hrec]

theorem Follows.inDomain (h : Follows rng ts (n + 1) st det) (hts : ∀ t ∈ ts, t ≤ timeMax)
    (hroom : HasRoom rng ts) (hn : n < ts.length) : st.InDomain := by
  refine ⟨hts _ (List.mem_of_mem_take (h.greatest n rfl).1), ?_⟩
  rw [le_randomMask_iff, h.counted n rfl]
  exact hroom n hn

/-- Parts of a state, read back from its text. -/
theorem decodeChars_text_parts (hst : st.InDomain) :
    ∃ v, Crockford.decodeChars st.text = .ok v ∧ (Id128.mk v).timestampMs = st.lastMs ∧
      (Id128.mk v).randomness = st.lastRand :=
  ⟨_, Crockford.decodeChars_encodeString _, timestampMs_fromParts hst.ms hst.rand,
    randomness_fromParts hst.ms hst.rand⟩

end MonotonicState

/-- What the closed form says of the call at index `i`. -/
structure ClosedForm {ρ δ : Type} [Rng δ] (rng : δ) (ts : List U64) (i : ℕ)
    (e : Event (World ρ δ) Call Str) : Prop where
  /-- The time is the running maximum; the random part is the draw of the last
  record, counted up. -/
  emitted : ∃ v, Crockford.decodeChars e.output = .ok v ∧
    IsGreatest {t | t ∈ ts.take (i + 1)} (Id128.mk v).timestampMs ∧
    (Id128.mk v).randomness.toNat =
      (drawAt rng ts (lastRecord ts i)).toNat + (i - lastRecord ts i)
  /-- A draw starts after two words for each record before it. -/
  source : e.before.det = Rng.skip rng (2 * recordCount ts i)
  /-- Two words are consumed by a record, none by any other call. -/
  consumed : e.after.det = if isRecord ts i then Rng.skip e.before.det 2 else e.before.det

/-- The invariant of a run under pinned times. -/
def World.Follows {ρ δ : Type} [Rng δ] (rng : δ) (ts : List U64) (n : ℕ) (w : World ρ δ) : Prop :=
  w.state.Follows rng ts n w.det

/-- One call, from a world that follows the closed form. -/
theorem World.Follows.step {ρ δ : Type} [Rng ρ] [Rng δ] {rng : δ} {ts : List U64} {n : ℕ}
    {w : World ρ δ} (h : w.Follows rng ts n) (hn : n < ts.length) (hfirst : ∀ t ∈ ts.head?, 0 < t)
    (hts : ∀ t ∈ ts, t ≤ timeMax) (hroom : HasRoom rng ts) :
    ∃ id w', w.step (.nextDeterministicAt ts[n]) = some (id, w') ∧ w'.Follows rng ts (n + 1) ∧
      ClosedForm rng ts n ⟨w, .nextDeterministicAt ts[n], id, w'⟩ := by
  have hadv : ∃ st det, w.state.advance ts[n] w.det w.clock = some (st, det, w.clock) ∧
      st.Follows rng ts (n + 1) det ∧
      det = if isRecord ts n then Rng.skip w.det 2 else w.det := by
    by_cases hrec : isRecord ts n = true
    · have hnew : w.state.lastMs < ts[n] := (MonotonicState.Follows.lt_iff h hn hfirst).mpr hrec
      refine ⟨_, _, ?_, MonotonicState.Follows.record h hn hrec, (if_pos hrec).symm⟩
      rw [MonotonicState.advance, if_pos hnew]
      rfl
    · have hold : ¬ w.state.lastMs < ts[n] :=
        fun hlt ↦ hrec ((MonotonicState.Follows.lt_iff h hn hfirst).mp hlt)
      obtain ⟨hlt, hnext⟩ := MonotonicState.Follows.count h hn hfirst hroom hrec
      refine ⟨_, _, ?_, hnext, (if_neg hrec).symm⟩
      rw [MonotonicState.advance, if_neg hold, if_pos hlt]
  obtain ⟨st, det, hadv, hfollows, hdet⟩ := hadv
  refine ⟨st.text, { w with state := st, det := det }, ?_, hfollows, ?_, h.drawn, hdet⟩
  · simp only [World.step, MonotonicState.nextDeterministicAt,
      MonotonicState.nextWith_of_advance hadv, Option.bind_eq_bind, Option.bind_some,
      Option.pure_def]
  · obtain ⟨v, hv, htime, hrand⟩ :=
      MonotonicState.decodeChars_text_parts (hfollows.inDomain hts hroom hn)
    have hgreatest := hfollows.greatest n rfl
    have hcounted := hfollows.counted n rfl
    rw [← htime] at hgreatest
    rw [← hrand] at hcounted
    dsimp only
    exact ⟨v, hv, hgreatest, hcounted⟩

/-- **Closed form of the stream under pinned times.**  From fresh state, calls
pinned to times of the 48-bit domain, the first of them positive, all complete,
and every one of them is as the closed form says, provided that counting up from
the draws stays in the 80-bit space. -/
theorem run_pinned {ρ δ : Type} [Rng ρ] [Rng δ] {secure : ρ} {rng : δ} {clock : Clock}
    {ts : List U64} (hfirst : ∀ t ∈ ts.head?, 1 ≤ t) (hts : ∀ t ∈ ts, t ≤ timeMax)
    (hroom : HasRoom rng ts) :
    ∃ es, Machine.run World.step ⟨MonotonicState.new, secure, rng, clock⟩
        (ts.map Call.nextDeterministicAt) = some es ∧ es.length = ts.length ∧
      ∀ i (hi : i < es.length), ClosedForm rng ts i es[i] := by
  have hpos : ∀ t ∈ ts.head?, 0 < t := by
    intro t ht
    have hle := BitVec.le_def.mp (hfirst t ht)
    exact BitVec.lt_def.mpr hle
  have hstart : World.Follows rng ts 0 (⟨.new, secure, rng, clock⟩ : World ρ δ) :=
    ⟨fun _ ↦ rfl, fun i hi ↦ absurd hi (Nat.succ_ne_zero i).symm,
      fun i hi ↦ absurd hi (Nat.succ_ne_zero i).symm, rfl⟩
  have hstep : ∀ n (hn : n < (ts.map Call.nextDeterministicAt).length) (w : World ρ δ),
      w.Follows rng ts n → ∃ id w', w.step (ts.map Call.nextDeterministicAt)[n] = some (id, w') ∧
        w'.Follows rng ts (n + 1) ∧
        ClosedForm rng ts n ⟨w, (ts.map Call.nextDeterministicAt)[n], id, w'⟩ := by
    intro n hn w hw
    rw [List.length_map] at hn
    rw [List.getElem_map]
    exact hw.step hn hpos hts hroom
  obtain ⟨es, hrun, hes⟩ := Machine.exists_run hstep hstart
  refine ⟨es, hrun, ?_, hes⟩
  rw [Machine.length_run hrun, List.length_map]

/-- A clock that moves on, stands still, goes back and moves on again. -/
theorem run_pinned_four_calls :
    ∃ es, Machine.run World.step (⟨.new, allOnes, fun n ↦ BitVec.ofNat 64 n, []⟩ :
        World (ℕ → U64) (ℕ → U64)) ([5, 5, 3, 9].map Call.nextDeterministicAt) = some es ∧
      es.length = 4 ∧ ∀ i (hi : i < es.length),
        ClosedForm (fun n ↦ BitVec.ofNat 64 n : ℕ → U64) [5, 5, 3, 9] i es[i] := by
  refine run_pinned ?_ ?_ ?_
  · rintro t ⟨⟩
    decide
  · simp [le_timeMax_iff]
  · rw [HasRoom]
    decide

end Rivid
