import Rivid.Core.SeedTime

/-!
# Where the random part of a stream comes from

The state a stream starts in carries the time 0.  A first call at a later time
is a new millisecond and draws; a first call at time 0 is not, and counts up
from the random part 0 of the fresh state instead.  From then on both kinds of
stream go the same way: a call draws, or it counts up from the call before it.

A source that counts the words it has given makes it visible which calls drew.
-/

namespace Rivid

open Id128

/-- A recorded sequence of words, with the number of them already used. -/
structure Tape where
  words : ℕ → U64
  used : ℕ

instance : Rng Tape where
  nextU64 tape := (tape.words tape.used, { tape with used := tape.used + 1 })

/-- The source whose words are all `x`. -/
def Tape.const (x : U64) : Tape := ⟨fun _ ↦ x, 0⟩

@[simp] theorem Tape.used_snd_draw80 (tape : Tape) : (draw80 tape).2.used = tape.used + 2 := rfl

/-! ## Drawing and counting -/

namespace MonotonicState

variable {ρ : Type} [Rng ρ] {st st' : MonotonicState} {now : U64} {rng rng' : ρ}
  {clock clock' : Clock}

/-- The step moves on to a new millisecond: its time is past the last one, or there is no room
left in the last one. -/
def NewMs (st : MonotonicState) (now : U64) : Prop := st.lastMs < now ∨ st.Exhausted now

instance (st : MonotonicState) (now : U64) : Decidable (st.NewMs now) :=
  inferInstanceAs (Decidable (_ ∨ _))

/-- There is room for one more in the last millisecond. -/
theorem lastRand_lt_of_not_newMs (h : ¬ st.NewMs now) : st.lastRand < randomMask := by
  obtain ⟨hold, hroom⟩ := not_or.mp h
  exact BitVec.not_le.mp fun hfull ↦ hroom ⟨BitVec.not_lt.mp hold, hfull⟩

/-- A step draws its random part in a new millisecond, and else counts up and leaves the source
alone. -/
theorem advance_draws_or_counts (h : st.advance now rng clock = some (st', rng', clock')) :
    (st'.lastRand = (draw80 rng).1 ∧ rng' = (draw80 rng).2 ∧ st.NewMs now) ∨
      (st'.lastRand = st.lastRand + 1 ∧ rng' = rng ∧ ¬ st.NewMs now) := by
  rw [advance] at h
  split at h
  · rename_i hnew
    cases h
    exact Or.inl ⟨rfl, rfl, Or.inl hnew⟩
  · rename_i hold
    have hold' : now ≤ st.lastMs := BitVec.not_lt.mp hold
    split at h
    · rename_i hroom
      cases h
      have hfull : ¬ st.Exhausted now := fun hex ↦ BitVec.not_lt.mpr hex.2 hroom
      exact Or.inr ⟨rfl, rfl, not_or.mpr ⟨hold, hfull⟩⟩
    · rename_i hfull
      simp only [Option.bind_eq_bind, Option.bind_eq_some_iff, Option.pure_def, Option.some.injEq,
        Prod.exists, Prod.mk.injEq] at h
      obtain ⟨_, -, _, _, -, rfl, rfl, -⟩ := h
      exact Or.inl ⟨rfl, rfl, Or.inr ⟨hold', BitVec.not_lt.mp hfull⟩⟩

/-- The first call from fresh state never waits. -/
theorem advance_new (now : U64) (rng : ρ) (clock : Clock) :
    advance new now rng clock =
      if now = 0 then some (⟨0, 1⟩, rng, clock)
      else some (⟨now, (draw80 rng).1⟩, (draw80 rng).2, clock) := by
  rw [advance]
  split
  · rename_i hnew
    rw [if_neg]
    rintro rfl
    exact BitVec.lt_irrefl _ hnew
  · rename_i hold
    have hzero : now = 0 := by
      have hle := BitVec.le_def.mp (BitVec.not_lt.mp hold)
      exact BitVec.eq_of_toNat_eq (Nat.le_zero.mp hle)
    rw [if_pos hzero, if_pos (show new.lastRand < randomMask by decide)]
    rfl

end MonotonicState

namespace World

variable {ρ : Type}

/-- The source a call draws from. -/
def source (w : World ρ ρ) : Call → ρ
  | .nextSecure | .nextSecureAt _ => w.secure
  | .nextDeterministic | .nextDeterministicAt _ => w.det

variable [Rng ρ] {w w' : World ρ ρ} {c : Call} {id : Str} {t : U64} {rest : Clock}

/-- A call advances the state at its timestamp, with its source. -/
theorem step_advance (h : w.step c = some (id, w')) :
    ∃ now clock, c.timestamp w.clock = some (now, clock) ∧
      w.state.advance now (w.source c) clock = some (w'.state, w'.source c, w'.clock) := by
  cases c with
  | nextSecure | nextDeterministic =>
      simp only [step, MonotonicState.nextSecure, MonotonicState.nextDeterministic,
        MonotonicState.nextWith, Option.bind_eq_bind, Option.bind_eq_some_iff, Option.pure_def,
        Option.some.injEq, Prod.exists, Prod.mk.injEq] at h
      obtain ⟨_, _, _, _, ⟨now, clock, hnow, _, _, _, hadv, -, rfl, rfl, rfl⟩, -, rfl⟩ := h
      exact ⟨now, clock, hnow, hadv⟩
  | nextSecureAt t | nextDeterministicAt t =>
      simp only [step, MonotonicState.nextSecureAt, MonotonicState.nextDeterministicAt,
        MonotonicState.nextWith, Option.bind_eq_bind, Option.bind_eq_some_iff, Option.pure_def,
        Option.some.injEq, Prod.exists, Prod.mk.injEq] at h
      obtain ⟨_, _, _, _, ⟨_, _, _, hadv, -, rfl, rfl, rfl⟩, -, rfl⟩ := h
      exact ⟨t, w.clock, rfl, hadv⟩

/-- A call whose state can be advanced completes. -/
theorem exists_step {st : MonotonicState} {rng : ρ} {clock : Clock}
    (htime : c.timestamp w.clock = some (t, rest))
    (h : w.state.advance t (w.source c) rest = some (st, rng, clock)) :
    ∃ w', w.step c = some (st.text, w') := by
  cases c with
  | nextSecure | nextDeterministic =>
      have hnow : nowMs w.clock = some (t, rest) := htime
      simp only [source] at h
      simp only [step, MonotonicState.nextSecure, MonotonicState.nextDeterministic, hnow,
        MonotonicState.nextWith_of_advance h, Option.bind_eq_bind, Option.bind_some,
        Option.pure_def]
      exact ⟨_, rfl⟩
  | nextSecureAt _ | nextDeterministicAt _ =>
      cases htime
      simp only [source] at h
      simp only [step, MonotonicState.nextSecureAt, MonotonicState.nextDeterministicAt,
        MonotonicState.nextWith_of_advance h, Option.bind_eq_bind, Option.bind_some,
        Option.pure_def]
      exact ⟨_, rfl⟩

end World

/-! ## Runs -/

/-- The call took two words from its source, and `r` is what they draw. -/
def Draws (e : Event (World Tape Tape) Call Str) (r : U128) : Prop :=
  (e.after.source e.input).used = (e.before.source e.input).used + 2 ∧
    (draw80 (e.before.source e.input)).1 = r

/-- The random part of the ULID is the number `r`. -/
def HasRandom (id : Str) (r : ℕ) : Prop :=
  ∃ v, Crockford.decodeChars id = .ok v ∧ (Id128.mk v).randomness.toNat = r

/-- The first call of the run draws, and every random part is a draw of the run
plus the number of calls since. -/
structure FreshRandomness (es : List (Event (World Tape Tape) Call Str)) : Prop where
  first : ∀ e ∈ es.head?, ∃ r, Draws e r
  all : ∀ i (hi : i < es.length), ∃ j, ∃ hj : j ≤ i, ∃ r, Draws es[j] r ∧
    HasRandom es[i].output (r.toNat + (i - j))

/-- From fresh state, sources with different first draws give different first ULIDs. -/
def FirstUlidFollowsDraw (c : Call) (clock : Clock) : Prop :=
  ∀ (secure₁ det₁ secure₂ det₂ : Tape) (id₁ id₂ : Str) (w₁ w₂ : World Tape Tape),
    World.step ⟨.new, secure₁, det₁, clock⟩ c = some (id₁, w₁) →
    World.step ⟨.new, secure₂, det₂, clock⟩ c = some (id₂, w₂) →
    (draw80 (World.source ⟨.new, secure₁, det₁, clock⟩ c)).1 ≠
      (draw80 (World.source ⟨.new, secure₂, det₂, clock⟩ c)).1 →
    id₁ ≠ id₂

section Run

variable {e : Event (World Tape Tape) Call Str} {secure det : Tape} {clock : Clock} {c : Call}
  {t : U64} {rest : Clock}

/-- A completed call draws its random part, or counts up from the call before it. -/
theorem draws_or_counts (h : e.before.step e.input = some (e.output, e.after)) :
    Draws e e.after.state.lastRand ∨
      ((∀ r, ¬ Draws e r) ∧ e.before.state.lastRand < randomMask ∧
        e.after.state.lastRand = e.before.state.lastRand + 1) := by
  obtain ⟨now, clock, -, hadv⟩ := World.step_advance h
  rcases MonotonicState.advance_draws_or_counts hadv with ⟨hrand, hsource, -⟩ |
    ⟨hrand, hsource, hold⟩
  · refine Or.inl ⟨?_, hrand.symm⟩
    rw [hsource, Tape.used_snd_draw80]
  · refine Or.inr ⟨?_, MonotonicState.lastRand_lt_of_not_newMs hold, hrand⟩
    rintro r ⟨hused, -⟩
    rw [hsource] at hused
    omega

/-- The first call from fresh state draws exactly when its time is not 0. -/
theorem draws_iff_of_new (hstep : e.before.step e.input = some (e.output, e.after))
    (hnew : e.before.state = .new) (htime : e.input.timestamp e.before.clock = some (t, rest)) :
    (∃ r, Draws e r) ↔ t ≠ 0 := by
  obtain ⟨now, clock, hnow, hadv⟩ := World.step_advance hstep
  rw [htime] at hnow
  cases hnow
  rw [hnew, MonotonicState.advance_new] at hadv
  constructor
  · rintro ⟨r, hused, -⟩ rfl
    rw [if_pos rfl] at hadv
    simp only [Option.some.injEq, Prod.mk.injEq] at hadv
    rw [← hadv.2.1] at hused
    omega
  · intro ht
    rw [if_neg ht] at hadv
    simp only [Option.some.injEq, Prod.mk.injEq] at hadv
    exact ⟨_, by rw [← hadv.2.1, Tape.used_snd_draw80], rfl⟩

/-- What a call emits has the random part of the state it leaves. -/
theorem hasRandom_output (hstep : e.before.step e.input = some (e.output, e.after))
    (hafter : e.after.state.InDomain) : HasRandom e.output e.after.state.lastRand.toNat := by
  obtain ⟨_, _, -, -, hid⟩ := World.step_emits hstep
  obtain ⟨v, hv, -, hrand⟩ := MonotonicState.decodeChars_text_parts hafter
  rw [← hid] at hv
  exact ⟨v, hv, congrArg BitVec.toNat hrand⟩

/-- After a first call that draws, every random part is a draw of the run, counted up. -/
theorem freshRandomness_of_first {w : World Tape Tape} {calls : List Call}
    {es : List (Event (World Tape Tape) Call Str)}
    (hafter : ∀ e ∈ es, e.after.state.InDomain) (hrun : Machine.run World.step w calls = some es)
    (hfirst : ∀ e ∈ es.head?, ∃ r, Draws e r) : FreshRandomness es := by
  have hcounted : ∀ i (hi : i < es.length), ∃ j, ∃ hj : j ≤ i, ∃ r, Draws es[j] r ∧
      es[i].after.state.lastRand.toNat = r.toNat + (i - j) := by
    intro i hi
    induction i with
    | zero =>
        obtain ⟨r, hr⟩ := hfirst es[0] (List.head?_eq_getElem? ▸ List.getElem?_eq_getElem hi)
        rcases draws_or_counts (Machine.step_getElem hrun hi) with hdraws | ⟨hno, -, -⟩
        · exact ⟨0, le_refl 0, _, hdraws, rfl⟩
        · exact absurd hr (hno r)
    | succ i ih =>
        rcases draws_or_counts (Machine.step_getElem hrun hi) with hdraws | ⟨-, hroom, hcount⟩
        · exact ⟨i + 1, le_refl _, _, hdraws, by simp⟩
        · obtain ⟨j, hj, r, hdraws, hrand⟩ := ih (Nat.lt_of_succ_lt hi)
          rw [Machine.before_getElem_succ hrun hi] at hroom hcount
          refine ⟨j, Nat.le_succ_of_le hj, r, hdraws, ?_⟩
          rw [hcount, MonotonicState.toNat_add_one_of_lt hroom, hrand]
          omega
  refine ⟨hfirst, fun i hi ↦ ?_⟩
  obtain ⟨j, hj, r, hdraws, hrand⟩ := hcounted i hi
  refine ⟨j, hj, r, hdraws, ?_⟩
  rw [← hrand]
  exact hasRandom_output (Machine.step_getElem hrun hi) (hafter _ (List.getElem_mem hi))

end Run

/-- From fresh state the first ULID tells the first draws apart exactly when its
call's time is not 0. -/
theorem firstUlidFollowsDraw_iff {c : Call} {clock rest : Clock} {t : U64}
    (hc : c.InDomain) (hclock : ∀ t ∈ clock, t ≤ timeMax)
    (htime : c.timestamp clock = some (t, rest)) : FirstUlidFollowsDraw c clock ↔ t ≠ 0 := by
  constructor
  · rintro hfollows rfl
    have hstep : ∀ tape : Tape, ∃ w', World.step ⟨.new, tape, tape, clock⟩ c =
        some (MonotonicState.text ⟨0, 1⟩, w') := by
      intro tape
      have hadv : MonotonicState.new.advance 0 (World.source ⟨.new, tape, tape, clock⟩ c) rest =
          some (⟨0, 1⟩, World.source ⟨.new, tape, tape, clock⟩ c, rest) := by
        rw [MonotonicState.advance_new, if_pos rfl]
      exact World.exists_step htime hadv
    have hsource : ∀ tape : Tape, World.source ⟨.new, tape, tape, clock⟩ c = tape := by
      intro tape
      cases c <;> rfl
    obtain ⟨w₁, h₁⟩ := hstep (.const 0)
    obtain ⟨w₂, h₂⟩ := hstep (.const 1)
    refine hfollows _ _ _ _ _ _ w₁ w₂ h₁ h₂ ?_ rfl
    rw [hsource, hsource]
    decide
  · intro ht secure₁ det₁ secure₂ det₂ id₁ id₂ w₁ w₂ h₁ h₂ hne heq
    have hread : ∀ {secure det : Tape} {id : Str} {w : World Tape Tape},
        World.step ⟨.new, secure, det, clock⟩ c = some (id, w) →
        HasRandom id (draw80 (World.source ⟨.new, secure, det, clock⟩ c)).1.toNat := by
      intro secure det id w h
      have hstart : World.InDomain (⟨.new, secure, det, clock⟩ : World Tape Tape) :=
        ⟨MonotonicState.inDomain_new, hclock⟩
      have hrand := hasRandom_output (e := ⟨_, c, id, w⟩) h (World.step_inDomain hstart hc h).state
      obtain ⟨now, clock', hnow, hadv⟩ := World.step_advance h
      rw [show c.timestamp clock = some (now, clock') from hnow, Option.some.injEq] at htime
      cases htime
      rw [MonotonicState.advance_new, if_neg ht] at hadv
      simp only [Option.some.injEq, Prod.mk.injEq] at hadv
      rw [← hadv.1] at hrand
      exact hrand
    obtain ⟨v₁, hv₁, hr₁⟩ := hread h₁
    obtain ⟨v₂, hv₂, hr₂⟩ := hread h₂
    rw [heq, hv₂, Except.ok.injEq] at hv₁
    rw [← hv₁, hr₂] at hr₁
    exact hne (BitVec.eq_of_toNat_eq hr₁.symm)

/-- **Fresh randomness.**  In a run from fresh state, in the 48-bit domain, the
first call draws and every random part is a draw of the run counted up exactly
when the first call's time is not 0; and exactly then sources with different
first draws give different first ULIDs. -/
theorem freshRandomness_iff {secure det : Tape} {clock rest : Clock} {c : Call} {t : U64}
    {calls : List Call} {es : List (Event (World Tape Tape) Call Str)}
    (hclock : ∀ t ∈ clock, t ≤ timeMax) (hcalls : ∀ d ∈ c :: calls, d.InDomain)
    (htime : c.timestamp clock = some (t, rest))
    (hrun : Machine.run World.step ⟨.new, secure, det, clock⟩ (c :: calls) = some es) :
    (FreshRandomness es ↔ t ≠ 0) ∧ (FirstUlidFollowsDraw c clock ↔ t ≠ 0) := by
  refine ⟨?_, firstUlidFollowsDraw_iff (hcalls c (by simp)) hclock htime⟩
  have hstart : World.InDomain (⟨.new, secure, det, clock⟩ : World Tape Tape) :=
    ⟨MonotonicState.inDomain_new, hclock⟩
  have hinv := Machine.run_invariant (fun w c _ w' hw hc h ↦ World.step_inDomain hw hc h)
    hstart hcalls hrun
  have hafter : ∀ e ∈ es, e.after.state.InDomain := by
    intro e he
    obtain ⟨hw, hc, hstep⟩ := hinv e he
    exact (World.step_inDomain hw hc hstep).state
  obtain ⟨id, w', es', hstep, -, rfl⟩ := Machine.run_cons_eq_some_iff.mp hrun
  have hdraws := draws_iff_of_new (e := ⟨_, c, id, w'⟩) hstep rfl htime
  constructor
  · intro hfresh
    exact hdraws.mp (hfresh.first _ rfl)
  · intro ht
    refine freshRandomness_of_first hafter hrun ?_
    rintro e ⟨⟩
    exact hdraws.mpr ht

/-- A first call completes. -/
theorem exists_run_first (secure det : Tape) (clock : Clock) (c : Call) {t : U64} {rest : Clock}
    (htime : c.timestamp clock = some (t, rest)) :
    ∃ es, Machine.run World.step ⟨.new, secure, det, clock⟩ [c] = some es := by
  have hadv : ∃ st rng clock', MonotonicState.new.advance t
      (World.source ⟨.new, secure, det, clock⟩ c) rest = some (st, rng, clock') := by
    rw [MonotonicState.advance_new]
    split
    · exact ⟨_, _, _, rfl⟩
    · exact ⟨_, _, _, rfl⟩
  obtain ⟨st, rng, clock', hadv⟩ := hadv
  obtain ⟨w', hstep⟩ :=
    World.exists_step (w := ⟨.new, secure, det, clock⟩) htime hadv
  exact ⟨_, Machine.run_cons_eq_some_iff.mpr ⟨_, w', [], hstep, Machine.run_nil w', rfl⟩⟩

theorem freshRandomness_at_five :
    ∃ es, Machine.run World.step ⟨.new, .const 1, .const 2, []⟩ [.nextSecureAt 5] = some es ∧
      (FreshRandomness es ↔ (5 : U64) ≠ 0) ∧
        (FirstUlidFollowsDraw (.nextSecureAt 5) [] ↔ (5 : U64) ≠ 0) := by
  obtain ⟨es, hrun⟩ := exists_run_first (.const 1) (.const 2) [] (.nextSecureAt 5) rfl
  refine ⟨es, hrun, freshRandomness_iff (by simp) ?_ rfl hrun⟩
  intro d hd
  rw [List.mem_singleton.mp hd]
  exact (by decide : (5 : U64) ≤ timeMax)

/-- A stream whose first call is pinned to time 0: it draws nothing, and its first
ULID does not depend on the source. -/
theorem not_freshRandomness_at_zero :
    ∃ es, Machine.run World.step ⟨.new, .const 1, .const 2, []⟩ [.nextSecureAt 0] = some es ∧
      ¬ FreshRandomness es ∧ ¬ FirstUlidFollowsDraw (.nextSecureAt 0) [] := by
  obtain ⟨es, hrun⟩ := exists_run_first (.const 1) (.const 2) [] (.nextSecureAt 0) rfl
  refine ⟨es, hrun, fun hfresh ↦ ?_, fun hfollows ↦ ?_⟩
  · obtain ⟨id, w', es', hstep, -, rfl⟩ := Machine.run_cons_eq_some_iff.mp hrun
    have hdraws := draws_iff_of_new (e := ⟨_, .nextSecureAt 0, id, w'⟩) (t := 0) hstep rfl rfl
    exact hdraws.mp (hfresh.first _ rfl) rfl
  · have hzero : Call.InDomain (.nextSecureAt 0) := (by decide : (0 : U64) ≤ timeMax)
    exact (firstUlidFollowsDraw_iff hzero (by simp) rfl).mp hfollows rfl

end Rivid
