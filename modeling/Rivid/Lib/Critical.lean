import Rivid.Lib.Machine
import Mathlib.Logic.Function.Basic

/-!
# Critical sections

Threads share a state behind one lock.  The code that a thread runs while it holds the
lock is a `Routine`, statement by statement: a statement goes on, reads something of the
environment, or returns.  Nothing but the lock keeps the threads apart: between two
statements of one thread any statements of the others can run, and a statement of the
routine does not look whether its thread holds the lock.

A `Serial` execution runs the calls one after another, each to its end.  Every execution
answers its calls as a serial one does, in the order in which they return
(`exists_serial`), each thread's calls are served in the order in which it makes them
(`program_order`), and threads do not block one another forever (`exists_step`).  Where a
function says how a call ends, a serial execution is a run of that function
(`exists_run`).  A `schedule` computes an execution from whose turn it is.
-/

universe u v w x

namespace Critical

/-- What a statement does. -/
inductive Move (ε : Type u) (α : Type v) (ο : Type w) where
  /-- It goes on. -/
  | go (next : α)
  /-- It reads the environment, which can hold anything. -/
  | read (next : ε → α)
  | ret (result : ο)

/-- The code of a call: where it starts, and the statement at each of its points, on the
shared state and the state of the thread. -/
structure Routine (σ ℓ κ ι ε ο : Type u) where
  start : ι → κ
  move : κ → σ → ℓ → Move ε (κ × σ × ℓ) ο

/-- Where a thread is. -/
inductive Phase (ι κ ο : Type u) where
  | idle
  /-- In the routine, with the input of the call. -/
  | inside (input : ι) (point : κ)
  /-- The result is there and the lock is still held. -/
  | leaving (input : ι) (result : ο)

/-- Threads `τ`, each with the inputs of the calls it is going to make. -/
structure Config (τ σ ℓ κ ι ο : Type u) where
  shared : σ
  holder : Option τ
  todo : τ → List ι
  phase : τ → Phase ι κ ο
  loc : τ → ℓ

/-- What happens. -/
inductive Action (τ ι ε ο : Type u) where
  | enter (t : τ) (input : ι)
  | go (t : τ)
  | read (t : τ) (reading : ε)
  | ret (t : τ)
  | leave (t : τ) (input : ι) (result : ο)

section

variable {τ σ ℓ κ ι ε ο : Type u} [DecidableEq τ]

open Function

/-- The thread `t` moves to a point, with the state it leaves. -/
def Config.moveTo (c : Config τ σ ℓ κ ι ο) (t : τ) (i : ι) (next : κ × σ × ℓ) :
    Config τ σ ℓ κ ι ο :=
  { c with
    shared := next.2.1
    phase := update c.phase t (.inside i next.1)
    loc := update c.loc t next.2.2 }

/-- One action. -/
inductive Step (R : Routine σ ℓ κ ι ε ο) (c : Config τ σ ℓ κ ι ο) :
    Action τ ι ε ο → Config τ σ ℓ κ ι ο → Prop
  | enter {t : τ} {i : ι} {is : List ι} (hfree : c.holder = none) (hidle : c.phase t = .idle)
      (htodo : c.todo t = i :: is) :
      Step R c (.enter t i)
        { c with
          holder := some t
          todo := update c.todo t is
          phase := update c.phase t (.inside i (R.start i)) }
  | go {t : τ} {i : ι} {k : κ} {next : κ × σ × ℓ} (hin : c.phase t = .inside i k)
      (hmove : R.move k c.shared (c.loc t) = .go next) : Step R c (.go t) (c.moveTo t i next)
  | read {t : τ} {i : ι} {k : κ} {next : ε → κ × σ × ℓ} (e : ε) (hin : c.phase t = .inside i k)
      (hmove : R.move k c.shared (c.loc t) = .read next) :
      Step R c (.read t e) (c.moveTo t i (next e))
  | ret {t : τ} {i : ι} {k : κ} {o : ο} (hin : c.phase t = .inside i k)
      (hmove : R.move k c.shared (c.loc t) = .ret o) :
      Step R c (.ret t) { c with phase := update c.phase t (.leaving i o) }
  | leave {t : τ} {i : ι} {o : ο} (hout : c.phase t = .leaving i o) :
      Step R c (.leave t i o) { c with holder := none, phase := update c.phase t .idle }

/-- The actions of an execution, from its first to its last. -/
inductive Exec (R : Routine σ ℓ κ ι ε ο) (c₀ : Config τ σ ℓ κ ι ο) :
    List (Action τ ι ε ο) → Config τ σ ℓ κ ι ο → Prop
  | nil : Exec R c₀ [] c₀
  | snoc {acts : List (Action τ ι ε ο)} {a : Action τ ι ε ο} {c c' : Config τ σ ℓ κ ι ο}
      (h : Exec R c₀ acts c) (hstep : Step R c a c') : Exec R c₀ (acts ++ [a]) c'

/-- Nobody holds the lock or is in the routine. -/
structure Config.Quiet (c : Config τ σ ℓ κ ι ο) : Prop where
  free : c.holder = none
  idle : ∀ t, c.phase t = .idle

/-- The thread, input and result of a call that returns. -/
def answer : Action τ ι ε ο → Option (τ × ι × ο)
  | .leave t i o => some (t, i, o)
  | _ => none

/-- What the calls of an execution returned, in the order in which they did. -/
def answers (acts : List (Action τ ι ε ο)) : List (τ × ι × ο) := acts.filterMap answer

def reading : Action τ ι ε ο → Option ε
  | .read _ e => some e
  | _ => none

/-- What an execution read, in the order in which it did. -/
def readings (acts : List (Action τ ι ε ο)) : List ε := acts.filterMap reading

/-! ## One call after another -/

/-- Statements of one thread, undisturbed, with what they read. -/
inductive Path (R : Routine σ ℓ κ ι ε ο) (start : κ × σ × ℓ) : List ε → κ × σ × ℓ → Prop
  | nil : Path R start [] start
  | go {es : List ε} {k : κ} {s : σ} {l : ℓ} {next : κ × σ × ℓ} (h : Path R start es (k, s, l))
      (hmove : R.move k s l = .go next) : Path R start es next
  | read {es : List ε} {k : κ} {s : σ} {l : ℓ} {next : ε → κ × σ × ℓ} (e : ε)
      (h : Path R start es (k, s, l)) (hmove : R.move k s l = .read next) :
      Path R start (es ++ [e]) (next e)

/-- A call that runs from its start to its result. -/
def Completes (R : Routine σ ℓ κ ι ε ο) (i : ι) (s : σ) (l : ℓ) (es : List ε) (o : ο) (s' : σ)
    (l' : ℓ) : Prop :=
  ∃ k, Path R (R.start i, s, l) es (k, s', l') ∧ R.move k s' l' = .ret o

/-- Calls that run one after another: each with its thread and its input, what it reads and
what it returns. -/
inductive Serial (R : Routine σ ℓ κ ι ε ο) (s₀ : σ) (loc₀ : τ → ℓ) :
    List ((τ × ι × ο) × List ε) → σ → (τ → ℓ) → Prop
  | nil : Serial R s₀ loc₀ [] s₀ loc₀
  | snoc {calls : List ((τ × ι × ο) × List ε)} {s s' : σ} {loc : τ → ℓ} {l' : ℓ} {t : τ} {i : ι}
      {o : ο} {es : List ε} (h : Serial R s₀ loc₀ calls s loc)
      (hcall : Completes R i s (loc t) es o s' l') :
      Serial R s₀ loc₀ (calls ++ [((t, i, o), es)]) s' (update loc t l')

/-! ## Executions are serial -/

/-- All but the holder of the lock are idle, and the holder is on its way through the
routine from where the calls before it left the shared state. -/
structure Serialized (R : Routine σ ℓ κ ι ε ο) (c₀ c : Config τ σ ℓ κ ι ο)
    (calls : List ((τ × ι × ο) × List ε)) (rest : List ε) (s : σ) (loc : τ → ℓ) : Prop where
  serial : Serial R c₀.shared c₀.loc calls s loc
  idle : ∀ t, c.holder ≠ some t → c.phase t = .idle ∧ c.loc t = loc t
  free : c.holder = none → c.shared = s ∧ rest = []
  held : ∀ t, c.holder = some t →
    (∃ i k, c.phase t = .inside i k ∧ Path R (R.start i, s, loc t) rest (k, c.shared, c.loc t)) ∨
      ∃ i o, c.phase t = .leaving i o ∧ Completes R i s (loc t) rest o c.shared (c.loc t)

variable {R : Routine σ ℓ κ ι ε ο} {c₀ c c' : Config τ σ ℓ κ ι ο} {a : Action τ ι ε ο}
  {acts : List (Action τ ι ε ο)} {calls : List ((τ × ι × ο) × List ε)} {rest : List ε} {s : σ}
  {loc : τ → ℓ} {t : τ}

theorem serialized_of_quiet (h : c₀.Quiet) : Serialized R c₀ c₀ [] [] c₀.shared c₀.loc where
  serial := .nil
  idle t _ := ⟨h.idle t, rfl⟩
  free _ := ⟨rfl, rfl⟩
  held t ht := by
    rw [h.free] at ht
    cases ht

namespace Serialized

/-- Who is not idle holds the lock. -/
theorem holder_of_ne_idle (h : Serialized R c₀ c calls rest s loc) (ht : c.phase t ≠ .idle) :
    c.holder = some t := by
  by_contra hne
  exact ht (h.idle t hne).1

/-- Who is inside has come there undisturbed. -/
theorem path (h : Serialized R c₀ c calls rest s loc) {i : ι} {k : κ}
    (hin : c.phase t = .inside i k) : c.holder = some t ∧
      Path R (R.start i, s, loc t) rest (k, c.shared, c.loc t) := by
  have hholder : c.holder = some t := h.holder_of_ne_idle (by rw [hin]; nofun)
  refine ⟨hholder, ?_⟩
  rcases h.held t hholder with ⟨i', k', hin', hpath⟩ | ⟨i', o, hout, -⟩
  · rw [hin] at hin'
    cases hin'
    exact hpath
  · rw [hin] at hout
    cases hout

theorem completes (h : Serialized R c₀ c calls rest s loc) {i : ι} {o : ο}
    (hout : c.phase t = .leaving i o) : c.holder = some t ∧
      Completes R i s (loc t) rest o c.shared (c.loc t) := by
  have hholder : c.holder = some t := h.holder_of_ne_idle (by rw [hout]; nofun)
  refine ⟨hholder, ?_⟩
  rcases h.held t hholder with ⟨i', k, hin, -⟩ | ⟨i', o', hout', hdone⟩
  · rw [hout] at hin
    cases hin
  · rw [hout] at hout'
    cases hout'
    exact hdone

/-- A statement of the holder of the lock. -/
theorem moveTo (h : Serialized R c₀ c calls rest s loc) {i : ι} {k : κ} {next : κ × σ × ℓ}
    {rest' : List ε} (hin : c.phase t = .inside i k)
    (hpath : Path R (R.start i, s, loc t) rest' next) :
    Serialized R c₀ (c.moveTo t i next) calls rest' s loc where
  serial := h.serial
  idle u hu := by
    have hne : u ≠ t := by
      rintro rfl
      exact hu (h.path hin).1
    obtain ⟨hidle, hloc⟩ := h.idle u hu
    exact ⟨(update_of_ne hne _ _).trans hidle, (update_of_ne hne _ _).trans hloc⟩
  free hfree := by
    rw [show (c.moveTo t i next).holder = c.holder from rfl, (h.path hin).1] at hfree
    cases hfree
  held u hu := by
    obtain rfl : t = u := Option.some.inj ((h.path hin).1.symm.trans hu)
    refine Or.inl ⟨i, next.1, update_self _ _ _, ?_⟩
    rw [show (c.moveTo t i next).loc t = next.2.2 from update_self _ _ _]
    exact hpath

end Serialized

/-- One action of an execution: a call is added when it returns, and a reading when it is
made. -/
theorem step_serialized (h : Serialized R c₀ c calls rest s loc) (hstep : Step R c a c') :
    ∃ calls' rest' s' loc', Serialized R c₀ c' calls' rest' s' loc' ∧
      calls'.map Prod.fst = calls.map Prod.fst ++ (answer a).toList ∧
      (calls'.map Prod.snd).flatten ++ rest' =
        (calls.map Prod.snd).flatten ++ rest ++ (reading a).toList := by
  cases hstep with
  | @enter t i is hfree hidle htodo =>
      obtain ⟨rfl, rfl⟩ := h.free hfree
      have hall : ∀ u, c.phase u = .idle ∧ c.loc u = loc u := fun u ↦
        h.idle u (by rw [hfree]; nofun)
      refine ⟨calls, [], c.shared, loc, ⟨h.serial, ?_, ?_, ?_⟩, ?_, ?_⟩
      · intro u hu
        have hne : u ≠ t := by
          rintro rfl
          exact hu rfl
        exact ⟨(update_of_ne hne _ _).trans (hall u).1, (hall u).2⟩
      · intro hnone
        cases hnone
      · intro u hu
        obtain rfl := Option.some.inj hu
        refine Or.inl ⟨i, R.start i, update_self _ _ _, ?_⟩
        rw [← (hall t).2]
        exact .nil
      · exact (List.append_nil _).symm
      · exact (List.append_nil _).symm
  | @go t i k next hin hmove =>
      refine ⟨calls, rest, s, loc, h.moveTo hin ((h.path hin).2.go hmove), ?_, ?_⟩
      · exact (List.append_nil _).symm
      · exact (List.append_nil _).symm
  | @read t i k next e hin hmove =>
      refine ⟨calls, rest ++ [e], s, loc, h.moveTo hin ((h.path hin).2.read e hmove), ?_, ?_⟩
      · exact (List.append_nil _).symm
      · exact (List.append_assoc _ _ _).symm
  | @ret t i k o hin hmove =>
      obtain ⟨hholder, hpath⟩ := h.path hin
      refine ⟨calls, rest, s, loc, ⟨h.serial, ?_, ?_, ?_⟩, ?_, ?_⟩
      · intro u hu
        have hne : u ≠ t := by
          rintro rfl
          exact hu hholder
        exact ⟨(update_of_ne hne _ _).trans (h.idle u hu).1, (h.idle u hu).2⟩
      · exact h.free
      · intro u hu
        obtain rfl : t = u := Option.some.inj (hholder.symm.trans hu)
        exact Or.inr ⟨i, o, update_self _ _ _, k, hpath, hmove⟩
      · exact (List.append_nil _).symm
      · exact (List.append_nil _).symm
  | @leave t i o hout =>
      obtain ⟨hholder, hdone⟩ := h.completes hout
      refine ⟨calls ++ [((t, i, o), rest)], [], c.shared, update loc t (c.loc t),
        ⟨h.serial.snoc hdone, ?_, fun _ ↦ ⟨rfl, rfl⟩, ?_⟩, ?_, ?_⟩
      · intro u _
        by_cases hu : u = t
        · subst hu
          have hself : update loc u (c.loc u) u = c.loc u := update_self _ _ _
          exact ⟨update_self _ _ _, hself.symm⟩
        · have hne : c.holder ≠ some u := by
            rw [hholder]
            exact fun heq ↦ hu (Option.some.inj heq).symm
          rw [update_of_ne hu]
          exact ⟨(update_of_ne hu _ _).trans (h.idle u hne).1, (h.idle u hne).2⟩
      · intro u hu
        cases hu
      · exact List.map_append
      · simp [reading]

theorem exec_serialized (hquiet : c₀.Quiet) (h : Exec R c₀ acts c) :
    ∃ calls rest s loc, Serialized R c₀ c calls rest s loc ∧
      calls.map Prod.fst = answers acts ∧
      (calls.map Prod.snd).flatten ++ rest = readings acts := by
  induction h with
  | nil => exact ⟨[], [], _, _, serialized_of_quiet hquiet, rfl, rfl⟩
  | @snoc acts a c c' h hstep ih =>
      obtain ⟨calls, rest, s, loc, hser, hans, hread⟩ := ih
      obtain ⟨calls', rest', s', loc', hser', hans', hread'⟩ := step_serialized hser hstep
      refine ⟨calls', rest', s', loc', hser', ?_, ?_⟩
      · rw [hans', hans, answers, answers, List.filterMap_append, List.filterMap_cons,
          List.filterMap_nil]
        cases answer a <;> rfl
      · rw [hread', hread, readings, readings, List.filterMap_append, List.filterMap_cons,
          List.filterMap_nil]
        cases reading a <;> rfl

/-- **Executions are serial.**  What the calls of an execution return is what they return
when they run one after another in the order in which they return, and they read what the
execution reads.  When the lock is free, the state is the one the last of them leaves. -/
theorem exists_serial (hquiet : c₀.Quiet) (h : Exec R c₀ acts c) :
    ∃ calls rest s loc, Serial R c₀.shared c₀.loc calls s loc ∧
      calls.map Prod.fst = answers acts ∧
      (calls.map Prod.snd).flatten ++ rest = readings acts ∧
      (c.holder = none → rest = [] ∧ s = c.shared ∧ loc = c.loc) := by
  obtain ⟨calls, rest, s, loc, hser, hans, hread⟩ := exec_serialized hquiet h
  refine ⟨calls, rest, s, loc, hser.serial, hans, hread, fun hfree ↦ ?_⟩
  obtain ⟨hshared, hrest⟩ := hser.free hfree
  refine ⟨hrest, hshared.symm, funext fun t ↦ ?_⟩
  exact (hser.idle t (by rw [hfree]; nofun)).2.symm

/-! ## Order and progress -/

/-- The call a thread is in. -/
def Phase.input : Phase ι κ ο → List ι
  | .idle => []
  | .inside i _ => [i]
  | .leaving i _ => [i]

/-- The inputs of the calls of one thread that have returned. -/
def served (t : τ) (acts : List (Action τ ι ε ο)) : List ι :=
  ((answers acts).filter fun r ↦ r.1 = t).map fun r ↦ r.2.1

theorem served_snoc (t : τ) (acts : List (Action τ ι ε ο)) (a : Action τ ι ε ο) :
    served t (acts ++ [a]) = served t acts ++ served t [a] := by
  simp only [served, answers, List.filterMap_append, List.filter_append, List.map_append]

/-- Each thread's calls return in the order in which it makes them, none is lost and none
is made twice. -/
theorem program_order (hquiet : c₀.Quiet) (h : Exec R c₀ acts c) (t : τ) :
    served t acts ++ (c.phase t).input ++ c.todo t = c₀.todo t := by
  induction h with
  | nil => rw [hquiet.idle t]; rfl
  | @snoc acts a c c' h hstep ih =>
      rw [← ih, served_snoc]
      -- Only the entering and the leaving thread move a call.
      cases hstep with
      | @enter u i is hfree hidle htodo =>
          by_cases hu : t = u
          · subst hu
            simp [served, answers, answer, Phase.input, hidle, htodo]
          · simp [served, answers, answer, update_of_ne hu]
      | @go u i k next hin hmove =>
          by_cases hu : t = u
          · subst hu
            simp [served, answers, answer, Phase.input, hin, Config.moveTo]
          · simp [served, answers, answer, Config.moveTo, update_of_ne hu]
      | @read u i k next e hin hmove =>
          by_cases hu : t = u
          · subst hu
            simp [served, answers, answer, Phase.input, hin, Config.moveTo]
          · simp [served, answers, answer, Config.moveTo, update_of_ne hu]
      | @ret u i k o hin hmove =>
          by_cases hu : t = u
          · subst hu
            simp [served, answers, answer, Phase.input, hin]
          · simp [served, answers, answer, update_of_ne hu]
      | @leave u i o hout =>
          by_cases hu : t = u
          · subst hu
            simp [served, answers, answer, Phase.input, hout]
          · have hu' : ¬ u = t := fun heq ↦ hu heq.symm
            simp [served, answers, answer, update_of_ne hu, hu']

/-- As long as a thread is in the routine or has a call to make, some action can happen. -/
theorem exists_step [Nonempty ε] (hquiet : c₀.Quiet) (h : Exec R c₀ acts c)
    (hbusy : ∃ t, c.phase t ≠ .idle ∨ c.todo t ≠ []) : ∃ a c', Step R c a c' := by
  have hmoves : ∀ t, c.phase t ≠ .idle → ∃ a c', Step R c a c' := by
    intro t ht
    cases hphase : c.phase t with
    | idle => exact absurd hphase ht
    | inside i k =>
        cases hmove : R.move k c.shared (c.loc t) with
        | go next => exact ⟨_, _, .go hphase hmove⟩
        | read next => exact ⟨_, _, .read (Classical.arbitrary ε) hphase hmove⟩
        | ret o => exact ⟨_, _, .ret hphase hmove⟩
    | leaving i o => exact ⟨_, _, .leave hphase⟩
  have hfree : (∀ t, c.phase t = .idle) → c.holder = none := by
    intro hidle
    obtain ⟨calls, rest, s, loc, hser, -⟩ := exec_serialized hquiet h
    cases hholder : c.holder with
    | none => rfl
    | some t =>
        rcases hser.held t hholder with ⟨i, k, hin, -⟩ | ⟨i, o, hout, -⟩
        · rw [hidle t] at hin
          cases hin
        · rw [hidle t] at hout
          cases hout
  by_cases hidle : ∀ t, c.phase t = .idle
  · obtain ⟨t, ht | ht⟩ := hbusy
    · exact absurd (hidle t) ht
    · obtain ⟨i, is, htodo⟩ := List.exists_cons_of_ne_nil ht
      exact ⟨_, _, .enter (hfree hidle) (hidle t) htodo⟩
  · obtain ⟨t, ht⟩ := not_forall.mp hidle
    exact hmoves t ht

/-! ## Schedules -/

/-- What the thread `t` does next, when the environment holds `e`. -/
def tick (R : Routine σ ℓ κ ι ε ο) (c : Config τ σ ℓ κ ι ο) (t : τ) (e : ε) :
    Option (Action τ ι ε ο × Config τ σ ℓ κ ι ο) :=
  match c.phase t with
  | .idle =>
      if c.holder.isSome then none
      else
        match c.todo t with
        | [] => none
        | i :: is => some (.enter t i,
            { c with
              holder := some t
              todo := update c.todo t is
              phase := update c.phase t (.inside i (R.start i)) })
  | .inside i k =>
      match R.move k c.shared (c.loc t) with
      | .go next => some (.go t, c.moveTo t i next)
      | .read next => some (.read t e, c.moveTo t i (next e))
      | .ret o => some (.ret t, { c with phase := update c.phase t (.leaving i o) })
  | .leaving i o =>
      some (.leave t i o, { c with holder := none, phase := update c.phase t .idle })

/-- The actions of a schedule, which says whose turn it is. -/
def schedule (R : Routine σ ℓ κ ι ε ο) :
    Config τ σ ℓ κ ι ο → List (τ × ε) → Option (List (Action τ ι ε ο) × Config τ σ ℓ κ ι ο)
  | c, [] => some ([], c)
  | c, (t, e) :: turns =>
      (tick R c t e).bind fun r ↦ (schedule R r.2 turns).map fun r' ↦ (r.1 :: r'.1, r'.2)

theorem step_of_tick {e : ε} (h : tick R c t e = some (a, c')) : Step R c a c' := by
  rw [tick] at h
  split at h
  · rename_i hidle
    split at h
    · cases h
    · rename_i hfree
      split at h
      · cases h
      · rename_i i is htodo
        cases h
        exact .enter (Option.not_isSome_iff_eq_none.mp hfree) hidle htodo
  · rename_i i k hin
    split at h
    · rename_i next hmove
      cases h
      exact .go hin hmove
    · rename_i next hmove
      cases h
      exact .read e hin hmove
    · rename_i o hmove
      cases h
      exact .ret hin hmove
  · rename_i i o hout
    cases h
    exact .leave hout

theorem Exec.cons (hstep : Step R c₀ a c) (h : Exec R c acts c') : Exec R c₀ (a :: acts) c' := by
  induction h with
  | nil =>
      have h : Exec R c₀ ([] ++ [a]) c := .snoc .nil hstep
      exact h
  | snoc _ hlast ih => exact .snoc ih hlast

/-- Schedules are executions. -/
theorem exec_of_schedule {l : List (τ × ε)} (h : schedule R c l = some (acts, c')) :
    Exec R c acts c' := by
  induction l generalizing c acts with
  | nil =>
      cases h
      exact .nil
  | cons turn l ih =>
      obtain ⟨⟨a, c₁⟩, htick, h⟩ := Option.bind_eq_some_iff.mp h
      obtain ⟨⟨acts', c₂⟩, hrest, heq⟩ := Option.map_eq_some_iff.mp h
      cases heq
      exact .cons (step_of_tick htick) (ih hrest)

/-! ## Calls as a function -/

/-- A function that says how a call ends from each of its points: what it returns, and the
states and the readings it leaves. -/
structure Routine.Finishes (R : Routine σ ℓ κ ι ε ο)
    (finish : κ × σ × ℓ → List ε → Option (ο × σ × ℓ × List ε)) : Prop where
  go : ∀ {k s l next} (es : List ε), R.move k s l = .go next →
    finish (k, s, l) es = finish next es
  read : ∀ {k s l next} (e : ε) (es : List ε), R.move k s l = .read next →
    finish (k, s, l) (e :: es) = finish (next e) es
  ret : ∀ {k s l o} (es : List ε), R.move k s l = .ret o →
    finish (k, s, l) es = some (o, s, l, es)

variable {finish : κ × σ × ℓ → List ε → Option (ο × σ × ℓ × List ε)}

theorem Routine.Finishes.of_path (hf : R.Finishes finish) {start next : κ × σ × ℓ} {es : List ε}
    (h : Path R start es next) (rest : List ε) : finish start (es ++ rest) = finish next rest := by
  induction h generalizing rest with
  | nil => rfl
  | go _ hmove ih => rw [ih, hf.go _ hmove]
  | read e _ hmove ih => rw [List.append_assoc, ih, List.singleton_append, hf.read _ _ hmove]

theorem Routine.Finishes.of_completes (hf : R.Finishes finish) {i : ι} {l l' : ℓ} {s' : σ} {o : ο}
    {es : List ε} (h : Completes R i s l es o s' l') (rest : List ε) :
    finish (R.start i, s, l) (es ++ rest) = some (o, s', l', rest) := by
  obtain ⟨k, hpath, hmove⟩ := h
  rw [hf.of_path hpath, hf.ret _ hmove]

/-- The shared state and those of the threads, with the readings to come. -/
structure Memory (τ σ ℓ ε : Type u) where
  shared : σ
  loc : τ → ℓ
  env : List ε

/-- A call of a thread, as a whole. -/
def Memory.call (call : ι → σ → ℓ → List ε → Option (ο × σ × ℓ × List ε)) (w : Memory τ σ ℓ ε)
    (c : τ × ι) : Option (ο × Memory τ σ ℓ ε) :=
  (call c.2 w.shared (w.loc c.1) w.env).map fun r ↦
    (r.1, ⟨r.2.1, update w.loc c.1 r.2.2.1, r.2.2.2⟩)

variable {call : ι → σ → ℓ → List ε → Option (ο × σ × ℓ × List ε)}

/-- Calls that run one after another are a run. -/
theorem run_of_serial (hf : R.Finishes finish)
    (hcall : ∀ i s l es, call i s l es = finish (R.start i, s, l) es) {s₀ : σ} {loc₀ : τ → ℓ}
    (h : Serial R s₀ loc₀ calls s loc) (rest : List ε) :
    ∃ es, Machine.run (Memory.call call) ⟨s₀, loc₀, (calls.map Prod.snd).flatten ++ rest⟩
        (calls.map fun c ↦ (c.1.1, c.1.2.1)) = some es ∧
      es.map Event.output = calls.map (fun c ↦ c.1.2.2) ∧
      Machine.final ⟨s₀, loc₀, (calls.map Prod.snd).flatten ++ rest⟩ es = ⟨s, loc, rest⟩ := by
  induction h generalizing rest with
  | nil => exact ⟨[], rfl, rfl, rfl⟩
  | @snoc calls s s' loc l' t i o es h hdone ih =>
      obtain ⟨evs, hrun, hout, hfinal⟩ := ih (es ++ rest)
      have henv : ((calls ++ [((t, i, o), es)]).map Prod.snd).flatten ++ rest =
          (calls.map Prod.snd).flatten ++ (es ++ rest) := by
        simp
      have hstep : Memory.call call (⟨s, loc, es ++ rest⟩ : Memory τ σ ℓ ε) (t, i) =
          some (o, ⟨s', update loc t l', rest⟩) := by
        rw [Memory.call, hcall, hf.of_completes hdone]
        rfl
      have hlast : Machine.run (Memory.call call) (⟨s, loc, es ++ rest⟩ : Memory τ σ ℓ ε) [(t, i)] =
          some [⟨⟨s, loc, es ++ rest⟩, (t, i), o, ⟨s', update loc t l', rest⟩⟩] :=
        Machine.run_cons_eq_some_iff.mpr ⟨_, _, _, hstep, rfl, rfl⟩
      rw [henv, List.map_append, List.map_append]
      refine ⟨_, Machine.run_append hrun (hfinal.symm ▸ hlast), ?_, ?_⟩
      · rw [List.map_append, hout]
        rfl
      · rw [Machine.final_append]
        rfl

/-- What the calls of an execution return, a run returns on the inputs of these calls and
the readings of the execution. -/
theorem exists_run (hf : R.Finishes finish)
    (hcall : ∀ i s l es, call i s l es = finish (R.start i, s, l) es) (hquiet : c₀.Quiet)
    (h : Exec R c₀ acts c) :
    ∃ es, Machine.run (Memory.call call) ⟨c₀.shared, c₀.loc, readings acts⟩
        ((answers acts).map fun r ↦ (r.1, r.2.1)) = some es ∧
      es.map Event.output = (answers acts).map (fun r ↦ r.2.2) ∧
      (c.holder = none →
        Machine.final ⟨c₀.shared, c₀.loc, readings acts⟩ es = ⟨c.shared, c.loc, []⟩) := by
  obtain ⟨calls, rest, s, loc, hser, hans, hread, hfree⟩ := exists_serial hquiet h
  obtain ⟨es, hrun, hout, hfinal⟩ := run_of_serial hf hcall hser rest
  rw [hread] at hrun hfinal
  refine ⟨es, ?_, ?_, fun hnone ↦ ?_⟩
  · rw [← hans, List.map_map]
    exact hrun
  · rw [hout, ← hans, List.map_map]
    rfl
  · obtain ⟨rfl, rfl, rfl⟩ := hfree hnone
    exact hfinal

end

end Critical
