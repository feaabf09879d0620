import Rivid.Lib.RegexCarry

/-!
# Which symbols a match starts with

What is read first of an expression decides many of its matches: where its first symbols do
not stand there is none.  Therefore a repeated set of symbols reads all that come next if what
follows it starts with none of them.
-/

universe u

namespace Regex

variable {α : Type u}

/-! ## First symbols -/

/-- The expression may match the empty text. -/
def nullable : Regex α → Bool
  | empty => true
  | set _ => false
  | seq r t => nullable r && nullable t
  | alt r t => nullable r || nullable t
  | star _ _ => true
  | group _ r => nullable r
  | boundary _ => true
  | start => true
  | lineStart _ => true
  | stop => true
  | notAhead _ => true

/-- A match may start with `c`. -/
def first (c : α) : Regex α → Bool
  | empty => false
  | set p => p c
  | seq r t => first c r || nullable r && first c t
  | alt r t => first c r || first c t
  | star _ r => first c r
  | group _ r => first c r
  | boundary _ => false
  | start => false
  | lineStart _ => false
  | stop => false
  | notAhead _ => false

theorem nullable_comap {β : Type u} (f : β → α) (r : Regex α) :
    nullable (comap f r) = nullable r := by
  induction r with
  | seq r t ihr iht => rw [comap, nullable, nullable, ihr, iht]
  | alt r t ihr iht => rw [comap, nullable, nullable, ihr, iht]
  | group n r ih => exact ih
  | _ => rfl

theorem first_comap {β : Type u} (f : β → α) (c : β) (r : Regex α) :
    first c (comap f r) = first (f c) r := by
  induction r with
  | seq r t ihr iht => rw [comap, first, first, ihr, iht, nullable_comap]
  | alt r t ihr iht => rw [comap, first, first, ihr, iht]
  | star greedy r ih => exact ih
  | group n r ih => exact ih
  | _ => rfl

theorem nullable_seqAll_cons {r : Regex α} (h : nullable r = false) (rs : List (Regex α)) :
    nullable (seqAll (r :: rs)) = false := by
  cases rs with
  | nil => exact h
  | cons t rs => exact Bool.and_eq_false_imp.mpr fun hr ↦ absurd hr (Bool.eq_false_iff.mp h)

theorem first_seqAll_cons {r : Regex α} (h : nullable r = false) (c : α) (rs : List (Regex α)) :
    first c (seqAll (r :: rs)) = first c r := by
  cases rs with
  | nil => rfl
  | cons t rs => rw [seqAll, first, h, Bool.false_and, Bool.or_false]; exact List.cons_ne_nil _ _

/-- A match of nothing, or one whose first symbol may be first. -/
def Starts (r : Regex α) (s s' : Place α) : Prop :=
  s'.after = s.after ∧ nullable r = true ∨ ∃ c rest, s.after = c :: rest ∧ first c r = true

theorem starts_of_mem_run {r : Regex α} {s s' : Place α} (h : s' ∈ run r s) : Starts r s s' := by
  induction r generalizing s s' with
  | empty =>
      obtain rfl := List.mem_singleton.mp h
      exact .inl ⟨rfl, rfl⟩
  | set p =>
      obtain ⟨before, after, groups⟩ := s
      cases after with
      | nil => cases h
      | cons c rest =>
          by_cases hp : p c = true
          · exact .inr ⟨c, rest, rfl, hp⟩
          · simp [run, hp] at h
  | seq r t ihr iht =>
      obtain ⟨m, hm, hs'⟩ := List.mem_flatMap.mp h
      rcases ihr hm with ⟨heq, hnull⟩ | ⟨c, rest, hc, hfirst⟩
      · rcases iht hs' with ⟨heq', hnull'⟩ | ⟨c, rest, hc, hfirst⟩
        · exact .inl ⟨heq'.trans heq, by rw [nullable, hnull, hnull']; rfl⟩
        · exact .inr ⟨c, rest, heq ▸ hc, by rw [first, hnull, hfirst, Bool.and_self, Bool.or_true]⟩
      · exact .inr ⟨c, rest, hc, by rw [first, hfirst, Bool.true_or]⟩
  | alt r t ihr iht =>
      rcases List.mem_append.mp h with h | h
      · rcases ihr h with ⟨heq, hnull⟩ | ⟨c, rest, hc, hfirst⟩
        · exact .inl ⟨heq, by rw [nullable, hnull, Bool.true_or]⟩
        · exact .inr ⟨c, rest, hc, by rw [first, hfirst, Bool.true_or]⟩
      · rcases iht h with ⟨heq, hnull⟩ | ⟨c, rest, hc, hfirst⟩
        · exact .inl ⟨heq, by rw [nullable, hnull, Bool.or_true]⟩
        · exact .inr ⟨c, rest, hc, by rw [first, hfirst, Bool.or_true]⟩
  | star greedy r ih =>
      rcases mem_run_star_iff.mp h with rfl | ⟨m, hm, hlt, -⟩
      · exact .inl ⟨rfl, rfl⟩
      · rcases ih hm with ⟨heq, -⟩ | ⟨c, rest, hc, hfirst⟩
        · exact absurd hlt (heq ▸ Nat.lt_irrefl _)
        · exact .inr ⟨c, rest, hc, hfirst⟩
  | group n r ih =>
      obtain ⟨m, hm, rfl⟩ := List.mem_map.mp h
      exact (ih hm).imp id id
  | boundary word =>
      obtain rfl := eq_of_mem_if h
      exact .inl ⟨rfl, rfl⟩
  | start =>
      obtain rfl := eq_of_mem_if h
      exact .inl ⟨rfl, rfl⟩
  | lineStart ends =>
      obtain rfl := eq_of_mem_if h
      exact .inl ⟨rfl, rfl⟩
  | stop =>
      obtain rfl := eq_of_mem_if h
      exact .inl ⟨rfl, rfl⟩
  | notAhead r _ =>
      obtain rfl := eq_of_mem_if h
      exact .inl ⟨rfl, rfl⟩

theorem length_lt_of_mem_run {r : Regex α} (h : nullable r = false) {s m : Place α}
    (hm : m ∈ run r s) : m.after.length < s.after.length := by
  induction r generalizing s m with
  | set p =>
      obtain ⟨c, rest, hafter, -, rfl⟩ := mem_run_set_iff.mp hm
      rw [hafter]
      exact Nat.lt_succ_self _
  | seq r t ihr iht =>
      obtain ⟨m₁, hm₁, hm⟩ := List.mem_flatMap.mp hm
      cases hr : nullable r with
      | false => exact Nat.lt_of_le_of_lt (length_le_of_mem_run m₁ m hm) (ihr hr hm₁)
      | true =>
          rw [nullable, hr, Bool.true_and] at h
          exact Nat.lt_of_lt_of_le (iht h hm) (length_le_of_mem_run s m₁ hm₁)
  | alt r t ihr iht =>
      obtain ⟨hr, ht⟩ := Bool.or_eq_false_iff.mp h
      exact (List.mem_append.mp hm).elim (ihr hr) (iht ht)
  | group n r ih =>
      obtain ⟨m₁, hm₁, rfl⟩ := List.mem_map.mp hm
      exact ih h (m := m₁) hm₁
  | _ => cases h

/-- There is no match where the next symbol cannot be first. -/
theorem run_eq_nil_of_first {r : Regex α} {s : Place α} {c : α} {rest : List α}
    (hs : s.after = c :: rest) (hnull : nullable r = false) (hfirst : first c r = false) :
    run r s = [] := by
  refine List.eq_nil_iff_forall_not_mem.mpr fun s' hs' ↦ ?_
  rcases starts_of_mem_run hs' with ⟨-, h⟩ | ⟨e, rest', he, h⟩
  · rw [hnull] at h
    cases h
  · obtain ⟨rfl, rfl⟩ := List.cons.inj (hs ▸ he)
    rw [hfirst] at h
    cases h

theorem run_eq_nil_at_end {r : Regex α} {s : Place α} (hs : s.after = [])
    (hnull : nullable r = false) : run r s = [] := by
  refine List.eq_nil_iff_forall_not_mem.mpr fun s' hs' ↦ ?_
  rcases starts_of_mem_run hs' with ⟨-, h⟩ | ⟨e, rest', he, -⟩
  · rw [hnull] at h
    cases h
  · rw [hs] at he
    cases he

/-! ## Runs of symbols -/

/-- The place behind the symbols of a class that come next. -/
def Place.skipWhile (p : α → Bool) (s : Place α) : Place α :=
  ⟨(s.after.takeWhile p).reverse ++ s.before, s.after.dropWhile p, s.groups⟩

theorem run_set_of_pos {p : α → Bool} {c : α} (h : p c = true) (before rest : List α)
    (groups : List (ℕ × List α)) :
    run (set p) ⟨before, c :: rest, groups⟩ = [⟨c :: before, rest, groups⟩] := by
  simp [run, h, Place.next]

theorem run_set_of_neg {p : α → Bool} {c : α} (h : p c = false) (before rest : List α)
    (groups : List (ℕ × List α)) : run (set p) ⟨before, c :: rest, groups⟩ = [] := by
  simp [run, h]

theorem run_star_set_of_neg {greedy : Bool} {p : α → Bool} {s : Place α}
    (h : s.after.head?.any p = false) : run (star greedy (set p)) s = [s] := by
  obtain ⟨before, after, groups⟩ := s
  cases after with
  | nil => cases greedy <;> rfl
  | cons c rest =>
      have hc : p c = false := h
      rw [run_star, run_set_of_neg hc]
      cases greedy <;> rfl

theorem run_star_set_of_pos {greedy : Bool} {p : α → Bool} {c : α} (h : p c = true)
    (before rest : List α) (groups : List (ℕ × List α)) :
    run (star greedy (set p)) ⟨before, c :: rest, groups⟩ =
      if greedy then run (star greedy (set p)) ⟨c :: before, rest, groups⟩ ++
        [⟨before, c :: rest, groups⟩]
      else ⟨before, c :: rest, groups⟩ ::
        run (star greedy (set p)) ⟨c :: before, rest, groups⟩ := by
  rw [run_star, run_set_of_pos h]
  simp

/-- A greedy run of symbols takes all of them first, and gives back one after the other. -/
theorem run_star_set (p : α → Bool) (s : Place α) :
    ∃ fewer, run (star true (set p)) s = s.skipWhile p :: fewer ∧
      ∀ m ∈ fewer, ∃ c rest, m.after = c :: rest ∧ p c = true ∧ m.groups = s.groups := by
  obtain ⟨before, after, groups⟩ := s
  induction after generalizing before with
  | nil => exact ⟨[], rfl, fun m hm ↦ absurd hm List.not_mem_nil⟩
  | cons c rest ih =>
      cases hc : p c with
      | false =>
          refine ⟨[], ?_, fun m hm ↦ absurd hm List.not_mem_nil⟩
          rw [run_star_set_of_neg (s := ⟨before, c :: rest, groups⟩) hc]
          simp [Place.skipWhile, hc]
      | true =>
          obtain ⟨fewer, hrun, hfewer⟩ := ih (c :: before)
          refine ⟨fewer ++ [⟨before, c :: rest, groups⟩], ?_, ?_⟩
          · rw [run_star_set_of_pos hc, if_pos rfl, hrun]
            simp [Place.skipWhile, hc]
          · intro m hm
            rcases List.mem_append.mp hm with hm | hm
            · exact hfewer m hm
            · obtain rfl := List.mem_singleton.mp hm
              exact ⟨c, rest, rfl, hc, rfl⟩

theorem groups_of_mem_run_star_set {greedy : Bool} {p : α → Bool} {m m' : Place α}
    (h : m' ∈ run (star greedy (set p)) m) : m'.groups = m.groups := by
  refine rounds_rule (R := fun m m' ↦ m'.groups = m.groups) (fun _ ↦ rfl) ?_ h
  rintro m m₁ m' hm₁ - hm'
  obtain ⟨c, rest, -, -, rfl⟩ := mem_run_set_iff.mp hm₁
  exact hm'

theorem exists_of_mem_run_plus_set {p : α → Bool} {m m' : Place α} (h : m' ∈ run (plus (set p)) m) :
    ∃ u, u ≠ [] ∧ (∀ c ∈ u, p c = true) ∧ Consumed m u m' ∧ m'.groups = m.groups := by
  obtain ⟨m₁, hm₁, hm'⟩ := List.mem_flatMap.mp h
  obtain ⟨c, rest, hafter, hc, rfl⟩ := mem_run_set_iff.mp hm₁
  obtain ⟨u, hu, havoid⟩ := exists_consumed hm'
  have hset : ∀ e ∈ u, p e = true := fun e he ↦ by
    by_contra hpe
    exact havoid e (Bool.eq_false_iff.mpr hpe) he
  have hstep : Consumed m [c] (m.next c rest) := ⟨hafter, rfl⟩
  have hgroups : m'.groups = (m.next c rest).groups := groups_of_mem_run_star_set hm'
  exact ⟨c :: u, List.cons_ne_nil c u, List.forall_mem_cons.mpr ⟨hc, hset⟩, hstep.trans hu, hgroups⟩

theorem exists_of_mem_run_opt_set {p : α → Bool} {m m' : Place α} (h : m' ∈ run (opt (set p)) m) :
    ∃ u, (u = [] ∨ ∃ c, u = [c] ∧ p c = true) ∧ m.after = u ++ m'.after ∧ m'.groups = m.groups := by
  rcases List.mem_append.mp h with h | h
  · obtain ⟨c, rest, hafter, hc, rfl⟩ := mem_run_set_iff.mp h
    exact ⟨[c], .inr ⟨c, rfl, hc⟩, hafter, rfl⟩
  · obtain rfl := List.mem_singleton.mp h
    exact ⟨[], .inl rfl, rfl, rfl⟩

/-- What follows a greedy run of symbols, when it cannot go on in front of one of them. -/
theorem flatMap_run_star_set {p : α → Bool} {k : Place α → List (Place α)}
    (hk : ∀ m c rest, m.after = c :: rest → p c = true → k m = []) (s : Place α) :
    (run (star true (set p)) s).flatMap k = k (s.skipWhile p) := by
  obtain ⟨fewer, hrun, hfewer⟩ := run_star_set p s
  have hnone : fewer.flatMap k = [] := by
    refine List.flatMap_eq_nil_iff.mpr fun m hm ↦ ?_
    obtain ⟨c, rest, hc, hp, -⟩ := hfewer m hm
    exact hk m c rest hc hp
  rw [hrun, List.flatMap_cons, hnone, List.append_nil]

/-- The same for at least one symbol. -/
theorem run_seq_plus_set {p : α → Bool} {t : Regex α} (hnull : nullable t = false)
    (hfirst : ∀ c, p c = true → first c t = false) (s : Place α) :
    run (seq (plus (set p)) t) s =
      if s.after.head?.any p then run t (s.skipWhile p) else [] := by
  obtain ⟨before, after, groups⟩ := s
  have hk : ∀ m c rest, m.after = c :: rest → p c = true → run t m = [] :=
    fun m c rest hm hp ↦ run_eq_nil_of_first hm hnull (hfirst c hp)
  cases after with
  | nil => rfl
  | cons c rest =>
      cases hc : p c with
      | false => simp [run, plus, hc]
      | true =>
          have hstep : run (seq (plus (set p)) t) ⟨before, c :: rest, groups⟩ =
              (run (star true (set p)) ⟨c :: before, rest, groups⟩).flatMap (run t) := by
            rw [run, plus, run, run_set_of_pos hc]
            simp
          rw [hstep, flatMap_run_star_set hk]
          simp [Place.skipWhile, hc]

theorem run_seq_star_set {p : α → Bool} {t : Regex α} (hnull : nullable t = false)
    (hfirst : ∀ c, p c = true → first c t = false) (s : Place α) :
    run (seq (star true (set p)) t) s = run t (s.skipWhile p) :=
  flatMap_run_star_set (fun _ c _ hm hp ↦ run_eq_nil_of_first hm hnull (hfirst c hp)) s

/-- One symbol or none, when what follows cannot start with it. -/
theorem run_seq_opt_set {p : α → Bool} {t : Regex α} (hnull : nullable t = false)
    (hfirst : ∀ c, p c = true → first c t = false) (u before rest : List α)
    (groups : List (ℕ × List α))
    (hu : u = [] ∧ rest.head?.any p = false ∨ ∃ c, u = [c] ∧ p c = true) :
    run (seq (opt (set p)) t) ⟨before, u ++ rest, groups⟩ =
      run t ⟨u.reverse ++ before, rest, groups⟩ := by
  rcases hu with ⟨rfl, hrest⟩ | ⟨c, rfl, hc⟩
  · cases rest with
    | nil => simp [run, opt]
    | cons e rest =>
        have he : p e = false := hrest
        simp [run, opt, he]
  · have hstay : run t ⟨before, c :: rest, groups⟩ = [] :=
      run_eq_nil_of_first rfl hnull (hfirst c hc)
    simp [run, opt, hc, hstay, Place.next]

/-- Symbols one after the other. -/
theorem run_seqAll_set {β : Type*} {p : β → α → Bool} {es : List β} {w : List α}
    (h : List.Forall₂ (fun e c ↦ p e c = true) es w) (before rest : List α)
    (groups : List (ℕ × List α)) :
    run (seqAll (es.map fun e ↦ set (p e))) ⟨before, w ++ rest, groups⟩ =
      [⟨w.reverse ++ before, rest, groups⟩] := by
  induction h generalizing before with
  | nil => rfl
  | @cons e c es w hc _ ih =>
      rw [List.map_cons, run_seqAll_cons, List.cons_append, run_set_of_pos hc,
        List.flatMap_singleton, ih, List.reverse_cons, List.append_assoc]
      rfl

theorem exists_of_mem_run_seqAll_set {β : Type*} {p : β → α → Bool} {es : List β}
    {s m : Place α} (h : m ∈ run (seqAll (es.map fun e ↦ set (p e))) s) :
    ∃ w, List.Forall₂ (fun e c ↦ p e c = true) es w ∧ s.after = w ++ m.after := by
  induction es generalizing s with
  | nil =>
      obtain rfl := List.mem_singleton.mp h
      exact ⟨[], .nil, rfl⟩
  | cons e es ih =>
      rw [List.map_cons, run_seqAll_cons] at h
      obtain ⟨m', hm', hm⟩ := List.mem_flatMap.mp h
      obtain ⟨c, rest, hafter, hc, rfl⟩ := mem_run_set_iff.mp hm'
      obtain ⟨w, hw, hrest⟩ := ih hm
      exact ⟨c :: w, .cons hc hw, hafter.trans (congrArg (c :: ·) hrest)⟩

theorem dropWhile_append_of_head {p : α → Bool} {u rest : List α} (hu : ∀ c ∈ u, p c = true)
    (hrest : rest.head?.any p = false) : (u ++ rest).dropWhile p = rest := by
  rw [List.dropWhile_append_of_pos hu]
  cases rest with
  | nil => rfl
  | cons e rest => exact List.dropWhile_cons_of_neg (Bool.eq_false_iff.mp hrest)

theorem skipWhile_append {p : α → Bool} {u rest : List α} (hu : ∀ c ∈ u, p c = true)
    (hrest : rest.head?.any p = false) (before : List α) (groups : List (ℕ × List α)) :
    Place.skipWhile p ⟨before, u ++ rest, groups⟩ = ⟨u.reverse ++ before, rest, groups⟩ := by
  have htake : rest.takeWhile p = [] := by
    cases rest with
    | nil => rfl
    | cons e rest => exact List.takeWhile_cons_of_neg (Bool.eq_false_iff.mp hrest)
  rw [Place.skipWhile, dropWhile_append_of_head hu hrest, List.takeWhile_append_of_pos hu, htake,
    List.append_nil]

theorem run_plus_set_of_pos {p : α → Bool} {c : α} (h : p c = true) (before rest : List α)
    (groups : List (ℕ × List α)) : run (plus (set p)) ⟨before, c :: rest, groups⟩ =
      run (star true (set p)) ⟨c :: before, rest, groups⟩ := by
  rw [plus, run, run_set_of_pos h, List.flatMap_singleton]

theorem run_seq_plus_append {p : α → Bool} {t : Regex α} (hnull : nullable t = false)
    (hfirst : ∀ c, p c = true → first c t = false) {u rest : List α} (hne : u ≠ [])
    (hu : ∀ c ∈ u, p c = true) (hrest : rest.head?.any p = false) (before : List α)
    (groups : List (ℕ × List α)) :
    run (seq (plus (set p)) t) ⟨before, u ++ rest, groups⟩ =
      run t ⟨u.reverse ++ before, rest, groups⟩ := by
  have hhead : (u ++ rest).head?.any p = true := by
    obtain ⟨c, u, rfl⟩ := List.exists_cons_of_ne_nil hne
    exact hu c List.mem_cons_self
  have hrun := run_seq_plus_set hnull hfirst ⟨before, u ++ rest, groups⟩
  rwa [if_pos hhead, skipWhile_append hu hrest] at hrun

/-- A group of at least one symbol of a class. -/
theorem run_seq_group_plus_set {p : α → Bool} {t : Regex α} {n : ℕ} (hnull : nullable t = false)
    (hfirst : ∀ c, p c = true → first c t = false) {u rest : List α} (hne : u ≠ [])
    (hu : ∀ c ∈ u, p c = true) (hrest : rest.head?.any p = false) (before : List α)
    (groups : List (ℕ × List α)) :
    run (seq (group n (plus (set p))) t) ⟨before, u ++ rest, groups⟩ =
      run t ⟨u.reverse ++ before, rest, (n, u) :: groups⟩ := by
  obtain ⟨c, u, rfl⟩ := List.exists_cons_of_ne_nil hne
  obtain ⟨hc, hu⟩ := List.forall_mem_cons.mp hu
  have hplus := run_plus_set_of_pos hc before (u ++ rest) groups
  rw [run_seq_group, List.cons_append, hplus, flatMap_run_star_set, skipWhile_append hu hrest]
  · have htext : Place.upTo ⟨before, c :: (u ++ rest), groups⟩
        ⟨u.reverse ++ c :: before, rest, groups⟩ = c :: u :=
      Consumed.upTo_eq ⟨rfl, by simp⟩
    rw [htext]
    simp
  · intro m e rest' hm he
    exact run_eq_nil_of_first hm hnull (hfirst e he)

theorem run_lazyPlus_set_of_pos {p : α → Bool} {c : α} (h : p c = true) (before rest : List α)
    (groups : List (ℕ × List α)) : run (lazyPlus (set p)) ⟨before, c :: rest, groups⟩ =
      run (star false (set p)) ⟨c :: before, rest, groups⟩ := by
  rw [lazyPlus, run, run_set_of_pos h, List.flatMap_singleton]

/-- A lazy run of symbols stops at the first place where the rest matches. -/
theorem head?_flatMap_lazy {p : α → Bool} {k : Place α → List (Place α)} {u rest before : List α}
    {groups : List (ℕ × List α)} (hu : ∀ c ∈ u, p c = true)
    (hearly : ∀ v w, u = v ++ w → w ≠ [] → k ⟨v.reverse ++ before, w ++ rest, groups⟩ = [])
    (hend : k ⟨u.reverse ++ before, rest, groups⟩ ≠ []) :
    ((run (star false (set p)) ⟨before, u ++ rest, groups⟩).flatMap k).head? =
      (k ⟨u.reverse ++ before, rest, groups⟩).head? := by
  induction u generalizing before with
  | nil =>
      obtain ⟨m, ms, hk⟩ := List.exists_cons_of_ne_nil hend
      have hk' : k ⟨before, rest, groups⟩ = m :: ms := hk
      rw [run_star]
      simp [hk']
  | cons c u ih =>
      obtain ⟨hc, hu⟩ := List.forall_mem_cons.mp hu
      have hreverse : (c :: u).reverse ++ before = u.reverse ++ c :: before := by simp
      have hnow : k ⟨before, c :: (u ++ rest), groups⟩ = [] := hearly [] (c :: u) rfl (by simp)
      rw [hreverse] at hend ⊢
      rw [List.cons_append, run_star_set_of_pos hc, if_neg Bool.false_ne_true, List.flatMap_cons,
        hnow, List.nil_append]
      refine ih hu (fun v w hvw hw ↦ ?_) hend
      have := hearly (c :: v) w (by rw [hvw, List.cons_append]) hw
      rwa [List.reverse_cons, List.append_assoc] at this

end Regex
