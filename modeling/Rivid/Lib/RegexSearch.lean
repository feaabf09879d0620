import Rivid.Lib.RegexRuns

/-!
# Searching, matching all and splitting

The functions of the host languages try an expression at one place of the text after another.
They are described by the matches at each place, so that texts may be put together out of pieces
whose matches are known.
-/

universe u

namespace Regex

variable {α : Type u}

/-! ## Searching -/

theorem execFrom_isSome_iff {r : Regex α} {before after : List α} :
    (execFrom r before after).isSome ↔
      ∃ u v, after = u ++ v ∧ run r ⟨u.reverse ++ before, v, []⟩ ≠ [] := by
  induction after generalizing before with
  | nil =>
      rw [execFrom, List.isSome_head?]
      constructor
      · exact fun h ↦ ⟨[], [], rfl, h⟩
      · rintro ⟨u, v, huv, h⟩
        obtain ⟨rfl, rfl⟩ := List.append_eq_nil_iff.mp huv.symm
        exact h
  | cons c after ih =>
      rw [execFrom]
      split
      · next s hs =>
          have hne : run r ⟨before, c :: after, []⟩ ≠ [] := by
            intro h
            rw [h] at hs
            cases hs
          exact iff_of_true rfl ⟨[], c :: after, rfl, hne⟩
      · next hs =>
          have hnil : run r ⟨before, c :: after, []⟩ = [] := List.head?_eq_none_iff.mp hs
          rw [ih]
          constructor
          · rintro ⟨u, v, rfl, h⟩
            refine ⟨c :: u, v, rfl, ?_⟩
            rwa [List.reverse_cons, List.append_assoc]
          · rintro ⟨u, v, huv, h⟩
            cases u with
            | nil =>
                obtain rfl : c :: after = v := huv
                exact absurd hnil h
            | cons e u =>
                obtain ⟨rfl, rfl⟩ := List.cons.inj huv
                rw [List.reverse_cons, List.append_assoc] at h
                exact ⟨u, v, rfl, h⟩

/-- A test succeeds if there is a match somewhere. -/
theorem test_iff {r : Regex α} {text : List α} : test r text = true ↔
    ∃ u v, text = u ++ v ∧ run r ⟨u.reverse, v, []⟩ ≠ [] := by
  rw [test, exec, execFrom_isSome_iff]
  simp only [List.append_nil]

/-- An anchored expression is tried once. -/
theorem exec_start (r : Regex α) (text : List α) :
    exec (seq start r) text = (run r ⟨[], text, []⟩).head? := by
  have hlater : ∀ before after : List α, before ≠ [] →
      execFrom (seq start r) before after = none := by
    intro before after
    induction after generalizing before with
    | nil => exact fun h ↦ by simp [execFrom, run, h]
    | cons c after ih => exact fun h ↦ by simp [execFrom, run, h, ih]
  cases text with
  | nil => simp [exec, execFrom, run]
  | cons c text =>
      rw [exec, execFrom, hlater [c] text (List.cons_ne_nil _ _)]
      have hrun : run (seq start r) ⟨[], c :: text, []⟩ = run r ⟨[], c :: text, []⟩ := by simp [run]
      rw [hrun]
      cases (run r ⟨[], c :: text, []⟩).head? <;> rfl

/-- More text behind takes no match away: the expression does not look at the end, and
the new text is not part of a word. -/
def quiet (y : List α) : Regex α → Prop
  | empty => True
  | set _ => True
  | seq r t => quiet y r ∧ quiet y t
  | alt r t => quiet y r ∧ quiet y t
  | star _ r => quiet y r
  | group _ r => quiet y r
  | boundary word => y.head?.any word = false
  | start => True
  | lineStart _ => True
  | stop => False
  | notAhead _ => False

/-- The match ends in front of the last symbols, as many as `y` has. -/
def Place.within (y : List α) (m : Place α) : Bool := y.length ≤ m.after.length

theorem within_extend (y : List α) (m : Place α) : (m.extend y).within y = true :=
  decide_eq_true (by simp [Place.extend])

theorem filter_map_extend (y : List α) (ms : List (Place α)) :
    (ms.map (Place.extend y)).filter (Place.within y) = ms.map (Place.extend y) := by
  refine List.filter_eq_self.mpr fun m hm ↦ ?_
  obtain ⟨m, -, rfl⟩ := List.mem_map.mp hm
  exact within_extend y m

/-- What ends in front of `y` goes through places in front of `y` only. -/
theorem filter_flatMap_within {y : List α} {f : Place α → List (Place α)}
    (hf : ∀ m, ∀ m' ∈ f m, m'.after.length ≤ m.after.length) (ms : List (Place α)) :
    (ms.flatMap f).filter (Place.within y) =
      (ms.filter (Place.within y)).flatMap fun m ↦ (f m).filter (Place.within y) := by
  induction ms with
  | nil => rfl
  | cons m ms ih =>
      rw [List.flatMap_cons, List.filter_append, ih]
      by_cases hm : m.within y = true
      · rw [List.filter_cons_of_pos hm, List.flatMap_cons]
      · rw [List.filter_cons_of_neg hm]
        have hnone : (f m).filter (Place.within y) = [] := by
          refine List.filter_eq_nil_iff.mpr fun m' hm' hwithin ↦ hm ?_
          exact decide_eq_true (Nat.le_trans (of_decide_eq_true hwithin) (hf m m' hm'))
        rw [hnone, List.nil_append]

/-- The matches that end in front of the new text are those without it. -/
theorem filter_run_extend {r : Regex α} {y : List α} (h : quiet y r) (s : Place α) :
    (run r (s.extend y)).filter (Place.within y) = (run r s).map (Place.extend y) := by
  induction r generalizing s with
  | empty => exact filter_map_extend y [s]
  | set p =>
      obtain ⟨before, after, groups⟩ := s
      cases after with
      | nil =>
          refine List.filter_eq_nil_iff.mpr fun m hm hwithin ↦ ?_
          obtain ⟨c, rest, hafter, -, rfl⟩ := mem_run_set_iff.mp hm
          have hlen : y.length ≤ rest.length := of_decide_eq_true hwithin
          have hy : y = c :: rest := hafter
          rw [hy, List.length_cons] at hlen
          omega
      | cons c rest =>
          have hrun : run (set p) (Place.extend y ⟨before, c :: rest, groups⟩) =
              (run (set p) ⟨before, c :: rest, groups⟩).map (Place.extend y) := by
            by_cases hp : p c = true <;> simp [run, Place.extend, Place.next, hp]
          rw [hrun, filter_map_extend]
  | seq r t ihr iht =>
      rw [run, filter_flatMap_within length_le_of_mem_run, ihr h.1, List.flatMap_map, run,
        List.map_flatMap]
      exact List.flatMap_congr fun m _ ↦ iht h.2 m
  | alt r t ihr iht => rw [run, List.filter_append, ihr h.1, iht h.2, run, List.map_append]
  | star greedy r ih =>
      induction hn : s.after.length using Nat.strongRecOn generalizing s with
      | _ n ihn =>
          have hmore : (((run r (s.extend y)).filter fun m ↦
                m.after.length < (s.extend y).after.length).flatMap
              (run (star greedy r))).filter (Place.within y) =
                (((run r s).filter fun m ↦ m.after.length < s.after.length).flatMap
                  (run (star greedy r))).map (Place.extend y) := by
            have hfilter : (run r s).filter ((fun m : Place α ↦
                decide (m.after.length < (s.extend y).after.length)) ∘ Place.extend y) =
                  (run r s).filter fun m ↦ m.after.length < s.after.length :=
              List.filter_congr fun m _ ↦ decide_eq_decide.mpr (by simp [Place.extend])
            rw [filter_flatMap_within length_le_of_mem_run, List.filter_comm, ih h, List.filter_map,
              hfilter, List.flatMap_map, List.map_flatMap]
            refine List.flatMap_congr fun m hm ↦ ?_
            have hlt : m.after.length < s.after.length := by simpa using (List.mem_filter.mp hm).2
            exact ihn _ (hn ▸ hlt) m rfl
          have hstay : [s.extend y].filter (Place.within y) = [s].map (Place.extend y) :=
            filter_map_extend y [s]
          rw [run_star, run_star]
          cases greedy with
          | true => simp only [if_true, List.filter_append, hmore, hstay, List.map_append]
          | false =>
              simp only [Bool.false_eq_true, if_false,
                ← List.singleton_append (l := List.flatMap _ _), List.filter_append, hmore, hstay,
                List.map_append]
  | group n r ih =>
      rw [run, List.filter_map]
      have hwithin : (Place.within y ∘ fun m : Place α ↦
          { m with groups := (n, (s.extend y).upTo m) :: m.groups }) = Place.within y := rfl
      rw [hwithin, ih h, run, List.map_map, List.map_map]
      refine List.map_congr_left fun m hm ↦ ?_
      obtain ⟨u, hu, -⟩ := exists_consumed hm
      have hext : Consumed (s.extend y) u (m.extend y) := ⟨by simp [Place.extend, hu.1], hu.2⟩
      exact congrArg (fun v ↦ Place.mk m.before (m.after ++ y) ((n, v) :: m.groups))
        (hext.upTo_eq.trans hu.upTo_eq.symm)
  | boundary word =>
      have hhead : (s.extend y).after.head?.any word = s.after.head?.any word := by
        cases hafter : s.after with
        | nil =>
            have hy : y.head?.any word = false := h
            simp [Place.extend, hafter, hy]
        | cons c rest => simp [Place.extend, hafter]
      rw [run, run, hhead, run_if_map Iff.rfl s, filter_map_extend]
      rfl
  | start => rw [run, run, run_if_map Iff.rfl s, filter_map_extend]; rfl
  | lineStart ends => rw [run, run, run_if_map Iff.rfl s, filter_map_extend]; rfl
  | stop => exact h.elim
  | notAhead r _ => exact h.elim

theorem mem_run_extend {r : Regex α} {y : List α} (h : quiet y r) {s s' : Place α}
    (hs' : s' ∈ run r s) : s'.extend y ∈ run r (s.extend y) := by
  have hmem : s'.extend y ∈ (run r s).map (Place.extend y) := List.mem_map_of_mem hs'
  rw [← filter_run_extend h s] at hmem
  exact List.mem_of_mem_filter hmem

theorem test_append {r : Regex α} {text y : List α} (h : quiet y r) (ht : test r text = true) :
    test r (text ++ y) = true := by
  obtain ⟨u, v, rfl, hne⟩ := test_iff.mp ht
  obtain ⟨s', hs'⟩ := List.exists_mem_of_ne_nil _ hne
  exact test_iff.mpr ⟨u, v ++ y, List.append_assoc u v y,
    List.ne_nil_of_mem (mem_run_extend h hs')⟩

theorem test_map {f : α → α} {r : Regex α} (h : blind f r) (text : List α) :
    test r (text.map f) = test r text := by
  have hexec : ∀ before after : List α, (execFrom r (before.map f) (after.map f)).isSome =
      (execFrom r before after).isSome := by
    intro before after
    have hrun : ∀ before after : List α, (run r ⟨before.map f, after.map f, []⟩).head? =
        (run r ⟨before, after, []⟩).head?.map (Place.map f) := by
      intro before after
      rw [← List.head?_map, ← run_map h]
      rfl
    induction after generalizing before with
    | nil => simpa [execFrom] using congrArg Option.isSome (hrun before [])
    | cons c after ih =>
        rw [List.map_cons, execFrom, execFrom, ← List.map_cons, hrun]
        cases (run r ⟨before, c :: after, []⟩).head? with
        | none => exact ih (c :: before)
        | some s => rfl
  exact hexec [] text

/-! ## Matches one after the other -/

/-- A match ends with the text `e`, in front of which it has no `c`. -/
def EndsIn (c : α) (e : List α) (r : Regex α) : Prop :=
  ∀ s s', s' ∈ run r s → ∃ w, c ∉ w ∧ s.after = w ++ (e ++ s'.after)

theorem EndsIn.seq {c : α} {e : List α} {r t : Regex α} (hr : avoids c r) (ht : EndsIn c e t) :
    EndsIn c e (seq r t) := by
  intro s s' hs'
  obtain ⟨m, hm, hs'⟩ := List.mem_flatMap.mp hs'
  obtain ⟨u, hu, hcu⟩ := exists_consumed hm
  obtain ⟨w, hw, hafter⟩ := ht m s' hs'
  refine ⟨u ++ w, fun hc ↦ (List.mem_append.mp hc).elim (hcu c hr) hw, ?_⟩
  rw [hu.1, hafter, List.append_assoc]

theorem EndsIn.of_append {c : α} {e e' : List α} {r : Regex α} (h : EndsIn c (e ++ e') r)
    (hc : c ∉ e) : EndsIn c e' r := by
  intro s s' hs'
  obtain ⟨w, hw, hafter⟩ := h s s' hs'
  refine ⟨w ++ e, fun hmem ↦ (List.mem_append.mp hmem).elim hw hc, ?_⟩
  rw [hafter, List.append_assoc, List.append_assoc]

theorem matchesFrom_append {c : α} {r : Regex α} (hend : EndsIn c [c] r) (hguard : guarded c r)
    (v : List α) {u : List α} (before : List α) (skip : ℕ) (hu : u = [] ∨ u.getLast? = some c)
    (hskip : skip ≤ u.length) : matchesFrom r before (u ++ v) skip =
      (matchesFrom r before u skip).map (Place.extend v) ++
        matchesFrom r (u.reverse ++ before) v 0 := by
  induction u generalizing before skip with
  | nil =>
      have hnone : run r ⟨before, [], []⟩ = [] := by
        refine List.eq_nil_iff_forall_not_mem.mpr fun s' hs' ↦ ?_
        obtain ⟨w, -, hw⟩ := hend _ _ hs'
        simp at hw
      obtain rfl := Nat.le_zero.mp hskip
      simp [matchesFrom, hnone]
  | cons e u ih =>
      have hlast : (e :: u).getLast? = some c := hu.resolve_left (List.cons_ne_nil e u)
      have hu' : u = [] ∨ u.getLast? = some c := by
        cases u with
        | nil => exact .inl rfl
        | cons e' u => exact .inr (by simpa using hlast)
      have hreverse : u.reverse ++ e :: before = (e :: u).reverse ++ before := by simp
      cases skip with
      | succ skip =>
          have := ih (e :: before) skip hu' (Nat.le_of_succ_le_succ hskip)
          rw [hreverse] at this
          exact this
      | zero =>
          have hrun := run_extend hguard v (s := ⟨before, e :: u, []⟩) (List.mem_of_getLast? hlast)
          have hhead : (run r ⟨before, e :: (u ++ v), []⟩).head? =
              (run r ⟨before, e :: u, []⟩).head?.map (Place.extend v) := by
            rw [← List.head?_map, ← hrun]
            rfl
          rw [List.cons_append, matchesFrom, matchesFrom, hhead]
          cases hs : (run r ⟨before, e :: u, []⟩).head? with
          | none =>
              have := ih (e :: before) 0 hu' (Nat.zero_le _)
              rw [hreverse] at this
              exact this
          | some s =>
              obtain ⟨w, -, hw⟩ := hend _ _ (List.mem_of_head? hs)
              have hlen := congrArg List.length hw
              rw [List.length_append, List.length_append, List.length_cons,
                List.length_singleton] at hlen
              have hcount : (u ++ v).length - (s.extend v).after.length =
                  u.length - s.after.length := by
                rw [Place.extend, List.length_append, List.length_append]
                omega
              have := ih (e :: before) (u.length - s.after.length) hu' (by omega)
              rw [hreverse] at this
              simp only [Option.map_some, hcount, this, List.map_cons, List.cons_append]

theorem matchesFrom_prepend {r : Regex α} (h : forward r) (x : List α) (before after : List α)
    (skip : ℕ) : matchesFrom r (before ++ x) after skip =
      (matchesFrom r before after skip).map (Place.prepend x) := by
  have hhead : ∀ before after : List α, (run r ⟨before ++ x, after, []⟩).head? =
      (run r ⟨before, after, []⟩).head?.map (Place.prepend x) := by
    intro before after
    rw [← List.head?_map, ← run_prepend h]
    rfl
  induction after generalizing before skip with
  | nil =>
      rw [matchesFrom, matchesFrom, hhead]
      cases (run r ⟨before, [], []⟩).head? <;> split <;> rfl
  | cons c after ih =>
      cases skip with
      | succ skip => exact ih (c :: before) skip
      | zero =>
          rw [matchesFrom, matchesFrom, hhead]
          cases (run r ⟨before, c :: after, []⟩).head? with
          | none => exact ih (c :: before) 0
          | some s => exact congrArg _ (ih (c :: before) _)

/-- A text in which no match starts can be left out. -/
theorem matchesFrom_append_of_nil {r : Regex α} {u v before : List α}
    (h : ∀ x y, u = x ++ y → y ≠ [] → run r ⟨x.reverse ++ before, y ++ v, []⟩ = []) :
    matchesFrom r before (u ++ v) 0 = matchesFrom r (u.reverse ++ before) v 0 := by
  induction u generalizing before with
  | nil => rfl
  | cons c u ih =>
      have hnow : run r ⟨before, c :: (u ++ v), []⟩ = [] := h [] (c :: u) rfl (List.cons_ne_nil c u)
      rw [List.cons_append, matchesFrom, hnow, List.reverse_cons, List.append_assoc]
      refine ih fun x y hxy hne ↦ ?_
      have := h (c :: x) y (by rw [hxy, List.cons_append]) hne
      rwa [List.reverse_cons, List.append_assoc] at this

theorem mem_matchesFrom {r : Regex α} {before after : List α} {skip : ℕ} {m : Place α}
    (h : m ∈ matchesFrom r before after skip) :
    ∃ u v, after = u ++ v ∧ m ∈ run r ⟨u.reverse ++ before, v, []⟩ := by
  induction after generalizing before skip with
  | nil =>
      rw [matchesFrom] at h
      split at h
      · exact ⟨[], [], rfl, List.mem_of_head? (by simpa using h)⟩
      · cases h
  | cons c after ih =>
      have hlater : ∀ skip, m ∈ matchesFrom r (c :: before) after skip →
          ∃ u v, c :: after = u ++ v ∧ m ∈ run r ⟨u.reverse ++ before, v, []⟩ := by
        intro skip h
        obtain ⟨u, v, rfl, hm⟩ := ih h
        refine ⟨c :: u, v, rfl, ?_⟩
        rwa [List.reverse_cons, List.append_assoc]
      cases skip with
      | succ skip => exact hlater skip h
      | zero =>
          rw [matchesFrom] at h
          split at h
          · next s hs =>
              rcases List.mem_cons.mp h with rfl | h
              · exact ⟨[], c :: after, rfl, List.mem_of_head? hs⟩
              · exact hlater _ h
          · exact hlater 0 h

theorem matchAll_append_of_nil {r : Regex α} (hforward : forward r) {u v : List α}
    (h : ∀ x y, u = x ++ y → y ≠ [] → run r ⟨x.reverse, y ++ v, []⟩ = []) :
    matchAll r (u ++ v) = (matchAll r v).map (Place.prepend u.reverse) := by
  have hbehind := matchesFrom_prepend hforward u.reverse [] v 0
  rw [List.nil_append] at hbehind
  rw [matchAll, matchesFrom_append_of_nil, List.append_nil, hbehind]
  · rfl
  · simpa only [List.append_nil] using h

theorem mem_matchAll {r : Regex α} {text : List α} {m : Place α} (h : m ∈ matchAll r text) :
    ∃ u v, text = u ++ v ∧ m ∈ run r ⟨u.reverse, v, []⟩ := by
  simpa only [List.append_nil] using mem_matchesFrom h

theorem matchesFrom_skip (r : Regex α) (before u v : List α) :
    matchesFrom r before (u ++ v) u.length = matchesFrom r (u.reverse ++ before) v 0 := by
  induction u generalizing before with
  | nil => rfl
  | cons c u ih =>
      rw [List.reverse_cons, List.append_assoc]
      exact ih (c :: before)

theorem matchesFrom_of_nil {r : Regex α} {before after : List α} {c : α}
    (h : run r ⟨before, c :: after, []⟩ = []) :
    matchesFrom r before (c :: after) 0 = matchesFrom r (c :: before) after 0 := by
  rw [matchesFrom, h]
  rfl

/-- The search goes on behind a match. -/
theorem matchesFrom_of_head {r : Regex α} (hnull : nullable r = false) {before after : List α}
    {m : Place α} (hm : (run r ⟨before, after, []⟩).head? = some m) :
    matchesFrom r before after 0 = m :: matchesFrom r m.before m.after 0 := by
  have hlt := length_lt_of_mem_run hnull (List.mem_of_head? hm)
  obtain ⟨u, ⟨hafter, hbefore⟩, -⟩ := exists_consumed (List.mem_of_head? hm)
  cases u with
  | nil => exact absurd (congrArg List.length hafter) (Nat.ne_of_gt hlt)
  | cons c u =>
      have hafter : after = c :: (u ++ m.after) := hafter
      have hskip : (u ++ m.after).length - m.after.length = u.length := by
        rw [List.length_append, Nat.add_sub_cancel]
      subst hafter
      rw [matchesFrom, hm]
      simp only
      rw [hskip, matchesFrom_skip, hbefore, List.reverse_cons, List.append_assoc]
      rfl

theorem matchesFrom_comap {β : Type u} (f : β → α) (r : Regex α) (before after : List β)
    (skip : ℕ) : matchesFrom r (before.map f) (after.map f) skip =
      (matchesFrom (comap f r) before after skip).map (Place.map f) := by
  have hhead : ∀ before after : List β, (run r ⟨before.map f, after.map f, []⟩).head? =
      (run (comap f r) ⟨before, after, []⟩).head?.map (Place.map f) := by
    intro before after
    rw [← List.head?_map, ← run_comap]
    rfl
  induction after generalizing before skip with
  | nil =>
      rw [List.map_nil, matchesFrom, matchesFrom, ← List.map_nil (f := f), hhead]
      cases (run (comap f r) ⟨before, [], []⟩).head? <;> split <;> rfl
  | cons c after ih =>
      cases skip with
      | succ skip => exact ih (c :: before) skip
      | zero =>
          rw [List.map_cons, matchesFrom, matchesFrom, ← List.map_cons, hhead]
          cases (run (comap f r) ⟨before, c :: after, []⟩).head? with
          | none => exact ih (c :: before) 0
          | some s =>
              have := ih (c :: before) (after.length - s.after.length)
              simpa [Place.map] using this

theorem matchAll_comap {β : Type u} (f : β → α) (r : Regex α) (text : List β) :
    matchAll r (text.map f) = (matchAll (comap f r) text).map (Place.map f) :=
  matchesFrom_comap f r [] text 0

/-- A match of the whole text is the only one. -/
theorem matchAll_eq_singleton {r : Regex α} (hnull : nullable r = false) {text : List α}
    {m : Place α} (hm : (run r ⟨[], text, []⟩).head? = some m) (hafter : m.after = []) :
    matchAll r text = [m] := by
  cases text with
  | nil =>
      rw [run_eq_nil_at_end rfl hnull] at hm
      cases hm
  | cons c text =>
      rw [matchAll, matchesFrom, hm]
      simp only
      have hskip := matchesFrom_skip r [c] text []
      rw [List.append_nil] at hskip
      rw [hafter, List.length_nil, Nat.sub_zero, hskip, matchesFrom, run_eq_nil_at_end rfl hnull]
      rfl

/-- The matches in two texts of which the first one ends with `c`. -/
theorem matchAll_append {c : α} {r : Regex α} (hend : EndsIn c [c] r) (hguard : guarded c r)
    (hforward : forward r) {u : List α} (hu : u = [] ∨ u.getLast? = some c) (v : List α) :
    matchAll r (u ++ v) = (matchAll r u).map (Place.extend v) ++
      (matchAll r v).map (Place.prepend u.reverse) := by
  have hbehind := matchesFrom_prepend hforward u.reverse [] v 0
  rw [matchAll, matchesFrom_append hend hguard v [] 0 hu (Nat.zero_le _), List.append_nil,
    ← List.nil_append u.reverse, hbehind]
  rfl

/-! ## Splitting -/

theorem splitFrom_skip (r : Regex α) (before w v : List α) :
    splitFrom r before (w ++ v) w.length = splitFrom r (w.reverse ++ before) v 0 := by
  induction w generalizing before with
  | nil => rfl
  | cons c w ih =>
      rw [List.reverse_cons, List.append_assoc]
      exact ih (c :: before)

/-- A separator ends a piece. -/
theorem splitFrom_of_match {r : Regex α} {before w v : List α} {c : α}
    (h : ((run r ⟨before, c :: (w ++ v), []⟩).head?).map Place.after = some v) :
    splitFrom r before (c :: (w ++ v)) 0 = [] :: splitFrom r (w.reverse ++ c :: before) v 0 := by
  obtain ⟨m, hm, hafter⟩ := Option.map_eq_some_iff.mp h
  have hlen : m.after.length ≠ (c :: (w ++ v)).length := by
    rw [hafter, List.length_cons, List.length_append]
    omega
  have hskip : (w ++ v).length - m.after.length = w.length := by
    rw [hafter, List.length_append, Nat.add_sub_cancel]
  rw [splitFrom, hm]
  simp only [if_neg hlen, hskip, splitFrom_skip]

theorem splitFrom_of_none {r : Regex α} {before after : List α} {c : α}
    (h : (run r ⟨before, c :: after, []⟩).head? = none) :
    splitFrom r before (c :: after) 0 = consHead c (splitFrom r (c :: before) after 0) := by
  rw [splitFrom, h]

end Regex
