import Rivid.Lib.RegexSearch

/-!
# Texts with gaps

A text in which other symbols may be put in front of some of its symbols, such as a line
break in front of a dot: each symbol comes with the gap in front of it, which can be empty.

An expression that can skip what stands in a gap, but never goes on with the symbol behind
it, matches the text with the gaps where it matches the text without them.
-/

universe u

namespace Gaps

open Regex

variable {α : Type u}

/-- The text with its gaps. -/
def fill (l : List (List α × α)) : List α := l.flatMap fun e ↦ e.1 ++ [e.2]

theorem fill_append (l l' : List (List α × α)) : fill (l ++ l') = fill l ++ fill l' :=
  List.flatMap_append

theorem fill_cons (e : List α × α) (l : List (List α × α)) :
    fill (e :: l) = e.1 ++ e.2 :: fill l := by
  rw [fill, List.flatMap_cons, List.append_assoc]
  rfl

theorem fill_of_forall {l : List (List α × α)} (h : ∀ e ∈ l, e.1 = []) :
    fill l = l.map Prod.snd := by
  induction l with
  | nil => rfl
  | cons e l ih =>
      obtain ⟨he, hl⟩ := List.forall_mem_cons.mp h
      rw [fill_cons, he, ih hl]
      rfl

/-- Gaps have symbols of a class, and stand in front of `c` only. -/
def Fits (c : α) (q : α → Bool) (l : List (List α × α)) : Prop :=
  ∀ e ∈ l, e.1 ≠ [] → e.2 = c ∧ ∀ x ∈ e.1, q x = true

/-- A place, in the text with its gaps. -/
def fillPlace (s : Place (List α × α)) : Place α :=
  ⟨(fill s.before.reverse).reverse, fill s.after, s.groups.map fun g ↦ (g.1, fill g.2)⟩

theorem consumed_fillPlace {s m : Place (List α × α)} {u : List (List α × α)}
    (h : Consumed s u m) : Consumed (fillPlace s) (fill u) (fillPlace m) := by
  refine ⟨?_, ?_⟩
  · rw [fillPlace, h.1, fill_append]
    rfl
  · simp [fillPlace, h.2, fill_append]

theorem fill_eq_nil_iff {l : List (List α × α)} : fill l = [] ↔ l = [] := by
  cases l with
  | nil => exact iff_of_true rfl rfl
  | cons e l => simp [fill_cons]

theorem length_fillPlace_lt_iff {s m : Place (List α × α)} {u : List (List α × α)}
    (h : Consumed s u m) :
    (fillPlace m).after.length < (fillPlace s).after.length ↔ m.after.length < s.after.length := by
  rw [(consumed_fillPlace h).1, h.1, List.length_append, List.length_append,
    Nat.lt_add_left_iff_pos, Nat.lt_add_left_iff_pos, List.length_pos_iff, List.length_pos_iff,
    Ne, fill_eq_nil_iff]

variable {c : α} {q : α → Bool}

theorem Fits.of_append {l l' : List (List α × α)} (h : Fits c q (l ++ l')) : Fits c q l' :=
  fun e he ↦ h e (List.mem_append_right l he)

theorem Fits.of_mem_run {s m : Place (List α × α)} (h : Fits c q s.after)
    {r : Regex (List α × α)} (hm : m ∈ run r s) : Fits c q m.after := by
  obtain ⟨u, hu, -⟩ := exists_consumed hm
  rw [hu.1] at h
  exact h.of_append

theorem group_fillPlace (m : Place (List α × α)) (n : ℕ) :
    (fillPlace m).group n = (m.group n).map fill :=
  lookup_map_snd fill n m.groups

/-! ## Expressions -/

/-- The expression matches the same with and without the gaps. -/
def Carries (c : α) (q : α → Bool) (r : Regex α) : Prop :=
  ∀ s, Fits c q s.after → run r (fillPlace s) = (run (comap Prod.snd r) s).map fillPlace

/-- There is no match from within a gap. -/
def Stuck (c : α) (q : α → Bool) (r : Regex α) : Prop :=
  ∀ before w rest groups, (∀ x ∈ w, q x = true) → run r ⟨before, w ++ c :: rest, groups⟩ = []

/-- The expression takes neither `c` nor what stands in gaps, and has no assertions. -/
def solid (c : α) (q : α → Bool) : Regex α → Prop
  | .empty => True
  | .set p => p c = false ∧ ∀ x, q x = true → p x = false
  | .seq r t => solid c q r ∧ solid c q t
  | .alt r t => solid c q r ∧ solid c q t
  | .star _ r => solid c q r
  | .group _ r => solid c q r
  | .boundary _ => False
  | .start => False
  | .lineStart _ => False
  | .stop => False
  | .notAhead _ => False

theorem fillPlace_next {before : List (List α × α)} (x : α) (rest : List (List α × α))
    (groups : List (ℕ × List (List α × α))) :
    fillPlace ⟨([], x) :: before, rest, groups⟩ =
      ⟨x :: (fill before.reverse).reverse, fill rest,
        groups.map fun g ↦ (g.1, fill g.2)⟩ := by
  simp [fillPlace, fill_append, fill_cons]
  rfl

theorem run_group_fillPlace {n : ℕ} {r : Regex α} {s : Place (List α × α)}
    (h : run r (fillPlace s) = (run (comap Prod.snd r) s).map fillPlace) :
    run (group n r) (fillPlace s) = (run (comap Prod.snd (group n r)) s).map fillPlace := by
  rw [run, h, comap, run, List.map_map, List.map_map]
  refine List.map_congr_left fun m hm ↦ ?_
  obtain ⟨u, hu, -⟩ := exists_consumed hm
  have hfill : (fillPlace s).upTo (fillPlace m) = fill (s.upTo m) :=
    (consumed_fillPlace hu).upTo_eq.trans (congrArg fill hu.upTo_eq.symm)
  simp [fillPlace, ← hfill]

theorem carries_of_solid {r : Regex α} (h : solid c q r) : Carries c q r := by
  induction r with
  | empty => exact fun s _ ↦ rfl
  | set p =>
      rintro ⟨before, after, groups⟩ hs
      cases after with
      | nil => rfl
      | cons e rest =>
          obtain ⟨g, x⟩ := e
          cases g with
          | nil =>
              have hfill : fillPlace ⟨before, ([], x) :: rest, groups⟩ =
                  ⟨(fill before.reverse).reverse, x :: fill rest,
                    groups.map fun g ↦ (g.1, fill g.2)⟩ := rfl
              rw [hfill]
              by_cases hp : p x = true
              · have hp' : (p ∘ Prod.snd) (([] : List α), x) = true := hp
                rw [run_set_of_pos hp, comap, run_set_of_pos hp', List.map_singleton,
                  fillPlace_next]
              · rw [run_set_of_neg (Bool.eq_false_iff.mpr hp), comap,
                  run_set_of_neg (c := (([] : List α), x)) (Bool.eq_false_iff.mpr hp)]
                rfl
          | cons y g =>
              obtain ⟨hx, hg⟩ := hs _ List.mem_cons_self (List.cons_ne_nil y g)
              have hy : p y = false := h.2 y (hg y List.mem_cons_self)
              have hfill : fillPlace ⟨before, (y :: g, x) :: rest, groups⟩ =
                  ⟨(fill before.reverse).reverse, y :: (g ++ x :: fill rest),
                    groups.map fun g ↦ (g.1, fill g.2)⟩ := by
                simp [fillPlace, fill_cons]
              have hx' : (p ∘ Prod.snd) (y :: g, x) = false := (congrArg p hx).trans h.1
              rw [hfill, run_set_of_neg hy, comap, run_set_of_neg hx']
              rfl
  | seq r t ihr iht =>
      exact fun s hs ↦ run_seq_map (ihr h.1 s hs) fun m hm ↦ iht h.2 m (hs.of_mem_run hm)
  | alt r t ihr iht => exact fun s hs ↦ run_alt_map (ihr h.1 s hs) (iht h.2 s hs)
  | star greedy r ih =>
      refine fun s hs ↦ run_star_map (P := fun s ↦ Fits c q s.after) (ih h) (fun s m hm ↦ ?_)
        (fun s hs m hm ↦ hs.of_mem_run hm) hs
      obtain ⟨u, hu, -⟩ := exists_consumed hm
      exact length_fillPlace_lt_iff hu
  | group n r ih => exact fun s hs ↦ run_group_fillPlace (ih h s hs)
  | boundary word => exact h.elim
  | start => exact h.elim
  | lineStart ends => exact h.elim
  | stop => exact h.elim
  | notAhead r _ => exact h.elim

theorem Carries.seq {r t : Regex α} (hr : Carries c q r) (ht : Carries c q t) :
    Carries c q (seq r t) :=
  fun s hs ↦ run_seq_map (hr s hs) fun m hm ↦ ht m (hs.of_mem_run hm)

/-! ## Skipping a gap -/

theorem stuck_of_first {r : Regex α} (hnull : nullable r = false) (hc : first c r = false)
    (hq : ∀ x, q x = true → first x r = false) : Stuck c q r := by
  intro before w rest groups hw
  cases w with
  | nil => exact run_eq_nil_of_first rfl hnull hc
  | cons x w => exact run_eq_nil_of_first rfl hnull (hq x (hw x List.mem_cons_self))

theorem stuck_skip {t : Regex α} (hnull : nullable t = false) (hc : first c t = false)
    (hq : ∀ x, q x = true → first x t = false) (hqc : q c = false) :
    Stuck c q (Regex.seq (star true (set q)) t) := by
  intro before w rest groups hw
  have hrest : (c :: rest).head?.any q = false := hqc
  rw [run_seq_star_set hnull hq, skipWhile_append hw hrest]
  exact run_eq_nil_of_first rfl hnull hc

theorem stuck_set_seq {p : α → Bool} {t : Regex α} (hp : p c = false) (ht : Stuck c q t) :
    Stuck c q (Regex.seq (set p) t) := by
  intro before w rest groups hw
  cases w with
  | nil =>
      rw [List.nil_append, run_seq, run_set_of_neg hp]
      rfl
  | cons x w =>
      rw [List.cons_append, run_seq]
      cases hx : p x with
      | true =>
          rw [run_set_of_pos hx, List.flatMap_singleton]
          exact ht _ w rest groups fun y hy ↦ hw y (List.mem_cons_of_mem x hy)
      | false =>
          rw [run_set_of_neg hx]
          rfl

/-- Where a gap comes next, a stuck expression matches neither with nor without the gaps. -/
theorem Carries.of_stuck {r : Regex α} (hstuck : Stuck c q r) {e : List α × α}
    {l : List (List α × α)} (hfits : Fits c q (e :: l)) (hgap : e.1 ≠ [])
    (before : List (List α × α)) (groups : List (ℕ × List (List α × α))) :
    run r (fillPlace ⟨before, e :: l, groups⟩) = [] := by
  obtain ⟨hc, hq⟩ := hfits e List.mem_cons_self hgap
  rw [fillPlace, fill_cons, hc]
  exact hstuck _ e.1 (fill l) _ hq

/-- A run of what stands in gaps. -/
theorem carries_skip {t : Regex α} (hnull : nullable t = false) (hc : first c t = false)
    (hq : ∀ x, q x = true → first x t = false) (hqc : q c = false) (ht : Carries c q t) :
    Carries c q (Regex.seq (star true (set q)) t) := by
  have hnull' : nullable (comap (Prod.snd (α := List α)) t) = false :=
    (nullable_comap _ t).trans hnull
  have hq' : ∀ e : List α × α, (q ∘ Prod.snd) e = true → first e (comap Prod.snd t) = false :=
    fun e he ↦ (first_comap Prod.snd e t).trans (hq e.2 he)
  intro s hs
  rw [comap, comap, comap, run_seq_star_set hnull hq, run_seq_star_set hnull' hq']
  obtain ⟨before, after, groups⟩ := s
  induction after generalizing before with
  | nil => exact ht _ hs
  | cons e rest ih =>
      obtain ⟨g, x⟩ := e
      by_cases hg : g = []
      · subst hg
        cases hx : q x with
        | true =>
            have hx' : (q ∘ Prod.snd) (([] : List α), x) = true := hx
            have hskip : (fillPlace ⟨before, ([], x) :: rest, groups⟩).skipWhile q =
                (fillPlace ⟨([], x) :: before, rest, groups⟩).skipWhile q := by
              rw [fillPlace_next]
              simp [fillPlace, fill_cons, Place.skipWhile, hx]
            have hskip' : Place.skipWhile (q ∘ Prod.snd) ⟨before, ([], x) :: rest, groups⟩ =
                Place.skipWhile (q ∘ Prod.snd) ⟨([], x) :: before, rest, groups⟩ := by
              simp [Place.skipWhile, hx]
            rw [hskip, hskip']
            exact ih _ (Fits.of_append (l := [([], x)]) hs)
        | false =>
            have hskip : (fillPlace ⟨before, ([], x) :: rest, groups⟩).skipWhile q =
                fillPlace ⟨before, ([], x) :: rest, groups⟩ := by
              simp [fillPlace, fill_cons, Place.skipWhile, hx]
            have hskip' : Place.skipWhile (q ∘ Prod.snd) ⟨before, ([], x) :: rest, groups⟩ =
                ⟨before, ([], x) :: rest, groups⟩ := by
              simp [Place.skipWhile, hx]
            rw [hskip, hskip']
            exact ht _ hs
      · -- the skip goes over the gap, up to a symbol that `t` does not go on with
        obtain ⟨hx, hgq⟩ := hs _ List.mem_cons_self hg
        have hx : x = c := hx
        have hxq : (q ∘ Prod.snd) (g, x) = false := by
          rw [Function.comp_apply, hx]
          exact hqc
        have hskip' : Place.skipWhile (q ∘ Prod.snd) ⟨before, (g, x) :: rest, groups⟩ =
            ⟨before, (g, x) :: rest, groups⟩ := by
          rw [Place.skipWhile, List.takeWhile_cons_of_neg (Bool.eq_false_iff.mp hxq),
            List.dropWhile_cons_of_neg (Bool.eq_false_iff.mp hxq)]
          rfl
        rw [hskip', fillPlace, fill_cons, skipWhile_append hgq (hx ▸ hqc),
          run_eq_nil_of_first rfl hnull (hx ▸ hc), run_eq_nil_of_first rfl hnull']
        · rfl
        · rw [first_comap, hx]
          exact hc

theorem first_of_solid {r : Regex α} (h : solid c q r) :
    first c r = false ∧ ∀ x, q x = true → first x r = false := by
  induction r with
  | set p => exact h
  | seq r t ihr iht =>
      obtain ⟨hr, hr'⟩ := ihr h.1
      obtain ⟨ht, ht'⟩ := iht h.2
      refine ⟨by rw [first, hr, ht, Bool.and_false, Bool.or_false], fun x hx ↦ ?_⟩
      rw [first, hr' x hx, ht' x hx, Bool.and_false, Bool.or_false]
  | alt r t ihr iht =>
      obtain ⟨hr, hr'⟩ := ihr h.1
      obtain ⟨ht, ht'⟩ := iht h.2
      refine ⟨by rw [first, hr, ht, Bool.or_false], fun x hx ↦ ?_⟩
      rw [first, hr' x hx, ht' x hx, Bool.or_false]
  | star greedy r ih => exact ih h
  | group n r ih => exact ih h
  | empty => exact ⟨rfl, fun _ _ ↦ rfl⟩
  | _ => exact h.elim

theorem first_seq_of_solid {r : Regex α} (h : solid c q r) (hnull : nullable r = false)
    (t : Regex α) : first c (Regex.seq r t) = false ∧
      ∀ x, q x = true → first x (Regex.seq r t) = false := by
  obtain ⟨hc, hq⟩ := first_of_solid h
  refine ⟨by rw [first, hc, hnull, Bool.false_and, Bool.or_false], fun x hx ↦ ?_⟩
  rw [first, hq x hx, hnull, Bool.false_and, Bool.or_false]

/-- A run of what stands in gaps, in front of an expression that takes no part in it. -/
theorem carries_skip_seq {r t : Regex α} (h : solid c q r) (hnull : nullable r = false)
    (hqc : q c = false) (ht : Carries c q t) :
    Carries c q (Regex.seq (star true (set q)) (Regex.seq r t)) := by
  obtain ⟨hc, hq⟩ := first_seq_of_solid h hnull t
  refine carries_skip ?_ hc hq hqc ((carries_of_solid h).seq ht)
  rw [nullable, hnull, Bool.false_and]

theorem stuck_seq_of_solid {r : Regex α} (h : solid c q r) (hnull : nullable r = false)
    (t : Regex α) : Stuck c q (Regex.seq r t) := by
  obtain ⟨hc, hq⟩ := first_seq_of_solid h hnull t
  refine stuck_of_first ?_ hc hq
  rw [nullable, hnull, Bool.false_and]

/-- A symbol that may stand in a gap, in front of what is stuck there. -/
theorem carries_set_seq {p : α → Bool} {t : Regex α} (hp : p c = false) (hstuck : Stuck c q t)
    (ht : Carries c q t) : Carries c q (Regex.seq (set p) t) := by
  rintro ⟨before, after, groups⟩ hs
  cases after with
  | nil => rfl
  | cons e rest =>
      obtain ⟨g, x⟩ := e
      by_cases hg : g = []
      · subst hg
        have hfill : fillPlace ⟨before, ([], x) :: rest, groups⟩ =
            ⟨(fill before.reverse).reverse, x :: fill rest,
              groups.map fun g ↦ (g.1, fill g.2)⟩ := rfl
        rw [hfill, comap, comap, run_seq, run_seq]
        cases hx : p x with
        | true =>
            have hx' : (p ∘ Prod.snd) (([] : List α), x) = true := hx
            rw [run_set_of_pos hx, run_set_of_pos hx', List.flatMap_singleton,
              List.flatMap_singleton, ← fillPlace_next]
            exact ht _ (Fits.of_append (l := [([], x)]) hs)
        | false =>
            have hx' : (p ∘ Prod.snd) (([] : List α), x) = false := hx
            rw [run_set_of_neg hx, run_set_of_neg hx']
            rfl
      · have hx : (p ∘ Prod.snd) (g, x) = false := by
          rw [Function.comp_apply, (hs _ List.mem_cons_self hg).1]
          exact hp
        rw [Carries.of_stuck (stuck_set_seq hp hstuck) hs hg, comap, comap, run_seq,
          run_set_of_neg hx]
        rfl

/-! ## Any text -/

/-- A lazy run goes over a gap, and over the symbol behind it, if nothing matches there. -/
theorem flatMap_lazy_gap {K : Place α → List (Place α)} {w before rest : List α}
    {groups : List (ℕ × List α)} (hw : ∀ x ∈ w, q x = true)
    (hK : ∀ before w, (∀ x ∈ w, q x = true) → K ⟨before, w ++ c :: rest, groups⟩ = []) :
    (run (star false (set fun _ ↦ true)) ⟨before, w ++ c :: rest, groups⟩).flatMap K =
      (run (star false (set fun _ ↦ true))
        ⟨c :: (w.reverse ++ before), rest, groups⟩).flatMap K := by
  induction w generalizing before with
  | nil =>
      have hnow := hK before [] hw
      rw [List.nil_append] at hnow ⊢
      rw [run_star_set_of_pos rfl, if_neg Bool.false_ne_true, List.flatMap_cons, hnow]
      rfl
  | cons x w ih =>
      have hnow := hK before (x :: w) hw
      rw [List.cons_append] at hnow ⊢
      rw [run_star_set_of_pos rfl, if_neg Bool.false_ne_true, List.flatMap_cons, hnow,
        List.nil_append, ih fun y hy ↦ hw y (List.mem_cons_of_mem x hy), List.reverse_cons,
        List.append_assoc]
      rfl

/-- Any text, as little as possible, in front of what is stuck in gaps. -/
theorem carries_group_lazy {n : ℕ} {t : Regex α} (hstuck : Stuck c q t) (ht : Carries c q t) :
    Carries c q (Regex.seq (group n (star false (set fun _ ↦ true))) t) := by
  intro s hs
  rw [comap, comap, comap, comap, run_seq_group, run_seq_group]
  suffices hall : ∀ (after before : List (List α × α)) (u : List (List α × α))
      (groups : List (ℕ × List (List α × α))), Consumed s u ⟨before, after, groups⟩ →
      (run (star false (set fun _ ↦ true)) (fillPlace ⟨before, after, groups⟩)).flatMap
          (fun m ↦ run t { m with groups := (n, (fillPlace s).upTo m) :: m.groups }) =
        ((run (star false (set ((fun _ ↦ true) ∘ Prod.snd))) ⟨before, after, groups⟩).flatMap
          (fun m ↦ run (comap Prod.snd t)
            { m with groups := (n, s.upTo m) :: m.groups })).map fillPlace from
    hall s.after s.before [] s.groups (.refl s)
  intro after
  induction after with
  | nil =>
      intro before u groups hu
      have hfill := (consumed_fillPlace hu).upTo_eq.trans (congrArg fill hu.upTo_eq.symm)
      have hstay : fillPlace ⟨before, [], groups⟩ =
          ⟨(fill before.reverse).reverse, [], groups.map fun g ↦ (g.1, fill g.2)⟩ := rfl
      have hfits : Fits c q ([] : List (List α × α)) := fun e he ↦ absurd he List.not_mem_nil
      rw [run_star_set_of_neg (s := fillPlace ⟨before, [], groups⟩) rfl,
        run_star_set_of_neg (s := ⟨before, [], groups⟩) rfl, List.flatMap_singleton,
        List.flatMap_singleton, hfill]
      exact ht ⟨before, [], (n, s.upTo ⟨before, [], groups⟩) :: groups⟩ hfits
  | cons e rest ih =>
      intro before u groups hu
      obtain ⟨g, x⟩ := e
      have hfits : Fits c q ((g, x) :: rest) := by
        have hafter := hu.1
        exact Fits.of_append (l := u) (hafter ▸ hs)
      have hnext : Consumed s (u ++ [(g, x)]) ⟨(g, x) :: before, rest, groups⟩ :=
        hu.trans ⟨rfl, rfl⟩
      have hfill := (consumed_fillPlace hu).upTo_eq.trans (congrArg fill hu.upTo_eq.symm)
      have hnow := ht ⟨before, (g, x) :: rest, (n, s.upTo ⟨before, (g, x) :: rest, groups⟩) ::
        groups⟩ hfits
      rw [run_star_set_of_pos (p := (fun _ ↦ true) ∘ Prod.snd) rfl, if_neg Bool.false_ne_true,
        List.flatMap_cons, List.map_append, ← ih _ _ _ hnext, ← hnow]
      by_cases hg : g = []
      · subst hg
        have hstep : fillPlace ⟨before, ([], x) :: rest, groups⟩ =
            ⟨(fill before.reverse).reverse, x :: fill rest,
              groups.map fun g ↦ (g.1, fill g.2)⟩ := rfl
        rw [fillPlace_next, hstep, run_star_set_of_pos rfl, if_neg Bool.false_ne_true,
          List.flatMap_cons, ← hstep, hfill]
        rfl
      · obtain ⟨hx, hq⟩ := hfits _ List.mem_cons_self hg
        have hx : x = c := hx
        have hstuckNow := Carries.of_stuck hstuck hfits hg before
          ((n, s.upTo ⟨before, (g, x) :: rest, groups⟩) :: groups)
        have hstep : fillPlace ⟨before, (g, x) :: rest, groups⟩ =
            ⟨(fill before.reverse).reverse, g ++ c :: fill rest,
              groups.map fun g ↦ (g.1, fill g.2)⟩ := by
          rw [fillPlace, fill_cons, hx]
        have hafter : fillPlace ⟨(g, x) :: before, rest, groups⟩ =
            ⟨c :: (g.reverse ++ (fill before.reverse).reverse), fill rest,
              groups.map fun g ↦ (g.1, fill g.2)⟩ := by
          simp [fillPlace, hx, fill]
        rw [hstuckNow, List.nil_append, hstep, hafter, flatMap_lazy_gap hq]
        exact fun before w hw ↦ hstuck _ w _ _ hw

/-! ## All matches -/

/-- An expression that does not start in a gap finds the same matches with and without the
gaps. -/
theorem matchAll_fill {r : Regex α} (hnull : nullable r = false) (hcarries : Carries c q r)
    (hstuck : Stuck c q r) {l : List (List α × α)} (hl : Fits c q l) :
    matchAll r (fill l) = (matchAll (comap Prod.snd r) l).map fillPlace := by
  have hnull' : nullable (comap (Prod.snd (α := List α)) r) = false :=
    (nullable_comap _ r).trans hnull
  suffices hfrom : ∀ (k : ℕ) (l before : List (List α × α)), l.length = k → Fits c q l →
      matchesFrom r (fill before.reverse).reverse (fill l) 0 =
        (matchesFrom (comap Prod.snd r) before l 0).map fillPlace from
    hfrom _ l [] rfl hl
  intro k
  induction k using Nat.strongRecOn with
  | _ k ih =>
      intro l before hk hl
      have hnow : run r ⟨(fill before.reverse).reverse, fill l, []⟩ =
          (run (comap Prod.snd r) ⟨before, l, []⟩).map fillPlace := hcarries ⟨before, l, []⟩ hl
      cases hm : (run (comap Prod.snd r) ⟨before, l, []⟩).head? with
      | some m =>
          have hmem := List.mem_of_head? hm
          have hlt : m.after.length < k := hk ▸ length_lt_of_mem_run hnull' hmem
          have hfits : Fits c q m.after := Fits.of_mem_run (s := ⟨before, l, []⟩) hl hmem
          have hm' : (run r ⟨(fill before.reverse).reverse, fill l, []⟩).head? =
              some (fillPlace m) := by
            rw [hnow, List.head?_map, hm]
            rfl
          rw [matchesFrom_of_head hnull hm', matchesFrom_of_head hnull' hm, List.map_cons,
            ← ih _ hlt m.after m.before rfl hfits]
          rfl
      | none =>
          have hnone := List.head?_eq_none_iff.mp hm
          rw [hnone, List.map_nil] at hnow
          cases l with
          | nil =>
              have hnil : fill ([] : List (List α × α)) = [] := rfl
              rw [hnil] at hnow ⊢
              rw [matchesFrom, matchesFrom, hnow, hnone]
              rfl
          | cons e rest =>
              obtain ⟨g, x⟩ := e
              have hlater := ih rest.length (hk ▸ Nat.lt_succ_self _) rest ((g, x) :: before) rfl
                (Fits.of_append (l := [(g, x)]) hl)
              have hover : matchesFrom r (fill before.reverse).reverse (g ++ x :: fill rest) 0 =
                  matchesFrom r (x :: (g.reverse ++ (fill before.reverse).reverse))
                    (fill rest) 0 := by
                by_cases hg : g = []
                · subst hg
                  exact matchesFrom_of_nil hnow
                · obtain ⟨hx, hq⟩ := hl _ List.mem_cons_self hg
                  have hx : x = c := hx
                  rw [hx, matchesFrom_append_of_nil, matchesFrom_of_nil]
                  · exact hstuck _ [] _ _ fun y hy ↦ absurd hy List.not_mem_nil
                  · intro y z hyz _
                    exact hstuck _ z _ _ fun y' hy' ↦ hq y' (hyz ▸ List.mem_append_right y hy')
              have hbefore : (fill ((g, x) :: before).reverse).reverse =
                  x :: (g.reverse ++ (fill before.reverse).reverse) := by
                simp [fill]
              rw [fill_cons, hover, matchesFrom_of_nil hnone, ← hlater, hbefore]

end Gaps
