import Rivid.Check.Sql

/-!
# The lines of a table's body

The separator pattern takes space around a comma, which may have line feeds in it.  Once the
pieces are trimmed and the empty ones are left out, they are those of a simpler split: at each
line feed, and at each comma that no closing parenthesis comes behind before an opening one.
-/

namespace Rivid.Check

open Regex

/-! ## Cuts -/

/-- The next parenthesis is a closing one. -/
def closes : JsString → Bool
  | [] => false
  | u :: s => u == closeParen || (u != openParen && closes s)

/-- The body is cut at `u`, with `s` behind it. -/
def cuts (u : U16) (s : JsString) : Bool := u == lineFeed || (u == comma && !closes s)

/-- The text up to the next cut. -/
def upToCut : JsString → JsString
  | [] => []
  | u :: s => if cuts u s then [] else u :: upToCut s

def chunks : JsString → List JsString
  | [] => [[]]
  | u :: s => if cuts u s then [] :: chunks s else consHead u (chunks s)

/-- The trimmed pieces, without the empty ones. -/
def lines (pieces : List JsString) : List JsString := (pieces.map trim).filter (· ≠ [])

theorem lines_cons_of_eq {p : JsString} (h : trim p = []) (ps : List JsString) :
    lines (p :: ps) = lines ps := by
  simp [lines, h]

theorem chunks_eq_cons (s : JsString) : ∃ ps, chunks s = upToCut s :: ps := by
  induction s with
  | nil => exact ⟨[], rfl⟩
  | cons u s ih =>
      obtain ⟨ps, hps⟩ := ih
      rw [chunks, upToCut]
      by_cases hu : cuts u s = true
      · rw [if_pos hu, if_pos hu]
        exact ⟨_, rfl⟩
      · rw [if_neg hu, if_neg hu, hps]
        exact ⟨ps, rfl⟩

theorem cuts_of_isSpace {u : U16} (hu : isSpace u = true) (s : JsString) :
    cuts u s = (u == lineFeed) := by
  have hcomma : (u == comma) = false := beq_eq_false_iff_ne.mpr fun h ↦ by
    rw [h] at hu
    cases hu
  rw [cuts, hcomma, Bool.false_and, Bool.or_false]

/-- Space in front of a body makes no difference to its lines. -/
theorem lines_chunks_append {w : JsString} (hw : ∀ u ∈ w, isSpace u = true) (s : JsString) :
    lines (chunks (w ++ s)) = lines (chunks s) := by
  induction w with
  | nil => rfl
  | cons u w ih =>
      obtain ⟨hu, hw⟩ := List.forall_mem_cons.mp hw
      rw [← ih hw, List.cons_append, chunks, cuts_of_isSpace hu]
      split
      · exact lines_cons_of_eq rfl _
      · obtain ⟨ps, hps⟩ := chunks_eq_cons (w ++ s)
        rw [hps, consHead]
        simp only [lines, List.map_cons, trim_cons_of_isSpace hu]

/-- The lines behind a cut at a comma with space in front of it. -/
theorem chunks_comma {w : JsString} (hw : ∀ u ∈ w, isSpace u = true) {s : JsString}
    (hs : closes s = false) : ∃ p ps, chunks (w ++ comma :: s) = p :: ps ∧ trimEnd p = [] ∧
      lines ps = lines (chunks s) := by
  induction w with
  | nil =>
      refine ⟨[], chunks s, ?_, rfl, rfl⟩
      rw [List.nil_append, chunks, cuts, hs]
      rfl
  | cons u w ih =>
      obtain ⟨hu, hw⟩ := List.forall_mem_cons.mp hw
      obtain ⟨p, ps, hps, hp, hlines⟩ := ih hw
      rw [List.cons_append, chunks, cuts_of_isSpace hu, hps]
      split
      · refine ⟨[], p :: ps, rfl, rfl, ?_⟩
        rw [lines_cons_of_eq (trim_congr (t := []) hp), hlines]
      · refine ⟨u :: p, ps, rfl, ?_, hlines⟩
        rw [trimEnd_cons_of_eq hp]
        exact trimEnd_eq_nil_iff.mpr (List.forall_mem_singleton.mpr hu)

/-- A line starts between `x` and `y`. -/
def Cut (x y : JsString) : Prop := x = [] ∨ ∃ u, x.getLast? = some u ∧ cuts u y = true

theorem mem_tail_chunks_iff {s p : JsString} : p ∈ (chunks s).tail ↔
    ∃ b u y, s = b ++ u :: y ∧ cuts u y = true ∧ p = upToCut y := by
  induction s with
  | nil => simp [chunks]
  | cons v s ih =>
      obtain ⟨ps, hps⟩ := chunks_eq_cons s
      rw [chunks]
      rw [hps] at ih ⊢
      by_cases hv : cuts v s = true
      · rw [if_pos hv, List.tail_cons, List.mem_cons]
        constructor
        · rintro (rfl | hp)
          · exact ⟨[], v, s, rfl, hv, rfl⟩
          · obtain ⟨b, u, y, rfl, hu, rfl⟩ := ih.mp hp
            exact ⟨v :: b, u, y, rfl, hu, rfl⟩
        · rintro ⟨b, u, y, hs, hu, rfl⟩
          cases b with
          | nil =>
              obtain ⟨rfl, rfl⟩ := List.cons.inj hs
              exact .inl rfl
          | cons e b =>
              obtain ⟨rfl, rfl⟩ := List.cons.inj hs
              exact .inr (ih.mpr ⟨b, u, y, rfl, hu, rfl⟩)
      · rw [if_neg hv, consHead, List.tail_cons]
        constructor
        · intro hp
          obtain ⟨b, u, y, rfl, hu, rfl⟩ := ih.mp hp
          exact ⟨v :: b, u, y, rfl, hu, rfl⟩
        · rintro ⟨b, u, y, hs, hu, rfl⟩
          cases b with
          | nil =>
              obtain ⟨rfl, rfl⟩ := List.cons.inj hs
              exact absurd hu hv
          | cons e b =>
              obtain ⟨rfl, rfl⟩ := List.cons.inj hs
              exact ih.mpr ⟨b, u, y, rfl, hu, rfl⟩

/-- The chunks are what comes behind each start of a line, up to the next cut. -/
theorem mem_chunks_iff {s p : JsString} : p ∈ chunks s ↔
    ∃ x y, s = x ++ y ∧ Cut x y ∧ p = upToCut y := by
  obtain ⟨ps, hps⟩ := chunks_eq_cons s
  have htail := mem_tail_chunks_iff (s := s) (p := p)
  rw [hps, List.tail_cons] at htail
  rw [hps, List.mem_cons, htail]
  constructor
  · rintro (rfl | ⟨b, u, y, rfl, hu, rfl⟩)
    · exact ⟨[], s, rfl, .inl rfl, rfl⟩
    · exact ⟨b ++ [u], y, by simp, .inr ⟨u, List.getLast?_concat, hu⟩, rfl⟩
  · rintro ⟨x, y, rfl, rfl | ⟨u, hlast, hu⟩, rfl⟩
    · exact .inl rfl
    · obtain ⟨b, rfl⟩ := List.getLast?_eq_some_iff.mp hlast
      exact .inr ⟨b, u, y, by simp, hu, rfl⟩

/-- A line feed or a comma. -/
def isMark (u : U16) : Prop := u = lineFeed ∨ u = comma

theorem isMark_of_cuts {u : U16} {s : JsString} (h : cuts u s = true) : isMark u := by
  rw [cuts, Bool.or_eq_true, Bool.and_eq_true] at h
  exact h.imp eq_of_beq fun h ↦ eq_of_beq h.1

theorem upToCut_append {w : JsString} (hw : ∀ u ∈ w, ¬ isMark u) (s : JsString) :
    upToCut (w ++ s) = w ++ upToCut s := by
  induction w with
  | nil => rfl
  | cons u w ih =>
      obtain ⟨hu, hw⟩ := List.forall_mem_cons.mp hw
      rw [List.cons_append, upToCut, if_neg fun h ↦ hu (isMark_of_cuts h), ih hw]
      rfl

theorem isPrefix_upToCut (s : JsString) : upToCut s <+: s := by
  induction s with
  | nil => exact List.prefix_rfl
  | cons u s ih =>
      rw [upToCut]
      split
      · exact List.nil_prefix
      · exact (List.prefix_cons_inj u).mpr ih

/-- If there is anything on the line, it starts behind space on the same line. -/
theorem trim_upToCut {s : JsString} (h : trim (upToCut s) ≠ []) :
    (∀ u ∈ s.takeWhile isSpace, ¬ isMark u) ∧
      trim (upToCut s) = trim (upToCut (trimStart s)) := by
  induction s with
  | nil => exact ⟨fun u hu ↦ absurd hu List.not_mem_nil, rfl⟩
  | cons u s ih =>
      cases hu : isSpace u with
      | false =>
          have hu' : ¬ isSpace u = true := Bool.eq_false_iff.mp hu
          rw [List.takeWhile_cons_of_neg hu', trimStart, List.dropWhile_cons_of_neg hu']
          exact ⟨fun v hv ↦ absurd hv List.not_mem_nil, rfl⟩
      | true =>
          have hmark : ¬ isMark u := by
            rintro (rfl | rfl)
            · exact h rfl
            · cases hu
          have hstep : upToCut (u :: s) = u :: upToCut s :=
            if_neg fun hcut ↦ hmark (isMark_of_cuts hcut)
          rw [hstep, trim_cons_of_isSpace hu] at h ⊢
          obtain ⟨hspace, htrim⟩ := ih h
          rw [List.takeWhile_cons_of_pos hu, trimStart, List.dropWhile_cons_of_pos hu]
          exact ⟨List.forall_mem_cons.mpr ⟨hmark, hspace⟩, htrim⟩

/-! ## The separator pattern -/

theorem run_closingRe_eq_nil_iff (m : Place U16) :
    run closingRe m = [] ↔ closes m.after = false := by
  obtain ⟨before, after, groups⟩ := m
  have hseq : ∀ m, run closingRe m =
      (run (star true (set (· != openParen))) m).flatMap (run (char closeParen)) := fun _ ↦ rfl
  rw [hseq]
  induction after generalizing before with
  | nil =>
      rw [run_star_set_of_neg rfl]
      exact iff_of_true rfl rfl
  | cons u s ih =>
      by_cases hu : u = openParen
      · rw [hu, run_star_set_of_neg (s := ⟨before, openParen :: s, groups⟩) rfl]
        exact iff_of_true rfl rfl
      · have hset : (u != openParen) = true := bne_iff_ne.mpr hu
        have hrest : (run (star true (set (· != openParen))) ⟨u :: before, s, groups⟩).flatMap
            (run (char closeParen)) = [] ↔ closes s = false := ih (u :: before)
        rw [run_star_set_of_pos (p := (· != openParen)) hset, if_pos rfl, List.flatMap_append,
          List.append_eq_nil_iff, hrest, List.flatMap_singleton, closes, hset, Bool.true_and,
          Bool.or_eq_false_iff, and_comm]
        refine and_congr_left fun _ ↦ ?_
        cases hc : u == closeParen with
        | true => exact iff_of_false (by simp [char, run, hc]) (by decide)
        | false => exact iff_of_true (run_set_of_neg (p := (· == closeParen)) hc _ _ _) rfl

/-- The separator without a comma. -/
def lineBreakRe : Regex U16 := seqAll [opt (char carriageReturn), char lineFeed]

def commaRe : Regex U16 := seqAll [spaces, char comma, spaces, notAhead closingRe]

theorem run_separatorRe (m : Place U16) :
    run separatorRe m = run lineBreakRe m ++ run commaRe m :=
  rfl

theorem run_commaRe (m : Place U16) : run commaRe m =
    (run (char comma) (m.skipWhile isSpace)).flatMap (run (seq spaces (notAhead closingRe))) := by
  have hfirst : ∀ u, isSpace u = true →
      first u (seq (char comma) (seq spaces (notAhead closingRe))) = false := fun u hu ↦ by
    have hcomma : (u == comma) = false := beq_eq_false_iff_ne.mpr fun h ↦ by
      rw [h] at hu
      cases hu
    simp [first, nullable, char, hcomma]
  exact run_seq_star_set rfl hfirst m

/-- Space makes no difference to what the next parenthesis is. -/
theorem closes_of_mem_run_spaces {m m' : Place U16} (h : m' ∈ run spaces m) :
    closes m'.after = closes m.after := by
  obtain ⟨u, hu, havoid⟩ := exists_consumed h
  have hspace : ∀ c ∈ u, isSpace c = true := fun c hc ↦ by
    by_contra hs
    exact havoid c (Bool.eq_false_iff.mpr hs) hc
  rw [hu.1]
  clear hu havoid
  induction u with
  | nil => rfl
  | cons c u ih =>
      obtain ⟨hc, hu⟩ := List.forall_mem_cons.mp hspace
      have hclose : (c == closeParen) = false := beq_eq_false_iff_ne.mpr fun h ↦ by
        rw [h] at hc
        cases hc
      have hopen : (c != openParen) = true := bne_iff_ne.mpr fun h ↦ by
        rw [h] at hc
        cases hc
      rw [List.cons_append, closes, hclose, hopen, ← ih hu]
      rfl

/-- Behind the comma all space is taken, unless a closing parenthesis comes next. -/
theorem head?_run_behind_comma (m : Place U16) :
    (run (seq spaces (notAhead closingRe)) m).head? =
      if closes m.after then none else some (m.skipWhile isSpace) := by
  have hahead : ∀ m' ∈ run spaces m, run (notAhead closingRe) m' =
      if closes m.after then [] else [m'] := fun m' hm' ↦ by
    rw [run, ← closes_of_mem_run_spaces hm']
    cases hc : closes m'.after with
    | false => rw [(run_closingRe_eq_nil_iff m').mpr hc]; rfl
    | true =>
        have hne : run closingRe m' ≠ [] := fun h ↦ by
          rw [run_closingRe_eq_nil_iff, hc] at h
          cases h
        rw [List.isEmpty_eq_false_iff.mpr hne]
        rfl
  have hrun : run (seq spaces (notAhead closingRe)) m =
      (run spaces m).flatMap fun m' ↦ if closes m.after then [] else [m'] :=
    List.flatMap_congr hahead
  obtain ⟨fewer, hspaces, -⟩ := run_star_set isSpace m
  rw [hrun, spaces, hspaces]
  cases closes m.after <;> simp

theorem run_commaRe_eq_nil {before s : JsString}
    (hs : (s.dropWhile isSpace).head? ≠ some comma) : run commaRe ⟨before, s, []⟩ = [] := by
  have hnone : run (char comma) (Place.skipWhile isSpace ⟨before, s, []⟩) = [] := by
    refine List.eq_nil_iff_forall_not_mem.mpr fun m hm ↦ ?_
    obtain ⟨c, rest, hafter, hc, -⟩ := mem_run_set_iff.mp hm
    refine hs ?_
    rw [show s.dropWhile isSpace = c :: rest from hafter, eq_of_beq hc]
    rfl
  rw [run_commaRe, hnone]
  rfl

theorem head?_run_commaRe {before s z : JsString} (hs : s.dropWhile isSpace = comma :: z) :
    ((run commaRe ⟨before, s, []⟩).head?).map Place.after =
      if closes z then none else some (z.dropWhile isSpace) := by
  have hone : run (char comma) (Place.skipWhile isSpace ⟨before, s, []⟩) =
      [⟨comma :: ((s.takeWhile isSpace).reverse ++ before), z, []⟩] := by
    rw [Place.skipWhile, hs]
    exact run_set_of_pos rfl _ _ _
  rw [run_commaRe, hone, List.flatMap_singleton, head?_run_behind_comma]
  cases closes z <;> rfl

/-- A line feed is taken by the first alternative, with a carriage return in front of it. -/
theorem run_lineBreakRe (before : JsString) (u : U16) (s : JsString) :
    run lineBreakRe ⟨before, u :: s, []⟩ =
      if u = carriageReturn then run (char lineFeed) ⟨u :: before, s, []⟩
      else run (char lineFeed) ⟨before, u :: s, []⟩ := by
  have hfirst : ∀ c, (c == carriageReturn) = true → first c (char lineFeed) = false := by
    intro c hc
    rw [eq_of_beq hc]
    rfl
  split
  · next hu =>
      exact run_seq_opt_set rfl hfirst [u] before s [] (.inr ⟨u, rfl, beq_iff_eq.mpr hu⟩)
  · next hu =>
      exact run_seq_opt_set rfl hfirst [] before (u :: s) []
        (.inl ⟨rfl, beq_eq_false_iff_ne.mpr hu⟩)

/-! ## Pieces and chunks -/

/-- The first pieces differ in space at their ends at most, and the others have the same lines. -/
def Same (ps qs : List JsString) : Prop :=
  ∃ p ps' q qs', ps = p :: ps' ∧ qs = q :: qs' ∧ trimEnd p = trimEnd q ∧ lines ps' = lines qs'

namespace Same

variable {ps qs : List JsString}

theorem lines_eq (h : Same ps qs) : lines ps = lines qs := by
  obtain ⟨p, ps, q, qs, rfl, rfl, hpq, hlines⟩ := h
  rw [lines] at hlines ⊢
  rw [lines] at hlines ⊢
  rw [List.map_cons, List.map_cons, trim_congr hpq, List.filter_cons, List.filter_cons, hlines]

theorem consHead (h : Same ps qs) (u : U16) : Same (consHead u ps) (consHead u qs) := by
  obtain ⟨p, ps, q, qs, rfl, rfl, hpq, hlines⟩ := h
  exact ⟨_, _, _, _, rfl, rfl, trimEnd_cons_congr u hpq, hlines⟩

end Same

/-- A match of the separator pattern at `u :: s` up to `v` is a cut, too: what is cut off is space,
and the lines behind it are those of `v`. -/
def Separates (before : JsString) (u : U16) (s : JsString) : Prop :=
  ∃ w v q qs, s = w ++ v ∧
    ((run separatorRe ⟨before, u :: s, []⟩).head?).map Place.after = some v ∧
      chunks (u :: s) = q :: qs ∧ trimEnd q = [] ∧ lines qs = lines (chunks v)

theorem separates_lineFeed (before s : JsString) : Separates before lineFeed s :=
  ⟨[], s, [], chunks s, rfl, rfl, rfl, rfl, rfl⟩

theorem separates_carriageReturn (before s : JsString) :
    Separates before carriageReturn (lineFeed :: s) :=
  ⟨[lineFeed], s, [carriageReturn], chunks s, rfl, rfl, rfl, rfl, rfl⟩

theorem separates_comma {before s z : JsString} {u : U16}
    (hbreak : run lineBreakRe ⟨before, u :: s, []⟩ = [])
    (hz : (u :: s).dropWhile isSpace = comma :: z) (hcloses : closes z = false) :
    Separates before u s := by
  obtain ⟨w, hw⟩ : z.dropWhile isSpace <:+ s := by
    have hsuffix : comma :: z <:+ u :: s := hz ▸ List.dropWhile_suffix isSpace
    have htail : z <:+ s := by
      rcases List.suffix_cons_iff.mp hsuffix with h | h
      · exact (List.cons.inj h).2 ▸ List.suffix_rfl
      · exact (List.suffix_cons comma z).trans h
    exact (List.dropWhile_suffix isSpace).trans htail
  have htext : (u :: s).takeWhile isSpace ++ comma :: z = u :: s := by
    rw [← hz, List.takeWhile_append_dropWhile]
  obtain ⟨q, qs, hchunks, hq, hqs⟩ := chunks_comma
    (fun c hc ↦ List.mem_takeWhile_imp (p := isSpace) (l := u :: s) hc) hcloses
  rw [htext] at hchunks
  refine ⟨w, z.dropWhile isSpace, q, qs, hw.symm, ?_, hchunks, hq, ?_⟩
  · rw [run_separatorRe, hbreak, List.nil_append, head?_run_commaRe hz, hcloses]
    rfl
  · rw [hqs, ← lines_chunks_append (fun c hc ↦ List.mem_takeWhile_imp (p := isSpace) (l := z) hc)
      (z.dropWhile isSpace), List.takeWhile_append_dropWhile]

/-- The separator pattern matches at a cut, or at space in front of one. -/
theorem separates_or_not (before : JsString) (u : U16) (s : JsString) : Separates before u s ∨
    run separatorRe ⟨before, u :: s, []⟩ = [] ∧ cuts u s = false := by
  by_cases hlf : u = lineFeed
  · exact .inl (hlf ▸ separates_lineFeed before s)
  by_cases hcr : u = carriageReturn ∧ s.head? = some lineFeed
  · obtain ⟨rfl, hhead⟩ := hcr
    obtain ⟨s, rfl⟩ := List.head?_eq_some_iff.mp hhead
    exact .inl (separates_carriageReturn before s)
  have hbreak : run lineBreakRe ⟨before, u :: s, []⟩ = [] := by
    rw [run_lineBreakRe]
    refine List.eq_nil_iff_forall_not_mem.mpr fun m hm ↦ ?_
    split at hm
    · next hu =>
        obtain ⟨c, rest, hafter, hc, -⟩ := mem_run_set_iff.mp hm
        refine hcr ⟨hu, ?_⟩
        rw [show s = c :: rest from hafter, eq_of_beq hc]
        rfl
    · obtain ⟨c, rest, hafter, hc, -⟩ := mem_run_set_iff.mp hm
      exact hlf ((List.cons.inj hafter).1.trans (eq_of_beq hc))
  by_cases hz : ∃ z, (u :: s).dropWhile isSpace = comma :: z ∧ closes z = false
  · obtain ⟨z, hz, hcloses⟩ := hz
    exact .inl (separates_comma hbreak hz hcloses)
  refine .inr ⟨?_, ?_⟩
  · rw [run_separatorRe, hbreak, List.nil_append]
    by_cases hhead : ((u :: s).dropWhile isSpace).head? = some comma
    · obtain ⟨z, hdrop⟩ := List.head?_eq_some_iff.mp hhead
      have hcloses : closes z = true := Bool.not_eq_false _ ▸ fun h ↦ hz ⟨z, hdrop, h⟩
      have hnone : ((run commaRe ⟨before, u :: s, []⟩).head?).map Place.after =
          if closes z then none else some (z.dropWhile isSpace) := head?_run_commaRe hdrop
      rw [hcloses, if_pos rfl, Option.map_eq_none_iff] at hnone
      exact List.head?_eq_none_iff.mp hnone
    · exact run_commaRe_eq_nil hhead
  · have hcomma : u = comma → closes s = true := by
      rintro rfl
      exact Bool.not_eq_false _ ▸ fun h ↦ hz ⟨s, rfl, h⟩
    rw [cuts, beq_eq_false_iff_ne.mpr hlf, Bool.false_or, Bool.and_eq_false_imp]
    intro hu
    rw [hcomma (eq_of_beq hu)]
    rfl

theorem same_splitFrom (before s : JsString) :
    Same (splitFrom separatorRe before s 0) (chunks s) := by
  induction hn : s.length using Nat.strongRecOn generalizing before s with
  | _ n ih =>
      cases s with
      | nil => exact ⟨[], [], [], [], rfl, rfl, rfl, rfl⟩
      | cons u s =>
          rcases separates_or_not before u s with
            ⟨w, v, q, qs, rfl, hrun, hchunks, hq, hqs⟩ | ⟨hrun, hcuts⟩
          · have hlen : v.length < n := by
              rw [← hn, List.length_cons, List.length_append]
              omega
            have hv := ih v.length hlen (w.reverse ++ u :: before) v rfl
            rw [splitFrom_of_match hrun, hchunks]
            exact ⟨_, _, _, _, rfl, rfl, hq.symm, hv.lines_eq.trans hqs.symm⟩
          · have hs := ih s.length (hn ▸ Nat.lt_succ_self _) (u :: before) s rfl
            have hcuts' : ¬ cuts u s = true := Bool.eq_false_iff.mp hcuts
            rw [splitFrom_of_none (by rw [hrun]; rfl), chunks, if_neg hcuts']
            exact hs.consHead u

/-- The lines of a body are those of the simpler split. -/
theorem lines_split (s : JsString) : lines (split separatorRe s) = lines (chunks s) :=
  (same_splitFrom [] s).lines_eq

/-! ## Columns of lines -/

theorem readColumn_congr {p q : JsString} (h : trim p = trim q) (table file : JsString) :
    readColumn table file p = readColumn table file q := by
  rw [readColumn, readColumn, h]

theorem exists_readColumn_of_lines {ps qs : List JsString} (h : lines ps = lines qs)
    {table file : JsString} {c : Column} (hp : ∃ p ∈ ps, readColumn table file p = some c) :
    ∃ q ∈ qs, readColumn table file q = some c := by
  obtain ⟨p, hp, hc⟩ := hp
  have hline : trim p ∈ lines ps := List.mem_filter.mpr
    ⟨List.mem_map_of_mem hp, decide_eq_true (readColumn_eq_some_iff.mp hc).1⟩
  rw [h] at hline
  obtain ⟨q, hq, hqp⟩ := List.mem_map.mp (List.mem_of_mem_filter hline)
  exact ⟨q, hq, readColumn_congr hqp table file ▸ hc⟩

/-- A column is read from the line between a start of a line and the next cut. -/
theorem exists_readColumn_split_iff {body table file : JsString} {c : Column} :
    (∃ p ∈ split separatorRe body, readColumn table file p = some c) ↔
      ∃ x y, body = x ++ y ∧ Cut x y ∧ readColumn table file (upToCut y) = some c := by
  have hchunks : (∃ p ∈ split separatorRe body, readColumn table file p = some c) ↔
      ∃ p ∈ chunks body, readColumn table file p = some c :=
    ⟨exists_readColumn_of_lines (lines_split body),
      exists_readColumn_of_lines (lines_split body).symm⟩
  rw [hchunks]
  constructor
  · rintro ⟨p, hp, hc⟩
    obtain ⟨x, y, hbody, hcut, rfl⟩ := mem_chunks_iff.mp hp
    exact ⟨x, y, hbody, hcut, hc⟩
  · rintro ⟨x, y, hbody, hcut, hc⟩
    exact ⟨upToCut y, mem_chunks_iff.mpr ⟨x, y, hbody, hcut, rfl⟩, hc⟩

end Rivid.Check
