import Rivid.Check.Drizzle
import Rivid.Check.Files
import Rivid.Lib.Gaps

/-!
# How a builder chain is laid out

A call of a builder chain can be put on a line of its own, with a line break and an
indentation in front of its dot.  `extractDrizzleTs` reads a table line by line: the name and
the builder of a column are looked for on the first of its lines, and so is what modifies it.

A layout is a text in which each symbol comes with the line break in front of it, if there is
one.  The tables that the pattern finds are the same with and without the breaks, and what is
read of a line of a table that is broken is its part in front of the first break.
-/

namespace Rivid.Check.Drizzle

open Regex Gaps

/-! ## Layouts -/

/-- A line break, and the indentation of the next line. -/
def isBreak (g : JsString) : Bool :=
  let g := if g.head? = some carriageReturn then g.tail else g
  g.head? = some lineFeed && g.tail.all fun u ↦ isSpace u && u != lineFeed

/-- Breaks are in front of dots. -/
def BreaksDots (text : List (JsString × U16)) : Prop :=
  ∀ e ∈ text, e.1 ≠ [] → e.2 = period ∧ isBreak e.1 = true

instance (text : List (JsString × U16)) : Decidable (BreaksDots text) :=
  inferInstanceAs (Decidable (∀ e ∈ text, e.1 ≠ [] → e.2 = period ∧ isBreak e.1 = true))

/-- The lines of a text that may be broken further. -/
def sourceLines (text : List (JsString × U16)) : List (List (JsString × U16)) :=
  text.splitOnP fun e ↦ e.2 == lineFeed

/-- The part of a line in front of its first break. -/
def firstPart (line : List (JsString × U16)) : JsString :=
  (line.takeWhile fun e ↦ e.1.isEmpty).map Prod.snd

def whole (line : List (JsString × U16)) : JsString := line.map Prod.snd

theorem firstPart_cons_of_nil (u : U16) (line : List (JsString × U16)) :
    firstPart (([], u) :: line) = u :: firstPart line := rfl

theorem firstPart_cons_of_break {g : JsString} (hg : g ≠ []) (u : U16)
    (line : List (JsString × U16)) : firstPart ((g, u) :: line) = [] := by
  cases g with
  | nil => exact absurd rfl hg
  | cons v g => rfl

/-- The tables that the pattern finds in the text without the breaks. -/
def tablesOf (text : List (JsString × U16)) : List (Place (JsString × U16)) :=
  matchAll (comap Prod.snd tableRe) text

/-- The lines of a table. -/
def linesOf (m : Place (JsString × U16)) : List (List (JsString × U16)) :=
  sourceLines ((m.group 3).getD [])

/-- What the column pattern matches is in front of the first break. -/
def headKept (line : List (JsString × U16)) : Bool :=
  (exec columnRe (trim (whole line))).all fun m ↦
    m.before.reverse.isPrefixOf (trim (firstPart line))

/-- A text, and where its chains are broken: in front of dots, behind the builders. -/
structure ChainLayout where
  text : List (JsString × U16)
  breaks : BreaksDots text
  heads : ∀ m ∈ tablesOf text, ∀ line ∈ linesOf m, headKept line = true

namespace ChainLayout

/-- Each chain on one line. -/
def plain (l : ChainLayout) : JsString := whole l.text

/-- The chains broken. -/
def broken (l : ChainLayout) : JsString := fill l.text

/-- The lines of all tables. -/
def lines (l : ChainLayout) : List (List (JsString × U16)) := (tablesOf l.text).flatMap linesOf

end ChainLayout

/-! ## The tables -/

theorem isBreak_iff {g : JsString} : isBreak g = true ↔ ∃ pre indent,
    g = pre ++ lineFeed :: indent ∧ (pre = [] ∨ pre = [carriageReturn]) ∧
      ∀ u ∈ indent, isSpace u = true ∧ u ≠ lineFeed := by
  have hrest : ∀ g : JsString, (g.head? = some lineFeed &&
      g.tail.all fun u ↦ isSpace u && u != lineFeed) = true ↔ ∃ indent, g = lineFeed :: indent ∧
        ∀ u ∈ indent, isSpace u = true ∧ u ≠ lineFeed := by
    intro g
    cases g with
    | nil => simp
    | cons u g => simp
  rw [isBreak]
  by_cases hcr : g.head? = some carriageReturn
  · obtain ⟨g, rfl⟩ := List.head?_eq_some_iff.mp hcr
    simp only [if_pos hcr]
    rw [List.tail_cons, hrest]
    constructor
    · rintro ⟨indent, rfl, h⟩
      exact ⟨[carriageReturn], indent, rfl, .inr rfl, h⟩
    · rintro ⟨pre, indent, hg, rfl | rfl, h⟩
      · exact absurd (List.cons.inj hg).1 (by decide)
      · exact ⟨indent, (List.cons.inj hg).2, h⟩
  · simp only [if_neg hcr]
    rw [hrest]
    constructor
    · rintro ⟨indent, rfl, h⟩
      exact ⟨[], indent, rfl, .inl rfl, h⟩
    · rintro ⟨pre, indent, rfl, rfl | rfl, h⟩
      · exact ⟨indent, rfl, h⟩
      · exact absurd rfl hcr

theorem isSpace_of_mem_isBreak {g : JsString} (h : isBreak g = true) :
    ∀ u ∈ g, isSpace u = true := by
  obtain ⟨pre, indent, rfl, hpre, hindent⟩ := isBreak_iff.mp h
  intro u hu
  rcases List.mem_append.mp hu with hu | hu
  · rcases hpre with rfl | rfl
    · cases hu
    · obtain rfl := List.mem_singleton.mp hu
      rfl
  · rcases List.mem_cons.mp hu with rfl | hu
    · rfl
    · exact (hindent u hu).1

theorem ChainLayout.fits (l : ChainLayout) : Fits period isSpace l.text :=
  fun e he hne ↦ (l.breaks e he hne).imp_right isSpace_of_mem_isBreak

theorem solid_char {u : U16} (hdot : (period == u) = false) (hspace : isSpace u = false) :
    solid period isSpace (char u) := by
  refine ⟨hdot, fun x hx ↦ beq_eq_false_iff_ne.mpr ?_⟩
  rintro rfl
  rw [hspace] at hx
  cases hx

theorem solid_verbatim {s : String} (h : (literal s).all fun u ↦ period != u && !isSpace u) :
    solid period isSpace (verbatim s) := by
  refine forall_seqAll_map (P := solid period isSpace) trivial (fun r t hr ht ↦ ⟨hr, ht⟩)
    fun u hu ↦ ?_
  have hu := List.all_eq_true.mp h u hu
  rw [Bool.and_eq_true, bne_iff_ne, Bool.not_eq_true'] at hu
  exact solid_char (beq_eq_false_iff_ne.mpr hu.1) hu.2

theorem solid_wordGroup (n : ℕ) : solid period isSpace (wordGroup n) := by
  have hword : solid period isSpace (set isWordChar) := ⟨rfl, fun _ ↦ isWordChar_of_isSpace⟩
  exact ⟨hword, hword⟩

theorem solid_stringQuote : solid period isSpace stringQuote := by
  refine ⟨rfl, fun x hx ↦ Bool.eq_false_iff.mpr fun hquote ↦ ?_⟩
  simp only [isStringQuote, Bool.or_eq_true, beq_iff_eq] at hquote
  rcases hquote with (rfl | rfl) | rfl <;> cases hx

/-- What introduces a table. -/
def kindRe : Regex U16 :=
  group 1 (alt (verbatim "pgTable") (alt (verbatim "mysqlTable") (verbatim "sqliteTable")))

theorem solid_kindRe : solid period isSpace kindRe :=
  ⟨solid_verbatim rfl, solid_verbatim rfl, solid_verbatim rfl⟩

theorem nullable_kindRe : nullable kindRe = false := rfl

/-- The end of a table is not found from within a break. -/
theorem stuck_end :
    Stuck period isSpace (Regex.seq (char lineFeed) (Regex.seq spaces (char closeBrace))) := by
  have hclose : solid period isSpace (char closeBrace) := solid_char rfl rfl
  obtain ⟨hc, hq⟩ := first_of_solid hclose
  exact stuck_set_seq rfl (stuck_skip rfl hc hq rfl)

theorem carries_tableRe : Carries period isSpace tableRe := by
  have hclose : solid period isSpace (char closeBrace) := solid_char rfl rfl
  obtain ⟨hc, hq⟩ := first_of_solid hclose
  have hend : Carries period isSpace
      (Regex.seq (char lineFeed) (Regex.seq spaces (char closeBrace))) :=
    carries_set_seq rfl (stuck_skip rfl hc hq rfl)
      (carries_skip rfl hc hq rfl (carries_of_solid hclose))
  have hbody := carries_group_lazy (n := 3) stuck_end hend
  -- from the opening brace back to the name of the function
  have hopenBrace := carries_skip_seq (solid_char (u := openBrace) rfl rfl) rfl rfl hbody
  have hcomma := carries_skip_seq (solid_char (u := comma) rfl rfl) rfl rfl hopenBrace
  have hquote := (carries_of_solid solid_stringQuote).seq hcomma
  have hname := (carries_of_solid (solid_wordGroup 2)).seq hquote
  have hquote' := carries_skip_seq solid_stringQuote rfl rfl hname
  have hopenParen := carries_skip_seq (solid_char (u := openParen) rfl rfl) rfl rfl hquote'
  exact (carries_of_solid solid_kindRe).seq hopenParen

theorem stuck_tableRe : Stuck period isSpace tableRe :=
  stuck_seq_of_solid solid_kindRe nullable_kindRe _

/-- The tables are the same with and without the breaks. -/
theorem matchAll_broken (l : ChainLayout) :
    matchAll tableRe l.broken = (tablesOf l.text).map fillPlace :=
  matchAll_fill rfl carries_tableRe stuck_tableRe l.fits

theorem matchAll_plain (l : ChainLayout) :
    matchAll tableRe l.plain = (tablesOf l.text).map (Place.map Prod.snd) :=
  matchAll_comap Prod.snd tableRe l.text

/-! ## What is read of a broken line -/

/-- A line that starts with a dot defines no column. -/
theorem readLine_of_dot {table file line : JsString} (h : line.head? = some period) :
    readLine table file line = none := by
  obtain ⟨rest, rfl⟩ := List.head?_eq_some_iff.mp h
  have hnone : exec columnRe (period :: rest) = none := by
    refine (exec_start _ _).trans (List.head?_eq_none_iff.mpr ?_)
    exact run_eq_nil_of_first rfl rfl rfl
  rw [readLine, matchColumn, hnone]
  rfl

/-- What is read of a text, line by line. -/
def readLines (table file s : JsString) : List Column :=
  (s.splitOn lineFeed).filterMap (readColumn table file)

theorem filterMap_splitLines (table file s : JsString) :
    (splitLines s).filterMap (readColumn table file) = readLines table file s := by
  have hread : readColumn table file = readLine table file ∘ trim := rfl
  rw [readLines, hread, ← List.filterMap_map, map_trim_splitLines, List.filterMap_map]

section Lines

variable (table file : JsString)

theorem readLines_append (u v : JsString) : readLines table file (u ++ lineFeed :: v) =
    readLines table file u ++ readLines table file v := by
  rw [readLines, List.splitOn_append_cons_self, List.filterMap_append]
  rfl

theorem readLines_of_notMem {s : JsString} (h : lineFeed ∉ s) :
    readLines table file s = (readColumn table file s).toList := by
  rw [readLines, List.splitOn_eq_singleton h]
  cases hread : readColumn table file s <;> simp [hread]

theorem head?_trimStart_append {x : JsString} {u : U16} (h : (trimStart x).head? = some u)
    (y : JsString) : (trimStart (x ++ y)).head? = some u := by
  have hne : x.dropWhile isSpace ≠ [] := by
    intro hnil
    rw [trimStart, hnil] at h
    cases h
  rw [trimStart, List.dropWhile_append, if_neg fun hempty ↦ hne (List.isEmpty_iff.mp hempty),
    List.head?_append_of_ne_nil _ hne]
  exact h

theorem readColumn_of_dot {x : JsString} (h : (trimStart x).head? = some period) :
    readColumn table file x = none := by
  obtain ⟨y, hy⟩ := List.head?_eq_some_iff.mp h
  obtain ⟨t, ht⟩ : trimEnd [period] <+: trimEnd (period :: y) := trim_isPrefix_append [period] y
  refine readLine_of_dot ?_
  rw [trim, hy, ← ht]
  rfl

/-- A break ends a line, and if nothing is read of what starts with a dot, then nothing is
read behind the break. -/
theorem readLines_break {g : JsString} (hg : isBreak g = true) {line : List (JsString × U16)}
    (hline : ∀ y, lineFeed ∉ y → (trimStart y).head? = some period →
      readLines table file (y ++ fill line) = []) {x : JsString} (hx : lineFeed ∉ x) :
    readLines table file (x ++ (g ++ period :: fill line)) = (readColumn table file x).toList := by
  obtain ⟨pre, indent, rfl, hpre, hindent⟩ := isBreak_iff.mp hg
  have hfirst : lineFeed ∉ x ++ pre := by
    refine fun hmem ↦ (List.mem_append.mp hmem).elim hx ?_
    rcases hpre with rfl | rfl <;> decide
  have htrim : trimEnd pre = [] := by
    rcases hpre with rfl | rfl <;> rfl
  have hread : readColumn table file (x ++ pre) = readColumn table file x :=
    congrArg (readLine table file) (trim_congr (trimEnd_append_of_nil x htrim))
  have hrest : readLines table file ((indent ++ [period]) ++ fill line) = [] := by
    refine hline _ ?_ ?_
    · exact fun hmem ↦ (List.mem_append.mp hmem).elim (fun h ↦ (hindent _ h).2 rfl) (by decide)
    · rw [trimStart, List.dropWhile_append_of_pos fun v hv ↦ (hindent v hv).1]
      rfl
  have hassoc : x ++ ((pre ++ lineFeed :: indent) ++ period :: fill line) =
      (x ++ pre) ++ lineFeed :: ((indent ++ [period]) ++ fill line) := by
    simp
  rw [hassoc, readLines_append, readLines_of_notMem table file hfirst, hread, hrest,
    List.append_nil]

theorem notMem_concat {x : JsString} {u v : U16} (hx : v ∉ x) (hu : u ≠ v) : v ∉ x ++ [u] :=
  fun hmem ↦ (List.mem_append.mp hmem).elim hx fun h ↦ hu (List.mem_singleton.mp h).symm

/-- Nothing is read of a line that starts with a dot, nor of what is behind its breaks. -/
theorem readLines_of_dot {line : List (JsString × U16)} (hlf : ∀ e ∈ line, e.2 ≠ lineFeed)
    (hbreaks : BreaksDots line) {x : JsString}
    (hx : lineFeed ∉ x) (hdot : (trimStart x).head? = some period) :
    readLines table file (x ++ fill line) = [] := by
  induction line generalizing x with
  | nil =>
      have hnil : fill ([] : List (JsString × U16)) = [] := rfl
      rw [hnil, List.append_nil, readLines_of_notMem table file hx,
        readColumn_of_dot table file hdot]
      rfl
  | cons e line ih =>
      obtain ⟨g, u⟩ := e
      obtain ⟨hu, hlf'⟩ := List.forall_mem_cons.mp hlf
      obtain ⟨hbreak, hbreaks'⟩ := List.forall_mem_cons.mp hbreaks
      rw [fill_cons]
      by_cases hg : g = []
      · rw [hg, List.nil_append, List.append_cons]
        exact ih hlf' hbreaks' (notMem_concat hx hu) (head?_trimStart_append hdot [u])
      · obtain ⟨rfl, hg⟩ := hbreak hg
        rw [readLines_break table file hg (fun y ↦ ih hlf' hbreaks') hx,
          readColumn_of_dot table file hdot]
        rfl

/-- Of a line that is broken, what is in front of the first break is read. -/
theorem readLines_line {line : List (JsString × U16)} (hlf : ∀ e ∈ line, e.2 ≠ lineFeed)
    (hbreaks : BreaksDots line) {x : JsString} (hx : lineFeed ∉ x) :
    readLines table file (x ++ fill line) =
      (readColumn table file (x ++ firstPart line)).toList := by
  induction line generalizing x with
  | nil =>
      have hnil : fill ([] : List (JsString × U16)) = firstPart [] := rfl
      rw [hnil, readLines_of_notMem table file]
      rwa [firstPart, List.takeWhile_nil, List.map_nil, List.append_nil]
  | cons e line ih =>
      obtain ⟨g, u⟩ := e
      obtain ⟨hu, hlf'⟩ := List.forall_mem_cons.mp hlf
      obtain ⟨hbreak, hbreaks'⟩ := List.forall_mem_cons.mp hbreaks
      rw [fill_cons]
      by_cases hg : g = []
      · rw [hg, List.nil_append, firstPart_cons_of_nil, List.append_cons,
          List.append_cons x u (firstPart line)]
        exact ih hlf' hbreaks' (notMem_concat hx hu)
      · rw [firstPart_cons_of_break hg, List.append_nil]
        obtain ⟨rfl, hg⟩ := hbreak hg
        exact readLines_break table file hg (fun y ↦ readLines_of_dot table file hlf' hbreaks') hx

/-- Of a text that is broken, the part of each line in front of its first break is read. -/
theorem readLines_fill {text : List (JsString × U16)}
    (hbreaks : BreaksDots text) :
    readLines table file (fill text) =
      (sourceLines text).filterMap fun line ↦ readColumn table file (firstPart line) := by
  suffices hall : ∀ line : List (JsString × U16), (∀ e ∈ line, e.2 ≠ lineFeed) →
      BreaksDots line →
      readLines table file (fill (line ++ text)) =
        (sourceLines (line ++ text)).filterMap fun line ↦
          readColumn table file (firstPart line) from
    hall [] (fun e he ↦ absurd he List.not_mem_nil) fun e he ↦ absurd he List.not_mem_nil
  have hone : ∀ line : List (JsString × U16), (∀ e ∈ line, e.2 ≠ lineFeed) →
      BreaksDots line →
      readLines table file (fill line) =
        (sourceLines line).filterMap fun line ↦ readColumn table file (firstPart line) := by
    intro line hlf hline
    have hread := readLines_line table file hlf hline (x := []) List.not_mem_nil
    rw [sourceLines, List.splitOnP_eq_singleton fun e he ↦ beq_eq_false_iff_ne.mpr (hlf e he)]
    rw [List.nil_append, List.nil_append] at hread
    rw [hread]
    cases hcol : readColumn table file (firstPart line) <;> simp [hcol]
  induction text with
  | nil =>
      intro line hlf hline
      rw [List.append_nil]
      exact hone line hlf hline
  | cons e text ih =>
      obtain ⟨hbreak, hbreaks'⟩ := List.forall_mem_cons.mp hbreaks
      intro line hlf hline
      obtain ⟨g, u⟩ := e
      by_cases hu : u = lineFeed
      · subst hu
        have hg : g = [] := by
          by_contra hne
          have hperiod : lineFeed = period := (hbreak hne).1
          exact absurd hperiod (by decide)
        subst hg
        have hfill : fill (line ++ ([], lineFeed) :: text) =
            fill line ++ lineFeed :: fill text := by
          rw [fill_append, fill_cons, List.nil_append]
        have hlines : sourceLines (line ++ ([], lineFeed) :: text) =
            sourceLines line ++ sourceLines text :=
          List.splitOnP_append_cons line text (BEq.refl lineFeed)
        rw [hfill, hlines, readLines_append, List.filterMap_append, hone line hlf hline]
        exact congrArg _ (ih hbreaks' [] (fun e he ↦ absurd he List.not_mem_nil)
          fun e he ↦ absurd he List.not_mem_nil)
      · rw [List.append_cons]
        refine ih hbreaks' (line ++ [(g, u)]) ?_ ?_
        · exact List.forall_mem_append.mpr ⟨hlf, List.forall_mem_singleton.mpr hu⟩
        · exact List.forall_mem_append.mpr ⟨hline, List.forall_mem_singleton.mpr hbreak⟩

theorem sourceLines_map (text : List (JsString × U16)) :
    (whole text).splitOn lineFeed = (sourceLines text).map whole := by
  induction text with
  | nil => rfl
  | cons e text ih =>
      have hcons : whole (e :: text) = e.2 :: whole text := rfl
      rw [hcons, List.splitOn_cons_eq_if_modifyHead, sourceLines,
        List.splitOnP_cons_eq_if_modifyHead, ih]
      split
      · rfl
      · rw [sourceLines]
        obtain ⟨line, lines, hsplit⟩ := List.exists_cons_of_ne_nil
          (List.splitOnP_ne_nil (fun e : JsString × U16 ↦ e.2 == lineFeed) text)
        rw [hsplit]
        rfl

/-- Of a text on whole lines, each line is read. -/
theorem readLines_whole (text : List (JsString × U16)) : readLines table file (whole text) =
    (sourceLines text).filterMap fun line ↦ readColumn table file (whole line) := by
  rw [readLines, sourceLines_map, List.filterMap_map]
  rfl

end Lines

/-! ## What is lost of a broken line -/

theorem exists_trim_firstPart (line : List (JsString × U16)) :
    ∃ y, trim (whole line) = trim (firstPart line) ++ y := by
  have hwhole : whole line = firstPart line ++ whole (line.dropWhile fun e ↦ e.1.isEmpty) := by
    rw [firstPart, whole, whole, ← List.map_append, List.takeWhile_append_dropWhile]
  obtain ⟨y, hy⟩ := trim_isPrefix_append (firstPart line)
    (whole (line.dropWhile fun e ↦ e.1.isEmpty))
  exact ⟨y, by rw [hwhole, hy]⟩

theorem exec_columnRe (line : JsString) :
    exec columnRe line = (run columnRe ⟨[], line, []⟩).head? := by
  have hstart : ∀ r : Regex U16, run (Regex.seq start r) ⟨[], line, []⟩ = run r ⟨[], line, []⟩ :=
    fun r ↦ List.flatMap_singleton _ _
  exact (exec_start _ _).trans (congrArg List.head? (hstart _).symm)

theorem quiet_columnRe (y : JsString) : quiet y columnRe := by
  simp [columnRe, seqAll, quiet, wordGroup, spaces, char, stringQuote, builderRe, optionsRe, plus,
    opt, quiet_word]

theorem quiet_verbatim (y : JsString) (s : String) : quiet y (verbatim s) :=
  forall_seqAll_map (P := quiet y) trivial (fun _ _ hr ht ↦ ⟨hr, ht⟩) fun _ _ ↦ trivial

/-- The name and the builder are read from the first part. -/
theorem matchColumn_firstPart {line : List (JsString × U16)} (h : headKept line = true) :
    matchColumn (trim (firstPart line)) = matchColumn (trim (whole line)) := by
  obtain ⟨y, hy⟩ := exists_trim_firstPart line
  have hrun : (run columnRe ⟨[], trim (whole line), []⟩).filter (Place.within y) =
      (run columnRe ⟨[], trim (firstPart line), []⟩).map (Place.extend y) := by
    rw [hy]
    exact filter_run_extend (quiet_columnRe y) ⟨[], trim (firstPart line), []⟩
  rw [headKept, exec_columnRe] at h
  rw [matchColumn, matchColumn, exec_columnRe, exec_columnRe]
  cases hms : run columnRe ⟨[], trim (whole line), []⟩ with
  | nil =>
      rw [hms, List.filter_nil] at hrun
      rw [List.map_eq_nil_iff.mp hrun.symm]
  | cons m ms =>
      -- the preferred match ends in front of the break, so it is the preferred one there
      have hmem : m ∈ run columnRe ⟨[], trim (whole line), []⟩ := by
        rw [hms]
        exact List.mem_cons_self
      obtain ⟨u, ⟨hafter, hbefore⟩, -⟩ := exists_consumed hmem
      rw [hms, List.head?_cons, Option.all_some, List.isPrefixOf_iff_prefix] at h
      have hu : u <+: trim (firstPart line) := by
        rw [hbefore] at h
        simpa using h
      have hwithin : m.within y = true := by
        have hlen := congrArg List.length hafter
        have hle := hu.length_le
        rw [hy, List.length_append, List.length_append] at hlen
        exact decide_eq_true (by omega)
      rw [hms, List.filter_cons_of_pos hwithin] at hrun
      obtain ⟨m', ms', hms', rfl, -⟩ := List.map_eq_cons_iff.mp hrun.symm
      rw [hms']
      rfl

/-- What is found on the first part is found on the line. -/
theorem test_of_firstPart {line : List (JsString × U16)} {s : String}
    (h : test (verbatim s) (trim (firstPart line)) = true) :
    test (verbatim s) (trim (whole line)) = true := by
  obtain ⟨y, hy⟩ := exists_trim_firstPart line
  rw [hy]
  exact test_append (quiet_verbatim y s) h

/-- If the line declares an identifier, then what makes it a key or unique is in front of its
first break. -/
def KeepsModifiers (line : List (JsString × U16)) : Prop :=
  ∀ col, matchColumn (trim (whole line)) = some col →
    isIdentifier col.propName (trim (whole line)) = true →
      (test primaryKeyRe (trim (whole line)) = true →
        test primaryKeyRe (trim (firstPart line)) = true) ∧
      (test uniqueRe (trim (whole line)) = true → test uniqueRe (trim (firstPart line)) = true)

section Line

variable {table file : JsString} {line : List (JsString × U16)}

theorem isSome_readColumn_whole (h : headKept line = true)
    (hsome : (readColumn table file (firstPart line)).isSome) :
    (readColumn table file (whole line)).isSome := by
  obtain ⟨c, hc⟩ := Option.isSome_iff_exists.mp hsome
  obtain ⟨col, hcol, hid, -⟩ := readLine_eq_some_iff.mp hc
  refine Option.isSome_of_eq_some (readLine_eq_some_iff.mpr ⟨col, ?_, ?_, rfl⟩)
  · exact (matchColumn_firstPart h).symm.trans hcol
  · exact (Bool.or_eq_true_iff.mp hid).elim
      (fun hpk ↦ Bool.or_eq_true_iff.mpr (.inl (test_of_firstPart hpk)))
      fun hname ↦ Bool.or_eq_true_iff.mpr (.inr hname)

theorem readColumn_firstPart_iff (h : headKept line = true) :
    readColumn table file (firstPart line) = readColumn table file (whole line) ↔
      KeepsModifiers line := by
  have hhead := matchColumn_firstPart h
  constructor
  · intro heq col hcol hid
    have hwhole : readColumn table file (whole line) =
        some (columnOf table file (trim (whole line)) col) :=
      readLine_eq_some_iff.mpr ⟨col, hcol, hid, rfl⟩
    obtain ⟨col', hcol', -, hc⟩ := readLine_eq_some_iff.mp (heq.trans hwhole)
    have hpk : test primaryKeyRe (trim (firstPart line)) =
        test primaryKeyRe (trim (whole line)) := congrArg Column.pk hc
    have hunique : test uniqueRe (trim (firstPart line)) = test uniqueRe (trim (whole line)) :=
      congrArg Column.unique hc
    exact ⟨fun ht ↦ hpk.trans ht, fun ht ↦ hunique.trans ht⟩
  · intro hkeeps
    rw [readColumn, readColumn, readLine, readLine, hhead]
    cases hcol : matchColumn (trim (whole line)) with
    | none => rfl
    | some col =>
        have hpk : ∀ ht : test primaryKeyRe (trim (whole line)) = true →
            test primaryKeyRe (trim (firstPart line)) = true,
            test primaryKeyRe (trim (firstPart line)) = test primaryKeyRe (trim (whole line)) :=
          fun ht ↦ Bool.eq_iff_iff.mpr ⟨test_of_firstPart, ht⟩
        cases hid : isIdentifier col.propName (trim (whole line)) with
        | true =>
            obtain ⟨hkey, hkeepsUnique⟩ := hkeeps col hcol hid
            have hunique : test uniqueRe (trim (firstPart line)) =
                test uniqueRe (trim (whole line)) :=
              Bool.eq_iff_iff.mpr ⟨test_of_firstPart, hkeepsUnique⟩
            have hid' : isIdentifier col.propName (trim (firstPart line)) = true := by
              rw [isIdentifier, hpk hkey]
              exact hid
            simp only [hid, hid', Bool.not_true, Bool.false_eq_true, if_false, columnOf, hpk hkey,
              hunique]
        | false =>
            obtain ⟨hkey, hname⟩ := Bool.or_eq_false_iff.mp hid
            have hid' : isIdentifier col.propName (trim (firstPart line)) = false := by
              rw [isIdentifier, hpk fun ht ↦ absurd ht (Bool.eq_false_iff.mp hkey)]
              exact hid
            simp only [hid, hid', Bool.not_false, if_true]

end Line

end Rivid.Check.Drizzle
