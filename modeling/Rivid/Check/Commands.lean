import Rivid.Check.OutputLines

/-!
# Commands in the output

Names out of schemas are written into the report as they are, but a table's or column's name has
no white space in it, so no text of a schema breaks a line or starts one.  As long as the names of
the files do not break a line either, and there is no `#` in the names, the lines of the standard
output that are read as commands are those that `runCheck` means as such
(`commands_of_printCheck`).

On the standard error there is none if the message of the exception about the policy, which may
quote the policy's text, stays on its line.
-/

namespace Rivid.Check

/-! ## What is printed -/

theorem clean_histogramLine {e : JsString × ℕ} (h : Clean e.1) : Clean (histogramLine e) := by
  have hpad : Clean (padStart 3 (indexKey e.2)) := by
    refine Clean.append (fun u hu ↦ ?_) (clean_indexKey _)
    rw [List.eq_of_mem_replicate hu]
    exact ⟨rfl, by decide⟩
  have hindent : Clean (literal "  ") := clean_literal rfl
  have htimes : Clean (literal " × ") := clean_literal rfl
  unfold histogramLine
  exact ((hindent.append hpad).append htimes).append h

theorem plain_histogramLine (e : JsString × ℕ) : Plain (histogramLine e) := by
  have hindent : literal "  " = List.replicate 2 space := rfl
  rw [histogramLine, padStart, hindent, List.append_assoc, List.append_assoc, List.append_assoc]
  exact ((((plain_indexKey e.2).append _).indent _).indent 2)

theorem clean_identifiersLine (identifiers scanned : ℕ) :
    Clean (identifiersLine identifiers scanned) := by
  have hcheck : Clean (literal "✓ ") := clean_literal rfl
  have hacross : Clean (literal " identifiers analyzed across ") := clean_literal rfl
  have hfiles : Clean (literal " files") := clean_literal rfl
  unfold identifiersLine
  exact (((hcheck.append (clean_indexKey _)).append hacross).append (clean_indexKey _)).append
    hfiles

theorem plain_identifiersLine (identifiers scanned : ℕ) :
    Plain (identifiersLine identifiers scanned) := by
  have hcheck : literal "✓ " = [0x2713, space] := rfl
  unfold identifiersLine
  rw [hcheck]
  have hplain : Plain [0x2713, space] := plain_cons rfl _
  exact (((hplain.append _).append _).append _).append _

/-- The texts of a finding: none breaks a line, and the detail starts with a letter. -/
structure Finding.Readable (f : Finding) : Prop where
  message : Clean f.message
  detail : Clean f.detail
  plain : Plain f.detail
  file : ∀ file, f.file = some file → Clean file

section Findings

variable {f : Finding}

theorem Finding.clean_icon (f : Finding) : Clean f.icon := by
  rw [Finding.icon]
  split
  · exact clean_literal rfl
  · exact clean_literal rfl

theorem Finding.clean_lines (h : f.Readable) : ∀ line ∈ f.lines, Clean line := by
  have hspace : Clean (literal " ") := clean_literal rfl
  have hat : Clean (literal "    at ") := clean_literal rfl
  have hindent : Clean (literal "    ") := clean_literal rfl
  intro line hline
  rcases List.mem_cons.mp hline with rfl | hline
  · exact (f.clean_icon.append hspace).append h.message
  · rcases List.mem_append.mp hline with hline | hline
    · obtain ⟨file, hfile, rfl⟩ := Option.map_eq_some_iff.mp (Option.mem_toList.mp hline)
      exact hat.append (h.file file hfile)
    · obtain rfl := List.mem_singleton.mp hline
      exact hindent.append h.detail

theorem Finding.plain_icon (f : Finding) : Plain f.icon := by
  rw [Finding.icon]
  split
  · exact plain_cons rfl _
  · exact plain_cons rfl _

theorem Finding.plain_lines (h : f.Readable) : ∀ line ∈ f.lines, Plain line := by
  have hindent : literal "    " = List.replicate 4 space := rfl
  have hat : Plain (literal "    at ") := ⟨4, 0x61, [0x74, space], rfl, rfl⟩
  intro line hline
  rcases List.mem_cons.mp hline with rfl | hline
  · exact (f.plain_icon.append _).append _
  · rcases List.mem_append.mp hline with hline | hline
    · obtain ⟨file, -, rfl⟩ := Option.map_eq_some_iff.mp (Option.mem_toList.mp hline)
      exact hat.append file
    · obtain rfl := List.mem_singleton.mp hline
      rw [hindent]
      exact h.plain.indent 4

theorem Rule.clean_text (r : Rule) : Clean r.text := by
  cases r <;> exact clean_literal rfl

theorem Finding.clean_command (h : f.Readable) : Clean f.command := by
  have hcolons : Clean (literal "::") := clean_literal rfl
  have hcmd : Clean (if f.severity = .error then literal "error" else literal "warning") := by
    split
    · exact clean_literal rfl
    · exact clean_literal rfl
  have hspace : Clean (literal " ") := clean_literal rfl
  have hfile : Clean
      ((f.file.map fun file ↦ literal "file=" ++ file ++ literal ",").getD []) := by
    have hname : Clean (literal "file=") := clean_literal rfl
    have hcomma : Clean (literal ",") := clean_literal rfl
    cases hf : f.file with
    | none => exact List.forall_mem_nil _
    | some file => exact (hname.append (h.file file hf)).append hcomma
  have htitle : Clean (literal "title=rivid check (") := clean_literal rfl
  have hclose : Clean (literal ")::") := clean_literal rfl
  unfold Finding.command
  exact ((((((hcolons.append hcmd).append hspace).append hfile).append htitle).append
    f.rule.clean_text).append hclose).append h.message

theorem Finding.isCommand_command (rn : Runner) (f : Finding) :
    rn.isCommand f.command = true := by
  have h := rn.annotation (if f.severity = .error then literal "error" else literal "warning")
    (by split <;> simp) ((f.file.map fun file ↦ literal "file=" ++ file ++ literal ",").getD [] ++
      literal "title=rivid check (" ++ f.rule.text ++ literal ")") f.message
  have hclose : literal ")::" = literal ")" ++ literal "::" := rfl
  rw [Finding.command, hclose]
  simpa only [List.append_assoc] using h

end Findings

/-! ## The texts of the findings -/

theorem IsType.clean {rep : JsString} {width : Option ℕ} (h : IsType rep width) :
    Clean rep := by
  cases h with
  | known h =>
      simp only [knownTypes, List.mem_cons, Prod.mk.injEq, List.not_mem_nil, or_false] at h
      rcases h with ⟨rfl, -⟩ | ⟨rfl, -⟩ | ⟨rfl, -⟩ | ⟨rfl, -⟩ | ⟨rfl, -⟩ | ⟨rfl, -⟩ | ⟨rfl, -⟩ |
        ⟨rfl, -⟩ <;> exact clean_literal rfl
  | @other fn _ h _ =>
      have hbuilders : ∀ b ∈ builders, b.all isWordChar = true := by decide
      refine Clean.append (clean_of_isWordChar fun u hu ↦ ?_) (clean_literal rfl)
      have hword := List.all_eq_true.mp (hbuilders _ h) _ (List.mem_map_of_mem hu)
      rwa [isWordChar_lower] at hword

/-- What the findings are written from: no column breaks a line. -/
structure Column.Readable (c : Column) : Prop where
  table : Clean c.table
  column : Clean c.column
  rep : Clean c.rep
  file : Clean c.file

theorem Column.WellFormed.readable {c : Column} (h : c.WellFormed) (hhash : hash ∉ c.column)
    (hfile : Clean c.file) : c.Readable where
  table := clean_of_isTableChar h.table.2
  column := clean_of_isSpace h.column.2 hhash
  rep := h.type.clean
  file := hfile

theorem Column.Readable.key {c : Column} (h : c.Readable) : Clean (key c.table c.column) := by
  have hdot : Clean (literal ".") := clean_literal rfl
  exact (h.table.append hdot).append h.column

theorem Column.Readable.bucket {c : Column} (h : c.Readable) : Clean (bucket c.rep) := by
  unfold Check.bucket
  split
  · exact clean_literal rfl
  · split
    · exact clean_literal rfl
    · exact h.rep

theorem Column.Readable.of_mem_file {c : Column} (h : c.Readable) {f : Finding}
    (hf : f.column = some c) {file : JsString} (hfile : f.file = some file) : Clean file := by
  rw [Finding.file, hf] at hfile
  obtain ⟨hfile, -⟩ := Option.filter_eq_some_iff.mp hfile
  obtain rfl := Option.some.inj hfile
  exact h.file

section Analysis

variable {toLowerCase : JsString → JsString} {cols : List Column} {policy : Config} {c : Column}
  {f : Finding}

/-- The text of a rule on one column. -/
theorem prose_detail (h : f ∈ columnFindings toLowerCase policy c) :
    Clean f.detail ∧ Plain f.detail := by
  simp only [columnFindings, List.mem_append] at h
  rcases h with (h | h) | h
  · split at h
    · obtain rfl := List.mem_singleton.mp h
      dsimp only
      split
      · exact prose_literal (by decide +kernel)
      · exact prose_literal (by decide +kernel)
    · cases h
  · split at h
    · obtain rfl := List.mem_singleton.mp h
      exact prose_literal (by decide +kernel)
    · cases h
  · split at h
    · obtain rfl := List.mem_singleton.mp h
      exact prose_literal (by decide +kernel)
    · cases h

theorem clean_message (hc : c.Readable) (h : f ∈ columnFindings toLowerCase policy c) :
    Clean f.message := by
  have hfound : ∀ s : String, s.toList.any spoilsLine = false →
      Clean (key c.table c.column ++ literal s ++ c.rep) :=
    fun _ hs ↦ (hc.key.append (clean_literal hs)).append hc.rep
  simp only [columnFindings, List.mem_append] at h
  rcases h with (h | h) | h
  · split at h
    · obtain rfl := List.mem_singleton.mp h
      exact hfound _ rfl
    · cases h
  · split at h
    · obtain rfl := List.mem_singleton.mp h
      exact hc.key.append (clean_literal rfl)
    · cases h
  · split at h
    · obtain rfl := List.mem_singleton.mp h
      exact hfound _ rfl
    · cases h

theorem readable_of_mem_columnFindings (hc : c.Readable)
    (h : f ∈ columnFindings toLowerCase policy c) : f.Readable where
  message := clean_message hc h
  detail := (prose_detail h).1
  plain := (prose_detail h).2
  file _ := hc.of_mem_file (of_mem_columnFindings h).1

theorem readable_fkMismatch {target : Column} (hc : c.Readable) (htarget : target.Readable) :
    (fkMismatch c target).Readable := by
  have hcolon : Clean (literal ": ") := clean_literal rfl
  have hreferences : Clean (literal " references ") := clean_literal rfl
  obtain ⟨hdetail, hplain⟩ := prose_literal
    (s := "foreign key and referenced key should share one representation") (by decide +kernel)
  refine ⟨?_, hdetail, hplain, fun _ ↦ hc.of_mem_file rfl⟩
  unfold fkMismatch
  exact (((((hc.key.append hcolon).append hc.rep).append hreferences).append htarget.key).append
    hcolon).append htarget.rep

/-- A table with its bucket comes from a primary key. -/
theorem exists_of_mem_pkReps {table rep : JsString}
    (h : (table, rep) ∈ (pkReps toLowerCase cols policy).entries) :
    ∃ c ∈ cols, c.table = table ∧ bucket c.rep = rep := by
  rw [OrderedMap.mem_entries_iff, get?_pkReps, Option.map_eq_some_iff] at h
  obtain ⟨c, hc, hrep⟩ := h
  obtain ⟨hmem, htable⟩ := lastWhere_spec hc
  exact ⟨c, hmem, of_decide_eq_true (Bool.and_eq_true_iff.mp htable).2, hrep⟩

theorem readable_pkDrift {entries : List (JsString × JsString)}
    (h : ∀ e ∈ entries, Clean e.1 ∧ Clean e.2) :
    (pkDrift entries (entries.map Prod.snd).eraseDups).Readable := by
  have hand : Clean (literal " and ") := clean_literal rfl
  have hmix : Clean (literal "primary keys mix ") := clean_literal rfl
  have hacross : Clean (literal " across tables") := clean_literal rfl
  obtain ⟨heg, hplain⟩ := prose_literal (s := "e.g. ") rfl
  have hcolon : Clean (literal ": ") := clean_literal rfl
  have hcomma : Clean (literal ", ") := clean_literal rfl
  have hpick : Clean (literal " — pick one representation or declare intent in .rivid.yml") :=
    clean_literal (by decide +kernel)
  refine ⟨?_, ?_, (hplain.append _).append _, fun _ hfile ↦ by cases hfile⟩
  · refine (hmix.append (hand.joinWith fun rep hrep ↦ ?_)).append hacross
    rw [List.mem_eraseDups] at hrep
    obtain ⟨e, he, rfl⟩ := List.mem_map.mp hrep
    exact (h e he).2
  · refine (heg.append (hcomma.joinWith fun offender hoff ↦ ?_)).append hpick
    obtain ⟨e, he, rfl⟩ := List.mem_map.mp hoff
    obtain ⟨htable, hrep⟩ := h e (List.mem_of_mem_filter he)
    exact (htable.append hcolon).append hrep

theorem readable_of_mem_driftRule (hcols : ∀ c ∈ cols, c.Readable)
    (h : f ∈ driftRule toLowerCase cols policy) : f.Readable := by
  rw [driftRule] at h
  split at h
  · dsimp only at h
    split at h
    · obtain rfl := List.mem_singleton.mp h
      refine readable_pkDrift fun e he ↦ ?_
      obtain ⟨c, hc, htable, hrep⟩ := exists_of_mem_pkReps he
      exact ⟨htable ▸ (hcols c hc).table, hrep ▸ (hcols c hc).bucket⟩
    · cases h
  · cases h

/-- No finding on readable columns breaks a line. -/
theorem readable_of_mem_findings (hcols : ∀ c ∈ cols, c.Readable)
    (h : f ∈ (analyze toLowerCase cols policy).findings) : f.Readable := by
  rw [analyze, List.mem_append, List.mem_append] at h
  rcases h with (h | h) | h
  · obtain ⟨c, hc, -, hmem⟩ := mem_columnRules_iff.mp h
    exact readable_of_mem_columnFindings (hcols c hc) hmem
  · obtain ⟨c, hc, hsome⟩ := mem_fkRule_iff.mp h
    obtain ⟨fk, target, -, -, htarget, -, -, rfl⟩ := fkFinding_eq_some_iff.mp hsome
    obtain ⟨table, -, -, hlast⟩ := lookupTarget_eq_some_iff.mp htarget
    exact readable_fkMismatch (hcols c hc) (hcols target (lastWhere_spec hlast).1)
  · exact readable_of_mem_driftRule hcols h

end Analysis

/-! ## The whole output -/

section Output

variable {toLength : Heap → Value → Except Thrown ℕ}
  {readJson : JsString → Option (Except Thrown Config)} {toLowerCase : JsString → JsString}
  {fs : FileSystem} {n : ℕ} {root : JsString} {strict githubActions : Bool}

/-- The policy is called by its name, wherever it is. -/
theorem policyLine_policyPath {path : JsString} (h : policyPath fs root = some path) :
    ∃ name ∈ [literal ".rivid.yml", literal ".rivid.yaml", literal ".rivid.json"],
      policyLine fs root path = literal "policy: " ++ name := by
  obtain ⟨name, hname, rfl⟩ := Option.map_eq_some_iff.mp h
  have hmem := List.mem_of_find?_eq_some hname
  have hisName : ∀ name ∈ [literal ".rivid.yml", literal ".rivid.yaml", literal ".rivid.json"],
      IsName name := by decide
  have hrelative : relative fs.cwd root (join root name) = name := by
    have hpath : relative fs.cwd root (path root [name]) = [sep].intercalate [name] :=
      relative_path fs.cwd (List.forall_mem_singleton.mpr (hisName name hmem))
        (List.cons_ne_nil name [])
    rw [List.intercalate_singleton] at hpath
    exact hpath
  refine ⟨name, hmem, ?_⟩
  rw [policyLine, hrelative, if_neg (hisName name hmem).ne]

/-- Where the names of the files do not break a line, no column does. -/
theorem readable_of_mem_cols
    (hfiles : ∀ file ∈ fs.walk n root, unscanned file = false → Clean (relative fs.cwd root file))
    {c : Column} (h : c ∈ (extractAll extractors fs n root).cols) (hhash : hash ∉ c.column) :
    c.Readable := by
  obtain ⟨hwell, file, hfile, hscanned, heq⟩ := wellFormed_of_mem_cols fs n root h
  refine hwell.readable hhash ?_
  rw [heq]
  exact hfiles file hfile hscanned

theorem clean_policyLine {line : JsString}
    (h : (policyPath fs root).map (policyLine fs root) = some line) : Clean line ∧ Plain line := by
  obtain ⟨path, hpath, rfl⟩ := Option.map_eq_some_iff.mp h
  obtain ⟨name, hname, heq⟩ := policyLine_policyPath hpath
  have hpolicy : Clean (literal "policy: ") := clean_literal rfl
  have hplain : Plain (literal "policy: ") := plain_literal rfl
  have hnames : ∀ name ∈ [literal ".rivid.yml", literal ".rivid.yaml", literal ".rivid.json"],
      Clean name := by
    simp only [List.forall_mem_cons]
    exact ⟨clean_literal rfl, clean_literal rfl, clean_literal rfl, List.forall_mem_nil _⟩
  rw [heq]
  exact ⟨hpolicy.append (hnames name hname), hplain.append name⟩

/-- The lines of a report are lines, and none is a command. -/
theorem reportLines_spec (rn : Runner) {policy : Option JsString} {cols : List Column}
    {config : Config} (scanned : ℕ)
    (hpolicy : ∀ line, policy = some line → Clean line ∧ Plain line)
    (hcols : ∀ c ∈ cols, c.Readable) {line : JsString}
    (h : line ∈ reportLines policy scanned (analyze toLowerCase cols config)) :
    Clean line ∧ rn.isCommand line = false := by
  have hplain : ∀ line, Clean line → Plain line → Clean line ∧ rn.isCommand line = false :=
    fun line hline hplain ↦ ⟨hline, rn.plain line (.inr hplain) hline.hash_notMem⟩
  rw [reportLines, List.mem_append, List.mem_append, List.mem_append] at h
  rcases h with ((h | h) | h) | h
  · obtain ⟨hline, hfirst⟩ := hpolicy line (Option.mem_toList.mp h)
    exact hplain _ hline hfirst
  · obtain rfl := List.mem_singleton.mp h
    exact hplain _ (clean_identifiersLine _ _) (plain_identifiersLine _ _)
  · obtain ⟨e, he, rfl⟩ := List.mem_map.mp h
    obtain ⟨c, hc, hrep⟩ := exists_of_mem_histogram he
    have hrep : Clean e.1 := hrep ▸ (hcols c hc).rep
    exact hplain _ (clean_histogramLine hrep) (plain_histogramLine e)
  · split at h
    · obtain rfl := List.mem_singleton.mp h
      exact hplain _ (clean_literal rfl) (plain_cons rfl _)
    · rcases List.mem_cons.mp h with rfl | h
      · exact ⟨List.forall_mem_nil _, rn.plain [] (.inl rfl) List.not_mem_nil⟩
      · obtain ⟨f, hf, hline⟩ := List.mem_flatMap.mp h
        have hread := readable_of_mem_findings hcols hf
        exact hplain _ (Finding.clean_lines hread line hline)
          (Finding.plain_lines hread line hline)

theorem commands_annotated (rn : Runner) {lines : List JsString} {findings : List Finding}
    (hlines : ∀ line ∈ lines, Clean line ∧ rn.isCommand line = false)
    (hfindings : ∀ f ∈ findings, f.Readable) (annotate : Bool) :
    rn.commands (printed (lines ++ if annotate then findings.map Finding.command else [])) =
      if annotate then findings.map Finding.command else [] := by
  have hcommand : ∀ line ∈ findings.map Finding.command,
      Clean line ∧ rn.isCommand line = true := by
    intro line hline
    obtain ⟨f, hf, rfl⟩ := List.mem_map.mp hline
    exact ⟨Finding.clean_command (hfindings f hf), f.isCommand_command rn⟩
  have hnone : lines.filter rn.isCommand = [] := List.filter_eq_nil_iff.mpr fun line hline ↦ by
    rw [(hlines line hline).2]
    exact Bool.false_ne_true
  have hall : (findings.map Finding.command).filter rn.isCommand = findings.map Finding.command :=
    List.filter_eq_self.mpr fun line hline ↦ (hcommand line hline).2
  cases annotate with
  | false =>
      rw [if_neg Bool.false_ne_true, List.append_nil,
        commands_printed rn fun line hline ↦ (hlines line hline).1]
      exact hnone
  | true =>
      rw [if_pos rfl, commands_printed rn fun line hline ↦ ?_, List.filter_append, hnone, hall]
      · rfl
      · rcases List.mem_append.mp hline with hline | hline
        · exact (hlines line hline).1
        · exact (hcommand line hline).1

/-- What is printed to the standard error is one line that is no command. -/
theorem commands_error (rn : Runner) {start : String} (hstart : isProse start.toList = true)
    {message : JsString} (h : Clean message) :
    rn.commands (printed [literal start ++ message]) = [] := by
  obtain ⟨hclean, hplain⟩ := prose_literal hstart
  have hline : Clean (literal start ++ message) := hclean.append h
  rw [commands_printed rn (List.forall_mem_singleton.mpr hline), List.filter_singleton,
    rn.plain _ (.inr (hplain.append message)) hline.hash_notMem]
  rfl

/-- Only findings are commands in the output, and all of them on GitHub. -/
theorem commands_of_printCheck (rn : Runner)
    (hfiles : ∀ file ∈ fs.walk n root, unscanned file = false → Clean (relative fs.cwd root file))
    (hcolumns : ∀ c ∈ (extractAll extractors fs n root).cols, hash ∉ c.column)
    (herror : loadPolicy toLength readJson fs root = none →
      Clean (policyError errorMessage fs root))
    (hroot : fs.existsSync root = false → Clean root)
    {p : Printed} (h : printCheck toLength readJson errorMessage extractors toLowerCase fs n root
      strict githubActions = .ok p) :
    ∃ o, runCheck toLength readJson extractors toLowerCase fs n root strict = .ok o ∧
      p.exitCode = o.exitCode ∧
      rn.commands (printed p.lines) =
        (if githubActions then o.findings.map Finding.command else []) ∧
      rn.commands (printed p.errors) = [] := by
  have hnothing : rn.commands (printed []) = [] := commands_printed rn (List.forall_mem_nil _)
  rw [printCheck] at h
  rw [runCheck]
  cases hload : loadPolicy toLength readJson fs root with
  | none =>
      rw [hload] at h
      cases h
      refine ⟨⟨[], 2⟩, rfl, rfl, ?_, commands_error rn rfl (herror hload)⟩
      rw [List.map_nil, ite_self]
      exact hnothing
  | some policy =>
      rw [hload] at h
      dsimp only at h ⊢
      by_cases hexists : fs.existsSync root = true
      · rw [if_pos hexists] at h ⊢
        cases policy with
        | error e => cases h
        | ok config =>
            cases h
            have hcols : ∀ c ∈ (extractAll extractors fs n root).cols, c.Readable :=
              fun c hc ↦ readable_of_mem_cols hfiles hc (hcolumns c hc)
            refine ⟨_, rfl, rfl, commands_annotated rn (fun line hline ↦ ?_) (fun f hf ↦ ?_) _,
              hnothing⟩
            · exact reportLines_spec rn _ (fun line ↦ clean_policyLine) hcols hline
            · exact readable_of_mem_findings hcols hf
      · rw [if_neg hexists] at h ⊢
        cases h
        refine ⟨⟨[], 2⟩, rfl, rfl, ?_,
          commands_error rn rfl (hroot (Bool.eq_false_iff.mpr hexists))⟩
        rw [List.map_nil, ite_self]
        exact hnothing

end Output

/-! ## A runner -/

/-- `s.includes(text)`. -/
def isIn (text s : JsString) : Bool := s.tails.any text.isPrefixOf

theorem isIn_of_append (before text after : JsString) : isIn text (before ++ (text ++ after)) := by
  refine List.any_eq_true.mpr ⟨text ++ after, (List.mem_tails _ _).mpr ⟨before, rfl⟩, ?_⟩
  rw [List.isPrefixOf_iff_prefix]
  exact List.prefix_append text after

theorem isIn_eq_false {text s : JsString} {u : U16} (hu : u ∈ text) (hs : u ∉ s) :
    isIn text s = false := by
  refine List.any_eq_false.mpr fun t ht hprefix ↦ hs ?_
  have hmem := (List.isPrefixOf_iff_prefix.mp hprefix).subset hu
  exact ((List.mem_tails _ _).mp ht).subset hmem

/-- A command starts with two colons and has two more behind its name and parameters, or it is
`##[command]`. -/
def actionsRunner : Runner where
  breaks u := u == lineFeed || u == carriageReturn
  isCommand line :=
    (literal "::").isPrefixOf (trimStart line) && isIn (literal "::") ((trimStart line).drop 2) ||
      isIn (literal "##[") line
  breaks_lineFeed := rfl
  breaks_ok u h := by rw [isLineTerminator, h, Bool.true_or, Bool.true_or]
  annotation cmd _ parameters message := by
    have hcolons : literal "::" = [colon, colon] := rfl
    have hline : literal "::" ++ cmd ++ literal " " ++ parameters ++ literal "::" ++ message =
        colon :: colon :: ((cmd ++ literal " " ++ parameters) ++ (literal "::" ++ message)) := by
      simp [hcolons]
    rw [hline, trimStart, List.dropWhile_cons_of_neg (by decide)]
    refine Bool.or_eq_true_iff.mpr (.inl (Bool.and_eq_true_iff.mpr ⟨rfl, ?_⟩))
    exact isIn_of_append _ _ _
  plain line hline hhash := by
    have hold : isIn (literal "##[") line = false := isIn_eq_false List.mem_cons_self hhash
    rw [hold, Bool.or_false]
    rcases hline with rfl | ⟨n, u, t, rfl, hu⟩
    · rfl
    · obtain ⟨hspace, hcolon⟩ := startsLine_ne hu
      rw [trimStart, List.dropWhile_append_of_pos fun v hv ↦ by
        rw [List.eq_of_mem_replicate hv]; rfl, List.dropWhile_cons_of_neg (by rw [hspace]; decide)]
      have hfirst : (literal "::").isPrefixOf (u :: t) = false := by
        have hne : (colon == u) = false := beq_eq_false_iff_ne.mpr (Ne.symm hcolon)
        change (colon == u && _) = false
        rw [hne, Bool.false_and]
      rw [hfirst, Bool.false_and]

theorem commands_of_printCheck_textSchema : ∃ p o,
    printCheck (fun _ _ ↦ .ok 0) (fun _ ↦ none) (fun _ _ ↦ []) extractors asciiLowerCase
      textSchema 3 (literal ".") true true = .ok p ∧
    runCheck (fun _ _ ↦ .ok 0) (fun _ ↦ none) extractors asciiLowerCase textSchema 3 (literal ".")
      true = .ok o ∧
    p.exitCode = o.exitCode ∧
    actionsRunner.commands (printed p.lines) = o.findings.map Finding.command ∧
    actionsRunner.commands (printed p.errors) = [] := by
  have hwalk : textSchema.walk 3 (literal ".") = [literal "db/schema.sql"] := by decide
  have hfiles : ∀ file ∈ textSchema.walk 3 (literal "."), unscanned file = false →
      Clean (relative textSchema.cwd (literal ".") file) := by
    intro file hfile _
    rw [hwalk] at hfile
    obtain rfl := List.mem_singleton.mp hfile
    have hrelative : relative textSchema.cwd (literal ".") (literal "db/schema.sql") =
        literal "db/schema.sql" := by decide
    rw [hrelative]
    exact clean_literal rfl
  have hcols : ((extractAll extractors textSchema 3 (literal ".")).cols.all fun c ↦
      !c.column.contains hash) = true := by rfl
  have hcolumns : ∀ c ∈ (extractAll extractors textSchema 3 (literal ".")).cols,
      hash ∉ c.column := fun c hc hmem ↦ by
    have hclean := List.all_eq_true.mp hcols c hc
    rw [List.contains_iff_mem.mpr hmem] at hclean
    cases hclean
  have hprint : ∃ p, printCheck (fun _ _ ↦ .ok 0) (fun _ ↦ none) (fun _ _ ↦ []) extractors
      asciiLowerCase textSchema 3 (literal ".") true true = .ok p := ⟨_, rfl⟩
  obtain ⟨p, hp⟩ := hprint
  obtain ⟨o, ho, hcode, hcommands⟩ := commands_of_printCheck actionsRunner hfiles hcolumns
    (fun h ↦ by cases h) (fun h ↦ by cases h) hp
  exact ⟨p, o, hp, ho, hcode, hcommands⟩

end Rivid.Check
