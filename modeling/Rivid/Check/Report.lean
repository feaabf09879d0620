import Rivid.Check.WellFormed
import Rivid.Lib.Tally

/-!
# The printed report

`runCheck` prints the number of identifiers, how many columns have which representation,
and each finding with its file, and on GitHub once more each finding as a command of the
form `::error file=…::…`.  What keeps it from checking anything it prints to the standard
error: a policy that cannot be read, with the message of the exception, or a path that is
not there.  This is the output without `--json`.
-/

namespace Rivid.Check

/-! ## Texts -/

def Rule.text : Rule → JsString
  | .uuidAsText => literal "uuid-as-text"
  | .unboundedTextId => literal "unbounded-text-id"
  | .ulidAsUuid => literal "ulid-as-uuid"
  | .fkMismatch => literal "fk-mismatch"
  | .pkDrift => literal "pk-drift"

/-- `padStart`, with spaces. -/
def padStart (n : ℕ) (s : JsString) : JsString := List.replicate (n - s.length) space ++ s

/-- A property name that is an array index: `Object.entries` lists these first. -/
def isIndex (key : JsString) : Bool :=
  !key.isEmpty && key.all Drizzle.isDigit && (key.length == 1 || key.head? != some 0x30) &&
    decide (Drizzle.number key < 2 ^ 32 - 1)

/-- `Object.entries`: the indices in ascending order, and the other names as they were set. -/
def objectEntries {α : Type} (m : OrderedMap JsString α) : List (JsString × α) :=
  (m.entries.filter fun e ↦ isIndex e.1).mergeSort
      (fun a b ↦ decide (Drizzle.number a.1 ≤ Drizzle.number b.1)) ++
    m.entries.filter fun e ↦ !isIndex e.1

/-- `.sort((a, b) => b[1] - a[1])`, which is stable. -/
def histogram (byRep : OrderedMap JsString ℕ) : List (JsString × ℕ) :=
  (objectEntries byRep).mergeSort fun a b ↦ decide (b.2 ≤ a.2)

def histogramLine (e : JsString × ℕ) : JsString :=
  literal "  " ++ padStart 3 (indexKey e.2) ++ literal " × " ++ e.1

/-- `f.column?.file`, if it is not empty. -/
def Finding.file (f : Finding) : Option JsString :=
  (f.column.map Column.file).filter fun file ↦ !file.isEmpty

def Finding.icon (f : Finding) : JsString :=
  if f.severity = .error then literal "✗" else literal "⚠"

def Finding.lines (f : Finding) : List JsString :=
  (f.icon ++ literal " " ++ f.message) ::
    ((f.file.map fun file ↦ literal "    at " ++ file).toList ++ [literal "    " ++ f.detail])

/-- The finding as a command of GitHub Actions. -/
def Finding.command (f : Finding) : JsString :=
  let cmd := if f.severity = .error then literal "error" else literal "warning"
  let file := (f.file.map fun file ↦ literal "file=" ++ file ++ literal ",").getD []
  literal "::" ++ cmd ++ literal " " ++ file ++ literal "title=rivid check (" ++ f.rule.text ++
    literal ")::" ++ f.message

/-- The path of the policy that `loadPolicy` reads. -/
def policyPath (fs : FileSystem) (root : JsString) : Option JsString :=
  ([literal ".rivid.yml", literal ".rivid.yaml", literal ".rivid.json"].find? fun name ↦
    fs.existsSync (join root name)).map (join root)

/-- `policy: ${relative(scanRoot, policyPath) || policyPath}`. -/
def policyLine (fs : FileSystem) (root path : JsString) : JsString :=
  let rel := relative fs.cwd root path
  literal "policy: " ++ if rel = [] then path else rel

def identifiersLine (identifiers scanned : ℕ) : JsString :=
  literal "✓ " ++ indexKey identifiers ++ literal " identifiers analyzed across " ++
    indexKey scanned ++ literal " files"

/-- The report, line by line. -/
def reportLines (policy : Option JsString) (scanned : ℕ) (report : Report) : List JsString :=
  policy.toList ++ [identifiersLine report.summary.identifiers scanned] ++
    (histogram report.summary.byRep).map histogramLine ++
    if report.findings = [] then [literal "✓ no inconsistencies found"]
    else [] :: report.findings.flatMap Finding.lines

/-- What is printed to the standard output and to the standard error, line by line, and the exit
code. -/
structure Printed where
  lines : List JsString
  errors : List JsString
  exitCode : ℕ
deriving DecidableEq, Repr

/-- `console.log` and `console.error` end a line. -/
def printed (lines : List JsString) : JsString := lines.flatMap fun line ↦ line ++ [lineFeed]

section

variable (toLength : Heap → Value → Except Thrown ℕ)
  (readJson : JsString → Option (Except Thrown Config))
  (errorMessage : JsString → Option JsString → JsString)

/-- The `error` of `loadPolicy` when it has one.  `errorMessage` is the message of what is thrown
where a path cannot be read, or where its text is no JSON. -/
def policyError (fs : FileSystem) (root : JsString) : JsString :=
  match [literal ".rivid.yml", literal ".rivid.yaml", literal ".rivid.json"].find? fun name ↦
      fs.existsSync (join root name) with
  | none => []
  | some name =>
      let p := join root name
      literal "failed to parse " ++ name ++ literal ": " ++ errorMessage p (fs.readFileSync p)

/-- `runCheck` without `--json`; `githubActions` is whether `GITHUB_ACTIONS` is `true`. -/
def printCheck (x : Extractors) (toLowerCase : JsString → JsString) (fs : FileSystem) (n : ℕ)
    (scanRoot : JsString) (strict githubActions : Bool) : Except Thrown Printed :=
  match loadPolicy toLength readJson fs scanRoot with
  | none => .ok ⟨[], [literal "rivid check: " ++ policyError errorMessage fs scanRoot], 2⟩
  | some policy =>
      if fs.existsSync scanRoot then do
        let config ← policy
        let e := extractAll x fs n scanRoot
        let report := analyze toLowerCase e.cols config
        let lines :=
          reportLines ((policyPath fs scanRoot).map (policyLine fs scanRoot)) e.scanned report
        let annotations := if githubActions then report.findings.map Finding.command else []
        return ⟨lines ++ annotations, [], report.exitCode strict⟩
      else .ok ⟨[], [literal "rivid check: path not found: " ++ scanRoot], 2⟩

end

/-! ## The histogram -/

theorem countByRep_eq (cols : List Column) :
    countByRep cols = OrderedMap.tally (cols.map Column.rep) := by
  rw [countByRep, OrderedMap.tally, List.foldl_map]

theorem objectEntries_eq {α : Type} {m : OrderedMap JsString α}
    (h : ∀ e ∈ m.entries, isIndex e.1 = false) : objectEntries m = m.entries := by
  have hnone : (m.entries.filter fun e ↦ isIndex e.1) = [] :=
    List.filter_eq_nil_iff.mpr fun e he ↦ by rw [h e he]; exact Bool.false_ne_true
  have hall : (m.entries.filter fun e ↦ !isIndex e.1) = m.entries :=
    List.filter_eq_self.mpr fun e he ↦ by rw [h e he]; rfl
  rw [objectEntries, hnone, hall, List.mergeSort_nil]
  rfl

/-- The name of a representation is no index. -/
theorem IsType.isIndex_eq {rep : JsString} {width : Option ℕ} (h : IsType rep width) :
    isIndex rep = false := by
  have hdigits : ∀ s : JsString, s.all Drizzle.isDigit = false → isIndex s = false := by
    intro s hs
    rw [isIndex, hs, Bool.and_false]
    rfl
  refine hdigits rep ?_
  cases h with
  | known h =>
      simp only [knownTypes, List.mem_cons, Prod.mk.injEq, List.not_mem_nil, or_false] at h
      rcases h with ⟨rfl, -⟩ | ⟨rfl, -⟩ | ⟨rfl, -⟩ | ⟨rfl, -⟩ | ⟨rfl, -⟩ | ⟨rfl, -⟩ | ⟨rfl, -⟩ |
        ⟨rfl, -⟩ <;> rfl
  | @other fn _ _ _ =>
      have hmark : (literal "(?)").all Drizzle.isDigit = false := rfl
      rw [List.all_append, hmark, Bool.and_false]

/-- What is printed counts every column once. -/
theorem isHistogram_histogram {cols : List Column} (h : ∀ c ∈ cols, isIndex c.rep = false) :
    OrderedMap.IsHistogram (cols.map Column.rep) (histogram (countByRep cols)) := by
  rw [histogram, countByRep_eq, objectEntries_eq fun e he ↦ ?_]
  · exact OrderedMap.isHistogram_mergeSort _
  · obtain ⟨hrep, -⟩ := OrderedMap.mem_entries_tally_iff.mp he
    obtain ⟨c, hc, hrep⟩ := List.mem_map.mp hrep
    rw [← hrep]
    exact h c hc

/-- A representation that is shown is that of a column. -/
theorem exists_of_mem_histogram {cols : List Column} {e : JsString × ℕ}
    (h : e ∈ histogram (countByRep cols)) : ∃ c ∈ cols, c.rep = e.1 := by
  have hmem : e ∈ (OrderedMap.tally (cols.map Column.rep)).entries := by
    rw [histogram, List.mem_mergeSort, objectEntries, List.mem_append, List.mem_mergeSort,
      countByRep_eq] at h
    exact h.elim List.mem_of_mem_filter List.mem_of_mem_filter
  exact List.mem_map.mp (OrderedMap.mem_entries_tally_iff.mp hmem).1

/-- What is printed of any files shows each representation once, with the number of its
columns. -/
theorem histogram_extractAll (fs : FileSystem) (n : ℕ) (root : JsString) :
    let cols := (extractAll extractors fs n root).cols
    OrderedMap.IsHistogram (cols.map Column.rep) (histogram (countByRep cols)) :=
  isHistogram_histogram fun _ hc ↦ (wellFormed_of_mem_cols fs n root hc).1.type.isIndex_eq

end Rivid.Check
