import Rivid.Check.Analyze
import Rivid.Lib.RegexSearch

/-!
# The columns of an SQL schema

`extractSql` looks for `CREATE TABLE` statements with one regular expression, splits what
is between the parentheses of each with another one, and reads each piece as the
definition of a column, of which it keeps those that look like identifiers.

Each match of the table pattern ends with the first semicolon behind its start, so the
columns of a text are those of its statements, one after the other.
-/

namespace Rivid.Check

open Regex

/-! ## Patterns -/

def comma : U16 := 0x2c
def semicolon : U16 := 0x3b
def openParen : U16 := 0x28
def closeParen : U16 := 0x29

/-- The letter that the `i` flag compares by.  Without the `u` flag, no letter outside ASCII
matches an ASCII letter. -/
def lower (u : U16) : U16 := if 0x41 ≤ u && u ≤ 0x5a then u + 0x20 else u

/-- The text of a pattern under the `i` flag. -/
def word (s : String) : Regex U16 := seqAll ((literal s).map fun c ↦ set fun u ↦ lower u == c)

def char (c : U16) : Regex U16 := set (· == c)

/-- `\s*`. -/
def spaces : Regex U16 := star true (set isSpace)

/-- `\s+`. -/
def gap : Regex U16 := plus (set isSpace)

/-- The quotes around a name: a double quote or a backtick. -/
def isNameQuote (u : U16) : Bool := u == 0x22 || u == 0x60

def nameQuote : Regex U16 := opt (set isNameQuote)

/-- `[\w.]`. -/
def isTableChar (u : U16) : Bool := isWordChar u || u == 0x2e

/-- `\b`. -/
def wordBoundary : Regex U16 := boundary isWordChar

/-- `(?:if\s+not\s+exists\s+)?`. -/
def ifNotExistsRe : Regex U16 :=
  opt (seqAll [word "if", gap, word "not", gap, word "exists", gap])

/-- The table pattern up to the opening parenthesis. -/
def headingParts : List (Regex U16) :=
  [word "create", gap, word "table", gap, ifNotExistsRe, nameQuote,
    group 1 (plus (set isTableChar)), nameQuote, spaces, char openParen]

/-- `([^;]+?)\);`. -/
def bodyParts : List (Regex U16) :=
  [group 2 (lazyPlus (set (· != semicolon))), char closeParen, char semicolon]

def tableRe : Regex U16 := seqAll (headingParts ++ bodyParts)

/-- `[^(]*\)`: the next parenthesis is a closing one. -/
def closingRe : Regex U16 := seqAll [star true (set (· != openParen)), char closeParen]

/-- `\r?\n|\s*,\s*(?![^(]*\))`. -/
def separatorRe : Regex U16 :=
  alt (seqAll [opt (char carriageReturn), char lineFeed])
    (seqAll [spaces, char comma, spaces, notAhead closingRe])

/-- A name, perhaps in quotes, and the rest of the line. -/
def columnRe : Regex U16 :=
  seqAll [start, nameQuote, group 1 (plus (set isWordChar)), nameQuote, gap,
    group 2 (plus (set fun u ↦ !isLineTerminator u)), stop]

/-- `\bprimary\s+key\b`. -/
def primaryKeyRe : Regex U16 :=
  seqAll [wordBoundary, word "primary", gap, word "key", wordBoundary]

/-- `^id$|_id$|_key$`. -/
def identifierRe : Regex U16 :=
  alt (seqAll [start, word "id", stop])
    (alt (seqAll [word "_id", stop]) (seqAll [word "_key", stop]))

def referencesRe : Regex U16 :=
  seqAll [word "references", gap, nameQuote, group 1 (plus (set isTableChar)), nameQuote, spaces,
    char openParen, spaces, nameQuote, group 2 (plus (set isWordChar)), nameQuote, spaces,
    char closeParen]

/-- `\bunique\b`. -/
def uniqueRe : Regex U16 := seqAll [wordBoundary, word "unique", wordBoundary]

/-- What follows `char` in a type with a width. -/
def widthRe (n : String) : Regex U16 :=
  seqAll [word "char", spaces, char openParen, spaces, word n, spaces, char closeParen]

structure SqlType where
  re : Regex U16
  rep : JsString
  width : Option ℕ

def sqlTypes : List SqlType :=
  [{ re := seqAll [wordBoundary, word "uuid", wordBoundary], rep := literal "uuid",
      width := some 16 },
    { re := seqAll [wordBoundary, word "bytea", wordBoundary], rep := literal "bytea(16)",
      width := some 16 },
    { re := seqAll [wordBoundary, widthRe "36"], rep := literal "char(36)", width := some 36 },
    { re := seqAll [opt (word "var"), widthRe "36"], rep := literal "varchar(36)",
      width := some 36 },
    { re := seqAll [wordBoundary, widthRe "26"], rep := literal "char(26)", width := some 26 },
    { re := seqAll [opt (word "var"), widthRe "26"], rep := literal "varchar(26)",
      width := some 26 },
    { re := seqAll [wordBoundary, word "text", wordBoundary], rep := literal "text",
      width := none },
    { re := alt (seqAll [wordBoundary, word "bigint", wordBoundary])
        (seqAll [wordBoundary, word "bigserial", wordBoundary]),
      rep := literal "bigint", width := some 8 }]

/-! ## Extraction -/

/-- The name and the rest of a line.  Both groups take part in a match. -/
def matchColumn (line : JsString) : Option (JsString × JsString) :=
  (exec columnRe line).map fun col ↦ ((col.group 1).getD [], (col.group 2).getD [])

/-- The line declares an identifier: by its key or by its name. -/
def isIdentifier (name rest : JsString) : Bool := test primaryKeyRe rest || test identifierRe name

def readReferences (rest : JsString) : Option ForeignKey :=
  (exec referencesRe rest).map fun fk ↦ { table := fk.group 1, column := (fk.group 2).getD [] }

/-- The first type of the list that is found in the text. -/
def readType (rest : JsString) : Option SqlType := sqlTypes.find? fun t ↦ test t.re rest

def columnOf (table file name rest : JsString) (type : SqlType) : Column :=
  { table, column := name, rep := type.rep, width := type.width
    pk := test primaryKeyRe rest
    unique := test uniqueRe rest
    fk := readReferences rest
    file }

/-- One round of the loop over the pieces of a table's body. -/
def readColumn (table file rawLine : JsString) : Option Column :=
  let line := trim rawLine
  if line = [] ∨ literal "--" <+: line then none
  else match matchColumn line with
    | none => none
    | some (name, rest) =>
        if !isIdentifier name rest then none
        else (readType rest).map (columnOf table file name rest)

/-- The columns of one match of the table pattern. -/
def readTable (file : JsString) (m : Place U16) : List Column :=
  (split separatorRe ((m.group 2).getD [])).filterMap (readColumn ((m.group 1).getD []) file)

def extractSql (text file : JsString) : List Column :=
  (matchAll tableRe text).flatMap (readTable file)

/-! ## Statements one after the other -/

theorem forward_word (s : String) : forward (word s) :=
  forall_seqAll_map (P := forward) trivial (fun _ _ hr ht ↦ ⟨hr, ht⟩) fun _ _ ↦ trivial

theorem quiet_word {y : JsString} (s : String) : quiet y (word s) :=
  forall_seqAll_map (P := quiet y) trivial (fun _ _ hr ht ↦ ⟨hr, ht⟩) fun _ _ ↦ trivial

theorem avoids_word {c : U16} {s : String} (h : (literal s).contains (lower c) = false) :
    avoids c (word s) ∧ guarded c (word s) := by
  refine forall_seqAll_map (P := fun r ↦ avoids c r ∧ guarded c r) ⟨trivial, trivial⟩
    (fun r t hr ht ↦ ⟨⟨hr.1, ht.1⟩, hr.1, hr.2, ht.2⟩) fun e he ↦ ?_
  refine ⟨beq_eq_false_iff_ne.mpr fun hce ↦ ?_, trivial⟩
  rw [List.contains_eq_mem, decide_eq_false_iff_not] at h
  exact h (hce ▸ he)

theorem forward_tableRe : forward tableRe := by
  simp [tableRe, headingParts, bodyParts, seqAll, forward, gap, spaces, nameQuote, ifNotExistsRe,
    plus, lazyPlus, opt, char, forward_word]

theorem avoids_semicolon : ∀ r ∈ headingParts, avoids semicolon r ∧ guarded semicolon r := by
  have hcreate := avoids_word (c := semicolon) (s := "create") (by decide)
  have htable := avoids_word (c := semicolon) (s := "table") (by decide)
  have hif := avoids_word (c := semicolon) (s := "if") (by decide)
  have hnot := avoids_word (c := semicolon) (s := "not") (by decide)
  have hexists := avoids_word (c := semicolon) (s := "exists") (by decide)
  have hspace : isSpace semicolon = false := rfl
  have hquote : isNameQuote semicolon = false := rfl
  have htable' : isTableChar semicolon = false := rfl
  have hopen : (semicolon == openParen) = false := rfl
  simp [headingParts, avoids, guarded, seqAll, gap, spaces, nameQuote, ifNotExistsRe, plus, opt,
    char, *]

/-- A match of the table pattern ends with a closing parenthesis and the first semicolon. -/
theorem endsIn_tableRe : EndsIn semicolon [closeParen, semicolon] tableRe := by
  refine seqAll_append (P := avoids semicolon) headingParts bodyParts (fun r t ↦ EndsIn.seq)
    (List.cons_ne_nil _ _) ?_
    fun r hr ↦ (avoids_semicolon r hr).1
  refine EndsIn.seq (by simp [avoids, lazyPlus]) fun s s' hs' ↦ ⟨[], List.not_mem_nil, ?_⟩
  obtain ⟨m, hm, hs'⟩ := List.mem_flatMap.mp hs'
  obtain ⟨c, rest, hs, hc, rfl⟩ := mem_run_set_iff.mp hm
  obtain ⟨e, rest', hrest, he, rfl⟩ := mem_run_set_iff.mp hs'
  obtain rfl := eq_of_beq hc
  obtain rfl := eq_of_beq he
  rw [hs]
  exact congrArg (closeParen :: ·) hrest

theorem guarded_tableRe : guarded semicolon tableRe := by
  have hclose : (semicolon == closeParen) = false := rfl
  refine seqAll_append (P := fun r ↦ avoids semicolon r ∧ guarded semicolon r) headingParts
    bodyParts (fun r t hr ht ↦ ⟨hr.1, hr.2, ht⟩) (List.cons_ne_nil _ _) ?_ avoids_semicolon
  simp [bodyParts, seqAll, guarded, avoids, lazyPlus, char, hclose]

theorem matchAll_tableRe_append {u : JsString} (hu : u = [] ∨ u.getLast? = some semicolon)
    (v : JsString) : matchAll tableRe (u ++ v) = (matchAll tableRe u).map (Place.extend v) ++
      (matchAll tableRe v).map (Place.prepend u.reverse) :=
  matchAll_append (endsIn_tableRe.of_append (e := [closeParen]) (by decide)) guarded_tableRe
    forward_tableRe hu v

/-- The columns of a text that ends with a semicolon come before those of the text behind it. -/
theorem extractSql_append {u : JsString} (hu : u = [] ∨ u.getLast? = some semicolon)
    (v file : JsString) : extractSql (u ++ v) file = extractSql u file ++ extractSql v file := by
  have hextend : (matchAll tableRe u).flatMap (fun m ↦ readTable file (m.extend v)) =
      extractSql u file := rfl
  have hprepend : (matchAll tableRe v).flatMap (fun m ↦ readTable file (m.prepend u.reverse)) =
      extractSql v file := rfl
  rw [extractSql, matchAll_tableRe_append hu, List.flatMap_append, List.flatMap_map,
    List.flatMap_map, hextend, hprepend]

/-- In a text with one semicolon, at its end, each match goes up to the end. -/
theorem ends_of_mem_matchAll {x : JsString} (hx : semicolon ∉ x) {m : Place U16}
    (hm : m ∈ matchAll tableRe (x ++ [semicolon])) :
    m.after = [] ∧ x.getLast? = some closeParen := by
  obtain ⟨u, v, htext, hrun⟩ := mem_matchAll hm
  obtain ⟨w, -, hv⟩ := endsIn_tableRe _ _ hrun
  have heq : x ++ semicolon :: [] = (u ++ w ++ [closeParen]) ++ semicolon :: m.after := by
    rw [htext, show v = w ++ ([closeParen, semicolon] ++ m.after) from hv]
    simp
  obtain ⟨rfl, -, hafter⟩ := (List.append_cons_inj_of_notMem hx List.not_mem_nil).mp heq
  exact ⟨hafter.symm, List.getLast?_concat⟩

/-! ## Identifier columns -/

theorem readColumn_eq_some_iff {table file item : JsString} {c : Column} :
    readColumn table file item = some c ↔ trim item ≠ [] ∧ ¬ literal "--" <+: trim item ∧
      ∃ name rest type, matchColumn (trim item) = some (name, rest) ∧
        isIdentifier name rest = true ∧ readType rest = some type ∧
          columnOf table file name rest type = c := by
  rw [readColumn]
  by_cases hskip : trim item = [] ∨ literal "--" <+: trim item
  · rw [if_pos hskip]
    exact iff_of_false (fun h ↦ by cases h) fun ⟨hne, hcomment, _⟩ ↦ hskip.elim hne hcomment
  · rw [if_neg hskip]
    obtain ⟨hne, hcomment⟩ := not_or.mp hskip
    cases hline : matchColumn (trim item) with
    | none => simp
    | some line =>
        obtain ⟨name, rest⟩ := line
        cases hid : isIdentifier name rest with
        | false => simp [hid]
        | true => simp [hid, hne, hcomment]

/-- A piece of a table's body that the extraction makes a column of. -/
structure DeclaresIdentifier (item : JsString) : Prop where
  ne : trim item ≠ []
  not_comment : ¬ literal "--" <+: trim item
  reads : ∃ name rest, matchColumn (trim item) = some (name, rest) ∧
    isIdentifier name rest = true ∧ ∃ type ∈ sqlTypes, test type.re rest = true

theorem readColumn_eq_none_iff {table file item : JsString} :
    readColumn table file item = none ↔ ¬ DeclaresIdentifier item := by
  rw [← not_iff_not, not_not, ← ne_eq, Option.ne_none_iff_exists']
  constructor
  · rintro ⟨c, hc⟩
    obtain ⟨hne, hcomment, name, rest, type, hline, hid, htype, -⟩ := readColumn_eq_some_iff.mp hc
    have hfound := List.find?_some (p := fun t : SqlType ↦ test t.re rest) htype
    exact ⟨hne, hcomment, name, rest, hline, hid, type, List.mem_of_find?_eq_some htype, hfound⟩
  · rintro ⟨hne, hcomment, name, rest, hline, hid, htype⟩
    obtain ⟨type, htype⟩ := Option.isSome_iff_exists.mp (List.find?_isSome.mpr htype)
    exact ⟨_, readColumn_eq_some_iff.mpr ⟨hne, hcomment, name, rest, type, hline, hid, htype, rfl⟩⟩

theorem readTable_eq_nil_iff {file : JsString} {m : Place U16} : readTable file m = [] ↔
    ∀ item ∈ split separatorRe ((m.group 2).getD []), ¬ DeclaresIdentifier item := by
  rw [readTable, List.filterMap_eq_nil_iff]
  exact forall₂_congr fun item _ ↦ readColumn_eq_none_iff

end Rivid.Check
