import Rivid.Check.Prisma

/-!
# The columns of a Drizzle schema

`extractDrizzleTs` looks for calls of `pgTable` and its siblings, splits the object between
the braces of each into lines, and reads a line as the definition of a column.  What
modifies the column is looked for on the same line.
-/

namespace Rivid.Check.Drizzle

open Regex

/-! ## Patterns -/

/-- The quotes around a name, without regard to which goes with which. -/
def isStringQuote (u : U16) : Bool := u == 0x22 || u == 0x27 || u == 0x60

def stringQuote : Regex U16 := set isStringQuote

/-- The table pattern up to the opening brace. -/
def headingParts : List (Regex U16) :=
  [group 1 (alt (verbatim "pgTable") (alt (verbatim "mysqlTable") (verbatim "sqliteTable"))),
    spaces, char openParen, spaces, stringQuote, wordGroup 2, stringQuote, spaces, char comma,
    spaces, char openBrace]

/-- `([\s\S]*?)\n\s*\}`. -/
def bodyParts : List (Regex U16) :=
  [group 3 (star false (set fun _ ↦ true)), char lineFeed, spaces, char closeBrace]

def tableRe : Regex U16 := seqAll (headingParts ++ bodyParts)

/-- `(uuid|char|varchar|text|bytea)`. -/
def builderRe : Regex U16 :=
  alt (word "uuid") (alt (word "char") (alt (word "varchar") (alt (word "text") (word "bytea"))))

/-- `\s*,\s*(\{[^}]*\})`. -/
def optionsRe : Regex U16 :=
  seqAll [spaces, char comma, spaces,
    group 4 (seqAll [char openBrace, star true (set (· != closeBrace)), char closeBrace])]

/-- The name of a property, and a builder with the name of the column and perhaps options. -/
def columnRe : Regex U16 :=
  seqAll [start, wordGroup 1, spaces, char colon, spaces, group 2 builderRe, spaces,
    char openParen, spaces, stringQuote, wordGroup 3, stringQuote, opt optionsRe, spaces,
    char closeParen]

def isDigit (u : U16) : Bool := 0x30 ≤ u && u ≤ 0x39

/-- `length\s*:\s*(\d+)`. -/
def lengthRe : Regex U16 :=
  seqAll [verbatim "length", spaces, char colon, spaces, group 1 (plus (set isDigit))]

def primaryKeyRe : Regex U16 := verbatim ".primaryKey()"

def uniqueRe : Regex U16 := verbatim ".unique()"

/-! ## Extraction -/

/-- The number that digits denote.  Up to 2⁵³ `Number` gives the same; no rule looks at
a width. -/
def number (digits : JsString) : ℕ := digits.foldl (fun n u ↦ 10 * n + (u.toNat - 0x30)) 0

def readLength (opts : JsString) : Option ℕ :=
  (exec lengthRe opts).map fun len ↦ number ((len.group 1).getD [])

/-- The representation and the width of a column.  The `i` flag is not on the comparisons. -/
def columnType (fn opts : JsString) : JsString × Option ℕ :=
  if fn = literal "uuid" then (literal "uuid", some 16)
  else if fn = literal "bytea" then (literal "bytea(16)", some 16)
  else if fn = literal "text" then (literal "text", none)
  else
    let l := readLength opts
    if l = some 26 then
      (if fn = literal "char" then literal "char(26)" else literal "varchar(26)", some 26)
    else if l = some 36 then
      (if fn = literal "char" then literal "char(36)" else literal "varchar(36)", some 36)
    else (fn ++ literal "(?)", l)

/-- What the column pattern finds: the property, the builder, the column and the options. -/
structure Head where
  propName : JsString
  fn : JsString
  colName : JsString
  opts : JsString
deriving DecidableEq, Repr

def matchColumn (line : JsString) : Option Head :=
  (exec columnRe line).map fun col ↦
    { propName := (col.group 1).getD [], fn := (col.group 2).getD []
      colName := (col.group 3).getD [], opts := (col.group 4).getD [] }

/-- The line declares an identifier: by its key or by the name of its property. -/
def isIdentifier (propName line : JsString) : Bool :=
  test primaryKeyRe line || test identifierRe propName

def columnOf (table file line : JsString) (col : Head) : Column :=
  { table, column := col.colName
    rep := (columnType col.fn col.opts).1, width := (columnType col.fn col.opts).2
    pk := test primaryKeyRe line
    unique := test uniqueRe line
    fk := none
    file }

/-- One round of the loop over the lines of a table, after `trim`. -/
def readLine (table file line : JsString) : Option Column :=
  match matchColumn line with
  | none => none
  | some col =>
      if !isIdentifier col.propName line then none else some (columnOf table file line col)

def readColumn (table file rawLine : JsString) : Option Column := readLine table file (trim rawLine)

/-- The columns of one match of the table pattern. -/
def readTable (file : JsString) (m : Place U16) : List Column :=
  (splitLines ((m.group 3).getD [])).filterMap (readColumn ((m.group 2).getD []) file)

def extractDrizzleTs (text file : JsString) : List Column :=
  (matchAll tableRe text).flatMap (readTable file)

/-! ## Identifier columns -/

theorem readLine_eq_some_iff {table file line : JsString} {c : Column} :
    readLine table file line = some c ↔ ∃ col, matchColumn line = some col ∧
      isIdentifier col.propName line = true ∧ columnOf table file line col = c := by
  rw [readLine]
  cases hcol : matchColumn line with
  | none => simp
  | some col => cases hid : isIdentifier col.propName line <;> simp [hid]

/-- No column of a table has a foreign key. -/
theorem fk_of_mem_extractDrizzleTs {text file : JsString} {c : Column}
    (h : c ∈ extractDrizzleTs text file) : c.fk = none := by
  obtain ⟨m, -, hc⟩ := List.mem_flatMap.mp h
  obtain ⟨line, -, hline⟩ := List.mem_filterMap.mp hc
  obtain ⟨col, -, -, rfl⟩ := readLine_eq_some_iff.mp hline
  rfl

end Rivid.Check.Drizzle
