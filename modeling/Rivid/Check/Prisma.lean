import Rivid.Check.Sql

/-!
# The fields of a Prisma schema

`extractPrisma` looks for models, splits the body of each into lines, and reads a line as
the name of a field, its type and its attributes.  A field with `@relation` gets a foreign
key, but of the table it references nothing is kept.
-/

namespace Rivid.Check

open Regex

/-- The text of a pattern without the `i` flag. -/
def verbatim (s : String) : Regex U16 := seqAll ((literal s).map char)

def openBrace : U16 := 0x7b
def closeBrace : U16 := 0x7d

/-- `\w+`, as a group. -/
def wordGroup (n : ℕ) : Regex U16 := group n (plus (set isWordChar))

/-- `\{([^}]*)}`, after the name of a model. -/
def modelRe : Regex U16 :=
  seqAll [lineStart isLineTerminator, spaces, verbatim "model", gap, wordGroup 1, spaces,
    char openBrace, group 2 (star true (set (· != closeBrace))), char closeBrace]

/-- `@db\.(Uuid|Char)`. -/
def dbTypeRe : Regex U16 := seqAll [word "@db.", group 1 (alt (word "uuid") (word "char"))]

/-- The representation and the width of a field. -/
def fieldType (type attrStr : JsString) : Option (JsString × Option ℕ) :=
  if test (word "@db.uuid") attrStr ∨ type = literal "Uuid" then some (literal "uuid", some 16)
  else if test (seqAll [word "@db.", widthRe "26"]) attrStr then some (literal "char(26)", some 26)
  else if test (seqAll [word "@db.", widthRe "36"]) attrStr then some (literal "char(36)", some 36)
  else if type = literal "String" then some (literal "text", none)
  else if type = literal "Bytes" then some (literal "bytea(16)", some 16)
  else if type = literal "BigInt" then some (literal "bigint", some 8)
  else none

/-- A line of a model, cut at the space in it: the name of a field, its type and the rest. -/
def splitField (rawLine : JsString) : Option (JsString × JsString × JsString) :=
  let line := trim rawLine
  if line = [] ∨ literal "//" <+: line ∨ literal "@@" <+: line then none
  else match split gap line with
    | name :: type :: attrs => some (name, type, joinWith [space] attrs)
    | _ => none

/-- `fk`: the table that a relation leads to is not read. -/
def readRelation (name attrStr : JsString) : Option ForeignKey :=
  if test (verbatim "@relation") attrStr then some { table := none, column := name } else none

def fieldOf (table file name attrStr : JsString) (t : JsString × Option ℕ) : Column :=
  { table, column := name, rep := t.1, width := t.2
    pk := test (verbatim "@id") attrStr
    unique := test (verbatim "@unique") attrStr
    fk := readRelation name attrStr
    file }

/-- The field is an identifier: by an attribute or by its name. -/
def isIdField (name attrStr : JsString) : Bool :=
  test (verbatim "@id") attrStr || test identifierRe name

/-- One round of the loop over the lines of a model. -/
def readField (table file rawLine : JsString) : Option Column :=
  match splitField rawLine with
  | none => none
  | some (name, type, attrStr) =>
      if !isIdField name attrStr && !test dbTypeRe attrStr then none
      else (fieldType type attrStr).map (fieldOf table file name attrStr)

/-- The columns of one match of the model pattern. -/
def readModel (file : JsString) (m : Place U16) : List Column :=
  (splitLines ((m.group 2).getD [])).filterMap (readField ((m.group 1).getD []) file)

def extractPrisma (text file : JsString) : List Column :=
  (matchAll modelRe text).flatMap (readModel file)

/-! ## What is kept of a relation -/

theorem readField_eq_some_iff {table file rawLine : JsString} {c : Column} :
    readField table file rawLine = some c ↔
      ∃ name type attrStr t, splitField rawLine = some (name, type, attrStr) ∧
        (isIdField name attrStr = true ∨ test dbTypeRe attrStr = true) ∧
          fieldType type attrStr = some t ∧ fieldOf table file name attrStr t = c := by
  rw [readField]
  cases hline : splitField rawLine with
  | none => simp
  | some field =>
      obtain ⟨name, type, attrStr⟩ := field
      cases hid : isIdField name attrStr with
      | false => cases hdb : test dbTypeRe attrStr <;> simp [hid, hdb]
      | true => simp [hid]

/-- No field of a model references a table. -/
theorem fk_table_of_mem_extractPrisma {text file : JsString} {c : Column}
    (h : c ∈ extractPrisma text file) {fk : ForeignKey} (hfk : c.fk = some fk) :
    fk.table = none := by
  obtain ⟨m, -, hc⟩ := List.mem_flatMap.mp h
  obtain ⟨line, -, hline⟩ := List.mem_filterMap.mp hc
  obtain ⟨name, type, attrStr, t, -, -, -, rfl⟩ := readField_eq_some_iff.mp hline
  change readRelation name attrStr = some fk at hfk
  rw [readRelation] at hfk
  split at hfk
  · cases hfk
    rfl
  · cases hfk

end Rivid.Check
