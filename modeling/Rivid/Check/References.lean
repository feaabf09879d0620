import Rivid.Check.Drizzle
import Rivid.Check.Files

/-!
# References in Prisma and Drizzle schemas

In SQL a column names the table and the column it references, and the extraction keeps
both.  A Drizzle column has them behind `.references(() => …)`, a Prisma model in the
`@relation` of another field.  Here is what such a schema declares, to be compared with what
rule 4 makes of the extracted columns.
-/

namespace Rivid.Check

open Regex

/-! ## The extracted columns -/

def extractors : Extractors := ⟨extractSql, extractPrisma, Drizzle.extractDrizzleTs⟩

/-- A file that is read: its extension, its text and its relative name. -/
structure SchemaFile where
  ext : JsString
  text : JsString
  rel : JsString

def SchemaFile.columns (f : SchemaFile) : List Column := extractors.columns f.ext f.text f.rel

/-- A file whose tables are looked for. -/
def SchemaFile.isDrizzle (f : SchemaFile) : Bool :=
  [literal ".ts", literal ".mts", literal ".tsx"].contains f.ext && usesTable f.text

/-- The files below a directory that are read. -/
def FileSystem.schemaFiles (fs : FileSystem) (n : ℕ) (root : JsString) : List SchemaFile :=
  (fs.walk n root).filterMap fun file ↦
    if unscanned file then none
    else (fs.readFileSync file).map fun text ↦ ⟨extname file, text, relative fs.cwd root file⟩

theorem extractAll_cols (fs : FileSystem) (n : ℕ) (root : JsString) :
    (extractAll extractors fs n root).cols =
      (fs.schemaFiles n root).flatMap SchemaFile.columns := by
  have hfold : ∀ (files : List JsString) (e : Extraction),
      (files.foldl (extractFile extractors fs root) e).cols = e.cols ++
        (files.filterMap fun file ↦
          if unscanned file then none
          else (fs.readFileSync file).map fun text ↦
            SchemaFile.mk (extname file) text (relative fs.cwd root file)).flatMap
          SchemaFile.columns := by
    intro files
    induction files with
    | nil => exact fun e ↦ (List.append_nil _).symm
    | cons file files ih =>
        intro e
        rw [List.foldl_cons, ih, extractFile, List.filterMap_cons]
        by_cases hskip : unscanned file = true
        · simp [hskip]
        · cases htext : fs.readFileSync file with
          | none => simp [hskip]
          | some text => simp [hskip, SchemaFile.columns]
  exact hfold _ ⟨[], 0⟩

/-! ## What a schema declares -/

namespace Drizzle

/-- `.references(() => table.prop)`. -/
def referencesRe : Regex U16 :=
  seqAll [verbatim ".references", spaces, char openParen, spaces, char openParen, spaces,
    char closeParen, spaces, verbatim "=>", spaces, wordGroup 1, spaces, char period, spaces,
    wordGroup 2]

/-- The variable a table is bound to, and the table. -/
def declarationRe : Regex U16 :=
  seqAll ([verbatim "const", gap, wordGroup 4, spaces, verbatim "=", spaces] ++ headingParts ++
    bodyParts)

/-- The lines of a table that columns are read from. -/
def lines (f : SchemaFile) (m : Place U16) : List (JsString × Column) :=
  (splitLines ((m.group 3).getD [])).filterMap fun rawLine ↦
    (readColumn ((m.group 2).getD []) f.rel rawLine).map fun c ↦ (trim rawLine, c)

/-- The columns with `.references` on their line, with the variable and the property. -/
def references (f : SchemaFile) : List (Column × JsString × JsString) :=
  (matchAll tableRe f.text).flatMap fun m ↦
    (lines f m).filterMap fun (line, c) ↦
      (exec referencesRe line).map fun ref ↦
        (c, (ref.group 1).getD [], (ref.group 2).getD [])

/-- The columns that can be referenced, by variable and property. -/
def targets (f : SchemaFile) : List ((JsString × JsString) × Column) :=
  (matchAll declarationRe f.text).flatMap fun m ↦
    (lines f m).filterMap fun (line, c) ↦
      (matchColumn line).map fun col ↦ (((m.group 4).getD [], col.propName), c)

end Drizzle

namespace Prisma

/-- `@relation(fields: [field], references: [field])`. -/
def relationRe : Regex U16 :=
  seqAll [verbatim "@relation(", spaces, verbatim "fields:", spaces, verbatim "[", wordGroup 1,
    verbatim "]", spaces, char comma, spaces, verbatim "references:", spaces, verbatim "[",
    wordGroup 2, verbatim "]"]

/-- The relations of a model: the field here, the other model and the field there. -/
def relations (m : Place U16) : List (JsString × JsString × JsString) :=
  (splitLines ((m.group 2).getD [])).filterMap fun rawLine ↦
    match splitField rawLine with
    | none => none
    | some (_, type, attrStr) =>
        (exec relationRe attrStr).map fun ref ↦
          ((ref.group 1).getD [], type.takeWhile isWordChar, (ref.group 2).getD [])

/-- The columns in the fields of a relation, with the other model and the field there. -/
def references (f : SchemaFile) : List (Column × JsString × JsString) :=
  (matchAll modelRe f.text).flatMap fun m ↦
    (readModel f.rel m).flatMap fun c ↦
      (relations m).filterMap fun (field, ref) ↦ if field = c.column then some (c, ref) else none

def targets (f : SchemaFile) : List ((JsString × JsString) × Column) :=
  (extractPrisma f.text f.rel).map fun c ↦ ((c.table, c.column), c)

end Prisma

/-- The schema declares the column `c` as a reference to the column `t`. -/
inductive DeclaresReference (files : List SchemaFile) (c t : Column) : Prop
  | drizzle {f g : SchemaFile} (hf : f ∈ files) (hg : g ∈ files) (isDrizzle : f.isDrizzle = true)
      (isDrizzle' : g.isDrizzle = true) (mem : t ∈ g.columns) {k : JsString × JsString}
      (source : (c, k) ∈ Drizzle.references f) (target : (k, t) ∈ Drizzle.targets g)
  | prisma {f g : SchemaFile} (hf : f ∈ files) (hg : g ∈ files) (ext : f.ext = literal ".prisma")
      (ext' : g.ext = literal ".prisma") {k : JsString × JsString}
      (source : (c, k) ∈ Prisma.references f) (target : (k, t) ∈ Prisma.targets g)

/-- Two identifier columns that rule 4 is there for. -/
structure Mismatch (files : List SchemaFile) (policy : Config) (c t : Column) : Prop where
  declared : DeclaresReference files c t
  rep_ne : t.rep ≠ c.rep
  not_allowed : allowed policy c = false
  target_not_allowed : allowed policy t = false

/-! ## What is reported -/

theorem SchemaFile.columns_prisma {f : SchemaFile} (h : f.ext = literal ".prisma") :
    f.columns = extractPrisma f.text f.rel := by
  rw [SchemaFile.columns, Extractors.columns, h, if_neg (by decide), if_pos rfl]
  rfl

theorem SchemaFile.columns_drizzle {f : SchemaFile} (h : f.isDrizzle = true) :
    f.columns = Drizzle.extractDrizzleTs f.text f.rel := by
  have hext : f.ext ≠ literal ".sql" ∧ f.ext ≠ literal ".prisma" := by
    constructor <;>
    · intro hext
      rw [SchemaFile.isDrizzle, hext] at h
      exact absurd (Bool.and_eq_true_iff.mp h).1 (by decide)
  rw [SchemaFile.columns, Extractors.columns, if_neg hext.1, if_neg hext.2]
  exact if_pos h

/-- A column outside SQL references no table. -/
theorem SchemaFile.fk_table_of_mem_columns {f : SchemaFile} (hext : f.ext ≠ literal ".sql")
    {c : Column} (hc : c ∈ f.columns) {fk : ForeignKey} (hfk : c.fk = some fk) :
    fk.table = none := by
  rw [SchemaFile.columns, Extractors.columns, if_neg hext] at hc
  split at hc
  · exact fk_table_of_mem_extractPrisma hc hfk
  · split at hc
    · rw [Drizzle.fk_of_mem_extractDrizzleTs hc] at hfk
      cases hfk
    · cases hc

section Reports

variable (toLowerCase : JsString → JsString)

/-- Whatever else is extracted, rule 4 is silent on a column that references no table. -/
theorem fkMismatch_notMem_verdicts {c : Column} (h : ∀ fk, c.fk = some fk → fk.table = none)
    (cols : List Column) (policy : Config) : (Severity.error, Rule.fkMismatch, some c) ∉
      (analyze toLowerCase cols policy).findings.map Finding.verdict := by
  intro hmem
  obtain ⟨-, hsome⟩ := fkMismatch_mem_verdicts_iff.mp hmem
  obtain ⟨f, hf⟩ := Option.isSome_iff_exists.mp hsome
  obtain ⟨fk, target, hfk, -, htarget, -⟩ := fkFinding_eq_some_iff.mp hf
  obtain ⟨table, htable, -⟩ := lookupTarget_eq_some_iff.mp htarget
  rw [h fk hfk] at htable
  cases htable

theorem mem_columns_of_mem_drizzleReferences {f : SchemaFile} (h : f.isDrizzle = true) {c : Column}
    {target : JsString × JsString} (hc : (c, target) ∈ Drizzle.references f) : c ∈ f.columns := by
  obtain ⟨m, hm, hc⟩ := List.mem_flatMap.mp hc
  obtain ⟨⟨line, c'⟩, hline, href⟩ := List.mem_filterMap.mp hc
  obtain ⟨ref, -, href⟩ := Option.map_eq_some_iff.mp href
  obtain ⟨rfl, -⟩ := Prod.mk.inj href
  obtain ⟨rawLine, hraw, hread⟩ := List.mem_filterMap.mp hline
  obtain ⟨c'', hcolumn, heq⟩ := Option.map_eq_some_iff.mp hread
  obtain ⟨-, rfl⟩ := Prod.mk.inj heq
  rw [SchemaFile.columns_drizzle h]
  exact List.mem_flatMap.mpr ⟨m, hm, List.mem_filterMap.mpr ⟨rawLine, hraw, hcolumn⟩⟩

theorem mem_columns_of_mem_prismaReferences {f : SchemaFile} (h : f.ext = literal ".prisma")
    {c : Column} {target : JsString × JsString} (hc : (c, target) ∈ Prisma.references f) :
    c ∈ f.columns := by
  obtain ⟨m, hm, hc⟩ := List.mem_flatMap.mp hc
  obtain ⟨c', hc', hc⟩ := List.mem_flatMap.mp hc
  obtain ⟨⟨field, ref⟩, -, href⟩ := List.mem_filterMap.mp hc
  dsimp only at href
  split at href
  · cases href
    rw [SchemaFile.columns_prisma h]
    exact List.mem_flatMap.mpr ⟨m, hm, hc'⟩
  · cases href

/-- A column that is declared as a reference comes from a file outside SQL. -/
theorem DeclaresReference.exists_file {files : List SchemaFile} {c t : Column}
    (h : DeclaresReference files c t) : ∃ f ∈ files, f.ext ≠ literal ".sql" ∧ c ∈ f.columns := by
  cases h with
  | @drizzle f g hf _ hdrizzle _ _ _ source _ =>
      refine ⟨f, hf, fun hext ↦ ?_, mem_columns_of_mem_drizzleReferences hdrizzle source⟩
      rw [SchemaFile.isDrizzle, hext] at hdrizzle
      exact absurd (Bool.and_eq_true_iff.mp hdrizzle).1 (by decide)
  | @prisma f g hf _ ext _ _ source _ =>
      refine ⟨f, hf, fun hext ↦ ?_, mem_columns_of_mem_prismaReferences ext source⟩
      exact absurd (ext.symm.trans hext) (by decide)

/-- No mismatch is reported for a reference that a Prisma or Drizzle schema declares. -/
theorem declared_mismatch_unreported {files : List SchemaFile} {policy : Config} {c t : Column}
    (h : Mismatch files policy c t) : (Severity.error, Rule.fkMismatch, some c) ∉
      (analyze toLowerCase (files.flatMap SchemaFile.columns) policy).findings.map
        Finding.verdict := by
  obtain ⟨f, -, hext, hc⟩ := h.declared.exists_file
  exact fkMismatch_notMem_verdicts toLowerCase
    (fun fk hfk ↦ SchemaFile.fk_table_of_mem_columns hext hc hfk) _ _

end Reports

/-! ## Two schemas -/

/-- A text that references a uuid, in Prisma. -/
def prismaSchema : SchemaFile where
  ext := literal ".prisma"
  text := literal "model User \x7b
  id String @id @db.Uuid
\x7d
model Order \x7b
  user_id String
  user User @relation(fields: [user_id], references: [id])
\x7d"
  rel := literal "schema.prisma"

/-- The same in Drizzle. -/
def drizzleSchema : SchemaFile where
  ext := literal ".ts"
  text := literal "export const users = pgTable('users', \x7b
  id: uuid('id').primaryKey(),
\x7d)
export const orders = pgTable('orders', \x7b
  user_id: text('user_id').references(() => users.id),
\x7d)"
  rel := literal "schema.ts"

/-- The columns of these schemas: a uuid and a text. -/
def idColumn (table rel : String) : Column where
  table := literal table
  column := literal "id"
  rep := literal "uuid"
  width := some 16
  pk := true
  unique := false
  fk := none
  file := literal rel

def userIdColumn (table rel : String) : Column where
  table := literal table
  column := literal "user_id"
  rep := literal "text"
  width := none
  pk := false
  unique := false
  fk := none
  file := literal rel

set_option maxRecDepth 10000 in
theorem mismatch_prismaSchema : Mismatch [prismaSchema] (databasePolicy .undefined)
    (userIdColumn "Order" "schema.prisma") (idColumn "User" "schema.prisma") where
  declared := .prisma List.mem_cons_self List.mem_cons_self rfl rfl
    (k := (literal "User", literal "id")) (by decide) (by decide)
  rep_ne := by decide
  not_allowed := rfl
  target_not_allowed := rfl

set_option maxRecDepth 10000 in
theorem mismatch_drizzleSchema : Mismatch [drizzleSchema] (databasePolicy .undefined)
    (userIdColumn "orders" "schema.ts") (idColumn "users" "schema.ts") where
  declared := .drizzle List.mem_cons_self List.mem_cons_self (by decide) (by decide) (by decide)
    (k := (literal "users", literal "id")) (by decide) (by decide)
  rep_ne := by decide
  not_allowed := rfl
  target_not_allowed := rfl

/-- A mismatch in a Prisma schema. -/
theorem prismaSchema_unreported : (Severity.error, Rule.fkMismatch,
      some (userIdColumn "Order" "schema.prisma")) ∉
    (analyze asciiLowerCase ([prismaSchema].flatMap SchemaFile.columns)
      (databasePolicy .undefined)).findings.map Finding.verdict :=
  declared_mismatch_unreported asciiLowerCase mismatch_prismaSchema

/-- A mismatch in a Drizzle schema is not reported. -/
theorem not_mismatch_reported : ¬ ∀ (files : List SchemaFile) (policy : Config) (c t : Column),
    Mismatch files policy c t → (Severity.error, Rule.fkMismatch, some c) ∈
      (analyze asciiLowerCase (files.flatMap SchemaFile.columns) policy).findings.map
        Finding.verdict := by
  intro h
  refine fkMismatch_notMem_verdicts asciiLowerCase (fun fk hfk ↦ ?_) _ _
    (h [drizzleSchema] _ _ _ mismatch_drizzleSchema)
  cases hfk

end Rivid.Check
