import Rivid.Check.Location
import Rivid.Check.References
import Rivid.Check.SqlTable
import Rivid.Lib.Groups

/-!
# What the extraction can yield

Whatever the text of a schema is, a column that is extracted from it has a name and a table
that are not empty and have no white space, and one of a few representations, each with its
width.  A table's name has nothing but word characters and dots.
-/

namespace Rivid.Check

open Regex

/-! ## Columns -/

/-- The name of a table. -/
def IsTableName (s : JsString) : Prop := s ≠ [] ∧ ∀ u ∈ s, isTableChar u = true

/-- The name of a column. -/
def IsColumnName (s : JsString) : Prop := s ≠ [] ∧ ∀ u ∈ s, isSpace u = false

/-- The representations whose width is known. -/
def knownTypes : List (JsString × Option ℕ) :=
  [(literal "uuid", some 16), (literal "bytea(16)", some 16), (literal "char(36)", some 36),
    (literal "varchar(36)", some 36), (literal "char(26)", some 26),
    (literal "varchar(26)", some 26), (literal "text", none), (literal "bigint", some 8)]

/-- The builders of Drizzle columns. -/
def builders : List JsString :=
  [literal "uuid", literal "char", literal "varchar", literal "text", literal "bytea"]

/-- A representation with its width: a known one, or a builder, in any case of its letters, of
which the width of an identifier is not known. -/
inductive IsType : JsString → Option ℕ → Prop
  | known {rep : JsString} {width : Option ℕ} (h : (rep, width) ∈ knownTypes) : IsType rep width
  | other {fn : JsString} {width : Option ℕ} (h : fn.map lower ∈ builders)
      (hwidth : width ≠ some 26 ∧ width ≠ some 36) : IsType (fn ++ literal "(?)") width

structure Column.WellFormed (c : Column) : Prop where
  table : IsTableName c.table
  column : IsColumnName c.column
  type : IsType c.rep c.width
  fk : ∀ fk, c.fk = some fk → (∀ t, fk.table = some t → IsTableName t) ∧ IsColumnName fk.column

/-! ## Names in patterns -/

theorem isColumnName_of_isWordChar {s : JsString} (h : s ≠ [] ∧ ∀ u ∈ s, isWordChar u = true) :
    IsColumnName s :=
  ⟨h.1, fun u hu ↦ (isTableChar_ne (by rw [isTableChar, h.2 u hu, Bool.true_or])).1⟩

theorem isTableName_of_isWordChar {s : JsString} (h : s ≠ [] ∧ ∀ u ∈ s, isWordChar u = true) :
    IsTableName s := ⟨h.1, fun u hu ↦ by rw [isTableChar, h.2 u hu, Bool.true_or]⟩

theorem gives_word (s : String) : Gives (fun u ↦ u.map lower = literal s) (word s) := by
  intro s' m hm
  have hall := gives_seqAll_set (fun (c u : U16) ↦ lower u == c) (literal s) s' m hm
  have hmap : ∀ {es us : List U16}, List.Forall₂ (fun c u ↦ (lower u == c) = true) es us →
      us.map lower = es := by
    intro es us h
    induction h with
    | nil => rfl
    | cons hc _ ih => rw [List.map_cons, ih, eq_of_beq hc]
  exact hmap hall

/-- A group whose only part is a run of characters of a class. -/
theorem gives_chars {n : ℕ} {p : U16 → Bool} {r : Regex U16}
    (h : groupsOf n r = [plus (set p)]) :
    ∀ t ∈ groupsOf n r, Gives (fun u ↦ u ≠ [] ∧ ∀ c ∈ u, p c = true) t := by
  intro t ht
  rw [h] at ht
  obtain rfl := List.mem_singleton.mp ht
  exact gives_plus_set p

/-! ## SQL -/

theorem isTableName_of_mem_matchAll {text : JsString} {m : Place U16}
    (h : m ∈ matchAll tableRe text) : IsTableName ((m.group 1).getD []) := by
  obtain ⟨u, hu, hname⟩ := exists_group_of_mem_matchAll (gives_chars (r := tableRe) (n := 1) rfl)
    rfl h
  rw [hu]
  exact hname

theorem isColumnName_of_matchColumn {line name rest : JsString}
    (h : matchColumn line = some (name, rest)) : IsColumnName name := by
  obtain ⟨m, hm, heq⟩ := Option.map_eq_some_iff.mp h
  obtain ⟨u, hu, hname⟩ := exists_group (gives_chars (r := columnRe) (n := 1) rfl) rfl hm
  obtain ⟨rfl, -⟩ := Prod.mk.inj heq
  rw [hu]
  exact isColumnName_of_isWordChar hname

theorem names_of_readReferences {rest : JsString} {fk : ForeignKey}
    (h : readReferences rest = some fk) :
    (∀ t, fk.table = some t → IsTableName t) ∧ IsColumnName fk.column := by
  obtain ⟨m, hm, rfl⟩ := Option.map_eq_some_iff.mp h
  obtain ⟨t, ht, htable⟩ := exists_group (gives_chars (r := referencesRe) (n := 1) rfl) rfl hm
  obtain ⟨u, hu, hname⟩ := exists_group (gives_chars (r := referencesRe) (n := 2) rfl) rfl hm
  constructor
  · intro t' ht'
    obtain rfl := Option.some.inj (ht.symm.trans ht')
    exact htable
  · dsimp only
    rw [hu]
    exact isColumnName_of_isWordChar hname

theorem mem_knownTypes_of_mem_sqlTypes {t : SqlType} (h : t ∈ sqlTypes) :
    (t.rep, t.width) ∈ knownTypes := by
  have hall : sqlTypes.map (fun t ↦ (t.rep, t.width)) = knownTypes := rfl
  rw [← hall]
  exact List.mem_map_of_mem h

theorem wellFormed_of_mem_extractSql {text file : JsString} {c : Column}
    (h : c ∈ extractSql text file) : c.WellFormed := by
  obtain ⟨m, hm, hc⟩ := List.mem_flatMap.mp h
  obtain ⟨item, -, hitem⟩ := List.mem_filterMap.mp hc
  obtain ⟨-, -, name, rest, type, hline, -, htype, rfl⟩ := readColumn_eq_some_iff.mp hitem
  exact {
    table := isTableName_of_mem_matchAll hm
    column := isColumnName_of_matchColumn hline
    type := .known (mem_knownTypes_of_mem_sqlTypes (List.mem_of_find?_eq_some htype))
    fk := fun _ hfk ↦ names_of_readReferences hfk }

theorem file_of_mem_extractSql {text file : JsString} {c : Column}
    (h : c ∈ extractSql text file) : c.file = file := by
  obtain ⟨m, -, hc⟩ := List.mem_flatMap.mp h
  obtain ⟨item, -, hitem⟩ := List.mem_filterMap.mp hc
  obtain ⟨-, -, name, rest, type, -, -, -, rfl⟩ := readColumn_eq_some_iff.mp hitem
  rfl

/-! ## Prisma -/

/-- Space is always a gap, of one character at least. -/
theorem run_gap_of_isSpace {c : U16} (hc : isSpace c = true) (before after : JsString) :
    ∃ m, (run gap ⟨before, c :: after, []⟩).head? = some m ∧
      m.after.length ≠ (c :: after).length := by
  obtain ⟨fewer, hrun, -⟩ := run_star_set isSpace ⟨c :: before, after, []⟩
  refine ⟨Place.skipWhile isSpace ⟨c :: before, after, []⟩, ?_, ?_⟩
  · rw [gap, run_plus_set_of_pos hc, hrun]
    rfl
  · have hle := (List.dropWhile_suffix (l := after) isSpace).length_le
    exact Nat.ne_of_lt (Nat.lt_succ_of_le hle)

theorem head?_trim {s rest : JsString} {c : U16} (h : trim s = c :: rest) : isSpace c = false := by
  have hnot := List.head?_dropWhile_not isSpace (trimEnd s)
  rw [← trimStart, trimStart_trimEnd, h] at hnot
  exact hnot

theorem isColumnName_of_splitField {rawLine name type attrStr : JsString}
    (h : splitField rawLine = some (name, type, attrStr)) : IsColumnName name := by
  rw [splitField] at h
  split_ifs at h with hskip
  cases hline : trim rawLine with
  | nil => exact absurd (Or.inl hline) hskip
  | cons c rest =>
      rw [hline] at h
      have hc := head?_trim hline
      cases hpieces : split gap (c :: rest) with
      | nil =>
          rw [hpieces] at h
          cases h
      | cons piece pieces =>
          have hnone : run gap ⟨[], c :: rest, []⟩ = [] := by
            rw [gap, plus, run, run_set_of_neg hc]
            rfl
          have hhead := head_of_split hnone hpieces
          have hmem : piece ∈ split gap (c :: rest) := by
            rw [hpieces]
            exact List.mem_cons_self
          cases pieces with
          | nil =>
              rw [hpieces] at h
              cases h
          | cons type' attrs =>
              rw [hpieces] at h
              obtain ⟨rfl, -⟩ := Prod.mk.inj (Option.some.inj h)
              refine ⟨List.ne_nil_of_mem (List.mem_of_head? hhead), fun u hu ↦ ?_⟩
              by_contra hspace
              refine not_mem_of_mem_split (fun before after ↦ ?_) hmem hu
              exact run_gap_of_isSpace (Bool.not_eq_false _ ▸ hspace) before after

theorem isType_of_fieldType {type attrStr : JsString} {t : JsString × Option ℕ}
    (h : fieldType type attrStr = some t) : IsType t.1 t.2 := by
  refine .known ?_
  unfold fieldType at h
  split_ifs at h <;> obtain rfl := Option.some.inj h <;> decide

theorem wellFormed_of_mem_extractPrisma {text file : JsString} {c : Column}
    (h : c ∈ extractPrisma text file) : c.WellFormed := by
  obtain ⟨m, hm, hc⟩ := List.mem_flatMap.mp h
  obtain ⟨line, -, hline⟩ := List.mem_filterMap.mp hc
  obtain ⟨name, type, attrStr, t, hfield, -, htype, rfl⟩ := readField_eq_some_iff.mp hline
  obtain ⟨u, hu, hname⟩ := exists_group_of_mem_matchAll (gives_chars (r := modelRe) (n := 1) rfl)
    rfl hm
  have hcolumn := isColumnName_of_splitField hfield
  refine ⟨?_, hcolumn, isType_of_fieldType htype, fun fk hfk ↦ ?_⟩
  · change IsTableName ((m.group 1).getD [])
    rw [hu]
    exact isTableName_of_isWordChar hname
  · change readRelation name attrStr = some fk at hfk
    rw [readRelation] at hfk
    split at hfk
    · obtain rfl := Option.some.inj hfk
      refine ⟨fun t ht ↦ ?_, hcolumn⟩
      cases ht
    · cases hfk

theorem file_of_mem_extractPrisma {text file : JsString} {c : Column}
    (h : c ∈ extractPrisma text file) : c.file = file := by
  obtain ⟨m, -, hc⟩ := List.mem_flatMap.mp h
  obtain ⟨line, -, hline⟩ := List.mem_filterMap.mp hc
  obtain ⟨name, type, attrStr, t, -, -, -, rfl⟩ := readField_eq_some_iff.mp hline
  rfl

/-! ## Drizzle -/

theorem gives_builderRe : Gives (fun u ↦ u.map lower ∈ builders) Drizzle.builderRe := by
  intro s m hm
  have h := ((gives_word "uuid").alt ((gives_word "char").alt ((gives_word "varchar").alt
    ((gives_word "text").alt (gives_word "bytea"))))) s m hm
  simpa only [builders, List.mem_cons, List.not_mem_nil, or_false] using h

theorem isType_columnType {fn : JsString} (h : fn.map lower ∈ builders) (opts : JsString) :
    IsType (Drizzle.columnType fn opts).1 (Drizzle.columnType fn opts).2 := by
  unfold Drizzle.columnType
  dsimp only
  split_ifs
  any_goals
    refine .known ?_
    decide
  exact .other h ⟨by assumption, by assumption⟩

theorem wellFormed_of_mem_extractDrizzleTs {text file : JsString} {c : Column}
    (h : c ∈ Drizzle.extractDrizzleTs text file) : c.WellFormed := by
  obtain ⟨m, hm, hc⟩ := List.mem_flatMap.mp h
  obtain ⟨line, -, hline⟩ := List.mem_filterMap.mp hc
  obtain ⟨col, hcol, -, rfl⟩ := Drizzle.readLine_eq_some_iff.mp hline
  obtain ⟨u, hu, htable⟩ := exists_group_of_mem_matchAll
    (gives_chars (r := Drizzle.tableRe) (n := 2) rfl) rfl hm
  obtain ⟨m', hm', rfl⟩ := Option.map_eq_some_iff.mp hcol
  obtain ⟨v, hv, hname⟩ := exists_group (gives_chars (r := Drizzle.columnRe) (n := 3) rfl) rfl hm'
  have hgives : ∀ t ∈ groupsOf 2 Drizzle.columnRe, Gives (fun u ↦ u.map lower ∈ builders) t := by
    intro t ht
    obtain rfl := List.mem_singleton.mp (show t ∈ [Drizzle.builderRe] from ht)
    exact gives_builderRe
  obtain ⟨fn, hfn, hbuilder⟩ := exists_group hgives rfl hm'
  refine ⟨?_, ?_, ?_, fun fk hfk ↦ by cases hfk⟩
  · change IsTableName ((m.group 2).getD [])
    rw [hu]
    exact isTableName_of_isWordChar htable
  · change IsColumnName ((m'.group 3).getD [])
    rw [hv]
    exact isColumnName_of_isWordChar hname
  · refine isType_columnType ?_ _
    dsimp only
    rw [hfn]
    exact hbuilder

theorem file_of_mem_extractDrizzleTs {text file : JsString} {c : Column}
    (h : c ∈ Drizzle.extractDrizzleTs text file) : c.file = file := by
  obtain ⟨m, -, hc⟩ := List.mem_flatMap.mp h
  obtain ⟨line, -, hline⟩ := List.mem_filterMap.mp hc
  obtain ⟨col, -, -, rfl⟩ := Drizzle.readLine_eq_some_iff.mp hline
  rfl

/-! ## All files -/

/-- The columns of a file are well formed, and know their file. -/
theorem SchemaFile.wellFormed_of_mem_columns {f : SchemaFile} {c : Column} (h : c ∈ f.columns) :
    c.WellFormed ∧ c.file = f.rel := by
  rw [SchemaFile.columns, Extractors.columns] at h
  split_ifs at h
  · exact ⟨wellFormed_of_mem_extractSql h, file_of_mem_extractSql h⟩
  · exact ⟨wellFormed_of_mem_extractPrisma h, file_of_mem_extractPrisma h⟩
  · exact ⟨wellFormed_of_mem_extractDrizzleTs h, file_of_mem_extractDrizzleTs h⟩
  · cases h

/-- Whatever the files say, an extracted column is well formed and carries the name of a file
below the directory that is read. -/
theorem wellFormed_of_mem_cols (fs : FileSystem) (n : ℕ) (root : JsString) {c : Column}
    (h : c ∈ (extractAll extractors fs n root).cols) :
    c.WellFormed ∧ ∃ file ∈ fs.walk n root, unscanned file = false ∧
      c.file = relative fs.cwd root file := by
  rw [extractAll_cols] at h
  obtain ⟨f, hf, hc⟩ := List.mem_flatMap.mp h
  obtain ⟨hwell, hfile⟩ := f.wellFormed_of_mem_columns hc
  refine ⟨hwell, ?_⟩
  obtain ⟨file, hwalk, hsome⟩ := List.mem_filterMap.mp hf
  split at hsome
  · cases hsome
  · rename_i hskip
    obtain ⟨text, -, rfl⟩ := Option.map_eq_some_iff.mp hsome
    exact ⟨file, hwalk, Bool.eq_false_iff.mpr hskip, hfile⟩

/-- A file system with one schema, in which an identifier is a text. -/
def textSchema : FileSystem :=
  let fs := (schemaTree (literal "db") (by decide)).mounted (literal "/srv/app")
    [literal "srv", literal "app"]
  { fs with readFileSync := fun p ↦ (fs.readFileSync p).map fun _ ↦
      literal "CREATE TABLE users (id text PRIMARY KEY);" }

set_option maxRecDepth 10000 in
theorem wellFormed_of_mem_cols_textSchema :
    let c : Column := ⟨literal "users", literal "id", literal "text", none, true, false, none,
      literal "db/schema.sql"⟩
    c.WellFormed ∧ ∃ file ∈ textSchema.walk 3 (literal "."), unscanned file = false ∧
      c.file = relative textSchema.cwd (literal ".") file :=
  wellFormed_of_mem_cols textSchema 3 (literal ".") (by decide)

end Rivid.Check
