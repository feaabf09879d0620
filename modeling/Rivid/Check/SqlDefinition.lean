import Rivid.Check.SqlColumn
import Rivid.Check.SqlStatement

/-!
# Definitions of columns

A definition `name TYPE tail` of an identifier column, with any text in front of it and behind it.
It is readable if the table pattern reads its statement, it starts a line where the body is split
and lies on one line, and no type in front of its own in the list is found in the text from the
type to the end of the line (`Definition.Readable`).  Then its type is reported
(`Definition.Reading.reported`).
-/

namespace Rivid.Check

open Regex

/-! ## The first type of a key -/

/-- What is found first has a given key exactly if nothing in front of that key is found. -/
theorem find?_key_iff {α β : Type} [DecidableEq β] (key : α → β) {l : List α}
    (hl : (l.map key).Nodup) {t : α} (ht : t ∈ l) {p : α → Bool} (hp : p t = true) :
    (∃ t', l.find? p = some t' ∧ key t' = key t) ↔
      ∀ a ∈ l.takeWhile (fun a ↦ key a ≠ key t), p a = false := by
  induction l with
  | nil => cases ht
  | cons a l ih =>
      rw [List.map_cons, List.nodup_cons] at hl
      by_cases ha : key a = key t
      · have hat : a = t := by
          rcases List.mem_cons.mp ht with rfl | ht
          · rfl
          · exact absurd (List.mem_map.mpr ⟨t, ht, ha.symm⟩) hl.1
        rw [List.takeWhile_cons_of_neg (by simpa using ha), hat, List.find?_cons_of_pos hp]
        exact iff_of_true ⟨t, rfl, rfl⟩ fun b hb ↦ absurd hb List.not_mem_nil
      · have ht' : t ∈ l := (List.mem_cons.mp ht).resolve_left fun h ↦ ha (h ▸ rfl)
        rw [List.takeWhile_cons_of_pos (by simpa using ha), List.forall_mem_cons]
        cases hpa : p a with
        | true =>
            rw [List.find?_cons_of_pos hpa]
            refine iff_of_false ?_ fun h ↦ Bool.noConfusion h.1
            rintro ⟨t', ht', hkey⟩
            exact ha (Option.some.inj ht' ▸ hkey)
        | false =>
            rw [List.find?_cons_of_neg (Bool.eq_false_iff.mp hpa), ih hl.2 ht']
            exact (and_iff_right rfl).symm

theorem nodup_reps : (sqlTypes.map (·.rep)).Nodup := by decide

/-! ## Definitions -/

/-- What a name may be quoted with: one character, or none. -/
def QuoteMark (q : JsString) : Prop :=
  q = [] ∨ ∃ u, q = [u] ∧ isWordChar u = false ∧ isSpace u = false

/-- A text with the definition `name TYPE tail` of an identifier column of the table `table`.  The
heading of the statement and the other columns are in `front` and `back`. -/
structure Definition where
  front : JsString
  openQuote : JsString
  name : JsString
  closeQuote : JsString
  gap : JsString
  written : JsString
  tail : JsString
  back : JsString
  table : JsString
  type : SqlType
  openQuote_ok : QuoteMark openQuote
  closeQuote_ok : QuoteMark closeQuote
  gap_ok : Gap gap
  type_ok : type ∈ sqlTypes
  written_ok : written.map lower = type.spelling
  tail_ok : ∀ u ∈ tail, u ≠ comma ∧ u ≠ semicolon ∧ isLineTerminator u = false
  tail_head : tail.head?.any isWordChar = false
  tail_last : tail.getLast?.any isSpace = false
  back_head : back.head?.any (fun u ↦ isWordChar u || u == semicolon) = false
  identifier : isIdentifier name (written ++ tail) = true

namespace Definition

variable (d : Definition)

def nameText : JsString := d.openQuote ++ (d.name ++ d.closeQuote)

def typeText : JsString := d.written ++ d.tail

def text : JsString := d.front ++ (d.nameText ++ (d.gap ++ (d.typeText ++ d.back)))

/-- The line from the type on, if the body goes on with `after` behind the definition. -/
def rest (after : JsString) : JsString := trimEnd (upToCut (d.typeText ++ after))

/-- The column is reported with the representation of its type. -/
def Reported (file : JsString) : Prop :=
  ∃ c ∈ extractSql d.text file, c.table = d.table ∧ c.column = d.name ∧ c.rep = d.type.rep

/-- How a definition is read whose type is reported. -/
structure Reading where
  earlier : JsString
  pre : JsString
  heading : Heading
  before : JsString
  lead : JsString
  after : JsString
  later : JsString
  front_eq : d.front = earlier ++ (pre ++ (heading.text ++ (before ++ lead)))
  back_eq : d.back = after ++ closeParen :: semicolon :: later
  earlier_ok : earlier = [] ∨ earlier.getLast? = some semicolon
  pre_ok : semicolon ∉ pre ∧ NoHeading pre
  body_ok : semicolon ∉ before ∧ semicolon ∉ after
  table_ok : heading.name.name = d.table
  name_ok : d.name ≠ [] ∧ ∀ u ∈ d.name, isWordChar u = true
  quotes_ok : OptQuote d.openQuote ∧ OptQuote d.closeQuote
  gap_ok : lineFeed ∉ d.gap
  lead_ok : ∀ u ∈ lead, isSpace u = true ∧ u ≠ lineFeed
  line : Cut before (lead ++ (d.nameText ++ (d.gap ++ (d.typeText ++ after))))
  oneLine : (d.rest after).any isLineTerminator = false
  noEarlierType : ∀ t ∈ sqlTypes.takeWhile (fun t ↦ t.rep ≠ d.type.rep),
    test t.re (d.rest after) = false

/-- The heading is one that the table pattern reads, and the first behind the last semicolon; the
body has no semicolon in it and ends with `);`; the name is one of word characters; the definition
starts a line and is on one line; and no type in front of its own is found on that line. -/
def Readable : Prop := Nonempty d.Reading

/-- Another line of a table of this name starts with the name of the column, and the first type
that is found on it is the same. -/
def DeclaredAgain : Prop := ∃ st : Statement, st.text = d.text ∧ st.heading.name.name = d.table ∧
  ∃ x y, st.body = x ++ y ∧ Cut x y ∧ st.front ++ (x ++ y.takeWhile isSpace) ≠ d.front ∧
    ∃ rest t, matchColumn (trim (upToCut y)) = some (d.name, rest) ∧
      isIdentifier d.name rest = true ∧ readType rest = some t ∧ t.rep = d.type.rep

/-! ## The line of a definition -/

/-- A type starts and ends without space, and has no mark in it. -/
theorem spelling_ok {t : SqlType} (ht : t ∈ sqlTypes) : t.spelling.head?.any isSpace = false ∧
    t.spelling.getLast?.any isSpace = false ∧ t.spelling ≠ [] ∧ comma ∉ t.spelling ∧
      lineFeed ∉ t.spelling ∧ semicolon ∉ t.spelling := by
  have hall : (sqlTypes.all fun t ↦ !t.spelling.head?.any isSpace &&
      !t.spelling.getLast?.any isSpace && !t.spelling.isEmpty && !t.spelling.contains comma &&
        !t.spelling.contains lineFeed && !t.spelling.contains semicolon) = true := by
    decide
  have := List.all_eq_true.mp hall t ht
  simpa [and_assoc] using this

theorem notMem_written {c : U16} (hc : lower c = c) (h : c ∉ d.type.spelling) : c ∉ d.written :=
  fun hmem ↦ h (hc ▸ d.written_ok ▸ List.mem_map_of_mem hmem)

theorem typeText_not_mark : ∀ u ∈ d.typeText, ¬ isMark u := by
  obtain ⟨-, -, -, hcomma, hline, -⟩ := spelling_ok d.type_ok
  refine List.forall_mem_append.mpr ⟨?_, ?_⟩
  · rintro u hu (rfl | rfl)
    · exact d.notMem_written rfl hline hu
    · exact d.notMem_written rfl hcomma hu
  · rintro u hu (rfl | rfl)
    · exact absurd (d.tail_ok _ hu).2.2 (by decide)
    · exact (d.tail_ok _ hu).1 rfl

theorem semicolon_notMem_typeText : semicolon ∉ d.typeText := fun hmem ↦ by
  rcases List.mem_append.mp hmem with h | h
  · exact d.notMem_written rfl (spelling_ok d.type_ok).2.2.2.2.2 h
  · exact (d.tail_ok _ h).2.1 rfl

theorem written_ne : d.written ≠ [] := fun h ↦
  (spelling_ok d.type_ok).2.2.1 (by rw [← d.written_ok, h]; rfl)

theorem head?_typeText (s : JsString) : (d.typeText ++ s).head?.any isSpace = false := by
  have hhead := (spelling_ok d.type_ok).1
  obtain ⟨u, w, hw⟩ := List.exists_cons_of_ne_nil d.written_ne
  rw [← d.written_ok, hw] at hhead
  rw [typeText, hw]
  exact (isSpace_lower u).symm.trans hhead

theorem last_typeText : d.typeText.getLast?.any isSpace = false := by
  rw [typeText]
  by_cases htail : d.tail = []
  · have hlast := (spelling_ok d.type_ok).2.1
    rw [htail, List.append_nil]
    rw [← d.written_ok, List.getLast?_map] at hlast
    rw [List.getLast?_eq_getLast_of_ne_nil d.written_ne] at hlast ⊢
    exact (isSpace_lower _).symm.trans hlast
  · rw [List.getLast?_append_of_ne_nil _ htail]
    exact d.tail_last

theorem rest_eq (after : JsString) : d.rest after = d.typeText ++ trimEnd (upToCut after) := by
  rw [rest, upToCut_append d.typeText_not_mark, trimEnd_append_of_last d.last_typeText]

theorem rest_ne (after : JsString) : d.rest after ≠ [] := by
  rw [rest_eq, typeText, List.append_assoc]
  exact List.append_ne_nil_of_left_ne_nil d.written_ne _

theorem head?_rest (after : JsString) : (d.rest after).head?.any isSpace = false := by
  rw [rest_eq]
  exact d.head?_typeText _

theorem head?_of_isPrefix {x y : JsString} (h : x <+: y) {p : U16 → Bool}
    (hy : y.head?.any p = false) : x.head?.any p = false := by
  obtain ⟨z, rfl⟩ := h
  cases x with
  | nil => rfl
  | cons u x => exact hy

/-- How the definition goes on is not a part of its last word. -/
theorem head?_after {after later : JsString}
    (h : d.back = after ++ closeParen :: semicolon :: later) :
    after.head?.any isWordChar = false := by
  have hback := d.back_head
  rw [h] at hback
  cases after with
  | nil => rfl
  | cons u after => exact (Bool.or_eq_false_iff.mp hback).1

section Rest

variable {after : JsString} (hafter : after.head?.any isWordChar = false)

include hafter

theorem head?_more : (trimEnd (upToCut after)).head?.any isWordChar = false :=
  head?_of_isPrefix ((List.rdropWhile_prefix isSpace _).trans (isPrefix_upToCut after)) hafter

theorem test_rest : test d.type.re (d.rest after) = true := by
  have hbehind : (d.tail ++ trimEnd (upToCut after)).head?.any isWordChar = false := by
    rcases htail : d.tail with _ | ⟨u, s⟩
    · exact head?_more hafter
    · have hhead := d.tail_head
      rw [htail] at hhead
      exact hhead
  rw [rest_eq, typeText, List.append_assoc]
  exact test_written d.type_ok d.written_ok hbehind

theorem isIdentifier_rest : isIdentifier d.name (d.rest after) = true := by
  rw [rest_eq]
  exact isIdentifier_append (head?_more hafter) d.identifier

/-- The type that is read has the declared representation. -/
theorem readType_rest_iff : (∃ t, readType (d.rest after) = some t ∧ t.rep = d.type.rep) ↔
    ∀ t ∈ sqlTypes.takeWhile (fun t ↦ t.rep ≠ d.type.rep), test t.re (d.rest after) = false :=
  find?_key_iff SqlType.rep (p := fun t ↦ test t.re (d.rest after)) nodup_reps d.type_ok
    (d.test_rest hafter)

end Rest

/-! ## The name of the column -/

theorem exists_head_name (n : ColumnName) (s : JsString) : ∃ u t, n.text ++ s = u :: t ∧
    (isNameQuote u = true ∨ isWordChar u = true) := by
  obtain ⟨v, name, hname⟩ := List.exists_cons_of_ne_nil n.name_ne
  rcases n.openQuote_ok with hq | ⟨u, hq, hu⟩
  · refine ⟨v, name ++ (n.closeQuote ++ n.gap) ++ s, ?_, .inr (n.name_ok v (hname ▸ .head _))⟩
    rw [ColumnName.text, hq, hname]
    rfl
  · refine ⟨u, n.name ++ (n.closeQuote ++ n.gap) ++ s, ?_, .inl hu⟩
    rw [ColumnName.text, hq]
    rfl

theorem quoteMark_of_optQuote {q : JsString} (h : OptQuote q) : QuoteMark q := by
  rcases h with rfl | ⟨u, rfl, hu⟩
  · exact .inl rfl
  · exact .inr ⟨u, rfl, isWordChar_of_isNameQuote hu, (isNameQuote_ne hu).1⟩

theorem notWord_of_quoteMark {q : JsString} (h : QuoteMark q) :
    q = [] ∨ ∃ u, q = [u] ∧ isWordChar u = false := by
  rcases h with rfl | ⟨u, rfl, hu⟩
  · exact .inl rfl
  · exact .inr ⟨u, rfl, hu.1⟩

theorem notSpace_of_quoteMark {q : JsString} (h : QuoteMark q) :
    q = [] ∨ ∃ u, q = [u] ∧ isSpace u = false := by
  rcases h with rfl | ⟨u, rfl, hu⟩
  · exact .inl rfl
  · exact .inr ⟨u, rfl, hu.2⟩

/-- Two ways to read a quote in front of the same kind of character. -/
theorem quote_eq {q q' s s' : JsString} {p : U16 → Bool} (h : q ++ s = q' ++ s')
    (hq : q = [] ∨ ∃ u, q = [u] ∧ p u = false) (hq' : q' = [] ∨ ∃ u, q' = [u] ∧ p u = false)
    (hs : s.head?.any p = true) (hs' : s'.head?.any p = true) : q = q' ∧ s = s' := by
  rcases hq with rfl | ⟨u, rfl, hu⟩
  · rcases hq' with rfl | ⟨u', rfl, hu'⟩
    · exact ⟨rfl, h⟩
    · obtain rfl : s = u' :: s' := h
      exact absurd hs (Bool.eq_false_iff.mp hu')
  · rcases hq' with rfl | ⟨u', rfl, -⟩
    · obtain rfl : u :: s = s' := h
      exact absurd hs' (Bool.eq_false_iff.mp hu)
    · obtain ⟨rfl, rfl⟩ := List.cons.inj h
      exact ⟨rfl, rfl⟩

theorem head?_gap {gap : JsString} (h : Gap gap) (s : JsString) :
    (gap ++ s).head?.any isSpace = true := by
  obtain ⟨u, g, rfl⟩ := List.exists_cons_of_ne_nil h.ne
  exact h.space u List.mem_cons_self

/-- A line that is read at the definition has its name, quotes and all. -/
theorem name_of_append_eq {n : ColumnName} (hname : n.name = d.name) {s s' : JsString}
    (h : n.text ++ s = d.nameText ++ (d.gap ++ s')) :
    n.openQuote = d.openQuote ∧ n.closeQuote = d.closeQuote := by
  have heq : n.openQuote ++ (n.name ++ (n.closeQuote ++ (n.gap ++ s))) =
      d.openQuote ++ (d.name ++ (d.closeQuote ++ (d.gap ++ s'))) := by
    simpa [ColumnName.text, nameText] using h
  have hword : ∀ s : JsString, (n.name ++ s).head?.any isWordChar = true := fun s ↦ by
    obtain ⟨u, name, hu⟩ := List.exists_cons_of_ne_nil n.name_ne
    rw [hu]
    exact n.name_ok u (hu ▸ List.mem_cons_self)
  rw [← hname] at heq
  obtain ⟨hopen, hrest⟩ := quote_eq heq
    (notWord_of_quoteMark (quoteMark_of_optQuote n.openQuote_ok))
    (notWord_of_quoteMark d.openQuote_ok) (hword _) (hword _)
  exact ⟨hopen, (quote_eq (List.append_cancel_left hrest)
    (notSpace_of_quoteMark (quoteMark_of_optQuote n.closeQuote_ok))
    (notSpace_of_quoteMark d.closeQuote_ok) (head?_gap n.gap_ok s) (head?_gap d.gap_ok s')).1⟩

section Name

variable (hname : d.name ≠ [] ∧ ∀ u ∈ d.name, isWordChar u = true)
  (hquotes : OptQuote d.openQuote ∧ OptQuote d.closeQuote)

/-- The name as a line is read that starts with it. -/
def columnName : ColumnName where
  openQuote := d.openQuote
  name := d.name
  closeQuote := d.closeQuote
  gap := d.gap
  openQuote_ok := hquotes.1
  name_ne := hname.1
  name_ok := hname.2
  closeQuote_ok := hquotes.2
  gap_ok := d.gap_ok

theorem columnName_text : (d.columnName hname hquotes).text = d.nameText ++ d.gap := by
  simp [columnName, ColumnName.text, nameText]

include hname hquotes

theorem nameText_ok : ∀ u ∈ d.nameText, isWordChar u = true ∨ isNameQuote u = true := by
  rw [nameText]
  simp only [List.forall_mem_append]
  exact ⟨fun u hu ↦ .inr (OptQuote.isNameQuote hquotes.1 u hu), fun u hu ↦ .inl (hname.2 u hu),
    fun u hu ↦ .inr (OptQuote.isNameQuote hquotes.2 u hu)⟩

theorem nameText_not_mark : ∀ u ∈ d.nameText, ¬ isMark u := by
  rintro u hu (rfl | rfl)
  · rcases d.nameText_ok hname hquotes _ hu with h | h <;> cases h
  · rcases d.nameText_ok hname hquotes _ hu with h | h <;> cases h

theorem semicolon_notMem_nameText : semicolon ∉ d.nameText := fun hmem ↦ by
  rcases d.nameText_ok hname hquotes _ hmem with h | h <;> cases h

theorem head?_nameText (s : JsString) : ∃ u t, d.nameText ++ (d.gap ++ s) = u :: t ∧
    isSpace u = false ∧ u ≠ dash := by
  obtain ⟨u, t, htext, hu⟩ := exists_head_name (d.columnName hname hquotes) s
  rw [columnName_text, List.append_assoc] at htext
  refine ⟨u, t, htext, ?_, ?_⟩
  · exact hu.elim (fun h ↦ (isNameQuote_ne h).1) fun h ↦ (isWordChar_ne h).1
  · rintro rfl
    exact hu.elim (by decide) (by decide)

/-- With the type on its line the definition is read as its name and its rest. -/
theorem matchColumn_definition (after : JsString) :
    matchColumn (d.nameText ++ (d.gap ++ d.rest after)) =
      if (d.rest after).any isLineTerminator then none else some (d.name, d.rest after) := by
  have hline := matchColumn_text (d.columnName hname hquotes) (d.rest_ne after) (d.head?_rest after)
  rw [columnName_text, List.append_assoc] at hline
  exact hline

theorem trim_upToCut_definition (hgap : lineFeed ∉ d.gap) (after : JsString) :
    trim (upToCut (d.nameText ++ (d.gap ++ (d.typeText ++ after)))) =
      d.nameText ++ (d.gap ++ d.rest after) := by
  have hmark : ∀ u ∈ d.gap, ¬ isMark u := by
    rintro u hu (rfl | rfl)
    · exact hgap hu
    · cases d.gap_ok.space _ hu
  obtain ⟨u, s, hline, hu, -⟩ := d.head?_nameText hname hquotes (upToCut (d.typeText ++ after))
  have hrest : trimEnd (upToCut (d.typeText ++ after)) ≠ [] := d.rest_ne after
  rw [upToCut_append (d.nameText_not_mark hname hquotes), upToCut_append hmark, hline,
    trim_cons_of_not_isSpace hu, ← hline, ← List.append_assoc, trimEnd_append _ hrest,
    List.append_assoc]
  rfl

end Name

/-! ## Definitions that are read -/

section Reading

variable {d} (r : d.Reading)

/-- The statement that the definition is in. -/
def Reading.statement : Statement where
  earlier := r.earlier
  pre := r.pre
  heading := r.heading
  body := r.before ++ (r.lead ++ (d.nameText ++ (d.gap ++ (d.typeText ++ r.after))))
  later := r.later
  earlier_ok := r.earlier_ok
  pre_ok := r.pre_ok
  body_ne := by
    obtain ⟨u, s, hline, -⟩ := d.head?_nameText r.name_ok r.quotes_ok (d.typeText ++ r.after)
    rw [hline]
    simp
  body_ok := by
    have hlead : semicolon ∉ r.lead := fun h ↦ by cases (r.lead_ok _ h).1
    have hgap : semicolon ∉ d.gap := fun h ↦ by cases d.gap_ok.space _ h
    simp [r.body_ok.1, r.body_ok.2, hlead, hgap, d.semicolon_notMem_typeText,
      d.semicolon_notMem_nameText r.name_ok r.quotes_ok]

theorem Reading.text_statement : r.statement.text = d.text := by
  simp [Statement.text, Statement.front, Reading.statement, Definition.text, r.front_eq, r.back_eq]

theorem Reading.trim_line : trim (upToCut (r.lead ++ (d.nameText ++ (d.gap ++
    (d.typeText ++ r.after))))) = d.nameText ++ (d.gap ++ d.rest r.after) := by
  have hmark : ∀ u ∈ r.lead, ¬ isMark u := by
    rintro u hu (rfl | rfl)
    · exact (r.lead_ok _ hu).2 rfl
    · cases (r.lead_ok _ hu).1
  have hspace : ∀ u ∈ r.lead, isSpace u = true := fun u hu ↦ (r.lead_ok u hu).1
  rw [upToCut_append hmark, trim, trimStart, List.dropWhile_append_of_pos hspace,
    ← d.trim_upToCut_definition r.name_ok r.quotes_ok r.gap_ok]
  rfl

theorem Reading.reported (r : d.Reading) (file : JsString) : d.Reported file := by
  have hafter := d.head?_after r.back_eq
  obtain ⟨t, htype, hrep⟩ := (d.readType_rest_iff hafter).mpr r.noEarlierType
  obtain ⟨u, s, hline, -, hdash⟩ := d.head?_nameText r.name_ok r.quotes_ok (d.rest r.after)
  refine ⟨columnOf d.table file d.name (d.rest r.after) t, ?_, rfl, rfl, hrep⟩
  refine mem_extractSql_iff.mpr ⟨r.statement, r.text_statement, r.before, _, rfl, r.line, ?_⟩
  rw [readColumn_eq_some_iff, r.trim_line]
  refine ⟨hline ▸ List.cons_ne_nil u s, ?_, d.name, d.rest r.after, t, ?_,
    d.isIdentifier_rest hafter, htype, ?_⟩
  · rw [hline]
    rintro ⟨x, hx⟩
    exact hdash (List.cons.inj hx).1.symm
  · rw [d.matchColumn_definition r.name_ok r.quotes_ok, r.oneLine]
    rfl
  · exact congrArg (fun table ↦ columnOf table file d.name (d.rest r.after) t) r.table_ok

end Reading

theorem DeclaredAgain.reported {d : Definition} (h : d.DeclaredAgain) (file : JsString) :
    d.Reported file := by
  obtain ⟨st, htext, htable, x, y, hbody, hcut, -, rest, t, hmatch, hid, htype, hrep⟩ := h
  refine ⟨columnOf d.table file d.name rest t, ?_, rfl, rfl, hrep⟩
  refine mem_extractSql_iff.mpr ⟨st, htext, x, y, hbody, hcut, ?_⟩
  obtain ⟨n, -, hline, -⟩ := exists_of_matchColumn hmatch
  obtain ⟨u, s, hhead, hu⟩ := exists_head_name n rest
  rw [readColumn_eq_some_iff]
  refine ⟨hline ▸ hhead ▸ List.cons_ne_nil u s, ?_, d.name, rest, t, hmatch, hid, htype,
    congrArg (fun table ↦ columnOf table file d.name rest t) htable⟩
  rw [hline, hhead]
  rintro ⟨z, hz⟩
  obtain rfl : dash = u := (List.cons.inj hz).1
  exact hu.elim (by decide) (by decide)

end Definition

end Rivid.Check
