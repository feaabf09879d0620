import Rivid.Check.SqlDefinition

/-!
# Columns classified by their declared type

The type that is reported of a column is the declared one if its definition is readable.  Otherwise
it can come only from another line that is read as a definition of the same column
(`Definition.reported_iff`).
-/

namespace Rivid.Check

open Regex

namespace Definition

variable (d : Definition)

/-! ## What is read at a definition -/

/-- The body goes on behind the definition, up to the end of the statement. -/
theorem exists_after {z later : JsString} (hz : semicolon ∉ z) {s : JsString}
    (hs : semicolon ∉ s) (h : z ++ closeParen :: semicolon :: later = s ++ d.back) :
    ∃ after, z = s ++ after ∧ d.back = after ++ closeParen :: semicolon :: later := by
  rcases List.append_eq_append_iff.mp h with ⟨a, rfl, ha⟩ | ⟨a, rfl, hback⟩
  · rcases a with _ | ⟨u, _ | ⟨v, a⟩⟩
    · exact ⟨[], by simp, ha.symm⟩
    · -- the tail does not take the parenthesis that closes the body
      have hback := d.back_head
      obtain ⟨-, ha⟩ : closeParen = u ∧ semicolon :: later = d.back := List.cons.inj ha
      rw [← ha] at hback
      cases hback
    · obtain ⟨-, ha⟩ := List.cons.inj ha
      obtain ⟨rfl, -⟩ := List.cons.inj ha
      exact absurd (by simp) hs
  · exact ⟨a, rfl, hback⟩

/-- A line that ends in the gap has no rest. -/
theorem lineFeed_notMem_gap (hname : d.name ≠ [] ∧ ∀ u ∈ d.name, isWordChar u = true)
    (hquotes : OptQuote d.openQuote ∧ OptQuote d.closeQuote) {n : ColumnName} {rest s : JsString}
    (hn : n.openQuote = d.openQuote ∧ n.name = d.name ∧ n.closeQuote = d.closeQuote)
    (h : trim (upToCut (d.nameText ++ (d.gap ++ s))) = n.text ++ rest) : lineFeed ∉ d.gap := by
  intro hmem
  obtain ⟨g, g', hgap, hg⟩ := List.eq_append_cons_of_mem hmem
  have hspace : ∀ u ∈ g, isSpace u = true := fun u hu ↦
    d.gap_ok.space u (by rw [hgap]; exact List.mem_append_left _ hu)
  have hmark : ∀ u ∈ g, ¬ isMark u := by
    rintro u hu (rfl | rfl)
    · exact hg hu
    · cases hspace _ hu
  have hcut : upToCut (d.gap ++ s) = g := by
    rw [hgap, List.append_assoc, upToCut_append hmark, List.cons_append, upToCut,
      if_pos (show cuts lineFeed (g' ++ s) = true from rfl), List.append_nil]
  have hnil : trimEnd g = [] := trimEnd_eq_nil_iff.mpr hspace
  rw [upToCut_append (d.nameText_not_mark hname hquotes), hcut,
    trim_congr (trimEnd_append_of_nil d.nameText hnil)] at h
  have htext : n.text = d.nameText ++ n.gap := by
    simp [ColumnName.text, nameText, hn]
  have hle : (trim d.nameText).length ≤ d.nameText.length :=
    (List.rdropWhile_prefix isSpace _).length_le.trans (List.dropWhile_suffix isSpace).length_le
  have hpos := List.length_pos_of_ne_nil n.gap_ok.ne
  rw [h, htext, List.length_append, List.length_append] at hle
  omega

theorem trimStart_of_head {s : JsString} (h : s.head?.any isSpace = false) : trimStart s = s := by
  cases s with
  | nil => rfl
  | cons u s => exact List.dropWhile_cons_of_neg (Bool.eq_false_iff.mp h)

theorem head?_trimStart (s : JsString) : (trimStart s).head?.any isSpace = false := by
  induction s with
  | nil => rfl
  | cons u s ih =>
      rw [trimStart]
      cases hu : isSpace u with
      | true =>
          rw [List.dropWhile_cons_of_pos hu]
          exact ih
      | false =>
          rw [List.dropWhile_cons_of_neg (Bool.eq_false_iff.mp hu)]
          exact hu

/-- A trimmed line is what the trimmed text starts with. -/
theorem trim_upToCut_isPrefix (s : JsString) : trim (upToCut (trimStart s)) <+: trimStart s := by
  have hprefix := isPrefix_upToCut (trimStart s)
  rw [trim, trimStart_of_head (head?_of_isPrefix hprefix (head?_trimStart s))]
  exact (List.rdropWhile_prefix isSpace _).trans hprefix

theorem readable_of_statement {file : JsString} {st : Statement} (htext : st.text = d.text)
    (htable : st.heading.name.name = d.table) {x y : JsString} (hbody : st.body = x ++ y)
    (hcut : Cut x y) (hplace : st.front ++ (x ++ y.takeWhile isSpace) = d.front) {c : Column}
    (hread : readColumn st.heading.name.name file (upToCut y) = some c)
    (hcolumn : c.column = d.name) (hrep : c.rep = d.type.rep) : d.Readable := by
  obtain ⟨hne, -, name, rest, t, hmatch, -, htype, rfl⟩ := readColumn_eq_some_iff.mp hread
  obtain rfl : name = d.name := hcolumn
  obtain ⟨n, hn, hline, hrest⟩ := exists_of_matchColumn hmatch
  obtain ⟨hspace, htrim⟩ := trim_upToCut hne
  rw [htrim] at hmatch hline
  -- the body from the definition on
  have hlead : y.takeWhile isSpace ++ trimStart y = y := List.takeWhile_append_dropWhile
  have hz : trimStart y ++ closeParen :: semicolon :: st.later =
      d.nameText ++ (d.gap ++ (d.typeText ++ d.back)) := by
    refine (List.append_right_inj d.front).mp ?_
    rw [← Definition.text, ← htext, Statement.text, hbody, ← hplace]
    simp only [List.append_assoc]
    rw [← List.append_assoc (y.takeWhile isSpace), hlead]
  obtain ⟨w, hw⟩ := hline ▸ trim_upToCut_isPrefix y
  rw [← hw, List.append_assoc, List.append_assoc] at hz
  obtain ⟨hopen, hclose⟩ := d.name_of_append_eq hn hz
  rw [← List.append_assoc, ← List.append_assoc, hw] at hz
  have hname : d.name ≠ [] ∧ ∀ u ∈ d.name, isWordChar u = true := hn ▸ ⟨n.name_ne, n.name_ok⟩
  have hquotes : OptQuote d.openQuote ∧ OptQuote d.closeQuote :=
    ⟨hopen ▸ n.openQuote_ok, hclose ▸ n.closeQuote_ok⟩
  have hsemicolon : semicolon ∉ d.nameText ++ (d.gap ++ d.typeText) := by
    have hgap : semicolon ∉ d.gap := fun h ↦ by cases d.gap_ok.space _ h
    simp [hgap, d.semicolon_notMem_typeText, d.semicolon_notMem_nameText hname hquotes]
  have hbody' : semicolon ∉ x ∧ semicolon ∉ trimStart y := by
    have h := st.body_ok
    rw [hbody, ← hlead] at h
    simp only [List.mem_append, not_or] at h
    exact ⟨h.1, h.2.2⟩
  obtain ⟨after, hafter, hback⟩ := d.exists_after hbody'.2 hsemicolon
    (hz.trans (by simp only [List.append_assoc]))
  have hafter' : trimStart y = d.nameText ++ (d.gap ++ (d.typeText ++ after)) := by
    rw [hafter]
    simp only [List.append_assoc]
  rw [hafter'] at hline hmatch hbody'
  have hgap := d.lineFeed_notMem_gap hname hquotes ⟨hopen, hn, hclose⟩ hline
  rw [d.trim_upToCut_definition hname hquotes hgap, d.matchColumn_definition hname hquotes]
    at hmatch
  have hbehind := d.head?_after hback
  split at hmatch
  · cases hmatch
  · next hline' =>
      obtain rfl := (Prod.mk.inj (Option.some.inj hmatch)).2
      exact ⟨{
        earlier := st.earlier
        pre := st.pre
        heading := st.heading
        before := x
        lead := y.takeWhile isSpace
        after := after
        later := st.later
        front_eq := by rw [← hplace, Statement.front]; simp only [List.append_assoc]
        back_eq := hback
        earlier_ok := st.earlier_ok
        pre_ok := st.pre_ok
        body_ok := ⟨hbody'.1, fun h ↦ hbody'.2 (by simp [h])⟩
        table_ok := htable
        name_ok := hname
        quotes_ok := hquotes
        gap_ok := hgap
        lead_ok := fun u hu ↦
          ⟨List.mem_takeWhile_imp hu, fun h ↦ hspace u hu (.inl h)⟩
        line := by rw [← hafter', hlead]; exact hcut
        oneLine := Bool.eq_false_iff.mpr hline'
        noEarlierType := (d.readType_rest_iff hbehind).mp ⟨t, htype, hrep⟩ }⟩

instance (file : JsString) : Decidable (d.Reported file) :=
  inferInstanceAs (Decidable (∃ c ∈ extractSql d.text file, _ ∧ _ ∧ _))

end Definition

theorem tail_ok_of_all {tail : JsString}
    (h : (tail.all fun u ↦ u != comma && u != semicolon && !isLineTerminator u) = true) :
    ∀ u ∈ tail, u ≠ comma ∧ u ≠ semicolon ∧ isLineTerminator u = false := fun u hu ↦ by
  have hall := List.all_eq_true.mp h u hu
  simpa [and_assoc] using hall

/-- An unbounded text with a comment behind it. -/
def commentedText : Definition where
  front := literal "CREATE TABLE t (\n  "
  openQuote := []
  name := literal "id"
  closeQuote := []
  gap := [space]
  written := literal "text"
  tail := literal " PRIMARY KEY -- holds a uuid"
  back := literal "\n);"
  table := literal "t"
  type := sqlTypes.get ⟨6, by decide⟩
  openQuote_ok := .inl rfl
  closeQuote_ok := .inl rfl
  gap_ok := gap_space
  type_ok := List.get_mem _ _
  written_ok := by decide
  tail_ok := tail_ok_of_all (by decide)
  tail_head := by decide
  tail_last := by decide
  back_head := by decide
  identifier := by decide

/-- A key of two columns names its column a second time. -/
def keyOfTwo : Definition where
  front := literal "CREATE TABLE t (org_id bigint, "
  openQuote := []
  name := literal "id"
  closeQuote := []
  gap := [space]
  written := literal "TEXT"
  tail := literal " NOT NULL"
  back := literal ", PRIMARY KEY (org_id, id));"
  table := literal "t"
  type := sqlTypes.get ⟨6, by decide⟩
  openQuote_ok := .inl rfl
  closeQuote_ok := .inl rfl
  gap_ok := gap_space
  type_ok := List.get_mem _ _
  written_ok := by decide
  tail_ok := tail_ok_of_all (by decide)
  tail_head := by decide
  tail_last := by decide
  back_head := by decide
  identifier := by decide

theorem notMem_of_contains {c : U16} {s : JsString} (h : s.contains c = false) : c ∉ s := by
  rwa [List.contains_eq_mem, decide_eq_false_iff_not] at h

theorem rest_keyOfTwo :
    keyOfTwo.rest (literal ", PRIMARY KEY (org_id, id)") = literal "TEXT NOT NULL" := by
  decide

theorem keyOfTwo_noEarlierType : ∀ t ∈ sqlTypes.takeWhile (fun t ↦ t.rep ≠ keyOfTwo.type.rep),
    test t.re (literal "TEXT NOT NULL") = false := by
  have hall : ((sqlTypes.takeWhile fun t ↦ t.rep ≠ keyOfTwo.type.rep).all fun t ↦
      !test t.re (literal "TEXT NOT NULL")) = true := by
    decide
  intro t ht
  rw [← Bool.not_eq_true']
  exact List.all_eq_true.mp hall t ht

theorem keyOfTwo_readable : keyOfTwo.Readable := ⟨{
  earlier := []
  pre := []
  heading := plainHeading ⟨[], literal "t", [], .inl rfl, .inl rfl, by decide,
    List.all_eq_true.mp (by decide)⟩
  before := literal "org_id bigint,"
  lead := [space]
  after := literal ", PRIMARY KEY (org_id, id)"
  later := []
  front_eq := by decide
  back_eq := by decide
  earlier_ok := .inl rfl
  pre_ok := ⟨List.not_mem_nil, noHeading_nil⟩
  body_ok := ⟨notMem_of_contains (by decide), notMem_of_contains (by decide)⟩
  table_ok := rfl
  name_ok := ⟨by decide, List.all_eq_true.mp (by decide)⟩
  quotes_ok := ⟨.inl rfl, .inl rfl⟩
  gap_ok := by decide
  lead_ok := List.forall_mem_singleton.mpr ⟨rfl, by decide⟩
  line := .inr ⟨comma, by decide, by decide⟩
  oneLine := by rw [rest_keyOfTwo]; decide
  noEarlierType := by rw [rest_keyOfTwo]; exact keyOfTwo_noEarlierType }⟩

end Rivid.Check
