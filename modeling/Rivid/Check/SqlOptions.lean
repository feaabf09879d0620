import Rivid.Check.SqlTable

/-!
# Table options

The table pattern asks for the closing parenthesis of a statement and its semicolon next to each
other.  A statement with any text between them, such as table options, is not seen, unless the
options have what the pattern takes for the end of a body of their own.
-/

namespace Rivid.Check

open Regex

/-- The text `CREATE TABLE t (columns)o;`, with all text behind the closing parenthesis in `o`. -/
def createTable (t columns o : JsString) : JsString :=
  literal "CREATE TABLE " ++ (t ++ (literal " (" ++ (columns ++ closeParen :: (o ++ [semicolon]))))

/-- A match has an opening parenthesis and a body behind it that is not empty. -/
theorem exists_body_of_mem_run {m m' : Place U16} (h : m' ∈ run tableRe m) :
    ∃ w b, b ≠ [] ∧ m.after = w ++ openParen :: (b ++ closeParen :: semicolon :: m'.after) := by
  refine seqAll_append (P := fun _ ↦ True) (Q := fun r ↦ ∀ m m', m' ∈ run r m → ∃ w b, b ≠ [] ∧
    m.after = w ++ openParen :: (b ++ closeParen :: semicolon :: m'.after))
    headingParts.dropLast (char openParen :: bodyParts) ?_ (List.cons_ne_nil _ _) ?_
    (fun _ _ ↦ trivial) m m' h
  · rintro r t - ht m m' hm'
    obtain ⟨m₁, hm₁, hm'⟩ := List.mem_flatMap.mp hm'
    obtain ⟨u, hu, -⟩ := exists_consumed hm₁
    obtain ⟨w, b, hb, hafter⟩ := ht m₁ m' hm'
    exact ⟨u ++ w, b, hb, by rw [hu.1, hafter, List.append_assoc]⟩
  · intro m m' hm'
    obtain ⟨m₁, hm₁, hm'⟩ := List.mem_flatMap.mp hm'
    obtain ⟨m₂, hm₂, hm'⟩ := List.mem_flatMap.mp hm'
    obtain ⟨m₃, hm₃, hm'⟩ := List.mem_flatMap.mp hm'
    obtain ⟨u, after, hopen, hu, rfl⟩ := mem_run_set_iff.mp hm₁
    obtain ⟨m₂', hm₂', rfl⟩ := List.mem_map.mp hm₂
    obtain ⟨m₀, hm₀, hm₂'⟩ := List.mem_flatMap.mp hm₂'
    obtain ⟨c, after₀, hc, -, rfl⟩ := mem_run_set_iff.mp hm₀
    obtain ⟨b, hb, -⟩ := exists_consumed hm₂'
    obtain ⟨v, after₃, hclose, hv, rfl⟩ := mem_run_set_iff.mp hm₃
    obtain ⟨e, after', hsemicolon, he, rfl⟩ := mem_run_set_iff.mp hm'
    obtain rfl := eq_of_beq hu
    obtain rfl := eq_of_beq hv
    obtain rfl := eq_of_beq he
    refine ⟨[], c :: b, List.cons_ne_nil c b, ?_⟩
    have hbody : after = c :: (b ++ closeParen :: semicolon :: after') :=
      hc.trans (congrArg (c :: ·) (hb.1.trans
        (congrArg (b ++ ·) (hclose.trans (congrArg (closeParen :: ·) hsemicolon)))))
    rw [hopen, hbody]
    rfl

/-- A list of column definitions and table options. -/
structure TableText where
  columns : JsString
  options : JsString
  columns_ok : semicolon ∉ columns
  options_ok : semicolon ∉ options ∧ openParen ∉ options ∧ closeParen ∉ options

/-- The last statement of a text and what is in front of it. -/
theorem exists_last_statement (x : JsString) : ∃ x₁ x₂, x = x₁ ++ x₂ ∧
    (x₁ = [] ∨ x₁.getLast? = some semicolon) ∧ semicolon ∉ x₂ := by
  induction x using List.reverseRecOn with
  | nil => exact ⟨[], [], rfl, .inl rfl, List.not_mem_nil⟩
  | append_singleton x u ih =>
      by_cases hu : u = semicolon
      · refine ⟨x ++ [u], [], (List.append_nil _).symm, .inr ?_, List.not_mem_nil⟩
        rw [List.getLast?_concat, hu]
      · obtain ⟨x₁, x₂, rfl, hx₁, hx₂⟩ := ih
        refine ⟨x₁, x₂ ++ [u], List.append_assoc x₁ x₂ [u], hx₁, fun h ↦ ?_⟩
        rcases List.mem_append.mp h with h | h
        · exact hx₂ h
        · exact hu (List.mem_singleton.mp h).symm

/-- A statement with options has no match. -/
theorem extractSql_options {x o : JsString} (hx : semicolon ∉ x) (hne : o ≠ [])
    (hsemicolon : semicolon ∉ o) (hparen : closeParen ∉ o) (file : JsString) :
    extractSql (x ++ closeParen :: (o ++ [semicolon])) file = [] := by
  refine List.flatMap_eq_nil_iff.mpr fun m hm ↦ ?_
  have hclose : semicolon ≠ closeParen := by decide
  have hfront : semicolon ∉ x ++ closeParen :: o := by simp [hx, hsemicolon, hclose]
  have htext : x ++ closeParen :: (o ++ [semicolon]) = (x ++ closeParen :: o) ++ [semicolon] := by
    simp
  rw [htext] at hm
  obtain ⟨-, hlast⟩ := ends_of_mem_matchAll hfront hm
  rw [← List.singleton_append, ← List.append_assoc,
    List.getLast?_append_of_ne_nil _ hne] at hlast
  exact absurd (List.mem_of_getLast? hlast) hparen

theorem extractSql_eq_nil_iff {text file : JsString} : extractSql text file = [] ↔
    ∀ m ∈ matchAll tableRe text,
      ∀ item ∈ split separatorRe ((m.group 2).getD []), ¬ DeclaresIdentifier item := by
  rw [extractSql, List.flatMap_eq_nil_iff]
  exact forall₂_congr fun m _ ↦ readTable_eq_nil_iff

/-- Options make a difference if the last statement has an identifier column. -/
theorem extractSql_options_eq_iff {o : JsString} (hsemicolon : semicolon ∉ o)
    (hparen : closeParen ∉ o) (x rest file : JsString) :
    extractSql (x ++ closeParen :: (o ++ [semicolon]) ++ rest) file =
        extractSql (x ++ [closeParen, semicolon] ++ rest) file ↔
      o = [] ∨ ∀ m ∈ matchAll tableRe (x ++ [closeParen, semicolon]), m.after = [] →
        ∀ item ∈ split separatorRe ((m.group 2).getD []), ¬ DeclaresIdentifier item := by
  by_cases hne : o = []
  · rw [hne]
    exact iff_of_true rfl (.inl rfl)
  obtain ⟨x₁, x₂, rfl, hx₁, hx₂⟩ := exists_last_statement x
  let plain := x₂ ++ [closeParen, semicolon]
  have hsplit : ∀ y : JsString, y.getLast? = some semicolon →
      extractSql (x₁ ++ (y ++ rest)) file =
        extractSql x₁ file ++ (extractSql y file ++ extractSql rest file) := fun y hy ↦ by
    rw [extractSql_append hx₁, extractSql_append (.inr hy)]
  have hoptions : extractSql (x₁ ++ x₂ ++ closeParen :: (o ++ [semicolon]) ++ rest) file =
      extractSql x₁ file ++ ([] ++ extractSql rest file) := by
    have hlast : (x₂ ++ closeParen :: (o ++ [semicolon])).getLast? = some semicolon := by
      rw [← List.cons_append, ← List.append_assoc]
      exact List.getLast?_concat
    rw [← extractSql_options hx₂ hne hsemicolon hparen file, ← hsplit _ hlast, List.append_assoc,
      List.append_assoc, ← List.append_assoc x₂]
  have hplain : extractSql (x₁ ++ x₂ ++ [closeParen, semicolon] ++ rest) file =
      extractSql x₁ file ++ (extractSql plain file ++ extractSql rest file) := by
    have hlast : plain.getLast? = some semicolon := by simp [plain]
    rw [← hsplit plain hlast, List.append_assoc, List.append_assoc, ← List.append_assoc x₂]
  rw [hoptions, hplain, List.append_cancel_left_eq, List.nil_append, List.self_eq_append_left,
    extractSql_eq_nil_iff, List.append_assoc, matchAll_tableRe_append hx₁]
  constructor
  · refine fun h ↦ .inr fun m hm hafter ↦ ?_
    rcases List.mem_append.mp hm with hm | hm
    · obtain ⟨m', -, rfl⟩ := List.mem_map.mp hm
      simp [Place.extend] at hafter
    · obtain ⟨m', hm', rfl⟩ := List.mem_map.mp hm
      exact h m' hm'
  · intro h m hm
    have hend : plain = (x₂ ++ [closeParen]) ++ [semicolon] := by simp [plain]
    have hclose : semicolon ∉ x₂ ++ [closeParen] := fun hmem ↦
      (List.mem_append.mp hmem).elim hx₂ (by decide)
    obtain ⟨hafter, -⟩ := ends_of_mem_matchAll hclose (hend ▸ hm)
    have hmem : m.prepend x₁.reverse ∈ (matchAll tableRe x₁).map (Place.extend plain) ++
        (matchAll tableRe plain).map (Place.prepend x₁.reverse) :=
      List.mem_append_right _ (List.mem_map_of_mem hm)
    exact (h.resolve_left hne) (m.prepend x₁.reverse) hmem hafter

theorem createTable_text (t : TableName) (columns o : JsString) : createTable t.text columns o =
    (plainHeading t).text ++ (columns ++ closeParen :: (o ++ [semicolon])) := by
  have hcreate : literal "CREATE TABLE " = literal "CREATE" ++ ([space] ++ (literal "TABLE" ++
    [space])) := by decide
  have hparen : literal " (" = [space] ++ [openParen] := by decide
  rw [createTable, Heading.text, hcreate, hparen]
  simp [plainHeading]

theorem openParen_notMem_text (t : TableName) : openParen ∉ t.text := by
  have hquote : ∀ q, OptQuote q → openParen ∉ q := by
    rintro q (rfl | ⟨u, rfl, hu⟩) h
    · cases h
    · obtain rfl := List.mem_singleton.mp h
      cases hu
  have hname : openParen ∉ t.name := fun h ↦ by
    have := t.name_ok _ h
    cases this
  simp [TableName.text, hquote _ t.openQuote_ok, hquote _ t.closeQuote_ok, hname]

/-- A statement with an empty list has no match. -/
theorem matchAll_empty_columns (t : TableName) :
    matchAll tableRe (createTable t.text [] []) = [] := by
  refine List.eq_nil_iff_forall_not_mem.mpr fun m hm ↦ ?_
  obtain ⟨u, v, htext, hrun⟩ := mem_matchAll hm
  obtain ⟨w, b, hb, hafter⟩ := exists_body_of_mem_run hrun
  have hfront : openParen ∉ literal "CREATE TABLE " ++ (t.text ++ [space]) := by
    have hcreate : openParen ∉ literal "CREATE TABLE " := by decide
    have hspace : openParen ≠ space := by decide
    simp [hcreate, openParen_notMem_text, hspace]
  have hparen : literal " (" = [space] ++ [openParen] := by decide
  have heq : literal "CREATE TABLE " ++ (t.text ++ [space]) ++
      openParen :: [closeParen, semicolon] =
      (u ++ w) ++ openParen :: (b ++ closeParen :: semicolon :: m.after) := by
    rw [List.append_assoc u, ← show v = _ from hafter, ← htext, createTable, hparen]
    simp
  obtain ⟨-, -, hbody⟩ := (List.append_cons_inj_of_notMem hfront (by decide)).mp heq
  have hlen := congrArg List.length hbody
  rw [List.length_append, List.length_cons, List.length_cons, List.length_cons, List.length_cons,
    List.length_nil] at hlen
  exact hb (List.length_eq_zero_iff.mp (by omega))

/-- The columns of a statement with options are those of the statement without them exactly if
there are no options or no identifier column is lost.  For a name that the table pattern reads,
these are the identifier columns of the list. -/
theorem options_hide_table (s : TableText) (rest file : JsString) :
    (∀ t, extractSql (createTable t s.columns s.options ++ rest) file =
        extractSql (createTable t s.columns [] ++ rest) file ↔
      s.options = [] ∨ ∀ m ∈ matchAll tableRe (createTable t s.columns []), m.after = [] →
        ∀ item ∈ split separatorRe ((m.group 2).getD []), ¬ DeclaresIdentifier item) ∧
    ∀ t : TableName, extractSql (createTable t.text s.columns s.options ++ rest) file =
        extractSql (createTable t.text s.columns [] ++ rest) file ↔
      s.options = [] ∨ ∀ item ∈ split separatorRe s.columns, ¬ DeclaresIdentifier item := by
  have hany : ∀ t, extractSql (createTable t s.columns s.options ++ rest) file =
      extractSql (createTable t s.columns [] ++ rest) file ↔
        s.options = [] ∨ ∀ m ∈ matchAll tableRe (createTable t s.columns []), m.after = [] →
          ∀ item ∈ split separatorRe ((m.group 2).getD []), ¬ DeclaresIdentifier item := by
    intro t
    have htext : ∀ o, createTable t s.columns o = (literal "CREATE TABLE " ++ (t ++ (literal " (" ++
        s.columns))) ++ closeParen :: (o ++ [semicolon]) := fun o ↦ by simp [createTable]
    rw [htext, htext]
    exact extractSql_options_eq_iff s.options_ok.1 s.options_ok.2.2 _ _ _
  refine ⟨hany, fun t ↦ (hany t.text).trans (or_congr_right ?_)⟩
  by_cases hne : s.columns = []
  · rw [hne, matchAll_empty_columns]
    refine iff_of_true (fun m hm ↦ absurd hm List.not_mem_nil) fun item hitem hdecl ↦ ?_
    obtain rfl : item = [] := List.mem_singleton.mp hitem
    exact hdecl.ne rfl
  · obtain ⟨before, hm⟩ := matchAll_statement (plainHeading t) hne s.columns_ok
    rw [createTable_text, List.nil_append, hm]
    constructor
    · exact fun h ↦ h _ (List.mem_singleton.mpr rfl) rfl
    · rintro h m hmem -
      obtain rfl := List.mem_singleton.mp hmem
      exact h

/-- The engine of a table hides its key. -/
theorem engine_hides_table :
    extractSql (createTable (literal "t") (literal "id uuid PRIMARY KEY")
        (literal " ENGINE=InnoDB")) (literal "schema.sql") ≠
      extractSql (createTable (literal "t") (literal "id uuid PRIMARY KEY") [])
        (literal "schema.sql") := by
  decide

end Rivid.Check