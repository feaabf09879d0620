import Rivid.Check.SqlTable
import Rivid.Check.SqlLines

/-!
# The statements of a schema

What the table pattern finds, in terms of the text alone.  The pattern reads a statement from the
first heading behind the semicolon of the statement before, and up to the next semicolon, if a
closing parenthesis comes right in front of that and there is something to read in between.  Each
column that is extracted comes from a line of such a statement.
-/

namespace Rivid.Check

open Regex

/-! ## What is matched is a statement -/

theorem exists_of_mem_run_gap {m m' : Place U16} (h : m' ∈ run gap m) :
    ∃ g, Gap g ∧ m.after = g ++ m'.after := by
  obtain ⟨g, hne, hg, hafter, -⟩ := exists_of_mem_run_plus_set h
  exact ⟨g, ⟨hne, hg⟩, hafter.1⟩

theorem exists_of_mem_run_ifNotExists {m m' : Place U16} (h : m' ∈ run ifNotExistsRe m) :
    ∃ clause, IfNotExists clause ∧ m.after = clause ++ m'.after := by
  rcases List.mem_append.mp h with h | h
  · obtain ⟨m₁, hm₁, h⟩ := List.mem_flatMap.mp h
    obtain ⟨m₂, hm₂, h⟩ := List.mem_flatMap.mp h
    obtain ⟨m₃, hm₃, h⟩ := List.mem_flatMap.mp h
    obtain ⟨m₄, hm₄, h⟩ := List.mem_flatMap.mp h
    obtain ⟨m₅, hm₅, hm₆⟩ := List.mem_flatMap.mp h
    obtain ⟨w₁, hw₁, hafter₁⟩ := exists_of_mem_run_word hm₁
    obtain ⟨g₁, hg₁, hafter₂⟩ := exists_of_mem_run_gap hm₂
    obtain ⟨w₂, hw₂, hafter₃⟩ := exists_of_mem_run_word hm₃
    obtain ⟨g₂, hg₂, hafter₄⟩ := exists_of_mem_run_gap hm₄
    obtain ⟨w₃, hw₃, hafter₅⟩ := exists_of_mem_run_word hm₅
    obtain ⟨g₃, hg₃, hafter₆⟩ := exists_of_mem_run_gap hm₆
    refine ⟨_, .present hw₁ hg₁ hw₂ hg₂ hw₃ hg₃, ?_⟩
    rw [hafter₁, hafter₂, hafter₃, hafter₄, hafter₅, hafter₆]
    simp only [List.append_assoc]
  · obtain rfl := List.mem_singleton.mp h
    exact ⟨[], .absent, rfl⟩

/-- The name of the table and the opening parenthesis. -/
theorem exists_of_mem_run_name {t : Regex U16} {m m' : Place U16}
    (h : m' ∈ run (seq nameQuote (seq (group 1 (plus (set isTableChar))) (seq nameQuote
      (seq spaces (seq (char openParen) t))))) m) :
    ∃ (n : TableName) (g : JsString) (m₁ : Place U16), (∀ u ∈ g, isSpace u = true) ∧
      m' ∈ run t m₁ ∧ m.after = n.text ++ (g ++ openParen :: m₁.after) := by
  obtain ⟨m₁, hm₁, h⟩ := List.mem_flatMap.mp h
  obtain ⟨m₂, hm₂, h⟩ := List.mem_flatMap.mp h
  obtain ⟨m₃, hm₃, h⟩ := List.mem_flatMap.mp h
  obtain ⟨m₄, hm₄, h⟩ := List.mem_flatMap.mp h
  obtain ⟨m₅, hm₅, h⟩ := List.mem_flatMap.mp h
  obtain ⟨m₂', hm₂', rfl⟩ := List.mem_map.mp hm₂
  obtain ⟨q, hq, hafter₁, -⟩ := exists_of_mem_run_opt_set hm₁
  obtain ⟨name, hne, hname, hafter₂, -⟩ := exists_of_mem_run_plus_set hm₂'
  obtain ⟨q', hq', hafter₃, -⟩ := exists_of_mem_run_opt_set hm₃
  obtain ⟨g, hg, havoid⟩ := exists_consumed hm₄
  obtain ⟨u, after, hafter₅, hu, rfl⟩ := mem_run_set_iff.mp hm₅
  obtain rfl := eq_of_beq hu
  have hspace : ∀ c ∈ g, isSpace c = true := fun c hc ↦ by
    by_contra hs
    exact havoid c (Bool.eq_false_iff.mpr hs) hc
  refine ⟨⟨q, name, q', hq, hq', hne, hname⟩, g, _, hspace, h, ?_⟩
  rw [hafter₁, hafter₂.1, show m₂'.after = q' ++ m₃.after from hafter₃, hg.1, hafter₅,
    TableName.text]
  simp only [List.append_assoc]
  rfl

theorem exists_of_mem_run_bodyParts {m m' : Place U16} (h : m' ∈ run (seqAll bodyParts) m) :
    ∃ body, body ≠ [] ∧ semicolon ∉ body ∧
      m.after = body ++ closeParen :: semicolon :: m'.after := by
  obtain ⟨m₁, hm₁, h⟩ := List.mem_flatMap.mp h
  obtain ⟨m₂, hm₂, hm₃⟩ := List.mem_flatMap.mp h
  obtain ⟨m₁', hm₁', rfl⟩ := List.mem_map.mp hm₁
  obtain ⟨m₀, hm₀, hm₁'⟩ := List.mem_flatMap.mp hm₁'
  obtain ⟨u, after₀, hafter₀, hu, rfl⟩ := mem_run_set_iff.mp hm₀
  obtain ⟨body, hbody, havoid⟩ := exists_consumed hm₁'
  obtain ⟨v, after₂, hafter₂, hv, rfl⟩ := mem_run_set_iff.mp hm₂
  obtain ⟨e, after₃, hafter₃, he, rfl⟩ := mem_run_set_iff.mp hm₃
  obtain rfl := eq_of_beq hv
  obtain rfl := eq_of_beq he
  have hne : semicolon ≠ u := (bne_iff_ne.mp hu).symm
  have hrest : semicolon ∉ body := havoid semicolon (bne_self_eq_false semicolon)
  refine ⟨u :: body, List.cons_ne_nil u body, fun hmem ↦ ?_, ?_⟩
  · exact (List.mem_cons.mp hmem).elim hne hrest
  · have hbehind : m₁'.after = closeParen :: semicolon :: after₃ :=
      hafter₂.trans (congrArg (closeParen :: ·) hafter₃)
    rw [hafter₀, show after₀ = body ++ m₁'.after from hbody.1, hbehind]
    rfl

/-- A match starts with a heading and ends with a closing parenthesis and the next semicolon. -/
theorem exists_heading_of_mem_run {m m' : Place U16} (h : m' ∈ run tableRe m) :
    ∃ (h : Heading) (body : JsString), body ≠ [] ∧ semicolon ∉ body ∧
      m.after = h.text ++ (body ++ closeParen :: semicolon :: m'.after) := by
  obtain ⟨m₁, hm₁, h⟩ := List.mem_flatMap.mp h
  obtain ⟨m₂, hm₂, h⟩ := List.mem_flatMap.mp h
  obtain ⟨m₃, hm₃, h⟩ := List.mem_flatMap.mp h
  obtain ⟨m₄, hm₄, h⟩ := List.mem_flatMap.mp h
  obtain ⟨m₅, hm₅, h⟩ := List.mem_flatMap.mp h
  obtain ⟨w₁, hw₁, hafter₁⟩ := exists_of_mem_run_word hm₁
  obtain ⟨g₁, hg₁, hafter₂⟩ := exists_of_mem_run_gap hm₂
  obtain ⟨w₂, hw₂, hafter₃⟩ := exists_of_mem_run_word hm₃
  obtain ⟨g₂, hg₂, hafter₄⟩ := exists_of_mem_run_gap hm₄
  obtain ⟨clause, hclause, hafter₅⟩ := exists_of_mem_run_ifNotExists hm₅
  obtain ⟨name, g₃, m₆, hg₃, hbody, hafter₆⟩ := exists_of_mem_run_name (t := seqAll bodyParts) h
  obtain ⟨body, hne, hsemicolon, hafter₇⟩ := exists_of_mem_run_bodyParts hbody
  refine ⟨⟨w₁, g₁, w₂, g₂, clause, name, g₃, hw₁, hg₁, hw₂, hg₂, hclause, hg₃⟩, body, hne,
    hsemicolon, ?_⟩
  rw [hafter₁, hafter₂, hafter₃, hafter₄, hafter₅, hafter₆, hafter₇, Heading.text]
  simp

/-! ## Headings do not overlap -/

/-- The heading without its parenthesis. -/
def Heading.front (h : Heading) : JsString :=
  h.create ++ (h.gap₁ ++ (h.table ++ (h.gap₂ ++ (h.clause ++ (h.name.text ++ h.gap₃)))))

theorem Heading.text_eq (h : Heading) : h.text = h.front ++ [openParen] := by
  simp [Heading.text, Heading.front]

theorem lower_mem_of_word {s : String} {w : JsString} (h : w.map lower = literal s) {u : U16}
    (hu : u ∈ w) : lower u ∈ literal s :=
  h ▸ List.mem_map_of_mem hu

theorem isWordChar_of_word {s : String} (hs : (literal s).all isWordChar = true) {w : JsString}
    (h : w.map lower = literal s) {u : U16} (hu : u ∈ w) : isWordChar u = true := by
  rw [← isWordChar_lower]
  exact List.all_eq_true.mp hs _ (lower_mem_of_word h hu)

/-- What holds of space and of the words of a clause holds of the clause. -/
theorem IfNotExists.forall_mem {clause : JsString} (h : IfNotExists clause) {P : U16 → Prop}
    (hspace : ∀ u, isSpace u = true → P u)
    (hword : ∀ s ∈ ["if", "not", "exists"], ∀ w : JsString, w.map lower = literal s →
      ∀ u ∈ w, P u) : ∀ u ∈ clause, P u := by
  cases h with
  | absent => exact List.forall_mem_nil _
  | present hw₁ hg₁ hw₂ hg₂ hw₃ hg₃ =>
      simp only [List.forall_mem_append]
      exact ⟨hword "if" (by decide) _ hw₁, fun u hu ↦ hspace u (hg₁.space u hu),
        hword "not" (by decide) _ hw₂, fun u hu ↦ hspace u (hg₂.space u hu),
        hword "exists" (by decide) _ hw₃, fun u hu ↦ hspace u (hg₃.space u hu)⟩

theorem OptQuote.isNameQuote {q : JsString} (h : OptQuote q) : ∀ u ∈ q, isNameQuote u = true := by
  rcases h with rfl | ⟨u, rfl, hu⟩
  · exact List.forall_mem_nil _
  · exact List.forall_mem_singleton.mpr hu

theorem TableName.text_ok (t : TableName) :
    ∀ u ∈ t.text, isTableChar u = true ∨ isNameQuote u = true := by
  rw [TableName.text]
  simp only [List.forall_mem_append]
  exact ⟨fun u hu ↦ .inr (t.openQuote_ok.isNameQuote u hu), fun u hu ↦ .inl (t.name_ok u hu),
    fun u hu ↦ .inr (t.closeQuote_ok.isNameQuote u hu)⟩

/-- The characters of a heading in front of its parenthesis. -/
theorem Heading.front_ok (h : Heading) : ∀ u ∈ h.front,
    isSpace u = true ∨ isTableChar u = true ∨ isNameQuote u = true := by
  have htable : ∀ {u}, isWordChar u = true →
      isSpace u = true ∨ isTableChar u = true ∨ isNameQuote u = true := fun {u} hu ↦
    .inr (.inl (by rw [isTableChar, hu, Bool.true_or]))
  have hwords : ∀ s ∈ ["if", "not", "exists"], (literal s).all isWordChar = true := by decide
  rw [Heading.front]
  simp only [List.forall_mem_append]
  refine ⟨fun u hu ↦ htable (isWordChar_of_word (by decide) h.create_ok hu),
    fun u hu ↦ .inl (h.gap₁_ok.space u hu),
    fun u hu ↦ htable (isWordChar_of_word (by decide) h.table_ok hu),
    fun u hu ↦ .inl (h.gap₂_ok.space u hu), ?_, fun u hu ↦ .inr (h.name.text_ok u hu),
    fun u hu ↦ .inl (h.gap₃_ok u hu)⟩
  exact h.clause_ok.forall_mem (fun u hu ↦ .inl hu) fun s hs w hw u hu ↦
    htable (isWordChar_of_word (hwords s hs) hw hu)

theorem Heading.notMem_front (h : Heading) {c : U16} (hspace : isSpace c = false)
    (htable : isTableChar c = false) (hquote : isNameQuote c = false) : c ∉ h.front := fun hmem ↦ by
  rcases h.front_ok c hmem with hc | hc | hc
  · rw [hspace] at hc
    cases hc
  · rw [htable] at hc
    cases hc
  · rw [hquote] at hc
    cases hc

theorem Heading.semicolon_notMem (h : Heading) : semicolon ∉ h.text := by
  have hfront := h.notMem_front (c := semicolon) rfl rfl rfl
  have hparen : semicolon ≠ openParen := by decide
  rw [h.text_eq]
  simp [hfront, hparen]

theorem Heading.openParen_notMem (h : Heading) : openParen ∉ h.front :=
  h.notMem_front rfl rfl rfl

/-- The letter that a heading starts with. -/
def isC (u : U16) : Bool := lower u == 0x63

/-- An end of a text starts behind what has no such character in it. -/
theorem suffix_of_append {p : U16 → Bool} {s x y : JsString} (hs : s.head?.any p = true)
    (hx : ∀ u ∈ x, p u = false) (h : s <:+ x ++ y) : s <:+ y := by
  obtain ⟨t, ht⟩ := h
  rcases List.append_eq_append_iff.mp ht with ⟨a, rfl, rfl⟩ | ⟨a, -, rfl⟩
  · cases a with
    | nil => exact List.suffix_rfl
    | cons u a =>
        have hu : p u = true := hs
        rw [hx u (List.mem_append_right t List.mem_cons_self)] at hu
        cases hu
  · exact List.suffix_append a s

theorem isC_of_isSpace {u : U16} (h : isSpace u = true) : isC u = false := by
  rw [isC, lower_of_isSpace h]
  refine beq_eq_false_iff_ne.mpr fun hu ↦ ?_
  rw [hu] at h
  cases h

theorem isC_of_word {s : String} (hs : (literal s).contains 0x63 = false) {w : JsString}
    (h : w.map lower = literal s) : ∀ u ∈ w, isC u = false := fun u hu ↦ by
  rw [List.contains_eq_mem, decide_eq_false_iff_not] at hs
  exact beq_eq_false_iff_ne.mpr fun hc ↦ hs (hc ▸ lower_mem_of_word h hu)

/-- Behind the first space there is nothing but space. -/
theorem space_of_append_eq {x y a b : JsString} {u : U16} (h : x ++ y = a ++ u :: b)
    (hx : ∀ c ∈ x, isSpace c = false) (hy : ∀ c ∈ y, isSpace c = true) (hu : isSpace u = true) :
    ∀ c ∈ b, isSpace c = true := by
  intro c hc
  rcases List.append_eq_append_iff.mp h with ⟨d, -, rfl⟩ | ⟨d, rfl, hd⟩
  · exact hy c (List.mem_append_right d (List.mem_cons_of_mem u hc))
  · cases d with
    | nil =>
        obtain rfl : u :: b = y := hd
        exact hy c (List.mem_cons_of_mem u hc)
    | cons e d =>
        obtain ⟨rfl, -⟩ := List.cons.inj hd
        rw [hx u (List.mem_append_right a List.mem_cons_self)] at hu
        cases hu

theorem isSpace_of_word {s : String} (hs : (literal s).all isWordChar = true) {w : JsString}
    (h : w.map lower = literal s) {u : U16} (hu : u ∈ w) : isSpace u = false := by
  have htable : isTableChar u = true := by
    rw [isTableChar, isWordChar_of_word hs h hu, Bool.true_or]
  exact (isTableChar_ne htable).1

theorem ne_nil_of_word {s : String} (hs : literal s ≠ []) {w : JsString}
    (h : w.map lower = literal s) : w ≠ [] := fun hnil ↦ by
  rw [hnil] at h
  exact hs h.symm

/-- A heading has space between its words, and a name has none. -/
theorem Heading.not_suffix_name (h h' : Heading) : ¬ h.front <:+ h'.name.text ++ h'.gap₃ := by
  rintro ⟨t, ht⟩
  obtain ⟨v, gap, hgap⟩ := List.exists_cons_of_ne_nil h.gap₁_ok.ne
  obtain ⟨u, table, htable⟩ := List.exists_cons_of_ne_nil
    (ne_nil_of_word (by decide) h.table_ok)
  have hname : ∀ c ∈ h'.name.text, isSpace c = false := fun c hc ↦
    (h'.name.text_ok c hc).elim (fun hc ↦ (isTableChar_ne hc).1) fun hc ↦ (isNameQuote_ne hc).1
  have hsplit : h'.name.text ++ h'.gap₃ = (t ++ h.create) ++ v :: (gap ++
      (h.table ++ (h.gap₂ ++ (h.clause ++ (h.name.text ++ h.gap₃))))) := by
    rw [← ht, Heading.front, hgap]
    simp
  have hspace := space_of_append_eq hsplit hname h'.gap₃_ok
    (h.gap₁_ok.space v (hgap ▸ List.mem_cons_self)) u (by rw [htable]; simp)
  rw [isSpace_of_word (by decide) h.table_ok (htable ▸ List.mem_cons_self)] at hspace
  cases hspace

theorem Heading.head?_front (h : Heading) : h.front.head?.any isC = true := by
  have hcreate := h.create_ok
  obtain ⟨u, w, hw⟩ := List.exists_cons_of_ne_nil (ne_nil_of_word (by decide) hcreate)
  rw [hw] at hcreate
  have hu : lower u = 0x63 := (List.cons.inj hcreate).1
  rw [Heading.front, hw]
  exact beq_iff_eq.mpr hu

/-- No heading is the end of another one. -/
theorem Heading.eq_nil_of_append {h h' : Heading} {y : JsString} (heq : h'.front = y ++ h.front) :
    y = [] := by
  by_contra hne
  obtain ⟨v, y, rfl⟩ := List.exists_cons_of_ne_nil hne
  have hcreate := h'.create_ok
  obtain ⟨u, w, hw⟩ := List.exists_cons_of_ne_nil (ne_nil_of_word (by decide) hcreate)
  rw [hw] at hcreate
  have hrest : w.map lower = literal "reate" := (List.cons.inj hcreate).2
  have hfront := heq
  rw [Heading.front, hw] at hfront
  have hsuffix := suffix_of_append h.head?_front (isC_of_word (by decide) hrest)
    ⟨y, (List.cons.inj hfront).2.symm⟩
  have hspace : ∀ {s : JsString}, (∀ c ∈ s, isSpace c = true) → ∀ c ∈ s, isC c = false :=
    fun hs c hc ↦ isC_of_isSpace (hs c hc)
  have hwords : ∀ s ∈ ["if", "not", "exists"], (literal s).contains 0x63 = false := by decide
  have hclause : ∀ c ∈ h'.clause, isC c = false :=
    h'.clause_ok.forall_mem (fun c ↦ isC_of_isSpace) fun s hs w hw ↦ isC_of_word (hwords s hs) hw
  refine h.not_suffix_name h' ?_
  exact suffix_of_append h.head?_front hclause
    (suffix_of_append h.head?_front (hspace h'.gap₂_ok.space)
      (suffix_of_append h.head?_front (isC_of_word (by decide) h'.table_ok)
        (suffix_of_append h.head?_front (hspace h'.gap₁_ok.space) hsuffix)))

/-! ## The first heading of a text -/

/-- A text is cut in one way at the first place of a character. -/
theorem append_cons_inj_left {c : U16} {x y z w : JsString} (hx : c ∉ x) (hy : c ∉ y)
    (h : x ++ c :: z = y ++ c :: w) : x = y ∧ z = w := by
  rcases List.append_eq_append_iff.mp h with ⟨a, rfl, ha⟩ | ⟨a, rfl, ha⟩
  · cases a with
    | nil => exact ⟨(List.append_nil x).symm, (List.cons.inj ha).2⟩
    | cons u a =>
        obtain ⟨rfl, -⟩ := List.cons.inj ha
        exact absurd (List.mem_append_right x List.mem_cons_self) hy
  · cases a with
    | nil => exact ⟨List.append_nil y, (List.cons.inj ha).2.symm⟩
    | cons u a =>
        obtain ⟨rfl, -⟩ := List.cons.inj ha
        exact absurd (List.mem_append_right y List.mem_cons_self) hx

/-- No heading stands in the text. -/
def NoHeading (s : JsString) : Prop := ∀ h : Heading, ¬ h.text <:+: s

theorem noHeading_nil : NoHeading [] := fun h hinfix ↦ by
  have hnil := List.infix_nil.mp hinfix
  rw [h.text_eq] at hnil
  exact List.append_ne_nil_of_right_ne_nil _ (List.cons_ne_nil _ _) hnil

/-- A match does not start in a text without a heading, not even at its end. -/
theorem run_tableRe_eq_nil {pre : JsString} (hpre : NoHeading pre) (h : Heading) {x y : JsString}
    (hxy : pre = x ++ y) (hne : y ≠ []) (rest : JsString) :
    run tableRe ⟨x.reverse, y ++ (h.text ++ rest), []⟩ = [] := by
  refine List.eq_nil_iff_forall_not_mem.mpr fun m hm ↦ ?_
  obtain ⟨h', body, -, -, hafter⟩ := exists_heading_of_mem_run hm
  have hinfix : ¬ h'.text <+: y := fun ⟨z, hz⟩ ↦ hpre h' ⟨x, z, by rw [hxy, ← hz]; simp⟩
  rcases List.append_eq_append_iff.mp hafter with ⟨a, ha, hrest⟩ | ⟨a, rfl, -⟩
  · -- the parenthesis of the one heading is that of the other
    rcases List.eq_nil_or_concat a with rfl | ⟨b, u, rfl⟩
    · exact hinfix ⟨[], by rw [ha]; simp⟩
    · rw [List.concat_eq_append, h'.text_eq, ← List.append_assoc] at ha
      obtain ⟨hfront, hu⟩ := List.append_inj' ha rfl
      obtain rfl := (List.cons.inj hu).1
      have hb : openParen ∉ b := fun hmem ↦
        h'.openParen_notMem (hfront ▸ List.mem_append_right y hmem)
      have hparen : h.front ++ openParen :: rest =
          b ++ openParen :: (body ++ closeParen :: semicolon :: m.after) := by
        rw [List.concat_eq_append, h.text_eq] at hrest
        simpa using hrest
      obtain ⟨rfl, -⟩ := append_cons_inj_left h.openParen_notMem hb hparen
      exact hne (Heading.eq_nil_of_append hfront)
  · exact hinfix (List.prefix_append _ a)

theorem extractSql_preamble {pre : JsString} (hpre : NoHeading pre) (h : Heading)
    (rest file : JsString) : extractSql (pre ++ (h.text ++ rest)) file =
      extractSql (h.text ++ rest) file := by
  have hmatches := matchAll_append_of_nil forward_tableRe (u := pre) (v := h.text ++ rest)
    fun x y hxy hne ↦ run_tableRe_eq_nil hpre h hxy hne rest
  rw [extractSql, hmatches, List.flatMap_map]
  rfl

/-- Behind what is left of the first heading there is no other in front of it. -/
theorem exists_first_heading {s : JsString} : ∀ (n : ℕ) {u : JsString} {h : Heading}
    {v : JsString}, u.length ≤ n → s = u ++ (h.text ++ v) →
      ∃ (pre : JsString) (h' : Heading) (rest : JsString), s = pre ++ (h'.text ++ rest) ∧
        pre.length ≤ u.length ∧ NoHeading pre := by
  intro n
  induction n with
  | zero =>
      intro u h v hu hs
      obtain rfl := List.length_eq_zero_iff.mp (Nat.le_zero.mp hu)
      exact ⟨[], h, v, hs, le_rfl, noHeading_nil⟩
  | succ n ih =>
      intro u h v hu hs
      by_cases hnone : NoHeading u
      · exact ⟨u, h, v, hs, le_rfl, hnone⟩
      · obtain ⟨h', hinfix⟩ := not_forall.mp hnone
        obtain ⟨a, b, hab⟩ := not_not.mp hinfix
        have hlen := congrArg List.length hab
        simp only [h'.text_eq, List.length_append, List.length_singleton] at hlen
        obtain ⟨pre, h'', rest, hs', hle, hpre⟩ := ih (u := a) (h := h') (v := b ++ (h.text ++ v))
          (by omega) (by rw [hs, ← hab]; simp)
        exact ⟨pre, h'', rest, hs', by omega, hpre⟩

/-- A text that ends like a statement is one from its first heading on. -/
theorem exists_first_statement {s u body : JsString} {h : Heading} (hne : body ≠ [])
    (hs : s = u ++ (h.text ++ (body ++ [closeParen]))) :
    ∃ (pre : JsString) (h' : Heading) (body' : JsString),
      s = pre ++ (h'.text ++ (body' ++ [closeParen])) ∧ NoHeading pre ∧ body' ≠ [] := by
  obtain ⟨pre, h', rest, hs', hle, hpre⟩ := exists_first_heading u.length le_rfl hs
  have heq : (pre ++ h'.front) ++ openParen :: rest =
      (u ++ h.front) ++ openParen :: (body ++ [closeParen]) := by
    rw [h'.text_eq] at hs'
    rw [h.text_eq] at hs
    simpa using hs'.symm.trans hs
  rcases List.append_eq_append_iff.mp heq with ⟨a, -, ha⟩ | ⟨a, ha, hrest⟩
  · -- the first heading comes first
    cases a with
    | nil => exact ⟨pre, h', body, (List.cons.inj ha).2 ▸ hs', hpre, hne⟩
    | cons v a =>
        refine ⟨pre, h', a ++ openParen :: body, ?_, hpre, by simp⟩
        rw [hs', (List.cons.inj ha).2]
        simp
  · cases a with
    | nil => exact ⟨pre, h', body, (List.cons.inj hrest).2.symm ▸ hs', hpre, hne⟩
    | cons v a =>
        obtain ⟨rfl, -⟩ := List.cons.inj hrest
        refine absurd ?_ h'.openParen_notMem
        rw [List.append_assoc] at ha
        rcases List.append_eq_append_iff.mp ha with ⟨d, -, hd⟩ | ⟨d, hd, hfront⟩
        · rw [hd]
          simp
        · obtain rfl : d = [] := by
            have hlen := congrArg List.length hd
            rw [List.length_append] at hlen
            exact List.length_eq_zero_iff.mp (by omega)
          rw [← List.nil_append h'.front, ← hfront]
          simp

/-! ## The columns of a text -/

/-- The columns of a text with one semicolon, at its end. -/
theorem mem_extractSql_segment_iff {s file : JsString} (hs : semicolon ∉ s) {c : Column} :
    c ∈ extractSql (s ++ [semicolon]) file ↔ ∃ (pre : JsString) (h : Heading) (body : JsString),
      s = pre ++ (h.text ++ (body ++ [closeParen])) ∧ NoHeading pre ∧ body ≠ [] ∧
        ∃ x y, body = x ++ y ∧ Cut x y ∧ readColumn h.name.name file (upToCut y) = some c := by
  have hread : ∀ {pre : JsString} {h : Heading} {body : JsString},
      s = pre ++ (h.text ++ (body ++ [closeParen])) → NoHeading pre → body ≠ [] →
        (c ∈ extractSql (s ++ [semicolon]) file ↔ ∃ x y, body = x ++ y ∧ Cut x y ∧
          readColumn h.name.name file (upToCut y) = some c) := by
    intro pre h body hbody hpre hne
    have hsemicolon : semicolon ∉ body := fun hmem ↦ hs (by rw [hbody]; simp [hmem])
    have htext : s ++ [semicolon] = pre ++ (h.text ++ (body ++ [closeParen, semicolon])) := by
      rw [hbody]
      simp
    rw [htext, extractSql_preamble hpre, extractSql_statement h hne hsemicolon,
      List.mem_filterMap, exists_readColumn_split_iff]
  constructor
  · intro hc
    obtain ⟨m, hm, -⟩ := List.mem_flatMap.mp hc
    obtain ⟨u, v, htext, hrun⟩ := mem_matchAll hm
    obtain ⟨h, body, hne, -, hafter⟩ := exists_heading_of_mem_run hrun
    have hlast := ends_of_mem_matchAll hs hm
    have hs' : s ++ [semicolon] = (u ++ (h.text ++ (body ++ [closeParen]))) ++ [semicolon] := by
      rw [htext, show v = _ from hafter, hlast.1]
      simp
    obtain ⟨pre, h', body', heq, hpre, hne'⟩ :=
      exists_first_statement hne (List.append_cancel_right hs')
    exact ⟨pre, h', body', heq, hpre, hne', (hread heq hpre hne').mp hc⟩
  · rintro ⟨pre, h, body, hbody, hpre, hne, hcolumn⟩
    exact (hread hbody hpre hne).mpr hcolumn

/-- A statement as the table pattern reads it, and the text around it. -/
structure Statement where
  earlier : JsString
  pre : JsString
  heading : Heading
  body : JsString
  later : JsString
  earlier_ok : earlier = [] ∨ earlier.getLast? = some semicolon
  pre_ok : semicolon ∉ pre ∧ NoHeading pre
  body_ne : body ≠ []
  body_ok : semicolon ∉ body

namespace Statement

variable (st : Statement)

/-- The text up to the opening parenthesis. -/
def front : JsString := st.earlier ++ (st.pre ++ st.heading.text)

def text : JsString := st.front ++ (st.body ++ closeParen :: semicolon :: st.later)

/-- The statement with more text in front of it. -/
def behind {earlier : JsString} (h : earlier.getLast? = some semicolon) : Statement where
  earlier := earlier ++ st.earlier
  pre := st.pre
  heading := st.heading
  body := st.body
  later := st.later
  earlier_ok := .inr <| by
    rcases st.earlier_ok with hnil | hlast
    · rw [hnil, List.append_nil, h]
    · rw [List.getLast?_append, hlast]
      rfl
  pre_ok := st.pre_ok
  body_ne := st.body_ne
  body_ok := st.body_ok

@[simp] theorem text_behind {earlier : JsString} (h : earlier.getLast? = some semicolon) :
    (st.behind h).text = earlier ++ st.text := by
  simp [text, front, behind]

end Statement

theorem extractSql_of_notMem {text : JsString} (h : semicolon ∉ text) (file : JsString) :
    extractSql text file = [] := by
  refine List.flatMap_eq_nil_iff.mpr fun m hm ↦ ?_
  obtain ⟨u, v, htext, hrun⟩ := mem_matchAll hm
  obtain ⟨h', body, -, -, hafter⟩ := exists_heading_of_mem_run hrun
  refine absurd ?_ h
  rw [htext, show v = h'.text ++ (body ++ closeParen :: semicolon :: m.after) from hafter]
  simp

/-- **What is extracted.**  The columns are read from the lines of the statements. -/
theorem mem_extractSql_iff {text file : JsString} {c : Column} :
    c ∈ extractSql text file ↔ ∃ st : Statement, st.text = text ∧ ∃ x y, st.body = x ++ y ∧
      Cut x y ∧ readColumn st.heading.name.name file (upToCut y) = some c := by
  constructor
  · -- the text is read statement by statement
    induction hn : text.length using Nat.strong_induction_on generalizing text with
    | _ n ih =>
        intro hc
        by_cases hmem : semicolon ∈ text
        · obtain ⟨s, later, rfl, hs⟩ := List.eq_append_cons_of_mem hmem
          have hlast : (s ++ [semicolon]).getLast? = some semicolon := List.getLast?_concat
          rw [← List.singleton_append, ← List.append_assoc, extractSql_append (.inr hlast),
            List.mem_append] at hc
          rcases hc with hc | hc
          · obtain ⟨pre, h, body, rfl, hpre, hne, hcolumn⟩ :=
              (mem_extractSql_segment_iff hs).mp hc
            have hpre' : semicolon ∉ pre := fun h' ↦ hs (List.mem_append_left _ h')
            have hbody : semicolon ∉ body := fun h' ↦ hs (by simp [h'])
            refine ⟨⟨[], pre, h, body, later, .inl rfl, ⟨hpre', hpre⟩, hne, hbody⟩, ?_, hcolumn⟩
            simp [Statement.text, Statement.front]
          · obtain ⟨st, rfl, hcolumn⟩ := ih later.length (by
              rw [← hn, List.length_append, List.length_cons]
              omega) rfl hc
            refine ⟨st.behind hlast, ?_, hcolumn⟩
            simp
        · rw [extractSql_of_notMem hmem] at hc
          cases hc
  · rintro ⟨st, rfl, hcolumn⟩
    have hlast : (st.pre ++ (st.heading.text ++ (st.body ++ [closeParen])) ++
        [semicolon]).getLast? = some semicolon := List.getLast?_concat
    have hsemicolon : semicolon ∉ st.pre ++ (st.heading.text ++ (st.body ++ [closeParen])) := by
      have hclose : semicolon ≠ closeParen := by decide
      simp [st.pre_ok.1, st.heading.semicolon_notMem, st.body_ok, hclose]
    have htext : st.text = st.earlier ++ ((st.pre ++ (st.heading.text ++ (st.body ++
        [closeParen])) ++ [semicolon]) ++ st.later) := by
      simp [Statement.text, Statement.front]
    rw [htext, extractSql_append st.earlier_ok, extractSql_append (.inr hlast)]
    refine List.mem_append_right _ (List.mem_append_left _ ?_)
    exact (mem_extractSql_segment_iff hsemicolon).mpr
      ⟨st.pre, st.heading, st.body, rfl, st.pre_ok.2, st.body_ne, hcolumn⟩

end Rivid.Check
