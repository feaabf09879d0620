import Rivid.Check.Sql

/-!
# Table statements

The table pattern reads the heading of a statement up to its opening parenthesis, and takes
what is in front of the closing parenthesis and the semicolon as the body of the table.
-/

namespace Rivid.Check

open Regex

/-! ## Reading a heading -/

theorem run_word {s : String} {w : JsString} (h : w.map lower = literal s) (before rest : JsString)
    (groups : List (ℕ × JsString)) :
    run (word s) ⟨before, w ++ rest, groups⟩ = [⟨w.reverse ++ before, rest, groups⟩] := by
  refine run_seqAll_set (p := fun c u ↦ lower u == c) ?_ before rest groups
  rw [← h, List.forall₂_map_left_iff, List.forall₂_same]
  exact fun u _ ↦ beq_self_eq_true _

theorem exists_of_mem_run_word {s : String} {m m' : Place U16} (h : m' ∈ run (word s) m) :
    ∃ w, w.map lower = literal s ∧ m.after = w ++ m'.after := by
  obtain ⟨w, hw, hafter⟩ := exists_of_mem_run_seqAll_set (p := fun c u ↦ lower u == c) h
  have heq : List.Forall₂ (· = ·) (literal s) (w.map lower) :=
    List.forall₂_map_right_iff.mpr (hw.imp fun _ _ hc ↦ (eq_of_beq hc).symm)
  rw [List.forall₂_eq_eq_eq] at heq
  exact ⟨w, heq.symm, hafter⟩

theorem run_seq_word {s : String} {w : JsString} (h : w.map lower = literal s) (t : Regex U16)
    (before rest : JsString) (groups : List (ℕ × JsString)) :
    run (seq (word s) t) ⟨before, w ++ rest, groups⟩ =
      run t ⟨w.reverse ++ before, rest, groups⟩ := by
  rw [run, run_word h, List.flatMap_singleton]

/-- Inside the body there is no `);`. -/
theorem run_close_eq_nil {w : JsString} (hne : w ≠ []) (hw : semicolon ∉ w) (before rest : JsString)
    (groups : List (ℕ × JsString)) :
    run (seqAll [char closeParen, char semicolon])
      ⟨before, w ++ closeParen :: semicolon :: rest, groups⟩ = [] := by
  refine List.eq_nil_iff_forall_not_mem.mpr fun m hm ↦ ?_
  obtain ⟨m', hm', hm⟩ := List.mem_flatMap.mp hm
  obtain ⟨u, after, hafter, -, rfl⟩ := mem_run_set_iff.mp hm'
  obtain ⟨v, after', hafter', hv, -⟩ := mem_run_set_iff.mp hm
  obtain rfl : v = semicolon := eq_of_beq hv
  obtain rfl : after = semicolon :: after' := hafter'
  obtain ⟨e, w, rfl⟩ := List.exists_cons_of_ne_nil hne
  obtain ⟨-, htail⟩ := List.cons.inj hafter
  cases w with
  | nil => exact absurd (List.cons.inj htail).1 (by decide)
  | cons e' w =>
      obtain rfl : e' = semicolon := (List.cons.inj htail).1
      exact hw (List.mem_cons_of_mem _ List.mem_cons_self)

theorem run_close (before rest : JsString) (groups : List (ℕ × JsString)) :
    run (seqAll [char closeParen, char semicolon])
      ⟨before, closeParen :: semicolon :: rest, groups⟩ =
        [⟨semicolon :: closeParen :: before, rest, groups⟩] :=
  rfl

/-- The body goes up to the first semicolon and the parenthesis in front of it. -/
theorem head?_run_bodyParts {body : JsString} (hne : body ≠ []) (hbody : semicolon ∉ body)
    (before rest : JsString) (groups : List (ℕ × JsString)) :
    ∃ before', (run (seqAll bodyParts)
      ⟨before, body ++ closeParen :: semicolon :: rest, groups⟩).head? =
        some ⟨before', rest, (2, body) :: groups⟩ := by
  obtain ⟨u, body, rfl⟩ := List.exists_cons_of_ne_nil hne
  obtain ⟨hu, hbody'⟩ := List.ne_and_not_mem_of_not_mem_cons hbody
  have hu' : (u != semicolon) = true := bne_iff_ne.mpr (Ne.symm hu)
  have hset : ∀ e ∈ body, (e != semicolon) = true := fun e he ↦
    bne_iff_ne.mpr fun h ↦ hbody' (h ▸ he)
  let s : Place U16 := ⟨before, u :: body ++ closeParen :: semicolon :: rest, groups⟩
  let k : Place U16 → List (Place U16) := fun m ↦
    run (seqAll [char closeParen, char semicolon]) { m with groups := (2, s.upTo m) :: m.groups }
  have hrun : run (seqAll bodyParts) s = (run (star false (set (· != semicolon)))
      ⟨u :: before, body ++ closeParen :: semicolon :: rest, groups⟩).flatMap k := by
    rw [bodyParts, seqAll, run_seq_group,
      ← run_lazyPlus_set_of_pos (p := (· != semicolon)) hu']
    · rfl
    · exact List.cons_ne_nil _ _
  have hend : k ⟨body.reverse ++ u :: before, closeParen :: semicolon :: rest, groups⟩ =
      [⟨semicolon :: closeParen :: (body.reverse ++ u :: before), rest,
        (2, u :: body) :: groups⟩] := by
    have hbody2 : s.upTo ⟨body.reverse ++ u :: before, closeParen :: semicolon :: rest, groups⟩ =
        u :: body := Consumed.upTo_eq ⟨rfl, by simp [s]⟩
    show run _ _ = _
    rw [hbody2]
    exact run_close _ _ _
  refine ⟨semicolon :: closeParen :: (body.reverse ++ u :: before), ?_⟩
  rw [hrun, head?_flatMap_lazy hset, hend]
  · rfl
  · intro v w hvw hw
    have hw' : semicolon ∉ w := fun h ↦ hbody' (hvw ▸ List.mem_append_right v h)
    exact run_close_eq_nil hw hw' _ _ _
  · rw [hend]
    exact List.cons_ne_nil _ _

/-! ## Headings -/

/-- Space, and some of it. -/
structure Gap (s : JsString) : Prop where
  ne : s ≠ []
  space : ∀ u ∈ s, isSpace u = true

/-- A quote of a name, or none. -/
def OptQuote (q : JsString) : Prop := q = [] ∨ ∃ u, q = [u] ∧ isNameQuote u = true

/-- A table's name as it is written. -/
structure TableName where
  openQuote : JsString
  name : JsString
  closeQuote : JsString
  openQuote_ok : OptQuote openQuote
  closeQuote_ok : OptQuote closeQuote
  name_ne : name ≠ []
  name_ok : ∀ u ∈ name, isTableChar u = true

def TableName.text (t : TableName) : JsString := t.openQuote ++ (t.name ++ t.closeQuote)

/-- `IF NOT EXISTS`, or nothing. -/
inductive IfNotExists : JsString → Prop where
  | absent : IfNotExists []
  | present {w₁ w₂ w₃ g₁ g₂ g₃ : JsString} (hw₁ : w₁.map lower = literal "if") (hg₁ : Gap g₁)
      (hw₂ : w₂.map lower = literal "not") (hg₂ : Gap g₂)
      (hw₃ : w₃.map lower = literal "exists") (hg₃ : Gap g₃) :
      IfNotExists (w₁ ++ (g₁ ++ (w₂ ++ (g₂ ++ (w₃ ++ g₃)))))

/-- The heading of a statement up to its opening parenthesis. -/
structure Heading where
  create : JsString
  gap₁ : JsString
  table : JsString
  gap₂ : JsString
  clause : JsString
  name : TableName
  gap₃ : JsString
  create_ok : create.map lower = literal "create"
  gap₁_ok : Gap gap₁
  table_ok : table.map lower = literal "table"
  gap₂_ok : Gap gap₂
  clause_ok : IfNotExists clause
  gap₃_ok : ∀ u ∈ gap₃, isSpace u = true

def Heading.text (h : Heading) : JsString :=
  h.create ++ (h.gap₁ ++ (h.table ++ (h.gap₂ ++ (h.clause ++ (h.name.text ++
    (h.gap₃ ++ [openParen]))))))

theorem gap_space : Gap [space] := ⟨List.cons_ne_nil _ _, List.forall_mem_singleton.mpr rfl⟩

/-- The heading `CREATE TABLE t (`. -/
def plainHeading (t : TableName) : Heading where
  create := literal "CREATE"
  gap₁ := [space]
  table := literal "TABLE"
  gap₂ := [space]
  clause := []
  name := t
  gap₃ := [space]
  create_ok := by decide
  gap₁_ok := gap_space
  table_ok := by decide
  gap₂_ok := gap_space
  clause_ok := .absent
  gap₃_ok := gap_space.space

/-! The parts of a heading start with different characters. -/

theorem isSpace_ne {u : U16} (h : isSpace u = true) : isTableChar u = false ∧
    isNameQuote u = false ∧ (u == openParen) = false := by
  simp only [isSpace, isTableChar, isWordChar, isNameQuote, openParen, Bool.or_eq_true,
    Bool.and_eq_true, decide_eq_true_eq, beq_iff_eq, Bool.or_eq_false_iff, Bool.and_eq_false_imp,
    decide_eq_false_iff_not, beq_eq_false_iff_ne] at h ⊢
  bv_omega

theorem isNameQuote_ne {u : U16} (h : isNameQuote u = true) : isSpace u = false ∧
    isTableChar u = false ∧ (u == openParen) = false := by
  simp only [isNameQuote, Bool.or_eq_true, beq_iff_eq] at h
  rcases h with rfl | rfl <;> exact ⟨rfl, rfl, rfl⟩

theorem isTableChar_ne {u : U16} (h : isTableChar u = true) : isSpace u = false ∧
    isNameQuote u = false ∧ (u == openParen) = false := by
  refine ⟨Bool.eq_false_iff.mpr fun hs ↦ ?_, Bool.eq_false_iff.mpr fun hq ↦ ?_,
    beq_eq_false_iff_ne.mpr ?_⟩
  · exact Bool.eq_false_iff.mp (isSpace_ne hs).1 h
  · exact Bool.eq_false_iff.mp (isNameQuote_ne hq).2.1 h
  · rintro rfl
    cases h

theorem lower_of_isSpace {u : U16} (h : isSpace u = true) : lower u = u := by
  refine if_neg fun hu ↦ ?_
  simp only [isSpace, Bool.or_eq_true, Bool.and_eq_true, decide_eq_true_eq, beq_iff_eq] at h hu
  bv_omega

/-- A word cannot start with space. -/
theorem first_word_of_isSpace {s : String} (hs : (literal s).head?.any isSpace = false) {u : U16}
    (h : isSpace u = true) : first u (word s) = false := by
  rw [word]
  cases hl : literal s with
  | nil => rfl
  | cons c cs =>
      have hc : isSpace c = false := by
        rw [hl] at hs
        exact hs
      have hne : (lower u == c) = false := beq_eq_false_iff_ne.mpr fun huc ↦ by
        rw [lower_of_isSpace h] at huc
        rw [← huc, h] at hc
        cases hc
      rw [List.map_cons, first_seqAll_cons rfl]
      exact hne

theorem nullable_word {s : String} (hs : literal s ≠ []) : nullable (word s) = false := by
  obtain ⟨c, cs, hl⟩ := List.exists_cons_of_ne_nil hs
  rw [word, hl, List.map_cons]
  exact nullable_seqAll_cons rfl _

/-! ## The match of a statement -/

def nameParts : List (Regex U16) :=
  [nameQuote, group 1 (plus (set isTableChar)), nameQuote, spaces, char openParen]

theorem head?_behind_name (t : TableName) {g : JsString} (hg : ∀ u ∈ g, isSpace u = true)
    (rest : JsString) :
    (t.closeQuote ++ (g ++ openParen :: rest)).head?.any isTableChar = false := by
  rcases t.closeQuote_ok with hq | ⟨u, hq, hu⟩
  · rw [hq]
    cases g with
    | nil => rfl
    | cons u g => exact (isSpace_ne (hg u List.mem_cons_self)).1
  · rw [hq]
    exact (isNameQuote_ne hu).2.1

/-- The name and the opening parenthesis. -/
theorem run_name (t : TableName) {g : JsString} (hg : ∀ u ∈ g, isSpace u = true)
    (before rest : JsString) (groups : List (ℕ × JsString)) : ∃ before',
      run (seqAll (nameParts ++ bodyParts))
        ⟨before, t.text ++ (g ++ openParen :: rest), groups⟩ =
          run (seqAll bodyParts) ⟨before', rest, (1, t.name) :: groups⟩ := by
  let t₄ := seqAll (char openParen :: bodyParts)
  let t₃ := seq spaces t₄
  let t₂ := seq nameQuote t₃
  let t₁ := seq (group 1 (plus (set isTableChar))) t₂
  have hopen : run (seqAll (nameParts ++ bodyParts))
      ⟨before, t.openQuote ++ (t.name ++ (t.closeQuote ++ (g ++ openParen :: rest))), groups⟩ =
        run t₁ ⟨t.openQuote.reverse ++ before, t.name ++ (t.closeQuote ++ (g ++ openParen :: rest)),
          groups⟩ := by
    refine run_seq_opt_set (t := t₁) rfl (fun u hu ↦ ?_) _ _ _ _ ?_
    · simp [t₁, first, plus, nullable, (isNameQuote_ne hu).2.1]
    · obtain ⟨u, name, hname⟩ := List.exists_cons_of_ne_nil t.name_ne
      have hu : isTableChar u = true := t.name_ok u (hname ▸ List.mem_cons_self)
      refine t.openQuote_ok.imp (fun h ↦ ⟨h, ?_⟩) id
      rw [hname]
      exact (isTableChar_ne hu).2.1
  have hfirst₄ : ∀ u, (u == openParen) = false → first u t₄ = false := fun u hu ↦
    (first_seqAll_cons rfl u bodyParts).trans hu
  have hfirst₃ : ∀ u, isSpace u = false → (u == openParen) = false → first u t₃ = false :=
    fun u hu hparen ↦ by simp [t₃, first, nullable, spaces, hu, hfirst₄ u hparen]
  have hname : run t₁ ⟨t.openQuote.reverse ++ before,
      t.name ++ (t.closeQuote ++ (g ++ openParen :: rest)), groups⟩ =
        run t₂ ⟨t.name.reverse ++ (t.openQuote.reverse ++ before),
          t.closeQuote ++ (g ++ openParen :: rest), (1, t.name) :: groups⟩ := by
    refine run_seq_group_plus_set rfl (fun u hu ↦ ?_) t.name_ne t.name_ok
      (head?_behind_name t hg rest) _ _
    obtain ⟨hspace, hquote, hparen⟩ := isTableChar_ne hu
    simp [t₂, first, nullable, nameQuote, opt, hquote, hfirst₃ u hspace hparen]
  have hclose : run t₂ ⟨t.name.reverse ++ (t.openQuote.reverse ++ before),
      t.closeQuote ++ (g ++ openParen :: rest), (1, t.name) :: groups⟩ =
        run t₃ ⟨t.closeQuote.reverse ++ (t.name.reverse ++ (t.openQuote.reverse ++ before)),
          g ++ openParen :: rest, (1, t.name) :: groups⟩ := by
    refine run_seq_opt_set rfl (fun u hu ↦ ?_) _ _ _ _ (t.closeQuote_ok.imp (fun h ↦ ⟨h, ?_⟩) id)
    · obtain ⟨hspace, -, hparen⟩ := isNameQuote_ne hu
      exact hfirst₃ u hspace hparen
    · cases g with
      | nil => rfl
      | cons u g => exact (isSpace_ne (hg u List.mem_cons_self)).2.1
  have hspaces : run t₃
      ⟨t.closeQuote.reverse ++ (t.name.reverse ++ (t.openQuote.reverse ++ before)),
        g ++ openParen :: rest, (1, t.name) :: groups⟩ =
          run t₄ ⟨g.reverse ++ (t.closeQuote.reverse ++
            (t.name.reverse ++ (t.openQuote.reverse ++ before))),
              openParen :: rest, (1, t.name) :: groups⟩ := by
    refine (run_seq_star_set rfl (fun u hu ↦ hfirst₄ u (isSpace_ne hu).2.2) _).trans ?_
    rw [skipWhile_append hg rfl]
  have hparen : ∀ before, run t₄ ⟨before, openParen :: rest, (1, t.name) :: groups⟩ =
      run (seqAll bodyParts) ⟨openParen :: before, rest, (1, t.name) :: groups⟩ := fun before ↦
    List.flatMap_singleton _ _
  rw [TableName.text, List.append_assoc, List.append_assoc]
  exact ⟨_, hopen.trans (hname.trans (hclose.trans (hspaces.trans (hparen _))))⟩

theorem first_seq_word {s : String} (hs : literal s ≠ []) (u : U16) (t : Regex U16) :
    first u (seq (word s) t) = first u (word s) := by
  rw [first, nullable_word hs, Bool.false_and, Bool.or_false]

theorem head?_word {s : String} (hne : literal s ≠ [])
    (hs : (literal s).head?.any isSpace = false) {w : JsString} (hw : w.map lower = literal s)
    (rest : JsString) : (w ++ rest).head?.any isSpace = false := by
  cases w with
  | nil => exact absurd hw.symm hne
  | cons u w =>
      rw [← hw] at hs
      have hu : isSpace (lower u) = false := hs
      refine Bool.eq_false_iff.mpr fun h ↦ ?_
      have hspace : isSpace u = true := h
      rw [lower_of_isSpace hspace, hspace] at hu
      cases hu

/-- A gap and a word. -/
theorem run_gap_word {s : String} (hne : literal s ≠ [])
    (hs : (literal s).head?.any isSpace = false) {g w : JsString} (hg : Gap g)
    (hw : w.map lower = literal s) (t : Regex U16) (before rest : JsString)
    (groups : List (ℕ × JsString)) :
    run (seq gap (seq (word s) t)) ⟨before, g ++ (w ++ rest), groups⟩ =
      run t ⟨w.reverse ++ (g.reverse ++ before), rest, groups⟩ := by
  have hnull : nullable (seq (word s) t) = false := by
    rw [nullable, nullable_word hne, Bool.false_and]
  rw [gap, run_seq_plus_append hnull (fun u hu ↦ ?_) hg.ne hg.space, run_seq_word hw]
  · exact head?_word hne hs hw rest
  · rw [first_seq_word hne, first_word_of_isSpace hs hu]

theorem first_name_of_isSpace {u : U16} (h : isSpace u = true) :
    first u (seqAll (nameParts ++ bodyParts)) = false := by
  obtain ⟨htable, hquote, -⟩ := isSpace_ne h
  simp [nameParts, seqAll, first, nullable, nameQuote, opt, plus, htable, hquote]

theorem head?_name (t : TableName) (rest : JsString) :
    (t.text ++ rest).head?.any isSpace = false := by
  rcases t.openQuote_ok with hq | ⟨u, hq, hu⟩
  · obtain ⟨u, name, hname⟩ := List.exists_cons_of_ne_nil t.name_ne
    have hu : isTableChar u = true := t.name_ok u (hname ▸ List.mem_cons_self)
    rw [TableName.text, hq, hname]
    exact (isTableChar_ne hu).1
  · rw [TableName.text, hq]
    exact (isNameQuote_ne hu).1

theorem isWordChar_lower (u : U16) : isWordChar (lower u) = isWordChar u := by
  by_cases hu : 0x41 ≤ u && u ≤ 0x5a
  · rw [lower, if_pos hu, Bool.eq_iff_iff]
    simp only [isWordChar, Bool.or_eq_true, Bool.and_eq_true, decide_eq_true_eq, beq_iff_eq] at hu ⊢
    bv_omega
  · rw [lower, if_neg hu]

/-- A gap goes up to the next word. -/
theorem dropWhile_of_mem_run_gap {s : String} (hs : (literal s).head?.any isSpace = false)
    {m m' m'' : Place U16} (hgap : m' ∈ run gap m) (hword : m'' ∈ run (word s) m')
    (hne : literal s ≠ []) : m.after.dropWhile isSpace = m'.after := by
  obtain ⟨u, hu, havoid⟩ := exists_consumed hgap
  have hspace : ∀ c ∈ u, isSpace c = true := fun c hc ↦ by
    by_contra h
    have hc' : isSpace c = false := Bool.eq_false_iff.mpr h
    exact havoid c ⟨hc', hc'⟩ hc
  rw [hu.1]
  refine dropWhile_append_of_head hspace ?_
  rcases starts_of_mem_run hword with ⟨-, h⟩ | ⟨c, rest, hafter, hfirst⟩
  · rw [nullable_word hne] at h
    cases h
  · rw [hafter]
    refine Bool.eq_false_iff.mpr fun hc ↦ ?_
    rw [first_word_of_isSpace hs hc] at hfirst
    cases hfirst

/-- There is no clause in front of a name and a parenthesis. -/
theorem run_clause_eq_nil (t : TableName) {g : JsString} (hg : ∀ u ∈ g, isSpace u = true)
    (before rest : JsString) (groups : List (ℕ × JsString)) :
    run (seqAll [word "if", gap, word "not", gap, word "exists", gap])
      ⟨before, t.text ++ (g ++ openParen :: rest), groups⟩ = [] := by
  refine List.eq_nil_iff_forall_not_mem.mpr fun m hm ↦ ?_
  obtain ⟨m₁, hm₁, hm⟩ := List.mem_flatMap.mp hm
  obtain ⟨m₂, hm₂, hm⟩ := List.mem_flatMap.mp hm
  obtain ⟨m₃, hm₃, -⟩ := List.mem_flatMap.mp hm
  have hgap := dropWhile_of_mem_run_gap rfl hm₂ hm₃ (by decide)
  obtain ⟨w, hw, hafter⟩ := exists_of_mem_run_word hm₁
  obtain ⟨w', hw', hafter'⟩ := exists_of_mem_run_word hm₃
  have hchars : ∀ u ∈ w, isTableChar u = true := fun u hu ↦ by
    have hl : lower u ∈ literal "if" := hw ▸ List.mem_map_of_mem hu
    have hchar : (literal "if").all isWordChar = true := by decide
    rw [isTableChar, ← isWordChar_lower, List.all_eq_true.mp hchar _ hl, Bool.true_or]
  -- behind `if` there is space
  obtain ⟨c, r, hc, hspace⟩ : ∃ c r, m₁.after = c :: r ∧ isSpace c = true := by
    rcases starts_of_mem_run hm₂ with ⟨-, h⟩ | ⟨c, r, hc, hfirst⟩
    · cases h
    · exact ⟨c, r, hc, by simpa [gap, plus, first, nullable] using hfirst⟩
  have hrest : m₁.after.head?.any isTableChar = false := by
    rw [hc]
    exact (isSpace_ne hspace).1
  have hif := dropWhile_append_of_head hchars hrest
  rw [← hafter] at hif
  have hchange : (t.text ++ (g ++ openParen :: rest)).dropWhile isTableChar = c :: r :=
    hif.trans hc
  rcases t.openQuote_ok with hq | ⟨u, hq, hu⟩
  · rw [TableName.text, hq, List.nil_append, List.append_assoc,
      dropWhile_append_of_head t.name_ok (head?_behind_name t hg rest)] at hchange
    rcases t.closeQuote_ok with hq' | ⟨u, hq', hu⟩
    · -- what follows the space is the parenthesis, and not `not`
      rw [hc, ← hchange, hq', List.nil_append, dropWhile_append_of_head hg rfl, hafter'] at hgap
      obtain ⟨v, w', rfl⟩ := List.exists_cons_of_ne_nil
        (l := w') (by rintro rfl; exact absurd hw' (by decide))
      obtain ⟨rfl, -⟩ := List.cons.inj hgap
      exact absurd (List.cons.inj hw').1 (by decide)
    · rw [hq'] at hchange
      obtain ⟨rfl, -⟩ := List.cons.inj hchange
      rw [(isNameQuote_ne hu).1] at hspace
      cases hspace
  · rw [TableName.text, hq, List.append_assoc, List.singleton_append,
      List.dropWhile_cons_of_neg (Bool.eq_false_iff.mp (isNameQuote_ne hu).2.1)] at hchange
    obtain ⟨rfl, -⟩ := List.cons.inj hchange
    rw [(isNameQuote_ne hu).1] at hspace
    cases hspace

/-- The clause, if there is one, is read or left out. -/
theorem run_ifNotExists {clause : JsString} (hclause : IfNotExists clause) (t : TableName)
    {g : JsString} (hg : ∀ u ∈ g, isSpace u = true) (before rest : JsString)
    (groups : List (ℕ × JsString)) : ∃ before' more,
      run (seq ifNotExistsRe (seqAll (nameParts ++ bodyParts)))
        ⟨before, clause ++ (t.text ++ (g ++ openParen :: rest)), groups⟩ =
          run (seqAll (nameParts ++ bodyParts))
            ⟨before', t.text ++ (g ++ openParen :: rest), groups⟩ ++ more := by
  cases hclause with
  | absent =>
      refine ⟨before, [], ?_⟩
      rw [ifNotExistsRe, run_seq_opt, run, List.nil_append, run_clause_eq_nil t hg, List.append_nil]
      rfl
  | @present w₁ w₂ w₃ g₁ g₂ g₃ hw₁ hg₁ hw₂ hg₂ hw₃ hg₃ =>
      refine ⟨g₃.reverse ++ (w₃.reverse ++ (g₂.reverse ++ (w₂.reverse ++ (g₁.reverse ++
        (w₁.reverse ++ before))))), run (seqAll (nameParts ++ bodyParts)) ⟨before,
        w₁ ++ (g₁ ++ (w₂ ++ (g₂ ++ (w₃ ++ g₃)))) ++
          (t.text ++ (g ++ openParen :: rest)), groups⟩, ?_⟩
      rw [ifNotExistsRe, run_seq_opt, run_seq_seqAll]
      simp only [List.append_assoc, List.cons_append, List.nil_append, seqAll]
      rw [run_seq_word hw₁, run_gap_word (by decide) (by decide) hg₁ hw₂,
        run_gap_word (by decide) (by decide) hg₂ hw₃]
      have hlast := run_seq_plus_append (p := isSpace) (t := seqAll (nameParts ++ bodyParts)) rfl
        (fun u ↦ first_name_of_isSpace) hg₃.ne hg₃.space (head?_name t (g ++ openParen :: rest))
      exact congrArg (· ++ _) (hlast _ _)

theorem head?_clause {clause : JsString} (h : IfNotExists clause) (t : TableName)
    (rest : JsString) : (clause ++ (t.text ++ rest)).head?.any isSpace = false := by
  cases h with
  | absent => exact head?_name t rest
  | present hw₁ hg₁ hw₂ hg₂ hw₃ hg₃ =>
      rw [List.append_assoc]
      exact head?_word (by decide) rfl hw₁ _

/-- A statement is matched as a whole: its name is the first group, its body the second. -/
theorem head?_run_tableRe (h : Heading) {body : JsString} (hne : body ≠ [])
    (hbody : semicolon ∉ body) (rest : JsString) : ∃ before,
      (run tableRe ⟨[], h.text ++ (body ++ closeParen :: semicolon :: rest), []⟩).head? =
        some ⟨before, rest, [(2, body), (1, h.name.name)]⟩ := by
  have hparts : tableRe = seq (word "create") (seq gap (seq (word "table") (seq gap
      (seq ifNotExistsRe (seqAll (nameParts ++ bodyParts)))))) := rfl
  have htext : h.text ++ (body ++ closeParen :: semicolon :: rest) =
      h.create ++ (h.gap₁ ++ (h.table ++ (h.gap₂ ++ (h.clause ++ (h.name.text ++
        (h.gap₃ ++ openParen :: (body ++ closeParen :: semicolon :: rest))))))) := by
    simp [Heading.text]
  have hgap₂ : ∀ before, run (seq gap (seq ifNotExistsRe (seqAll (nameParts ++ bodyParts))))
      ⟨before, h.gap₂ ++ (h.clause ++ (h.name.text ++
        (h.gap₃ ++ openParen :: (body ++ closeParen :: semicolon :: rest)))), []⟩ =
          run (seq ifNotExistsRe (seqAll (nameParts ++ bodyParts)))
            ⟨h.gap₂.reverse ++ before, h.clause ++ (h.name.text ++
              (h.gap₃ ++ openParen :: (body ++ closeParen :: semicolon :: rest))), []⟩ := by
    refine fun before ↦ run_seq_plus_append rfl (fun u hu ↦ ?_) h.gap₂_ok.ne h.gap₂_ok.space ?_ _ _
    · have hif : first u (word "if") = false := first_word_of_isSpace rfl hu
      have hclause : first u ifNotExistsRe = false := by
        rw [ifNotExistsRe, opt, first, seqAll, first_seq_word (by decide), hif]
        · rfl
        · exact List.cons_ne_nil _ _
      rw [first, hclause, first_name_of_isSpace hu, Bool.and_false]
      rfl
    · exact head?_clause h.clause_ok h.name _
  obtain ⟨before, more, hclause⟩ := run_ifNotExists h.clause_ok h.name h.gap₃_ok
    (h.gap₂.reverse ++ (h.table.reverse ++ (h.gap₁.reverse ++ (h.create.reverse ++ []))))
    (body ++ closeParen :: semicolon :: rest) []
  obtain ⟨before', hname⟩ := run_name h.name h.gap₃_ok before
    (body ++ closeParen :: semicolon :: rest) []
  obtain ⟨before'', hbody⟩ := head?_run_bodyParts hne hbody before' rest [(1, h.name.name)]
  refine ⟨before'', ?_⟩
  rw [hparts, htext, run_seq_word h.create_ok,
    run_gap_word (by decide) (by decide) h.gap₁_ok h.table_ok, hgap₂, hclause, hname,
    List.head?_append, hbody]
  rfl

theorem matchAll_statement (h : Heading) {body : JsString} (hne : body ≠ [])
    (hbody : semicolon ∉ body) : ∃ before,
      matchAll tableRe (h.text ++ (body ++ [closeParen, semicolon])) =
        [⟨before, [], [(2, body), (1, h.name.name)]⟩] := by
  obtain ⟨before, hm⟩ := head?_run_tableRe h hne hbody []
  exact ⟨before, matchAll_eq_singleton (nullable_seqAll_cons (nullable_word (by decide)) _) hm rfl⟩

/-- The columns of a statement without options are read from the pieces of its body. -/
theorem extractSql_statement (h : Heading) {body : JsString} (hne : body ≠ [])
    (hbody : semicolon ∉ body) (file : JsString) :
    extractSql (h.text ++ (body ++ [closeParen, semicolon])) file =
      (split separatorRe body).filterMap (readColumn h.name.name file) := by
  obtain ⟨before, hm⟩ := matchAll_statement h hne hbody
  rw [extractSql, hm, List.flatMap_singleton]
  rfl

end Rivid.Check
