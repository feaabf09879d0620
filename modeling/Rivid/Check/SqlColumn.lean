import Rivid.Check.SqlTable
import Rivid.Check.SqlLines

/-!
# The type of a column

A line of a table's body is read as a name and the rest of the definition, and the type is the
first of the list that is found anywhere in the rest.
-/

namespace Rivid.Check

open Regex

/-! ## Reading a line -/

/-- `(.+)$`. -/
def restRe : Regex U16 := seq (group 2 (plus (set fun u ↦ !isLineTerminator u))) stop

theorem head?_run_restRe {rest : JsString} (hne : rest ≠ [])
    (hline : ∀ u ∈ rest, isLineTerminator u = false) (before : JsString)
    (groups : List (ℕ × JsString)) : ∃ before',
      (run restRe ⟨before, rest, groups⟩).head? = some ⟨before', [], (2, rest) :: groups⟩ := by
  obtain ⟨u, rest, rfl⟩ := List.exists_cons_of_ne_nil hne
  have hset : ∀ c ∈ u :: rest, (!isLineTerminator c) = true := fun c hc ↦ by rw [hline c hc]; rfl
  obtain ⟨hu, hrest⟩ := List.forall_mem_cons.mp hset
  have hskip : Place.skipWhile (fun u ↦ !isLineTerminator u) ⟨u :: before, rest ++ [], groups⟩ =
      ⟨rest.reverse ++ u :: before, [], groups⟩ := skipWhile_append hrest rfl _ _
  rw [List.append_nil] at hskip
  obtain ⟨fewer, hstar, -⟩ := run_star_set (fun u ↦ !isLineTerminator u)
    ⟨u :: before, rest, groups⟩
  have htext : Place.upTo ⟨before, u :: rest, groups⟩ ⟨rest.reverse ++ u :: before, [], groups⟩ =
      u :: rest := Consumed.upTo_eq ⟨by simp, by simp⟩
  refine ⟨rest.reverse ++ u :: before, ?_⟩
  rw [restRe, run_seq_group, run_plus_set_of_pos (p := fun u ↦ !isLineTerminator u) hu, hstar,
    hskip, List.flatMap_cons, htext]
  rfl

theorem run_restRe_eq_nil {rest : JsString} {u : U16} (hu : u ∈ rest)
    (hline : isLineTerminator u = true) (before : JsString) (groups : List (ℕ × JsString)) :
    run restRe ⟨before, rest, groups⟩ = [] := by
  refine List.eq_nil_iff_forall_not_mem.mpr fun m hm ↦ ?_
  obtain ⟨m₁, hm₁, hm⟩ := List.mem_flatMap.mp hm
  obtain ⟨m₂, hm₂, rfl⟩ := List.mem_map.mp hm₁
  obtain ⟨v, -, hv, hconsumed, -⟩ := exists_of_mem_run_plus_set hm₂
  have hend : m₂.after = [] := (mem_run_stop_iff.mp hm).1
  have hrest : rest = v := by
    rw [show rest = v ++ m₂.after from hconsumed.1, hend, List.append_nil]
  have hset := hv u (hrest ▸ hu)
  rw [hline] at hset
  cases hset

/-- A column's name as it is written, with the space behind it. -/
structure ColumnName where
  openQuote : JsString
  name : JsString
  closeQuote : JsString
  gap : JsString
  openQuote_ok : OptQuote openQuote
  name_ne : name ≠ []
  name_ok : ∀ u ∈ name, isWordChar u = true
  closeQuote_ok : OptQuote closeQuote
  gap_ok : Gap gap

def ColumnName.text (n : ColumnName) : JsString :=
  n.openQuote ++ (n.name ++ (n.closeQuote ++ n.gap))

theorem columnRe_eq : columnRe = seq start (seq nameQuote (seq (group 1 (plus (set isWordChar)))
    (seq nameQuote (seq gap restRe)))) :=
  rfl

/-- What is read as a line is one. -/
theorem exists_of_matchColumn {line name rest : JsString}
    (h : matchColumn line = some (name, rest)) :
    ∃ n : ColumnName, n.name = name ∧ line = n.text ++ rest ∧ rest ≠ [] := by
  obtain ⟨m, hm, hgroups⟩ := Option.map_eq_some_iff.mp h
  rw [columnRe_eq, exec_start] at hm
  obtain ⟨m₁, hm₁, hm⟩ := List.mem_flatMap.mp (List.mem_of_head? hm)
  obtain ⟨m₂, hm₂, hm⟩ := List.mem_flatMap.mp hm
  obtain ⟨m₃, hm₃, hm⟩ := List.mem_flatMap.mp hm
  obtain ⟨m₄, hm₄, hm⟩ := List.mem_flatMap.mp hm
  obtain ⟨m₅, hm₅, hm⟩ := List.mem_flatMap.mp hm
  obtain ⟨m₂', hm₂', rfl⟩ := List.mem_map.mp hm₂
  obtain ⟨m₅', hm₅', rfl⟩ := List.mem_map.mp hm₅
  obtain ⟨hend, rfl⟩ := mem_run_stop_iff.mp hm
  obtain ⟨q, hq, hafter₁, hgroups₁⟩ := exists_of_mem_run_opt_set hm₁
  obtain ⟨u, hune, hu, hafter₂, hgroups₂⟩ := exists_of_mem_run_plus_set hm₂'
  obtain ⟨q', hq', hafter₃, hgroups₃⟩ := exists_of_mem_run_opt_set hm₃
  obtain ⟨g, hgne, hg, hafter₄, hgroups₄⟩ := exists_of_mem_run_plus_set hm₄
  obtain ⟨v, hvne, -, hafter₅, hgroups₅⟩ := exists_of_mem_run_plus_set hm₅'
  have hplaces : m₅'.groups = (1, u) :: m₂'.groups := by
    rw [hgroups₅, hgroups₄, hgroups₃, hafter₂.upTo_eq]
  have hname : u = name ∧ v = rest := by
    rw [Place.group, Place.group, hplaces, hafter₅.upTo_eq] at hgroups
    exact Prod.mk.inj hgroups
  obtain ⟨rfl, rfl⟩ := hname
  refine ⟨⟨q, u, q', g, hq, hune, hu, hq', hgne, hg⟩, rfl, ?_, hvne⟩
  have hline : line = q ++ (u ++ (q' ++ (g ++ (v ++ m₅'.after)))) := by
    rw [← hafter₅.1, ← hafter₄.1, ← hafter₃, ← hafter₂.1, ← hafter₁]
  rw [hline, hend, ColumnName.text]
  simp only [List.append_assoc, List.append_nil]

/-- Behind the space a place in it leaves the rest of the line. -/
theorem suffix_of_append_eq {g u a rest : JsString} (h : g ++ rest = u ++ a)
    (hu : ∀ c ∈ u, isSpace c = true) (hrest : rest.head?.any isSpace = false) : rest <:+ a := by
  rcases List.append_eq_append_iff.mp h with ⟨w, rfl, rfl⟩ | ⟨w, -, rfl⟩
  · cases w with
    | nil => exact List.suffix_rfl
    | cons c w =>
        have hc : isSpace c = false := hrest
        rw [hu c (List.mem_append_right g List.mem_cons_self)] at hc
        cases hc
  · exact List.suffix_append w rest

theorem run_gap_restRe {g rest : JsString} (hg : Gap g) (hne : rest ≠ [])
    (hrest : rest.head?.any isSpace = false) (before : JsString) (groups : List (ℕ × JsString)) :
    (run (seq gap restRe) ⟨before, g ++ rest, groups⟩).head?.map Place.groups =
      if rest.any isLineTerminator then none else some ((2, rest) :: groups) := by
  split
  · next hline =>
      obtain ⟨u, hu, hut⟩ := List.any_eq_true.mp hline
      have hnil : run (seq gap restRe) ⟨before, g ++ rest, groups⟩ = [] := by
        refine List.flatMap_eq_nil_iff.mpr fun m hm ↦ ?_
        obtain ⟨v, -, hv, hafter, -⟩ := exists_of_mem_run_plus_set hm
        have hsuffix := suffix_of_append_eq hafter.1 hv hrest
        exact run_restRe_eq_nil (hsuffix.subset hu) hut m.before m.groups
      rw [hnil]
      rfl
  · next hline =>
      have hset : ∀ u ∈ rest, isLineTerminator u = false := fun u hu ↦
        Bool.eq_false_iff.mpr fun hut ↦ hline (List.any_eq_true.mpr ⟨u, hu, hut⟩)
      obtain ⟨u, g, rfl⟩ := List.exists_cons_of_ne_nil hg.ne
      obtain ⟨hu, hspace⟩ := List.forall_mem_cons.mp hg.space
      obtain ⟨fewer, hstar, -⟩ := run_star_set isSpace ⟨u :: before, g ++ rest, groups⟩
      obtain ⟨before', hlast⟩ := head?_run_restRe hne hset (g.reverse ++ u :: before) groups
      have hgap : run gap ⟨before, u :: g ++ rest, groups⟩ =
          ⟨g.reverse ++ u :: before, rest, groups⟩ :: fewer := by
        rw [gap, List.cons_append, run_plus_set_of_pos hu, hstar, skipWhile_append hspace hrest]
      rw [run, hgap, List.flatMap_cons, List.head?_append, hlast]
      rfl

theorem isWordChar_ne {u : U16} (h : isWordChar u = true) : isSpace u = false ∧
    isNameQuote u = false := by
  have htable : isTableChar u = true := by rw [isTableChar, h, Bool.true_or]
  exact ⟨(isTableChar_ne htable).1, (isTableChar_ne htable).2.1⟩

theorem isWordChar_of_isNameQuote {u : U16} (h : isNameQuote u = true) : isWordChar u = false :=
  (Bool.or_eq_false_iff.mp (isNameQuote_ne h).2.1).1

theorem ColumnName.head?_gap (n : ColumnName) (s : JsString) :
    ∃ u g, n.gap ++ s = u :: g ∧ isSpace u = true := by
  obtain ⟨u, g, hgap⟩ := List.exists_cons_of_ne_nil n.gap_ok.ne
  exact ⟨u, g ++ s, by rw [hgap]; rfl, n.gap_ok.space u (hgap ▸ List.mem_cons_self)⟩

/-- The name ends where it is written to end. -/
theorem ColumnName.head?_behind (n : ColumnName) (s : JsString) :
    (n.closeQuote ++ (n.gap ++ s)).head?.any isWordChar = false := by
  rcases n.closeQuote_ok with hq | ⟨u, hq, hu⟩
  · obtain ⟨u, g, hgap, hu⟩ := n.head?_gap s
    rw [hq, hgap]
    exact isWordChar_of_isSpace hu
  · rw [hq]
    exact isWordChar_of_isNameQuote hu

/-- A line is read up to a line terminator in the rest of it. -/
theorem matchColumn_text (n : ColumnName) {rest : JsString} (hne : rest ≠ [])
    (hrest : rest.head?.any isSpace = false) : matchColumn (n.text ++ rest) =
      if rest.any isLineTerminator then none else some (n.name, rest) := by
  let t₃ := seq gap restRe
  let t₂ := seq nameQuote t₃
  let t₁ := seq (group 1 (plus (set isWordChar))) t₂
  have hfirst₃ : ∀ u, isSpace u = false → first u t₃ = false := fun u hu ↦ by
    simp [t₃, first, nullable, gap, plus, hu]
  have hopen : run (seq nameQuote t₁)
      ⟨[], n.openQuote ++ (n.name ++ (n.closeQuote ++ (n.gap ++ rest))), []⟩ =
        run t₁ ⟨n.openQuote.reverse ++ [], n.name ++ (n.closeQuote ++ (n.gap ++ rest)), []⟩ := by
    refine run_seq_opt_set (t := t₁) rfl (fun u hu ↦ ?_) _ _ _ _
      (n.openQuote_ok.imp (fun h ↦ ⟨h, ?_⟩) id)
    · simp [t₁, first, plus, nullable, isWordChar_of_isNameQuote hu]
    · obtain ⟨u, name, hname⟩ := List.exists_cons_of_ne_nil n.name_ne
      rw [hname]
      exact (isWordChar_ne (n.name_ok u (hname ▸ List.mem_cons_self))).2
  have hname : run t₁ ⟨n.openQuote.reverse ++ [], n.name ++ (n.closeQuote ++ (n.gap ++ rest)), []⟩ =
      run t₂ ⟨n.name.reverse ++ (n.openQuote.reverse ++ []), n.closeQuote ++ (n.gap ++ rest),
        [(1, n.name)]⟩ := by
    refine run_seq_group_plus_set rfl (fun u hu ↦ ?_) n.name_ne n.name_ok (n.head?_behind rest) _ _
    obtain ⟨hspace, hquote⟩ := isWordChar_ne hu
    simp [t₂, first, nullable, nameQuote, opt, hquote, hfirst₃ u hspace]
  have hclose : run t₂ ⟨n.name.reverse ++ (n.openQuote.reverse ++ []),
      n.closeQuote ++ (n.gap ++ rest), [(1, n.name)]⟩ =
        run t₃ ⟨n.closeQuote.reverse ++ (n.name.reverse ++ (n.openQuote.reverse ++ [])),
          n.gap ++ rest, [(1, n.name)]⟩ := by
    refine run_seq_opt_set rfl (fun u hu ↦ hfirst₃ u (isNameQuote_ne hu).1) _ _ _ _
      (n.closeQuote_ok.imp (fun h ↦ ⟨h, ?_⟩) id)
    obtain ⟨u, g, hgap, hu⟩ := n.head?_gap rest
    rw [hgap]
    exact (isSpace_ne hu).2.1
  have hrun : (exec columnRe (n.text ++ rest)).map Place.groups =
      if rest.any isLineTerminator then none else some [(2, rest), (1, n.name)] := by
    rw [columnRe_eq, exec_start, ColumnName.text, List.append_assoc, List.append_assoc,
      List.append_assoc, hopen, hname, hclose, run_gap_restRe n.gap_ok hne hrest]
  let read : List (ℕ × JsString) → JsString × JsString := fun groups ↦
    ((groups.lookup 1).getD [], (groups.lookup 2).getD [])
  have hread : matchColumn (n.text ++ rest) =
      ((exec columnRe (n.text ++ rest)).map Place.groups).map read := by
    rw [Option.map_map]
    rfl
  rw [hread, hrun]
  split <;> rfl

/-! ## Types -/

/-- How the type is written in a definition. -/
def SqlType.spelling (t : SqlType) : JsString :=
  if t.rep = literal "bytea(16)" then literal "bytea" else t.rep

theorem test_spelling {t : SqlType} (ht : t ∈ sqlTypes) : test t.re t.spelling = true := by
  have hall : (sqlTypes.all fun t ↦ test t.re t.spelling) = true := by decide
  exact List.all_eq_true.mp hall t ht

/-! Letter case makes no difference to the patterns. -/

theorem lower_lower (u : U16) : lower (lower u) = lower u := by
  by_cases hu : 0x41 ≤ u && u ≤ 0x5a
  · rw [lower.eq_def u, if_pos hu, lower, if_neg]
    simp only [Bool.and_eq_true, decide_eq_true_eq] at hu ⊢
    bv_omega
  · rw [lower.eq_def u, if_neg hu, lower, if_neg hu]

/-- A class without letters does not tell the cases apart. -/
theorem apply_lower {p : U16 → Bool} (hp : ∀ u, 0x41 ≤ u ∧ u ≤ 0x7a → p u = false) (u : U16) :
    p (lower u) = p u := by
  by_cases hu : 0x41 ≤ u && u ≤ 0x5a
  · rw [lower, if_pos hu]
    simp only [Bool.and_eq_true, decide_eq_true_eq] at hu
    rw [hp u (by bv_omega), hp (u + 0x20) (by bv_omega)]
  · rw [lower, if_neg hu]

theorem isSpace_lower (u : U16) : isSpace (lower u) = isSpace u := by
  refine apply_lower (fun u hu ↦ ?_) u
  simp only [isSpace, Bool.or_eq_false_iff, Bool.and_eq_false_imp, decide_eq_true_eq,
    decide_eq_false_iff_not, beq_eq_false_iff_ne]
  bv_omega

theorem blind_word (s : String) : blind lower (word s) := by
  refine forall_seqAll_map (P := blind lower) trivial (fun r t hr ht ↦ ⟨hr, ht⟩) fun c _ u ↦ ?_
  exact congrArg (· == c) (lower_lower u)

theorem blind_widthRe (n : String) : blind lower (widthRe n) := by
  have hopen : ∀ u, (lower u == openParen) = (u == openParen) :=
    apply_lower (p := (· == openParen)) fun u hu ↦ beq_eq_false_iff_ne.mpr (by
      rw [openParen]
      bv_omega)
  have hclose : ∀ u, (lower u == closeParen) = (u == closeParen) :=
    apply_lower (p := (· == closeParen)) fun u hu ↦ beq_eq_false_iff_ne.mpr (by
      rw [closeParen]
      bv_omega)
  simp [widthRe, seqAll, blind, blind_word, spaces, char, isSpace_lower, hopen, hclose]

theorem blind_types {t : SqlType} (ht : t ∈ sqlTypes) : blind lower t.re := by
  simp only [sqlTypes, List.mem_cons, List.not_mem_nil, or_false] at ht
  rcases ht with rfl | rfl | rfl | rfl | rfl | rfl | rfl | rfl <;>
    simp [seqAll, blind, blind_word, blind_widthRe, wordBoundary, isWordChar_lower, opt]

/-! A type is still found with more of the definition behind it. -/

section

variable {y : JsString}

theorem quiet_types (hy : y.head?.any isWordChar = false) {t : SqlType} (ht : t ∈ sqlTypes) :
    quiet y t.re := by
  simp only [sqlTypes, List.mem_cons, List.not_mem_nil, or_false] at ht
  rcases ht with rfl | rfl | rfl | rfl | rfl | rfl | rfl | rfl <;>
    simp [seqAll, quiet, quiet_word, widthRe, wordBoundary, opt, spaces, char, hy]

theorem isIdentifier_append (hy : y.head?.any isWordChar = false) {name rest : JsString}
    (h : isIdentifier name rest = true) : isIdentifier name (rest ++ y) = true := by
  have hquiet : quiet y primaryKeyRe := by
    simp [primaryKeyRe, seqAll, quiet, quiet_word, wordBoundary, gap, plus, hy]
  rw [isIdentifier, Bool.or_eq_true] at h ⊢
  exact h.imp_left (test_append hquiet)

/-- A declared type is found at the start of the rest of its line. -/
theorem test_written {t : SqlType} (ht : t ∈ sqlTypes) {written : JsString}
    (hwritten : written.map lower = t.spelling) (hy : y.head?.any isWordChar = false) :
    test t.re (written ++ y) = true := by
  refine test_append (quiet_types hy ht) ?_
  rw [← test_map (blind_types ht), hwritten]
  exact test_spelling ht

end

end Rivid.Check
