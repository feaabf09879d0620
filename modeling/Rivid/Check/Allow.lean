import Rivid.Check.Analyze

/-!
# The allow list

An entry of the allow list names a table and a column, or a table and `*`.  On
names without dots the texts that `analyze` compares say the same: the list is
then a filter on what rules 1 to 4 report.
-/

namespace Rivid.Check

/-- An entry `{table, column}` of the allow list. -/
structure Allowance where
  table : JsString
  column : JsString
deriving DecidableEq, Repr

/-- Some entry has the table, and the column or `*`. -/
def allows (entries : List Allowance) (table column : JsString) : Bool :=
  entries.any fun a ↦ a.table = table && (a.column = column || a.column = literal "*")

/-- The policy with the given allow list. -/
def Config.withAllow (policy : Config) (entries : List Allowance) : Config :=
  { policy with allow := entries.map fun a ↦ key a.table a.column }

/-- The finding is about an allowed column, or it is a foreign key that references one. -/
def silenced (entries : List Allowance) (f : Finding) : Bool :=
  f.column.any fun c ↦
    allows entries c.table c.column ||
      (f.rule = .fkMismatch &&
        c.fk.any fun fk ↦ fk.table.any fun table ↦ allows entries table fk.column)

/-- The names of a column have no dot in them. -/
structure DotFree (c : Column) : Prop where
  table : 0x2e ∉ c.table
  column : 0x2e ∉ c.column

/-! ## Names without dots -/

/-- Where names have no dots, `table.column` determines both. -/
theorem key_inj {t t' c c' : JsString} (ht : 0x2e ∉ t) (hc : 0x2e ∉ c)
    (h : key t' c' = key t c) : t' = t ∧ c' = c := by
  have hdot : literal "." = [0x2e] := rfl
  simp only [key, hdot, List.append_assoc, List.singleton_append] at h
  rcases List.append_eq_append_iff.mp h with ⟨x, ht', hx⟩ | ⟨x, ht', hx⟩
  · cases x with
    | nil =>
        rw [List.append_nil] at ht'
        rw [List.nil_append, List.cons.injEq] at hx
        exact ⟨ht'.symm, hx.2⟩
    | cons u x =>
        -- A dot of the other key would stand in `t`.
        rw [List.cons_append, List.cons.injEq] at hx
        refine absurd ?_ ht
        rw [ht', ← hx.1]
        simp
  · cases x with
    | nil =>
        rw [List.append_nil] at ht'
        rw [List.nil_append, List.cons.injEq] at hx
        exact ⟨ht', hx.2.symm⟩
    | cons u x =>
        -- Or the first dot of the other key would stand in `c`.
        rw [List.cons_append, List.cons.injEq] at hx
        refine absurd ?_ hc
        rw [hx.2]
        simp

/-- On dot-free columns the allow list allows what its entries name. -/
theorem allowed_withAllow {policy : Config} {entries : List Allowance} {c : Column}
    (hc : DotFree c) : allowed (policy.withAllow entries) c = allows entries c.table c.column := by
  have hstar : (0x2e : U16) ∉ literal "*" := by decide
  rw [Bool.eq_iff_iff]
  simp only [allowed, allows, Config.withAllow, Bool.or_eq_true, Bool.and_eq_true,
    List.contains_iff_mem, List.mem_map, List.any_eq_true, decide_eq_true_eq]
  constructor
  · rintro (⟨a, ha, hkey⟩ | ⟨a, ha, hkey⟩)
    · obtain ⟨htable, hcolumn⟩ := key_inj hc.table hc.column hkey
      exact ⟨a, ha, htable, Or.inl hcolumn⟩
    · obtain ⟨htable, hcolumn⟩ := key_inj hc.table hstar hkey
      exact ⟨a, ha, htable, Or.inr hcolumn⟩
  · rintro ⟨a, ha, htable, hcolumn | hcolumn⟩
    · exact Or.inl ⟨a, ha, by rw [htable, hcolumn]⟩
    · exact Or.inr ⟨a, ha, by rw [htable, hcolumn]⟩

/-- Without an allow list no column is allowed. -/
theorem allowed_withAllow_nil (policy : Config) (c : Column) :
    allowed (policy.withAllow []) c = false := rfl

/-! ## The filter -/

section

variable {toLowerCase : JsString → JsString} {cols : List Column} {policy : Config}
  {entries : List Allowance} {c : Column}

/-- Rules 1 to 3 say the same of a column, or nothing where it is allowed. -/
theorem filter_columnFindings (hc : DotFree c) :
    (if allowed (policy.withAllow entries) c then []
      else columnFindings toLowerCase (policy.withAllow entries) c) =
      (columnFindings toLowerCase (policy.withAllow []) c).filter fun f ↦ !silenced entries f := by
  have hsame : columnFindings toLowerCase (policy.withAllow entries) c =
      columnFindings toLowerCase (policy.withAllow []) c := rfl
  have hsilenced : ∀ f ∈ columnFindings toLowerCase (policy.withAllow []) c,
      silenced entries f = allows entries c.table c.column := by
    intro f hf
    obtain ⟨hcolumn, hrule, -⟩ := of_mem_columnFindings hf
    rw [silenced, hcolumn, Option.any_some, decide_eq_false hrule, Bool.false_and, Bool.or_false]
  rw [allowed_withAllow hc, hsame]
  cases hallows : allows entries c.table c.column with
  | true =>
      rw [if_pos rfl, eq_comm, List.filter_eq_nil_iff]
      intro f hf
      rw [hsilenced f hf, hallows]
      exact Bool.false_ne_true
  | false =>
      rw [if_neg Bool.false_ne_true, eq_comm, List.filter_eq_self]
      intro f hf
      rw [hsilenced f hf, hallows]
      rfl

theorem filter_columnRules (hcols : ∀ c ∈ cols, DotFree c) :
    columnRules toLowerCase cols (policy.withAllow entries) =
      (columnRules toLowerCase cols (policy.withAllow [])).filter fun f ↦ !silenced entries f := by
  rw [columnRules, columnRules, List.filter_flatMap]
  refine List.flatMap_congr fun c hc ↦ ?_
  rw [filter_columnFindings (hcols c hc), allowed_withAllow_nil]
  rfl

/-- Rule 4 says the same of a column, or nothing where it or its target is allowed. -/
theorem filter_fkFinding (hcols : ∀ c ∈ cols, DotFree c) (hc : c ∈ cols) :
    fkFinding cols (policy.withAllow entries) c =
      (fkFinding cols (policy.withAllow []) c).filter fun f ↦ !silenced entries f := by
  have hsilenced : ∀ {fk : ForeignKey} {target : Column}, c.fk = some fk →
      lookupTarget cols fk = some target →
      silenced entries (fkMismatch c target) =
        (allowed (policy.withAllow entries) c || allowed (policy.withAllow entries) target) := by
    intro fk target hfk htarget
    obtain ⟨table, htable, -, hfind⟩ := lookupTarget_eq_some_iff.mp htarget
    obtain ⟨hmem, hkey⟩ := lastWhere_spec hfind
    have hmem := hcols target hmem
    have hkey := of_decide_eq_true hkey
    obtain ⟨ht, hcolumn⟩ := key_inj hmem.table hmem.column hkey.symm
    have hrule : (fkMismatch c target).rule = .fkMismatch := rfl
    have hcol : (fkMismatch c target).column = some c := rfl
    rw [silenced, hcol, Option.any_some, hfk, Option.any_some, htable, Option.any_some, ht, hcolumn,
      hrule, decide_eq_true rfl, Bool.true_and, allowed_withAllow (hcols c hc),
      allowed_withAllow hmem]
  ext f
  rw [Option.filter_eq_some_iff, fkFinding_eq_some_iff, fkFinding_eq_some_iff]
  constructor
  · rintro ⟨fk, target, hfk, hallowed, htarget, htallowed, hrep, rfl⟩
    refine ⟨⟨fk, target, hfk, rfl, htarget, rfl, hrep, rfl⟩, ?_⟩
    rw [hsilenced hfk htarget, hallowed, htallowed]
    rfl
  · rintro ⟨⟨fk, target, hfk, -, htarget, -, hrep, rfl⟩, hnot⟩
    rw [hsilenced hfk htarget, Bool.not_eq_true', Bool.or_eq_false_iff] at hnot
    exact ⟨fk, target, hfk, hnot.1, htarget, hnot.2, hrep, rfl⟩

theorem filter_fkRule (hcols : ∀ c ∈ cols, DotFree c) :
    fkRule cols (policy.withAllow entries) =
      (fkRule cols (policy.withAllow [])).filter fun f ↦ !silenced entries f := by
  rw [fkRule, fkRule, List.filter_filterMap]
  exact List.filterMap_congr fun c hc ↦ filter_fkFinding hcols hc

/-- The allow list is a filter on the findings of rules 1 to 4. -/
structure AllowFilters (toLowerCase : JsString → JsString) (cols : List Column) (policy : Config)
    (entries : List Allowance) : Prop where
  /-- In order, what is found without it, less what it silences. -/
  filters : (analyze toLowerCase cols (policy.withAllow entries)).findings.filter
      (fun f ↦ f.rule ≠ .pkDrift) =
    ((analyze toLowerCase cols (policy.withAllow [])).findings.filter
      fun f ↦ f.rule ≠ .pkDrift).filter fun f ↦ !silenced entries f
  /-- Nothing is found about an allowed column. -/
  none_allowed : ∀ f ∈ (analyze toLowerCase cols (policy.withAllow entries)).findings, ∀ c,
    f.column = some c → allows entries c.table c.column = false
  /-- What rules 1 to 3 find about any other column is still found. -/
  none_lost : ∀ f ∈ (analyze toLowerCase cols (policy.withAllow [])).findings, ∀ c,
    f.column = some c → f.rule ≠ .fkMismatch → allows entries c.table c.column = false →
    f ∈ (analyze toLowerCase cols (policy.withAllow entries)).findings

/-- **The allow list is a filter**, on columns whose names have no dots. -/
theorem allowFilters (hcols : ∀ c ∈ cols, DotFree c) :
    AllowFilters toLowerCase cols policy entries := by
  have hfilter : (analyze toLowerCase cols (policy.withAllow entries)).findings.filter
      (fun f ↦ f.rule ≠ .pkDrift) =
      ((analyze toLowerCase cols (policy.withAllow [])).findings.filter
        fun f ↦ f.rule ≠ .pkDrift).filter (fun f ↦ !silenced entries f) := by
    rw [filter_findings, filter_findings, List.filter_append, filter_columnRules hcols,
      filter_fkRule hcols]
  refine ⟨hfilter, fun f hf c hcolumn ↦ ?_, fun f hf c hcolumn hrule hnot ↦ ?_⟩
  · have hmem : f ∈ (analyze toLowerCase cols (policy.withAllow entries)).findings.filter
        (fun f ↦ f.rule ≠ .pkDrift) :=
      List.mem_filter.mpr ⟨hf, decide_eq_true (ne_pkDrift_of_column hf hcolumn)⟩
    rw [hfilter, List.mem_filter, silenced, hcolumn, Option.any_some, Bool.not_or,
      Bool.and_eq_true, Bool.not_eq_true'] at hmem
    exact hmem.2.1
  · have hmem : f ∈ (analyze toLowerCase cols (policy.withAllow entries)).findings.filter
        (fun f ↦ f.rule ≠ .pkDrift) := by
      rw [hfilter, List.mem_filter, List.mem_filter]
      refine ⟨⟨hf, decide_eq_true (ne_pkDrift_of_column hf hcolumn)⟩, ?_⟩
      rw [silenced, hcolumn, Option.any_some, hnot, decide_eq_false hrule]
      rfl
    exact List.mem_of_mem_filter hmem

end

theorem allowFilters_users :
    AllowFilters asciiLowerCase [usersId, ordersUserId]
      (databasePolicy (.string (literal "uuidv7"))) [⟨literal "users", literal "*"⟩] := by
  refine allowFilters fun c hc ↦ ?_
  rcases List.mem_pair.mp hc with rfl | rfl
  · exact ⟨by decide, by decide⟩
  · exact ⟨by decide, by decide⟩

end Rivid.Check
