import Rivid.Check.Analyze

/-!
# The order of the columns

The maps of rules 4 and 5 keep the last declaration of a key and of a table's
primary key.  So the verdict depends on the order in which columns are found as
soon as the declarations disagree in a way that shows: `OrderFree` is exactly
the condition that they do not.
-/

namespace Rivid.Check

/-- Two reports with the same findings up to their order and their texts. -/
structure SameVerdict (r r' : Report) : Prop where
  findings : (r.findings.map Finding.verdict).Perm (r'.findings.map Finding.verdict)
  errors : r.summary.errors = r'.summary.errors
  warnings : r.summary.warnings = r'.summary.warnings
  exitCode : ∀ strict, r.exitCode strict = r'.exitCode strict

/-- What rule 4 asks of a foreign key `c` and a declaration `d` of the key it references. -/
def mismatches (policy : Config) (c d : Column) : Bool := !allowed policy d && d.rep ≠ c.rep

/-- The declarations of the columns agree where it shows. -/
structure OrderFree (toLowerCase : JsString → JsString) (cols : List Column) (policy : Config) :
    Prop where
  /-- All declarations of a key that a foreign key references match it or none does. -/
  references : ∀ c ∈ cols, allowed policy c = false → ∀ fk table, c.fk = some fk →
    fk.table = some table → table ≠ [] → ∀ d ∈ cols, ∀ e ∈ cols,
    key d.table d.column = key table fk.column → key e.table e.column = key table fk.column →
    mismatches policy c d = mismatches policy c e
  /-- If the policy names a database family: the primary keys it is about are all of
  one table or all in one bucket, or no bucket has one of each table. -/
  drift : policy.database.truthy = true →
    Settled (counted toLowerCase policy) Column.table (fun c ↦ bucket c.rep) cols

section

variable {toLowerCase : JsString → JsString} {cols cols' : List Column} {policy : Config}
  {c : Column}

/-! ## Rule 4 -/

theorem isSome_fkFinding_iff :
    (fkFinding cols policy c).isSome ↔ ∃ fk table target, c.fk = some fk ∧
      allowed policy c = false ∧ fk.table = some table ∧ table ≠ [] ∧
      lastWhere (fun d ↦ key d.table d.column = key table fk.column) cols = some target ∧
      mismatches policy c target = true := by
  rw [Option.isSome_iff_exists]
  constructor
  · rintro ⟨f, hf⟩
    obtain ⟨fk, target, hfk, hallowed, htarget, htallowed, hrep, -⟩ := fkFinding_eq_some_iff.mp hf
    obtain ⟨table, htable, hne, hlast⟩ := lookupTarget_eq_some_iff.mp htarget
    refine ⟨fk, table, target, hfk, hallowed, htable, hne, hlast, ?_⟩
    rw [mismatches, htallowed]
    exact decide_eq_true hrep
  · rintro ⟨fk, table, target, hfk, hallowed, htable, hne, hlast, hmismatch⟩
    rw [mismatches, Bool.and_eq_true, Bool.not_eq_true', decide_eq_true_eq] at hmismatch
    exact ⟨_, fkFinding_eq_some_iff.mpr ⟨fk, target, hfk, hallowed,
      lookupTarget_eq_some_iff.mpr ⟨table, htable, hne, hlast⟩, hmismatch.1, hmismatch.2, rfl⟩⟩

/-- The verdict on a column does not show the declaration it was compared with. -/
theorem map_verdict_fkFinding :
    (fkFinding cols policy c).map Finding.verdict =
      if (fkFinding cols policy c).isSome then some (.error, .fkMismatch, some c) else none := by
  cases h : fkFinding cols policy c with
  | none => rfl
  | some f =>
      obtain ⟨_, _, -, -, -, -, -, rfl⟩ := fkFinding_eq_some_iff.mp h
      rfl

/-- Where the declarations agree, a finding of one order is one of every other. -/
theorem OrderFree.isSome_fkFinding_of_perm (h : OrderFree toLowerCase cols policy)
    {m m' : List Column} (hm : m.Perm cols) (hm' : m'.Perm cols) (hc : c ∈ cols)
    (hsome : (fkFinding m policy c).isSome) : (fkFinding m' policy c).isSome := by
  obtain ⟨fk, table, target, hfk, hallowed, htable, hne, hlast, hmismatch⟩ :=
    isSome_fkFinding_iff.mp hsome
  obtain ⟨target', hlast'⟩ := Option.isSome_iff_exists.mp
    ((isSome_lastWhere_of_perm (hm'.trans hm.symm)).trans (Option.isSome_of_eq_some hlast))
  obtain ⟨hmem, hkey⟩ := lastWhere_spec hlast
  obtain ⟨hmem', hkey'⟩ := lastWhere_spec hlast'
  refine isSome_fkFinding_iff.mpr ⟨fk, table, target', hfk, hallowed, htable, hne, hlast', ?_⟩
  rw [← h.references c hc hallowed fk table hfk htable hne target (hm.mem_iff.mp hmem) target'
    (hm'.mem_iff.mp hmem') (of_decide_eq_true hkey) (of_decide_eq_true hkey')]
  exact hmismatch

/-- Where the declarations agree, rule 4 says the same in every order. -/
theorem OrderFree.isSome_fkFinding (h : OrderFree toLowerCase cols policy) (hperm : cols'.Perm cols)
    (hc : c ∈ cols) : (fkFinding cols' policy c).isSome ↔ (fkFinding cols policy c).isSome :=
  ⟨h.isSome_fkFinding_of_perm hperm (List.Perm.refl _) hc,
    h.isSome_fkFinding_of_perm (List.Perm.refl _) hperm hc⟩

/-- If rule 4 says the same in every order, the declarations agree. -/
theorem mismatches_eq_of_forall_perm
    (h : ∀ cols', cols'.Perm cols →
      ((fkFinding cols' policy c).isSome ↔ (fkFinding cols policy c).isSome))
    (hallowed : allowed policy c = false) {fk : ForeignKey} {table : JsString}
    (hfk : c.fk = some fk) (htable : fk.table = some table) (hne : table ≠ []) {d e : Column}
    (hd : d ∈ cols) (he : e ∈ cols) (hkd : key d.table d.column = key table fk.column)
    (hke : key e.table e.column = key table fk.column) :
    mismatches policy c d = mismatches policy c e := by
  -- With a declaration made the last one, the finding is its mismatch.
  have hlast : ∀ {x : Column}, x ∈ cols → key x.table x.column = key table fk.column →
      ((fkFinding cols policy c).isSome ↔ mismatches policy c x = true) := by
    intro x hx hkx
    obtain ⟨cols', hperm, hlast⟩ := exists_perm_lastWhere
      (p := fun d ↦ key d.table d.column = key table fk.column) hx (decide_eq_true hkx)
    rw [← h cols' hperm, isSome_fkFinding_iff]
    constructor
    · rintro ⟨fk', table', target, hfk', -, htable', -, hlast', hmismatch⟩
      rw [hfk, Option.some.injEq] at hfk'
      subst hfk'
      rw [htable, Option.some.injEq] at htable'
      subst htable'
      rw [hlast, Option.some.injEq] at hlast'
      rw [hlast']
      exact hmismatch
    · intro hmismatch
      exact ⟨fk, table, x, hfk, hallowed, htable, hne, hlast, hmismatch⟩
  rw [Bool.eq_iff_iff, ← hlast hd hkd, hlast he hke]

/-! ## The report -/

variable (toLowerCase cols policy) in
/-- Rule 5 reports nothing or one warning about no column. -/
theorem map_verdict_driftRule :
    ((driftRule toLowerCase cols policy).map Finding.verdict = [] ∧
        ¬ (policy.database.truthy = true ∧ Drifts toLowerCase cols policy)) ∨
      ((driftRule toLowerCase cols policy).map Finding.verdict = [(.warning, .pkDrift, none)] ∧
        policy.database.truthy = true ∧ Drifts toLowerCase cols policy) := by
  rw [← driftRule_ne_nil_iff, not_not]
  simp only [driftRule]
  split
  · split
    · exact Or.inr ⟨rfl, List.cons_ne_nil _ _⟩
    · exact Or.inl ⟨rfl, rfl⟩
  · exact Or.inl ⟨rfl, rfl⟩

/-- The same verdicts in any order make the same summary. -/
theorem sameVerdict_of_perm
    (h : ((analyze toLowerCase cols' policy).findings.map Finding.verdict).Perm
      ((analyze toLowerCase cols policy).findings.map Finding.verdict)) :
    SameVerdict (analyze toLowerCase cols' policy) (analyze toLowerCase cols policy) := by
  have hcount : ∀ severity : Severity,
      ((analyze toLowerCase cols' policy).findings.filter fun f ↦ f.severity = severity).length =
        ((analyze toLowerCase cols policy).findings.filter
          fun f ↦ f.severity = severity).length := by
    intro severity
    have hfilter := (h.filter fun v ↦ v.1 = severity).length_eq
    rw [List.filter_map, List.filter_map, List.length_map, List.length_map] at hfilter
    exact hfilter
  have herrors : (analyze toLowerCase cols' policy).summary.errors =
      (analyze toLowerCase cols policy).summary.errors := hcount .error
  have hwarnings : (analyze toLowerCase cols' policy).summary.warnings =
      (analyze toLowerCase cols policy).summary.warnings := hcount .warning
  refine ⟨h, herrors, hwarnings, fun strict ↦ ?_⟩
  rw [Report.exitCode, Report.exitCode, herrors, hwarnings]

theorem OrderFree.perm_verdicts (h : OrderFree toLowerCase cols policy) (hperm : cols'.Perm cols) :
    ((analyze toLowerCase cols' policy).findings.map Finding.verdict).Perm
      ((analyze toLowerCase cols policy).findings.map Finding.verdict) := by
  have hcolumn : ((columnRules toLowerCase cols' policy).map Finding.verdict).Perm
      ((columnRules toLowerCase cols policy).map Finding.verdict) :=
    (hperm.flatMap_right _).map _
  have hfk : ((fkRule cols' policy).map Finding.verdict).Perm
      ((fkRule cols policy).map Finding.verdict) := by
    rw [fkRule, fkRule, List.map_filterMap, List.map_filterMap]
    have hsame : cols'.filterMap (fun c ↦ (fkFinding cols' policy c).map Finding.verdict) =
        cols'.filterMap fun c ↦ (fkFinding cols policy c).map Finding.verdict := by
      refine List.filterMap_congr fun c hc ↦ ?_
      have hsome := h.isSome_fkFinding hperm (hperm.mem_iff.mp hc)
      rw [map_verdict_fkFinding, map_verdict_fkFinding, Bool.eq_iff_iff.mpr hsome]
    rw [hsame]
    exact hperm.filterMap _
  have hdrift : (driftRule toLowerCase cols' policy).map Finding.verdict =
      (driftRule toLowerCase cols policy).map Finding.verdict := by
    have hiff : policy.database.truthy = true ∧ Drifts toLowerCase cols' policy ↔
        policy.database.truthy = true ∧ Drifts toLowerCase cols policy :=
      and_congr_right fun htruthy ↦ (h.drift htruthy).mixed_iff hperm
    rcases map_verdict_driftRule toLowerCase cols' policy with ⟨heq, hno⟩ | ⟨heq, hyes⟩
    · rcases map_verdict_driftRule toLowerCase cols policy with ⟨heq', -⟩ | ⟨-, hyes'⟩
      · rw [heq, heq']
      · exact absurd (hiff.mpr hyes') hno
    · rcases map_verdict_driftRule toLowerCase cols policy with ⟨-, hno'⟩ | ⟨heq', -⟩
      · exact absurd (hiff.mp hyes) hno'
      · rw [heq, heq']
  simp only [analyze, List.map_append]
  exact (hcolumn.append hfk).append (hdrift ▸ List.Perm.refl _)

/-- **Order independence.**  The verdict is the same in every order of the columns
exactly if their declarations agree where it shows. -/
theorem sameVerdict_iff_orderFree :
    (∀ cols', cols'.Perm cols →
      SameVerdict (analyze toLowerCase cols' policy) (analyze toLowerCase cols policy)) ↔
      OrderFree toLowerCase cols policy := by
  constructor
  · intro hsame
    refine ⟨fun c hc hallowed fk table hfk htable hne d hd e he hkd hke ↦ ?_, fun htruthy ↦ ?_⟩
    · refine mismatches_eq_of_forall_perm (fun cols' hperm ↦ ?_) hallowed hfk htable hne hd he
        hkd hke
      have hmem := (hsame cols' hperm).findings.mem_iff
        (a := (Severity.error, Rule.fkMismatch, some c))
      rw [fkMismatch_mem_verdicts_iff, fkMismatch_mem_verdicts_iff, hperm.mem_iff] at hmem
      constructor
      · intro hsome
        exact (hmem.mp ⟨hc, hsome⟩).2
      · intro hsome
        exact (hmem.mpr ⟨hc, hsome⟩).2
    · refine forall_perm_mixed_iff.mp fun cols' hperm ↦ ?_
      have hmem := (hsame cols' hperm).findings.mem_iff
        (a := (Severity.warning, Rule.pkDrift, none))
      rw [pkDrift_mem_verdicts_iff, pkDrift_mem_verdicts_iff] at hmem
      constructor
      · intro hdrift
        exact (hmem.mp ⟨htruthy, hdrift⟩).2
      · intro hdrift
        exact (hmem.mpr ⟨htruthy, hdrift⟩).2
  · intro hfree cols' hperm
    exact sameVerdict_of_perm (hfree.perm_verdicts hperm)

end

/-- `users.id` declared a second time, as text. -/
def usersIdText : Column := { usersId with rep := literal "text", width := none, pk := false }

/-- With the text declaration last, the text that references `users.id` matches it;
with the uuid declaration last, it does not. -/
theorem not_sameVerdict_of_redeclared :
    [usersIdText, usersId, ordersUserId].Perm [usersId, usersIdText, ordersUserId] ∧
      ¬ SameVerdict
        (analyze asciiLowerCase [usersIdText, usersId, ordersUserId] (databasePolicy .undefined))
        (analyze asciiLowerCase [usersId, usersIdText, ordersUserId]
          (databasePolicy .undefined)) := by
  refine ⟨List.Perm.swap _ _ _, fun h ↦ ?_⟩
  have hmem := h.findings.mem_iff (a := (Severity.error, Rule.fkMismatch, some ordersUserId))
  rw [fkMismatch_mem_verdicts_iff, fkMismatch_mem_verdicts_iff] at hmem
  have hsome := (hmem.mp ⟨by simp, by decide⟩).2
  exact absurd hsome (by decide)

end Rivid.Check
