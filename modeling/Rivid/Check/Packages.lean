import Rivid.Check.Extend
import Rivid.Check.Report

/-!
# A schema in packages

The columns of a repository come from packages that know nothing of each other: no table is
declared in two of them, and no foreign key of one names a column of another.  The audit of
the repository is then the audits of the packages, put together.  The one thing it can add is
drift, when two packages keep their primary keys in different representations.
-/

namespace Rivid.Check

section

variable {toLowerCase : JsString → JsString} {cols cols' rest : List Column} {policy : Config}
  {c : Column}

/-- No foreign key of the one list names a column of the other. -/
def NamesNone (cols cols' : List Column) : Prop :=
  ∀ c ∈ cols, ∀ fk table, c.fk = some fk → fk.table = some table →
    ∀ d ∈ cols', key d.table d.column ≠ key table fk.column

/-- Two lists of columns that know nothing of each other. -/
structure Apart (cols cols' : List Column) : Prop where
  tables : ∀ c ∈ cols, ∀ d ∈ cols', c.table ≠ d.table
  left : NamesNone cols cols'
  right : NamesNone cols' cols

/-! ## Foreign keys -/

theorem fkFinding_congr (h : ∀ fk, c.fk = some fk → lookupTarget cols fk = lookupTarget cols' fk) :
    fkFinding cols policy c = fkFinding cols' policy c := by
  rw [fkFinding, fkFinding]
  cases hfk : c.fk with
  | none => rfl
  | some fk => simp only [h fk hfk]

theorem lookupTarget_append_left (h : NamesNone cols cols') (hc : c ∈ cols) {fk : ForeignKey}
    (hfk : c.fk = some fk) : lookupTarget (cols ++ cols') fk = lookupTarget cols fk := by
  rw [lookupTarget, lookupTarget]
  cases htable : fk.table with
  | none => rfl
  | some table =>
      simp only [get?_byKey]
      rw [lastWhere_append_left]
      intro d hd
      exact decide_eq_false (h c hc fk table hfk htable d hd)

theorem lookupTarget_append_right (h : NamesNone cols' cols) (hc : c ∈ cols') {fk : ForeignKey}
    (hfk : c.fk = some fk) : lookupTarget (cols ++ cols') fk = lookupTarget cols' fk := by
  rw [lookupTarget, lookupTarget]
  cases htable : fk.table with
  | none => rfl
  | some table =>
      simp only [get?_byKey]
      rw [lastWhere_append_right]
      intro d hd
      exact decide_eq_false (h c hc fk table hfk htable d hd)

theorem fkRule_append (h : Apart cols cols') :
    fkRule (cols ++ cols') policy = fkRule cols policy ++ fkRule cols' policy := by
  have hleft : cols.filterMap (fkFinding (cols ++ cols') policy) = fkRule cols policy := by
    refine List.filterMap_congr fun c hc ↦ ?_
    apply fkFinding_congr
    intro fk hfk
    exact lookupTarget_append_left h.left hc hfk
  have hright : cols'.filterMap (fkFinding (cols ++ cols') policy) = fkRule cols' policy := by
    refine List.filterMap_congr fun c hc ↦ ?_
    apply fkFinding_congr
    intro fk hfk
    exact lookupTarget_append_right h.right hc hfk
  rw [fkRule, List.filterMap_append, hleft, hright]

theorem Apart.flatten {packages : List (List Column)} (h : ∀ p ∈ packages, Apart cols p) :
    Apart cols packages.flatten where
  tables := by
    intro c hc d hd
    obtain ⟨p, hp, hd⟩ := List.mem_flatten.mp hd
    exact (h p hp).tables c hc d hd
  left := by
    intro c hc fk table hfk htable d hd
    obtain ⟨p, hp, hd⟩ := List.mem_flatten.mp hd
    exact (h p hp).left c hc fk table hfk htable d hd
  right := by
    intro c hc
    obtain ⟨p, hp, hc⟩ := List.mem_flatten.mp hc
    exact (h p hp).right c hc

/-! ## Packages -/

section Packages

variable {packages : List (List Column)}

theorem columnRules_flatten (packages : List (List Column)) :
    columnRules toLowerCase packages.flatten policy =
      packages.flatMap fun p ↦ columnRules toLowerCase p policy := by
  rw [columnRules, ← List.flatMap_id, List.flatMap_assoc]
  rfl

theorem fkRule_flatten (h : packages.Pairwise Apart) :
    fkRule packages.flatten policy = packages.flatMap fun p ↦ fkRule p policy := by
  induction packages with
  | nil => rfl
  | cons p packages ih =>
      obtain ⟨hp, htail⟩ := List.pairwise_cons.mp h
      rw [List.flatten_cons, fkRule_append (Apart.flatten hp), ih htail, List.flatMap_cons]

/-- The findings that are about a column. -/
def columnReport (toLowerCase : JsString → JsString) (cols : List Column) (policy : Config) :
    List Finding :=
  (analyze toLowerCase cols policy).findings.filter fun f ↦ f.rule ≠ .pkDrift

theorem columnReport_flatten (toLowerCase : JsString → JsString) (policy : Config)
    (h : packages.Pairwise Apart) :
    (columnReport toLowerCase packages.flatten policy).Perm
      (packages.flatMap fun p ↦ columnReport toLowerCase p policy) := by
  have hpackage : (fun p ↦ columnReport toLowerCase p policy) =
      fun p ↦ columnRules toLowerCase p policy ++ fkRule p policy := by
    funext p
    exact filter_findings
  rw [hpackage, columnReport, filter_findings, columnRules_flatten, fkRule_flatten h]
  exact List.flatMap_append_perm packages _ _

/-- Errors are about columns. -/
theorem errors_eq (cols : List Column) (policy : Config) :
    (analyze toLowerCase cols policy).summary.errors =
      (columnReport toLowerCase cols policy).countP fun f ↦ f.severity = .error := by
  have hdrift : ∀ f ∈ driftRule toLowerCase cols policy, ¬ decide (f.severity = .error) = true := by
    intro f hf
    rw [(of_mem_driftRule hf).1]
    decide
  have herrors : (analyze toLowerCase cols policy).summary.errors =
      ((columnRules toLowerCase cols policy ++ fkRule cols policy ++
        driftRule toLowerCase cols policy).filter fun f ↦ f.severity = .error).length := rfl
  rw [herrors, columnReport, filter_findings, List.filter_append,
    List.filter_eq_nil_iff.mpr hdrift, List.append_nil, List.countP_eq_length_filter]

theorem findings_eq_nil_iff :
    (analyze toLowerCase cols policy).findings = [] ↔
      columnReport toLowerCase cols policy = [] ∧
        ¬ (policy.database.truthy = true ∧ Drifts toLowerCase cols policy) := by
  rw [columnReport, filter_findings, ← driftRule_ne_nil_iff, not_not, analyze]
  exact List.append_eq_nil_iff

theorem exitCode_eq_zero_iff : (analyze toLowerCase cols policy).exitCode false = 0 ↔
    (analyze toLowerCase cols policy).summary.errors = 0 := by
  rw [Report.exitCode]
  simp only [Bool.false_eq_true, if_false, Nat.add_zero]
  split
  · omega
  · omega

/-! ## Drift -/

/-- A bucket of the primary keys that rule 5 looks at. -/
def HasBucket (toLowerCase : JsString → JsString) (policy : Config) (cols : List Column)
    (rep : JsString) : Prop :=
  ∃ table c, lastCounted toLowerCase cols policy table = some c ∧ bucket c.rep = rep

/-- The buckets of two packages differ. -/
def DriftsAcross (toLowerCase : JsString → JsString) (policy : Config)
    (packages : List (List Column)) : Prop :=
  ∃ p ∈ packages, ∃ q ∈ packages, ∃ a b,
    HasBucket toLowerCase policy p a ∧ HasBucket toLowerCase policy q b ∧ a ≠ b

theorem drifts_flatten_iff (h : packages.Pairwise Apart) :
    Drifts toLowerCase packages.flatten policy ↔ DriftsAcross toLowerCase policy packages := by
  have htables : packages.Pairwise fun p q ↦ ∀ c ∈ p, ∀ d ∈ q, c.table ≠ d.table :=
    h.imp Apart.tables
  rw [Drifts, mixed_flatten_iff htables]
  constructor
  · rintro ⟨p, hp, q, hq, t, u, c, d, hc, hd, hne⟩
    exact ⟨p, hp, q, hq, _, _, ⟨t, c, hc, rfl⟩, ⟨u, d, hd, rfl⟩, hne⟩
  · rintro ⟨p, hp, q, hq, a, b, ⟨t, c, hc, rfl⟩, ⟨u, d, hd, rfl⟩, hne⟩
    exact ⟨p, hp, q, hq, t, u, c, d, hc, hd, hne⟩

theorem driftsAcross_of_drifts {p : List Column} (hp : p ∈ packages)
    (h : Drifts toLowerCase p policy) : DriftsAcross toLowerCase policy packages := by
  obtain ⟨t, u, c, d, hc, hd, hne⟩ := h
  exact ⟨p, hp, p, hp, _, _, ⟨t, c, hc, rfl⟩, ⟨u, d, hd, rfl⟩, hne⟩

/-! ## The report -/

/-- What the audit of all packages says, by what the audit of each of them says. -/
structure PutTogether (toLowerCase : JsString → JsString) (policy : Config)
    (packages : List (List Column)) : Prop where
  columns : (columnReport toLowerCase packages.flatten policy).Perm
    (packages.flatMap fun p ↦ columnReport toLowerCase p policy)
  drift : (Severity.warning, Rule.pkDrift, none) ∈
      (analyze toLowerCase packages.flatten policy).findings.map Finding.verdict ↔
    policy.database.truthy = true ∧ DriftsAcross toLowerCase policy packages
  identifiers : (analyze toLowerCase packages.flatten policy).summary.identifiers =
    (packages.map fun p ↦ (analyze toLowerCase p policy).summary.identifiers).sum
  byRep : ∀ rep, ((analyze toLowerCase packages.flatten policy).summary.byRep.get? rep).getD 0 =
    (packages.map fun p ↦ ((analyze toLowerCase p policy).summary.byRep.get? rep).getD 0).sum
  errors : (analyze toLowerCase packages.flatten policy).summary.errors =
    (packages.map fun p ↦ (analyze toLowerCase p policy).summary.errors).sum
  exitCode : (analyze toLowerCase packages.flatten policy).exitCode false = 0 ↔
    ∀ p ∈ packages, (analyze toLowerCase p policy).exitCode false = 0
  strict : (analyze toLowerCase packages.flatten policy).exitCode true = 0 ↔
    (∀ p ∈ packages, (analyze toLowerCase p policy).exitCode true = 0) ∧
      ¬ (policy.database.truthy = true ∧ DriftsAcross toLowerCase policy packages)

theorem errors_flatten (h : packages.Pairwise Apart) :
    (analyze toLowerCase packages.flatten policy).summary.errors =
      (packages.map fun p ↦ (analyze toLowerCase p policy).summary.errors).sum := by
  have hpackage : (fun p ↦ (analyze toLowerCase p policy).summary.errors) =
      fun p ↦ (columnReport toLowerCase p policy).countP fun f ↦ f.severity = .error := by
    funext p
    exact errors_eq p policy
  rw [errors_eq, (columnReport_flatten toLowerCase policy h).countP_eq, List.countP_flatMap,
    hpackage]
  rfl

theorem byRep_flatten (packages : List (List Column)) (rep : JsString) :
    ((countByRep packages.flatten).get? rep).getD 0 =
      (packages.map fun p ↦ ((countByRep p).get? rep).getD 0).sum := by
  simp only [countByRep_eq, List.map_flatten]
  rw [OrderedMap.getD_get?_tally_flatten, List.map_map]
  rfl

theorem columnReport_flatten_eq_nil_iff (h : packages.Pairwise Apart) :
    columnReport toLowerCase packages.flatten policy = [] ↔
      ∀ p ∈ packages, columnReport toLowerCase p policy = [] := by
  have hperm := columnReport_flatten toLowerCase policy h
  rw [← List.flatMap_eq_nil_iff]
  constructor
  · intro hnil
    rw [hnil] at hperm
    exact hperm.nil_eq.symm
  · intro hnil
    rw [hnil] at hperm
    exact hperm.eq_nil

theorem strict_flatten (h : packages.Pairwise Apart) :
    (analyze toLowerCase packages.flatten policy).exitCode true = 0 ↔
      (∀ p ∈ packages, (analyze toLowerCase p policy).exitCode true = 0) ∧
        ¬ (policy.database.truthy = true ∧ DriftsAcross toLowerCase policy packages) := by
  rw [exitCode_strict_eq_zero_iff, findings_eq_nil_iff, columnReport_flatten_eq_nil_iff h,
    drifts_flatten_iff h]
  constructor
  · rintro ⟨hcolumns, hdrift⟩
    refine ⟨fun p hp ↦ ?_, hdrift⟩
    rw [exitCode_strict_eq_zero_iff, findings_eq_nil_iff]
    refine ⟨hcolumns p hp, ?_⟩
    rintro ⟨htruthy, hdrifts⟩
    exact hdrift ⟨htruthy, driftsAcross_of_drifts hp hdrifts⟩
  · rintro ⟨hpackages, hdrift⟩
    refine ⟨fun p hp ↦ ?_, hdrift⟩
    have hp := hpackages p hp
    rw [exitCode_strict_eq_zero_iff, findings_eq_nil_iff] at hp
    exact hp.1

/--
**A repository is audited package by package.**  When packages share no table and no foreign
key leads from one to another, the findings about columns, the errors and the counts are those
of the packages, and the audit passes if it passes for each of them.  Under `--strict` the
packages have to agree on the representation of their primary keys as well, and this is when
drift is reported.
-/
theorem putTogether (h : packages.Pairwise Apart) : PutTogether toLowerCase policy packages where
  columns := columnReport_flatten toLowerCase policy h
  drift := by rw [pkDrift_mem_verdicts_iff, drifts_flatten_iff h]
  identifiers := List.length_flatten
  byRep := byRep_flatten packages
  errors := errors_flatten h
  exitCode := by
    simp only [exitCode_eq_zero_iff]
    rw [errors_flatten h, List.sum_eq_zero_iff_forall_eq_nat]
    exact List.forall_mem_map
  strict := strict_flatten h

/-- A uuid in one package and a bigint in the other: each passes, and together they drift. -/
theorem putTogether_users_orders :
    let policy := databasePolicy (.string (literal "uuidv7"))
    let packages := [[usersId], [{ usersBigint with table := literal "orders" }]]
    PutTogether asciiLowerCase policy packages ∧
      (∀ p ∈ packages, (analyze asciiLowerCase p policy).exitCode true = 0) ∧
      (Severity.warning, Rule.pkDrift, none) ∈
        (analyze asciiLowerCase packages.flatten policy).findings.map Finding.verdict ∧
      (analyze asciiLowerCase packages.flatten policy).exitCode true ≠ 0 := by
  intro policy packages
  have hapart : packages.Pairwise Apart := by
    refine List.pairwise_pair.mpr ⟨?_, ?_, ?_⟩
    · decide
    · intro c hc fk table hfk
      obtain rfl := List.mem_singleton.mp hc
      cases hfk
    · intro c hc fk table hfk
      obtain rfl := List.mem_singleton.mp hc
      cases hfk
  have hall : PutTogether asciiLowerCase policy packages := putTogether hapart
  have hdrifts : policy.database.truthy = true ∧ DriftsAcross asciiLowerCase policy packages := by
    refine ⟨rfl, _, List.mem_cons_self, _, List.mem_cons_of_mem _ List.mem_cons_self,
      literal "uuid-like", literal "bigint", ⟨literal "users", usersId, ?_, ?_⟩,
      ⟨literal "orders", { usersBigint with table := literal "orders" }, ?_, ?_⟩, ?_⟩ <;> decide
  refine ⟨hall, by decide, hall.drift.mpr hdrifts, fun hpass ↦ ?_⟩
  exact (hall.strict.mp hpass).2 hdrifts

end Packages

end

end Rivid.Check
