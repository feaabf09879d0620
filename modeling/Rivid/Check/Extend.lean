import Rivid.Check.Allow

/-!
# Extending the allow list

Rules 1 to 4 never report more under a larger allow list.  Rule 5 can: it looks at
the last counted column of each table, and allowing that one uncovers an earlier
declaration of the table's key, which may be in another bucket.
-/

namespace Rivid.Check

/-- The policy with further entries in its allow list. -/
def Config.allowMore (policy : Config) (extra : List Allowance) : Config :=
  { policy with allow := policy.allow ++ extra.map fun a ↦ key a.table a.column }

/-- The first report has no rule and column that the second has not, and is not worse
under `--strict`. -/
structure ReportsNoMore (r' r : Report) : Prop where
  findings : ∀ f' ∈ r'.findings, ∃ f ∈ r.findings, f.rule = f'.rule ∧ f.column = f'.column
  strict : r.exitCode true = 0 → r'.exitCode true = 0

/-- An entry that names the column `e` allows the column `c`. -/
def allowsToo (e c : Column) : Bool :=
  key e.table e.column = key c.table c.column || key e.table e.column = key c.table (literal "*")

/-- The last counted column of a table among those that cannot be allowed by name
without allowing `c` or `d`. -/
def lastKept (toLowerCase : JsString → JsString) (cols : List Column) (policy : Config)
    (c d : Column) (table : JsString) : Option Column :=
  lastWhere (fun e ↦ (counted toLowerCase policy e && (allowsToo e c || allowsToo e d)) &&
    e.table = table) cols

/-- Two counted columns in different buckets that are the last of their tables once
every column that can be allowed without them is. -/
def Exposable (toLowerCase : JsString → JsString) (cols : List Column) (policy : Config)
    (c d : Column) : Prop :=
  lastKept toLowerCase cols policy c d c.table = some c ∧
    lastKept toLowerCase cols policy c d d.table = some d ∧ bucket c.rep ≠ bucket d.rep

section

variable {toLowerCase : JsString → JsString} {cols : List Column} {policy : Config}
  {extra : List Allowance} {c d e : Column} {f : Finding}

/-! ## More is allowed -/

/-- The further entries allow the column. -/
def extraAllows (extra : List Allowance) (c : Column) : Bool :=
  (extra.map fun a ↦ key a.table a.column).contains (key c.table c.column) ||
    (extra.map fun a ↦ key a.table a.column).contains (key c.table (literal "*"))

theorem allowed_allowMore :
    allowed (policy.allowMore extra) c = (allowed policy c || extraAllows extra c) := by
  rw [Bool.eq_iff_iff]
  simp only [allowed, extraAllows, Config.allowMore, Bool.or_eq_true, List.contains_iff_mem,
    List.mem_append]
  exact or_or_or_comm

theorem allowed_of_allowMore (h : allowed (policy.allowMore extra) c = false) :
    allowed policy c = false := by
  rw [allowed_allowMore, Bool.or_eq_false_iff] at h
  exact h.1

theorem counted_allowMore :
    counted toLowerCase (policy.allowMore extra) c =
      (counted toLowerCase policy c && !extraAllows extra c) := by
  have hclassify : classify toLowerCase c (policy.allowMore extra) =
      classify toLowerCase c policy := rfl
  have hdatabase : (policy.allowMore extra).database = policy.database := rfl
  rw [counted, counted, allowed_allowMore, hclassify, hdatabase]
  cases c.pk <;> cases allowed policy c <;> cases extraAllows extra c <;> simp

/-! ## Rules 1 to 4 -/

theorem mem_columnRules_of_allowMore
    (h : f ∈ columnRules toLowerCase cols (policy.allowMore extra)) :
    f ∈ columnRules toLowerCase cols policy := by
  obtain ⟨c, hc, hallowed, hf⟩ := mem_columnRules_iff.mp h
  exact mem_columnRules_iff.mpr ⟨c, hc, allowed_of_allowMore hallowed, hf⟩

theorem mem_fkRule_of_allowMore (h : f ∈ fkRule cols (policy.allowMore extra)) :
    f ∈ fkRule cols policy := by
  obtain ⟨c, hc, hf⟩ := mem_fkRule_iff.mp h
  obtain ⟨fk, target, hfk, hallowed, htarget, htallowed, hrep, rfl⟩ := fkFinding_eq_some_iff.mp hf
  exact mem_fkRule_iff.mpr ⟨c, hc, fkFinding_eq_some_iff.mpr ⟨fk, target, hfk,
    allowed_of_allowMore hallowed, htarget, allowed_of_allowMore htallowed, hrep, rfl⟩⟩

/-! ## Rule 5 -/

/-- Drift under a larger list needs two columns that can be exposed. -/
theorem exposable_of_drifts (h : Drifts toLowerCase cols (policy.allowMore extra)) :
    ∃ c d, Exposable toLowerCase cols policy c d := by
  obtain ⟨t, u, c, d, hc, hd, hne⟩ := h
  have hspec : ∀ {t : JsString} {x : Column},
      lastWhere (fun e ↦ counted toLowerCase (policy.allowMore extra) e && e.table = t) cols =
        some x →
      counted toLowerCase policy x = true ∧ extraAllows extra x = false ∧ x.table = t := by
    intro t x hx
    obtain ⟨-, hcounted, htable⟩ := lastWhere_group_spec hx
    rw [counted_allowMore, Bool.and_eq_true, Bool.not_eq_true'] at hcounted
    exact ⟨hcounted.1, hcounted.2, htable⟩
  obtain ⟨hcc, hce, rfl⟩ := hspec hc
  obtain ⟨hdc, hde, rfl⟩ := hspec hd
  -- A later counted column of the table is allowed by name, so its name is neither column's.
  have hlast : ∀ {x : Column},
      lastWhere (fun e ↦ counted toLowerCase (policy.allowMore extra) e && e.table = x.table) cols =
        some x →
      (allowsToo x c || allowsToo x d) = true →
      lastKept toLowerCase cols policy c d x.table = some x := by
    intro x hx hown
    obtain ⟨hxc, hxe, -⟩ := hspec hx
    obtain ⟨-, pre, post, hcols, hpost⟩ := lastWhere_eq_some_iff.mp hx
    refine lastWhere_eq_some_iff.mpr ⟨by simp [hxc, hown], pre, post, hcols, fun e he ↦ ?_⟩
    have hnot := hpost e he
    rw [counted_allowMore] at hnot
    by_contra hkept
    rw [Bool.not_eq_false, Bool.and_eq_true, Bool.and_eq_true, Bool.or_eq_true,
      decide_eq_true_eq] at hkept
    obtain ⟨⟨hec, htoo⟩, htable⟩ := hkept
    have hee : extraAllows extra e = true := by simpa [hec, htable] using hnot
    have hstar : (extra.map fun a ↦ key a.table a.column).contains
        (key e.table (literal "*")) = false := by
      rw [htable]
      exact (Bool.or_eq_false_iff.mp hxe).2
    rw [extraAllows, hstar, Bool.or_false] at hee
    have hclash : ∀ {y : Column}, allowsToo e y = true → extraAllows extra y = true := by
      intro y hy
      rw [allowsToo, Bool.or_eq_true, decide_eq_true_eq, decide_eq_true_eq] at hy
      rcases hy with hy | hy
      · rw [extraAllows, ← hy, hee, Bool.true_or]
      · rw [extraAllows, ← hy, hee, Bool.or_true]
    rcases htoo with htoo | htoo
    · rw [hclash htoo] at hce
      cases hce
    · rw [hclash htoo] at hde
      cases hde
  exact ⟨c, d, hlast hc (by simp [allowsToo]), hlast hd (by simp [allowsToo]), hne⟩

/-- Entries for every counted column that can be allowed without `c` and `d`. -/
def exposing (toLowerCase : JsString → JsString) (cols : List Column) (policy : Config)
    (c d : Column) : List Allowance :=
  (cols.filter fun e ↦ counted toLowerCase policy e && !(allowsToo e c || allowsToo e d)).map
    fun e ↦ ⟨e.table, e.column⟩

/-- Two columns that can be exposed are, under a larger list. -/
theorem drifts_of_exposable (h : Exposable toLowerCase cols policy c d) :
    Drifts toLowerCase cols (policy.allowMore (exposing toLowerCase cols policy c d)) := by
  obtain ⟨hc, hd, hne⟩ := h
  have hmem : ∀ {k : JsString},
      k ∈ (exposing toLowerCase cols policy c d).map (fun a ↦ key a.table a.column) ↔
        ∃ e ∈ cols, counted toLowerCase policy e = true ∧ allowsToo e c = false ∧
          allowsToo e d = false ∧ key e.table e.column = k := by
    intro k
    simp [exposing, and_assoc]
  -- Neither column is allowed by these entries.
  have hspared : ∀ {x : Column}, (∀ e, allowsToo e c = false → allowsToo e d = false →
      allowsToo e x = false) →
      extraAllows (exposing toLowerCase cols policy c d) x = false := by
    intro x hx
    rw [extraAllows, Bool.or_eq_false_iff]
    constructor
    · rw [Bool.eq_false_iff, ne_eq, List.contains_iff_mem, hmem]
      rintro ⟨e, -, -, hec, hed, hkey⟩
      have hfalse := hx e hec hed
      rw [allowsToo, hkey, decide_eq_true rfl, Bool.true_or] at hfalse
      cases hfalse
    · rw [Bool.eq_false_iff, ne_eq, List.contains_iff_mem, hmem]
      rintro ⟨e, -, -, hec, hed, hkey⟩
      have hfalse := hx e hec hed
      rw [allowsToo, hkey, decide_eq_true rfl, Bool.or_true] at hfalse
      cases hfalse
  have hlast : ∀ {x : Column}, lastKept toLowerCase cols policy c d x.table = some x →
      extraAllows (exposing toLowerCase cols policy c d) x = false →
      lastWhere (fun e ↦ counted toLowerCase
          (policy.allowMore (exposing toLowerCase cols policy c d)) e && e.table = x.table) cols =
        some x := by
    intro x hx hspare
    obtain ⟨hboth, pre, post, hcols, hpost⟩ := lastWhere_eq_some_iff.mp hx
    rw [Bool.and_eq_true, Bool.and_eq_true] at hboth
    refine lastWhere_eq_some_iff.mpr ⟨?_, pre, post, hcols, fun e he ↦ ?_⟩
    · rw [counted_allowMore, hboth.1.1, hspare, decide_eq_true rfl]
      rfl
    · have hnot := hpost e he
      rw [counted_allowMore]
      by_contra hkept
      rw [Bool.not_eq_false, Bool.and_eq_true, Bool.and_eq_true, Bool.not_eq_true'] at hkept
      obtain ⟨⟨hec, hee⟩, htable⟩ := hkept
      rw [hec, htable, Bool.true_and, Bool.and_true, Bool.or_eq_false_iff] at hnot
      have hein : key e.table e.column ∈
          (exposing toLowerCase cols policy c d).map fun a ↦ key a.table a.column :=
        hmem.mpr ⟨e, hcols ▸ List.mem_append_right _ (List.mem_cons_of_mem _ he), hec, hnot.1,
          hnot.2, rfl⟩
      rw [extraAllows, Bool.or_eq_false_iff] at hee
      exact absurd (List.contains_iff_mem.mpr hein) (Bool.eq_false_iff.mp hee.1)
  exact ⟨c.table, d.table, c, d, hlast hc (hspared fun e hec _ ↦ hec),
    hlast hd (hspared fun e _ hed ↦ hed), hne⟩

/-! ## The report -/

/-- Under `--strict` the exit code is 0 exactly if there is no finding. -/
theorem exitCode_strict_eq_zero_iff :
    (analyze toLowerCase cols policy).exitCode true = 0 ↔
      (analyze toLowerCase cols policy).findings = [] := by
  have hsplit : ∀ findings : List Finding,
      (findings.filter fun f ↦ f.severity = .error).length +
        (findings.filter fun f ↦ f.severity = .warning).length = findings.length := by
    intro findings
    induction findings with
    | nil => rfl
    | cons f findings ih =>
        cases hf : f.severity <;>
          simp only [List.filter_cons, hf, decide_true, reduceCtorEq, decide_false, if_true,
            Bool.false_eq_true, if_false, List.length_cons] <;> omega
  have hfailures : (analyze toLowerCase cols policy).summary.errors +
      (analyze toLowerCase cols policy).summary.warnings =
        (analyze toLowerCase cols policy).findings.length := hsplit _
  rw [Report.exitCode, if_pos rfl, hfailures, ← List.length_eq_zero_iff]
  by_cases hpos : (analyze toLowerCase cols policy).findings.length > 0
  · rw [if_pos hpos]
    omega
  · rw [if_neg hpos]
    omega

/-- Under one given larger allow list more is reported only if the primary keys drift under it
and did not before. -/
theorem reportsNoMore_allowMore_iff :
    ReportsNoMore (analyze toLowerCase cols (policy.allowMore extra))
        (analyze toLowerCase cols policy) ↔
      (policy.database.truthy = true → Drifts toLowerCase cols (policy.allowMore extra) →
        Drifts toLowerCase cols policy) := by
  constructor
  · intro hmore htruthy hdrifts
    have hdatabase : (policy.allowMore extra).database.truthy = true := htruthy
    have hverdict := pkDrift_mem_verdicts_iff.mpr ⟨hdatabase, hdrifts⟩
    obtain ⟨f', hf', hv⟩ := List.mem_map.mp hverdict
    simp only [Finding.verdict, Prod.mk.injEq] at hv
    obtain ⟨f, hf, hrule, -⟩ := hmore.findings f' hf'
    have hdrift : f ∈ driftRule toLowerCase cols policy := by
      rw [analyze, List.mem_append] at hf
      refine hf.resolve_left fun hf ↦ ?_
      rw [← filter_findings, List.mem_filter, decide_eq_true_eq] at hf
      exact hf.2 (hrule.trans hv.2.1)
    exact (driftRule_ne_nil_iff.mp (List.ne_nil_of_mem hdrift)).2
  · intro hdrifts
    have hfindings : ∀ f' ∈ (analyze toLowerCase cols (policy.allowMore extra)).findings,
        ∃ f ∈ (analyze toLowerCase cols policy).findings,
          f.rule = f'.rule ∧ f.column = f'.column := by
      intro f' hf'
      rw [analyze, List.mem_append, List.mem_append] at hf'
      rcases hf' with (hf' | hf') | hf'
      · refine ⟨f', ?_, rfl, rfl⟩
        rw [analyze, List.mem_append, List.mem_append]
        exact Or.inl (Or.inl (mem_columnRules_of_allowMore hf'))
      · refine ⟨f', ?_, rfl, rfl⟩
        rw [analyze, List.mem_append, List.mem_append]
        exact Or.inl (Or.inr (mem_fkRule_of_allowMore hf'))
      · obtain ⟨htruthy, hmore⟩ := driftRule_ne_nil_iff.mp (List.ne_nil_of_mem hf')
        have hdatabase : policy.database.truthy = true := htruthy
        have hdrift := hdrifts hdatabase hmore
        obtain ⟨f, hf⟩ := List.exists_mem_of_ne_nil _
          (driftRule_ne_nil_iff.mpr ⟨hdatabase, hdrift⟩)
        refine ⟨f, ?_, ?_, ?_⟩
        · rw [analyze, List.mem_append]
          exact Or.inr hf
        · rw [(of_mem_driftRule hf).2.1, (of_mem_driftRule hf').2.1]
        · rw [(of_mem_driftRule hf).2.2, (of_mem_driftRule hf').2.2]
    refine ⟨hfindings, fun hstrict ↦ ?_⟩
    rw [exitCode_strict_eq_zero_iff] at hstrict ⊢
    refine List.eq_nil_iff_forall_not_mem.mpr fun f' hf' ↦ ?_
    obtain ⟨f, hf, -⟩ := hfindings f' hf'
    rw [hstrict] at hf
    cases hf

/-- **Allowing more.**  Under no larger allow list is more reported exactly if, where
two columns can be exposed, the primary keys drift already. -/
theorem reportsNoMore_iff :
    (∀ extra, ReportsNoMore (analyze toLowerCase cols (policy.allowMore extra))
        (analyze toLowerCase cols policy)) ↔
      (policy.database.truthy = true → (∃ c d, Exposable toLowerCase cols policy c d) →
        Drifts toLowerCase cols policy) := by
  simp only [reportsNoMore_allowMore_iff]
  constructor
  · rintro hdrifts htruthy ⟨c, d, hexposable⟩
    exact hdrifts (exposing toLowerCase cols policy c d) htruthy (drifts_of_exposable hexposable)
  · exact fun hdrifts extra htruthy hmore ↦ hdrifts htruthy (exposable_of_drifts hmore)

end

/-! ## A key that is uncovered -/

/-- `users.id` as bigint. -/
def usersBigint : Column := { usersId with rep := literal "bigint", width := some 8 }

/-- `users.uuid`, a second primary key of the table. -/
def usersUuid : Column := { usersId with column := literal "uuid" }

/-- `orders.id`, a uuid. -/
def ordersId : Column := { usersId with table := literal "orders" }

/-- Nothing is reported until `users.uuid` is allowed; then the keys drift. -/
theorem not_reportsNoMore_of_uncovered :
    ¬ ReportsNoMore
        (analyze asciiLowerCase [usersBigint, usersUuid, ordersId]
          ((databasePolicy (.string (literal "uuidv7"))).allowMore
            [⟨literal "users", literal "uuid"⟩]))
        (analyze asciiLowerCase [usersBigint, usersUuid, ordersId]
          (databasePolicy (.string (literal "uuidv7")))) := by
  intro h
  have hclean : (analyze asciiLowerCase [usersBigint, usersUuid, ordersId]
      (databasePolicy (.string (literal "uuidv7")))).findings = [] := by decide
  have hreported : (analyze asciiLowerCase [usersBigint, usersUuid, ordersId]
      ((databasePolicy (.string (literal "uuidv7"))).allowMore
        [⟨literal "users", literal "uuid"⟩])).findings ≠ [] := by decide
  obtain ⟨f', hf'⟩ := List.exists_mem_of_ne_nil _ hreported
  obtain ⟨f, hf, -⟩ := h.findings f' hf'
  rw [hclean] at hf
  cases hf

end Rivid.Check
