import Rivid.Check.Text
import Rivid.Lib.OrderedMap

/-!
# The analysis

`analyze` looks at the identifier columns found in the schema under a policy.
Rules 1 to 3 look at one column at a time, rule 4 compares a foreign key with
the column it references, and rule 5 compares the primary keys of all tables.

Rules 4 and 5 look columns up in maps, one by `table.column` and one by table,
into which the columns are written one after another: of several declarations
of the same key, or of a table's primary key, the last one counts.

Lower case is any function on strings here: no result depends on which letters
it changes.
-/

namespace Rivid.Check

/-! ## Values -/

/-- A string literal. -/
def literal (s : String) : JsString :=
  s.toList.flatMap fun c ↦
    let n := c.toNat
    if n < 0x10000 then [BitVec.ofNat 16 n]
    else [BitVec.ofNat 16 (0xd800 + (n - 0x10000) / 0x400), BitVec.ofNat 16 (0xdc00 + n % 0x400)]

/-- A value of a policy.  Objects are only compared, so each is the number of its
identity. -/
inductive JsValue where
  | undefined
  | null
  | boolean (b : Bool)
  | number (n : JsNumber)
  | string (s : JsString)
  | object (id : ℕ)
deriving DecidableEq, Repr

namespace JsValue

/-- `v ?? default`. -/
def orElse (v default : JsValue) : JsValue :=
  match v with
  | undefined | null => default
  | v => v

def truthy : JsValue → Bool
  | undefined | null => false
  | boolean b => b
  | number n => n != .nan && n != .finite 0
  | string s => !s.isEmpty
  | object _ => true

end JsValue

/-! ## Columns -/

/-- What a foreign key references. -/
structure ForeignKey where
  table : Option JsString
  column : JsString
deriving DecidableEq, Repr

/-- An identifier column. -/
structure Column where
  table : JsString
  column : JsString
  rep : JsString
  width : Option ℕ
  pk : Bool
  unique : Bool
  fk : Option ForeignKey
  file : JsString
deriving DecidableEq, Repr

/-- The template `${table}.${column}`. -/
def key (table column : JsString) : JsString := table ++ literal "." ++ column

def uuidLike (rep : JsString) : Bool :=
  rep = literal "uuid" || rep = literal "char(36)" || rep = literal "varchar(36)"

def textLike (rep : JsString) : Bool :=
  rep = literal "text" || (literal "char(").isPrefixOf rep || (literal "varchar(").isPrefixOf rep

/-! ## The policy -/

/-- What the analysis reads of a policy; `allow` is its set of `table.column` texts. -/
structure Config where
  publicIds : JsValue
  idempotency : JsValue
  events : JsValue
  database : JsValue
  allow : List JsString
deriving DecidableEq, Repr

def allowed (config : Config) (c : Column) : Bool :=
  config.allow.contains (key c.table c.column) || config.allow.contains (key c.table (literal "*"))

/-- `/(^|_)public_?id$/`. -/
def matchPublicId (name : JsString) : Bool :=
  [literal "publicid", literal "public_id"].any fun word ↦
    name = word || (literal "_" ++ word).isSuffixOf name

/-- `/^publicid$/i`: without the `u` flag, only ASCII letters match ASCII letters. -/
def matchPublicIdCaseless (s : JsString) : Bool :=
  s.map (fun u ↦ if 0x41 ≤ u && u ≤ 0x5a then u + 0x20 else u) = literal "publicid"

section

variable (toLowerCase : JsString → JsString)

def classify (col : Column) (policy : Config) : JsValue :=
  let name := toLowerCase col.column
  if matchPublicId name || matchPublicIdCaseless col.column then
    policy.publicIds.orElse (.string (literal "ulid"))
  else if literal "idempot" <:+: name then
    policy.idempotency.orElse (.string (literal "random128"))
  else if literal "event" <:+: toLowerCase col.table ∧ policy.events.truthy then
    policy.events
  else policy.database.orElse .null

/-! ## Findings -/

inductive Severity where
  | error
  | warning
deriving DecidableEq, Repr

inductive Rule where
  | uuidAsText
  | unboundedTextId
  | ulidAsUuid
  | fkMismatch
  | pkDrift
deriving DecidableEq, Repr

structure Finding where
  severity : Severity
  rule : Rule
  message : JsString
  detail : JsString
  column : Option Column
deriving DecidableEq, Repr

/-- Rules 1 to 3 on a column that is not allowed. -/
def columnFindings (policy : Config) (c : Column) : List Finding :=
  let family := classify toLowerCase c policy
  -- 1. UUID semantics forced into a text column.
  (if family = .string (literal "uuidv7") ∧ textLike c.rep then
    [{ severity := if c.rep = literal "text" then .error else .warning
       rule := .uuidAsText
       message := key c.table c.column ++ literal ": expected uuid storage, found " ++ c.rep
       detail :=
         if c.rep = literal "text" then
           literal "unbounded text with no explicit width — declare uuid (16 bytes) or an explicit char(36)"
         else literal "char(36) costs 2.25× the 16-byte native uuid — use the uuid type"
       column := some c }]
  else []) ++
  -- 2. Unbounded text identifiers.
  (if textLike c.rep ∧ c.rep = literal "text" then
    [{ severity := .warning
       rule := .unboundedTextId
       message := key c.table c.column ++ literal ": identifier declared as unbounded TEXT"
       detail := literal
         "prefer uuid, char(26) (ULID) or char(36) — unbounded text hides intent and cost"
       column := some c }]
  else []) ++
  -- 3. Policy-declared family drift.
  (if family = .string (literal "ulid") ∧ uuidLike c.rep ∧
      policy.database = .string (literal "ulid") then
    [{ severity := .warning
       rule := .ulidAsUuid
       message := key c.table c.column ++ literal ": policy expects ULID, found " ++ c.rep
       detail := literal
         "ULID-as-uuid is valid binary reinterpretation — flag only if unintentional (declare in policy.allow to silence)"
       column := some c }]
  else [])

def columnRules (cols : List Column) (policy : Config) : List Finding :=
  cols.flatMap fun c ↦ if allowed policy c then [] else columnFindings toLowerCase policy c

/-- The columns by `table.column`. -/
def byKey (cols : List Column) : OrderedMap JsString Column :=
  OrderedMap.empty.setAll (cols.map fun c ↦ (key c.table c.column, c))

/-- `c.fk.table && byKey.get(…)`. -/
def lookupTarget (cols : List Column) (fk : ForeignKey) : Option Column :=
  match fk.table with
  | none => none
  | some table => if table = [] then none else (byKey cols).get? (key table fk.column)

/-- The finding of rule 4 on a column and the column it references. -/
def fkMismatch (c target : Column) : Finding where
  severity := .error
  rule := .fkMismatch
  message := key c.table c.column ++ literal ": " ++ c.rep ++ literal " references " ++
    key target.table target.column ++ literal ": " ++ target.rep
  detail := literal "foreign key and referenced key should share one representation"
  column := some c

/-- Rule 4 on one column: foreign key and referenced key in different representations. -/
def fkFinding (cols : List Column) (policy : Config) (c : Column) : Option Finding :=
  match c.fk with
  | none => none
  | some fk =>
      if allowed policy c then none
      else
        match lookupTarget cols fk with
        | none => none
        | some target =>
            if allowed policy target then none
            else if target.rep ≠ c.rep then some (fkMismatch c target)
            else none

def fkRule (cols : List Column) (policy : Config) : List Finding :=
  cols.filterMap (fkFinding cols policy)

/-- The representation class that rule 5 compares. -/
def bucket (rep : JsString) : JsString :=
  if uuidLike rep then literal "uuid-like" else if textLike rep then literal "text-like" else rep

/-- Whether rule 5 looks at a column. -/
def counted (policy : Config) (c : Column) : Bool :=
  c.pk && !allowed policy c && classify toLowerCase c policy = policy.database

/-- The buckets of the primary keys, by table. -/
def pkReps (cols : List Column) (policy : Config) : OrderedMap JsString JsString :=
  OrderedMap.empty.setAll
    ((cols.filter (counted toLowerCase policy)).map fun c ↦ (c.table, bucket c.rep))

/-- `[...].join(separator)`. -/
def joinWith (separator : JsString) (parts : List JsString) : JsString :=
  (parts.intersperse separator).flatten

/-- The finding of rule 5 on the tables and their buckets. -/
def pkDrift (pkReps : List (JsString × JsString)) (distinct : List JsString) : Finding where
  severity := .warning
  rule := .pkDrift
  message := literal "primary keys mix " ++ joinWith (literal " and ") distinct ++
    literal " across tables"
  detail :=
    let offenders := pkReps.filter fun e ↦ some e.2 ≠ distinct.head?
    literal "e.g. " ++
      joinWith (literal ", ") (offenders.map fun e ↦ e.1 ++ literal ": " ++ e.2) ++
      literal " — pick one representation or declare intent in .rivid.yml"
  column := none

/-- Rule 5: primary-key representation drift across tables. -/
def driftRule (cols : List Column) (policy : Config) : List Finding :=
  if policy.database.truthy then
    let pkReps := (pkReps toLowerCase cols policy).entries
    let distinct := (pkReps.map Prod.snd).eraseDups
    if distinct.length > 1 then [pkDrift pkReps distinct] else []
  else []

/-! ## The report -/

structure Summary where
  identifiers : ℕ
  byRep : OrderedMap JsString ℕ
  errors : ℕ
  warnings : ℕ

structure Report where
  findings : List Finding
  summary : Summary

def countByRep (cols : List Column) : OrderedMap JsString ℕ :=
  cols.foldl (fun m c ↦ m.set c.rep ((m.get? c.rep).getD 0 + 1)) OrderedMap.empty

def analyze (cols : List Column) (policy : Config) : Report :=
  let findings := columnRules toLowerCase cols policy ++ fkRule cols policy ++
    driftRule toLowerCase cols policy
  { findings
    summary :=
      { identifiers := cols.length
        byRep := countByRep cols
        errors := (findings.filter fun f ↦ f.severity = .error).length
        warnings := (findings.filter fun f ↦ f.severity = .warning).length } }

/-- The exit code of `rivid check` after a report. -/
def Report.exitCode (report : Report) (strict : Bool) : ℕ :=
  let failures := report.summary.errors + if strict then report.summary.warnings else 0
  if failures > 0 then 1 else 0

/-! ## What the rules say -/

section Spec

variable {toLowerCase} {cols : List Column} {policy : Config} {c : Column} {f : Finding}

/-- A finding of rules 1 to 3 is about the column they look at. -/
theorem of_mem_columnFindings (h : f ∈ columnFindings toLowerCase policy c) :
    f.column = some c ∧ f.rule ≠ .fkMismatch ∧ f.rule ≠ .pkDrift := by
  simp only [columnFindings, List.mem_append] at h
  rcases h with (h | h) | h
  · split at h
    · obtain rfl := List.mem_singleton.mp h
      exact ⟨rfl, Rule.noConfusion, Rule.noConfusion⟩
    · cases h
  · split at h
    · obtain rfl := List.mem_singleton.mp h
      exact ⟨rfl, Rule.noConfusion, Rule.noConfusion⟩
    · cases h
  · split at h
    · obtain rfl := List.mem_singleton.mp h
      exact ⟨rfl, Rule.noConfusion, Rule.noConfusion⟩
    · cases h

theorem mem_columnRules_iff :
    f ∈ columnRules toLowerCase cols policy ↔
      ∃ c ∈ cols, allowed policy c = false ∧ f ∈ columnFindings toLowerCase policy c := by
  simp only [columnRules, List.mem_flatMap]
  refine exists_congr fun c ↦ and_congr_right fun _ ↦ ?_
  cases allowed policy c <;> simp

/-- The column under a key is the last one declared with it. -/
theorem get?_byKey (cols : List Column) (k : JsString) :
    (byKey cols).get? k = lastWhere (fun c ↦ key c.table c.column = k) cols := by
  rw [byKey, OrderedMap.get?_setAll_map, Option.map_id']

theorem lookupTarget_eq_some_iff {fk : ForeignKey} {target : Column} :
    lookupTarget cols fk = some target ↔ ∃ table, fk.table = some table ∧ table ≠ [] ∧
      lastWhere (fun c ↦ key c.table c.column = key table fk.column) cols = some target := by
  rw [lookupTarget]
  cases fk.table with
  | none => simp
  | some table =>
      by_cases htable : table = []
      · simp [htable]
      · simp [htable, get?_byKey]

theorem fkFinding_eq_some_iff :
    fkFinding cols policy c = some f ↔ ∃ fk target, c.fk = some fk ∧ allowed policy c = false ∧
      lookupTarget cols fk = some target ∧ allowed policy target = false ∧ target.rep ≠ c.rep ∧
      f = fkMismatch c target := by
  rw [fkFinding]
  constructor
  · intro h
    split at h
    · cases h
    · rename_i fk hfk
      split at h
      · cases h
      · rename_i hallowed
        split at h
        · cases h
        · rename_i target htarget
          split at h
          · cases h
          · rename_i htallowed
            split at h
            · rename_i hrep
              cases h
              exact ⟨fk, target, hfk, Bool.eq_false_of_not_eq_true hallowed, htarget,
                Bool.eq_false_of_not_eq_true htallowed, hrep, rfl⟩
            · cases h
  · rintro ⟨fk, target, hfk, hallowed, htarget, htallowed, hrep, rfl⟩
    simp only [hfk, hallowed, htarget, htallowed, Bool.false_eq_true, if_false, if_pos hrep]

theorem mem_fkRule_iff : f ∈ fkRule cols policy ↔ ∃ c ∈ cols, fkFinding cols policy c = some f := by
  rw [fkRule, List.mem_filterMap]

/-- A finding of rule 5 is a warning about no column. -/
theorem of_mem_driftRule (h : f ∈ driftRule toLowerCase cols policy) :
    f.severity = .warning ∧ f.rule = .pkDrift ∧ f.column = none := by
  simp only [driftRule] at h
  split at h
  · split at h
    · obtain rfl := List.mem_singleton.mp h
      exact ⟨rfl, rfl, rfl⟩
    · cases h
  · cases h

/-- A finding about a column is not one of rule 5. -/
theorem ne_pkDrift_of_column (hf : f ∈ (analyze toLowerCase cols policy).findings)
    (hcolumn : f.column = some c) : f.rule ≠ .pkDrift := by
  rw [analyze, List.mem_append, List.mem_append] at hf
  rcases hf with (hf | hf) | hf
  · obtain ⟨_, -, -, hmem⟩ := mem_columnRules_iff.mp hf
    exact (of_mem_columnFindings hmem).2.2
  · obtain ⟨_, -, hsome⟩ := mem_fkRule_iff.mp hf
    obtain ⟨_, _, -, -, -, -, -, rfl⟩ := fkFinding_eq_some_iff.mp hsome
    exact Rule.noConfusion
  · rw [(of_mem_driftRule hf).2.2] at hcolumn
    cases hcolumn

/-- The findings of the rules before rule 5. -/
theorem filter_findings :
    (analyze toLowerCase cols policy).findings.filter (fun f ↦ f.rule ≠ .pkDrift) =
      columnRules toLowerCase cols policy ++ fkRule cols policy := by
  have hcolumn : ∀ f ∈ columnRules toLowerCase cols policy, decide (f.rule ≠ .pkDrift) = true := by
    intro f hf
    obtain ⟨c, -, -, hmem⟩ := mem_columnRules_iff.mp hf
    exact decide_eq_true (of_mem_columnFindings hmem).2.2
  have hfk : ∀ f ∈ fkRule cols policy, decide (f.rule ≠ .pkDrift) = true := by
    intro f hf
    obtain ⟨c, -, hc⟩ := mem_fkRule_iff.mp hf
    obtain ⟨_, _, -, -, -, -, -, rfl⟩ := fkFinding_eq_some_iff.mp hc
    rfl
  have hdrift : ∀ f ∈ driftRule toLowerCase cols policy, ¬ decide (f.rule ≠ .pkDrift) = true := by
    intro f hf
    rw [(of_mem_driftRule hf).2.1]
    decide
  rw [analyze, List.filter_append, List.filter_append, List.filter_eq_self.mpr hcolumn,
    List.filter_eq_self.mpr hfk, List.filter_eq_nil_iff.mpr hdrift, List.append_nil]

/-! ## Drift -/

/-- The last column of a table among those rule 5 looks at. -/
def lastCounted (toLowerCase : JsString → JsString) (cols : List Column) (policy : Config)
    (table : JsString) : Option Column :=
  lastWhere (fun c ↦ counted toLowerCase policy c && c.table = table) cols

/-- Two tables' last counted columns are in different buckets. -/
def Drifts (toLowerCase : JsString → JsString) (cols : List Column) (policy : Config) : Prop :=
  Mixed (counted toLowerCase policy) Column.table (fun c ↦ bucket c.rep) cols

theorem get?_pkReps (cols : List Column) (policy : Config) (table : JsString) :
    (pkReps toLowerCase cols policy).get? table =
      (lastCounted toLowerCase cols policy table).map fun c ↦ bucket c.rep := by
  rw [pkReps, OrderedMap.get?_setAll_map, lastWhere_filter, lastCounted]

/-- A list has more than one distinct element if it has two different ones. -/
theorem one_lt_length_eraseDups_iff {α : Type*} [BEq α] [LawfulBEq α] {l : List α} :
    1 < l.eraseDups.length ↔ ∃ a ∈ l, ∃ b ∈ l, a ≠ b := by
  cases l with
  | nil => simp
  | cons x l =>
      have hpos : 0 < (l.filter fun y ↦ !y == x).eraseDups.length ↔ ∃ y ∈ l, y ≠ x := by
        simp [List.length_pos_iff_exists_mem, List.mem_eraseDups]
      rw [List.eraseDups_cons, List.length_cons, Nat.lt_add_left_iff_pos, hpos]
      constructor
      · rintro ⟨y, hy, hne⟩
        exact ⟨y, List.mem_cons_of_mem _ hy, x, List.mem_cons_self, hne⟩
      · rintro ⟨a, ha, b, hb, hne⟩
        by_cases hax : a = x
        · have hbx : b ≠ x := fun h ↦ hne (hax.trans h.symm)
          exact ⟨b, (List.mem_cons.mp hb).resolve_left hbx, hbx⟩
        · exact ⟨a, (List.mem_cons.mp ha).resolve_left hax, hax⟩

/-- Rule 5 reports something exactly when the primary keys drift. -/
theorem driftRule_ne_nil_iff :
    driftRule toLowerCase cols policy ≠ [] ↔
      policy.database.truthy = true ∧ Drifts toLowerCase cols policy := by
  have hentry : ∀ b, b ∈ (pkReps toLowerCase cols policy).entries.map Prod.snd ↔
      ∃ t c, lastCounted toLowerCase cols policy t = some c ∧ bucket c.rep = b := by
    intro b
    rw [List.mem_map]
    constructor
    · rintro ⟨⟨t, b'⟩, hmem, rfl⟩
      rw [OrderedMap.mem_entries_iff, get?_pkReps, Option.map_eq_some_iff] at hmem
      exact ⟨t, hmem⟩
    · rintro ⟨t, c, hlast, rfl⟩
      refine ⟨(t, bucket c.rep), ?_, rfl⟩
      rw [OrderedMap.mem_entries_iff, get?_pkReps, hlast, Option.map_some]
  have hdrifts : 1 < ((pkReps toLowerCase cols policy).entries.map Prod.snd).eraseDups.length ↔
      Drifts toLowerCase cols policy := by
    rw [one_lt_length_eraseDups_iff]
    constructor
    · rintro ⟨a, ha, b, hb, hne⟩
      obtain ⟨t, c, hc, rfl⟩ := (hentry a).mp ha
      obtain ⟨u, d, hd, rfl⟩ := (hentry b).mp hb
      exact ⟨t, u, c, d, hc, hd, hne⟩
    · rintro ⟨t, u, c, d, hc, hd, hne⟩
      exact ⟨_, (hentry _).mpr ⟨t, c, hc, rfl⟩, _, (hentry _).mpr ⟨u, d, hd, rfl⟩, hne⟩
  rw [driftRule, ← hdrifts]
  by_cases htruthy : policy.database.truthy = true
  · by_cases hlt : 1 < ((pkReps toLowerCase cols policy).entries.map Prod.snd).eraseDups.length
    · simp only [if_pos htruthy, gt_iff_lt, if_pos hlt]
      exact ⟨fun _ ↦ ⟨htruthy, hlt⟩, fun _ ↦ List.cons_ne_nil _ _⟩
    · simp only [if_pos htruthy, gt_iff_lt, if_neg hlt]
      exact ⟨fun h ↦ absurd rfl h, fun h ↦ absurd h.2 hlt⟩
  · rw [if_neg htruthy]
    exact ⟨fun h ↦ absurd rfl h, fun h ↦ absurd h.1 htruthy⟩

/-! ## What is reported of which column -/

/-- Severity, rule and column of a finding. -/
def Finding.verdict (f : Finding) : Severity × Rule × Option Column :=
  (f.severity, f.rule, f.column)

/-- A mismatch is reported for a column exactly if rule 4 finds one on it. -/
theorem fkMismatch_mem_verdicts_iff :
    (Severity.error, Rule.fkMismatch, some c) ∈
        (analyze toLowerCase cols policy).findings.map Finding.verdict ↔
      c ∈ cols ∧ (fkFinding cols policy c).isSome := by
  rw [List.mem_map]
  constructor
  · rintro ⟨f, hf, hverdict⟩
    simp only [Finding.verdict, Prod.mk.injEq] at hverdict
    obtain ⟨-, hrule, hcolumn⟩ := hverdict
    have hmem : f ∈ columnRules toLowerCase cols policy ++ fkRule cols policy := by
      rw [← filter_findings]
      exact List.mem_filter.mpr ⟨hf, decide_eq_true (ne_pkDrift_of_column hf hcolumn)⟩
    rcases List.mem_append.mp hmem with hmem | hmem
    · obtain ⟨_, -, -, hmem⟩ := mem_columnRules_iff.mp hmem
      exact absurd hrule (of_mem_columnFindings hmem).2.1
    · obtain ⟨c', hc', hsome⟩ := mem_fkRule_iff.mp hmem
      obtain ⟨_, _, -, -, -, -, -, rfl⟩ := fkFinding_eq_some_iff.mp hsome
      obtain rfl : c' = c := Option.some.inj hcolumn
      exact ⟨hc', Option.isSome_of_eq_some hsome⟩
  · rintro ⟨hc, hsome⟩
    obtain ⟨f, hf⟩ := Option.isSome_iff_exists.mp hsome
    obtain ⟨_, target, -, -, -, -, -, rfl⟩ := fkFinding_eq_some_iff.mp hf
    refine ⟨fkMismatch c target, ?_, rfl⟩
    rw [analyze, List.mem_append, List.mem_append]
    exact Or.inl (Or.inr (mem_fkRule_iff.mpr ⟨c, hc, hf⟩))

/-- Drift is reported exactly if rule 5 finds it. -/
theorem pkDrift_mem_verdicts_iff :
    (Severity.warning, Rule.pkDrift, none) ∈
        (analyze toLowerCase cols policy).findings.map Finding.verdict ↔
      policy.database.truthy = true ∧ Drifts toLowerCase cols policy := by
  rw [← driftRule_ne_nil_iff, List.mem_map]
  constructor
  · rintro ⟨f, hf, hverdict⟩
    simp only [Finding.verdict, Prod.mk.injEq] at hverdict
    rw [analyze, List.mem_append, List.mem_append] at hf
    rcases hf with (hf | hf) | hf
    · obtain ⟨_, -, -, hmem⟩ := mem_columnRules_iff.mp hf
      exact absurd hverdict.2.1 (of_mem_columnFindings hmem).2.2
    · obtain ⟨_, -, hsome⟩ := mem_fkRule_iff.mp hf
      obtain ⟨_, _, -, -, -, -, -, rfl⟩ := fkFinding_eq_some_iff.mp hsome
      cases hverdict.2.2
    · exact List.ne_nil_of_mem hf
  · intro hne
    obtain ⟨f, hf⟩ := List.exists_mem_of_ne_nil _ hne
    obtain ⟨hseverity, hrule, hcolumn⟩ := of_mem_driftRule hf
    refine ⟨f, ?_, by rw [Finding.verdict, hseverity, hrule, hcolumn]⟩
    rw [analyze, List.mem_append]
    exact Or.inr hf

end Spec

end

/-! ## A schema -/

/-- Lower case on ASCII letters. -/
def asciiLowerCase (s : JsString) : JsString :=
  s.map fun u ↦ if 0x41 ≤ u && u ≤ 0x5a then u + 0x20 else u

/-- `users.id`, a uuid. -/
def usersId : Column where
  table := literal "users"
  column := literal "id"
  rep := literal "uuid"
  width := some 16
  pk := true
  unique := false
  fk := none
  file := literal "schema.sql"

/-- `orders.user_id`, a text that references `users.id`. -/
def ordersUserId : Column where
  table := literal "orders"
  column := literal "user_id"
  rep := literal "text"
  width := none
  pk := false
  unique := false
  fk := some ⟨some (literal "users"), literal "id"⟩
  file := literal "schema.sql"

/-- A policy that declares the given database family and allows nothing. -/
def databasePolicy (database : JsValue) : Config where
  publicIds := .undefined
  idempotency := .undefined
  events := .undefined
  database := database
  allow := []

end Rivid.Check
