import Mathlib.Data.List.ReduceOption
import Rivid.Binding.Process
import Rivid.Core.Fill
import Rivid.Lib.Writes

/-!
# The Prisma client extension

The extension fills in the keys of rows that are about to be inserted, on the very objects
that the client hands over: an object may be in a statement more than once, and in more than
one statement.  One missing key is one call of the engine, and several are one batch.

A statement that reaches the database has a key in every row of a model the extension looks
after.  A key that a row has, given or generated, is never replaced, and nothing else of any
object is touched.  An object may be frozen: then its row stops the statement, and the rows in
front of it have their keys already.  Rows that are nested in a row get no key.
-/

namespace Rivid.Prisma

open Machine Napi

/-! ## Objects -/

/-- The values that the check of a key tells apart. -/
inductive JsValue where
  | undefined
  | null
  | string (s : Str)
  | other (n : ℕ)
deriving DecidableEq, Repr

/-- `=== undefined || === null`. -/
def JsValue.isNullish : JsValue → Bool
  | undefined | null => true
  | _ => false

/-- A data object: its properties, `undefined` if it has not got one, and which of them can be
set.  A frozen object accepts none, and one that is not extensible only those it has. -/
structure Record where
  get : JsString → JsValue
  accepts : JsString → Bool

def Record.set (r : Record) (field : JsString) (value : JsValue) : Record :=
  { r with get := Function.update r.get field value }

/-- The objects of the client, by reference. -/
abbrev Heap := ℕ → Record

/-- `heap[ref][field] = value`, which throws if the object does not accept it. -/
def Heap.set (heap : Heap) (field : JsString) (ref : ℕ) (value : JsValue) : Option Heap :=
  if (heap ref).accepts field then
    some (Function.update heap ref ((heap ref).set field value))
  else none

/-- An element of a list of rows: an object, or `null` or `undefined`. -/
abbrev Row := Option ℕ

/-- The objects among `rows` without a key, in their order. -/
def missing (heap : Heap) (field : JsString) (rows : List Row) : List ℕ :=
  rows.reduceOption.filter fun ref ↦ ((heap ref).get field).isNullish

/-- What ends a statement before it reaches the database. -/
inductive Thrown where
  /-- A property of `null` is read, an object does not accept one, or `rows.filter` is no
  function. -/
  | typeError
  | napi (e : NapiError)
deriving DecidableEq

/-! ## Filling in -/

inductive Mode where
  | ulid
  | uuid7
deriving DecidableEq, Repr

section Fill

variable {ρ : Type} [Rng ρ]

/-- `uuidv7()`. -/
def uuidv7 (th : Thread ρ) : Option (Except NapiError Str × Thread ρ) := do
  let (ts, clock) ← nowMs th.clock
  let block := Uuidv7.generateBlock th.secure ts
  return (.ok (Uuidv7.formatHyphenated block.1), { th with secure := block.2, clock })

/-- `generateUuidV7Many(count)`. -/
def generateUuidV7Many (th : Thread ρ) (count : ℤ) :
    Option (Except NapiError (List Str) × Thread ρ) :=
  if ¬ (0 ≤ count ∧ count ≤ maxBatch) then some (.error (invalidCount count), th)
  else do
    let (ts, clock) ← nowMs th.clock
    let strings := Uuidv7.generateStrings count.toNat ts th.secure
    return (.ok strings.1, { th with secure := strings.2, clock })

/-- The key of one row. -/
def generateOne (mode : Mode) (th : Thread ρ) : Option (Except NapiError Str × Thread ρ) :=
  match mode with
  | .uuid7 => uuidv7 th
  | .ulid => ulid th none

/-- The keys of several rows. -/
def generateAll (mode : Mode) (th : Thread ρ) (count : ℕ) :
    Option (Except NapiError (List Str) × Thread ρ) :=
  match mode with
  | .uuid7 => generateUuidV7Many th count
  | .ulid => Napi.generateMany th count

/-- `row[field] = ids[i]` for each missing row, from index `i` on. -/
def assign (field : JsString) (ids : List Str) (heap : Heap) (i : ℕ) :
    List ℕ → Except Thrown Unit × Heap
  | [] => (.ok (), heap)
  | ref :: refs =>
      match heap.set field ref ((ids[i]?.map .string).getD .undefined) with
      | none => (.error .typeError, heap)
      | some heap => assign field ids heap (i + 1) refs

/-- Fill missing keys in place.  Returns the number of IDs generated. -/
def fillIds (heap : Heap) (rows : List Row) (field : JsString) (mode : Mode) (th : Thread ρ) :
    Option (Except Thrown ℕ × Heap × Thread ρ) :=
  -- the filter reads the field of every row
  if rows.contains none then some (.error .typeError, heap, th)
  else
    match missing heap field rows with
    | [] => some (.ok 0, heap, th)
    | [ref] => do
        let (id, th) ← generateOne mode th
        match id with
        | .error e => return (.error (.napi e), heap, th)
        | .ok id =>
            match heap.set field ref (.string id) with
            | none => return (.error .typeError, heap, th)
            | some heap => return (.ok 1, heap, th)
    | refs => do
        let (ids, th) ← generateAll mode th refs.length
        match ids with
        | .error e => return (.error (.napi e), heap, th)
        | .ok ids =>
            let (r, heap) := assign field ids heap 0 refs
            return (r.map fun _ ↦ refs.length, heap, th)

end Fill

/-! ## Statements -/

/-- The options, with their defaults in. -/
structure RidOptions where
  models : List JsString := []
  field : JsString := JsString.ofAscii "id"
  mode : Mode := .ulid

/-- `shouldFill`. -/
def RidOptions.shouldFill (opts : RidOptions) (model : JsString) : Bool :=
  opts.models.length = 0 || opts.models.contains model

/-- The `data` of a batch: an array, or something else. -/
inductive Data where
  | object (row : Row)
  | array (rows : List Row)

/-- What a client asks for; `createManyAndReturn` is handled as `createMany` is. -/
inductive Statement where
  | create (model : JsString) (row : Row)
  | createMany (model : JsString) (data : Data)

namespace Statement

def model : Statement → JsString
  | create model _ | createMany model _ => model

/-- The rows of a statement. -/
def rows : Statement → List Row
  | create _ row | createMany _ (.object row) => [row]
  | createMany _ (.array rows) => rows

end Statement

/-- The client's objects, and what the engine reads. -/
structure Client (ρ : Type) where
  heap : Heap
  thread : Thread ρ

section Step

variable {ρ : Type} [Rng ρ]

/-- The rows of a statement, filled in, on their way to `query(args)`. -/
def fillRows (opts : RidOptions) (w : Client ρ) (rows : List Row) :
    Option (Except Thrown (List (Option Record)) × Client ρ) := do
  let (r, heap, thread) ← fillIds w.heap rows opts.field opts.mode w.thread
  match r with
  | .error x => return (.error x, ⟨heap, thread⟩)
  | .ok _ => return (.ok (rows.map (Option.map heap)), ⟨heap, thread⟩)

/-- One statement under the extension; it returns the rows that reach the database. -/
def step (opts : RidOptions) (w : Client ρ) (s : Statement) :
    Option (Except Thrown (List (Option Record)) × Client ρ) :=
  if opts.shouldFill s.model then
    match s with
    | .create _ row => fillRows opts w [row]
    | .createMany _ (.object _) => some (.error .typeError, w)
    | .createMany _ (.array rows) => fillRows opts w rows
  else
    some (.ok (s.rows.map (Option.map w.heap)), w)

end Step

/-! ## What is filled in -/

theorem set_eq_some {heap heap' : Heap} {field : JsString} {ref : ℕ} {value : JsValue}
    (h : heap.set field ref value = some heap') : (heap ref).accepts field = true ∧
      heap' = Function.update heap ref ((heap ref).set field value) := by
  rw [Heap.set] at h
  split at h
  · rename_i haccepts
    exact ⟨haccepts, (Option.some.inj h).symm⟩
  · cases h

theorem set_eq_none {heap : Heap} {field : JsString} {ref : ℕ} {value : JsValue}
    (h : heap.set field ref value = none) : (heap ref).accepts field = false := by
  rw [Heap.set] at h
  split at h
  · cases h
  · rename_i haccepts
    exact Bool.eq_false_iff.mpr haccepts

/-- The keys `ids` have been given to `refs`, each at its place; an object that is there more than
once has the one of its last place.  Nothing else is different. -/
structure Given (field : JsString) (refs : List ℕ) (ids : List Str) (heap heap' : Heap) :
    Prop where
  accepted : ∀ ref ∈ refs, (heap ref).accepts field = true
  key : ∀ ref, (heap' ref).get field =
    writeAll (fun ref ↦ (heap ref).get field) (refs.zip (ids.map .string)) ref
  others : ∀ ref name, name ≠ field → (heap' ref).get name = (heap ref).get name
  accepts : ∀ ref, (heap' ref).accepts = (heap ref).accepts

section Given

variable {field : JsString} {refs : List ℕ} {ids : List Str} {heap heap' : Heap}

theorem mem_missing {rows : List Row} {ref : ℕ} : ref ∈ missing heap field rows ↔
    some ref ∈ rows ∧ ((heap ref).get field).isNullish = true := by
  rw [missing, List.mem_filter, List.reduceOption_mem_iff]

theorem given_nil (field : JsString) (ids : List Str) (heap : Heap) :
    Given field [] ids heap heap :=
  ⟨List.forall_mem_nil _, fun _ ↦ rfl, fun _ _ _ ↦ rfl, fun _ ↦ rfl⟩

/-- One key more, in front. -/
theorem Given.cons {ref : ℕ} {id : Str} {heap₁ : Heap}
    (hset : heap.set field ref (.string id) = some heap₁) (h : Given field refs ids heap₁ heap') :
    Given field (ref :: refs) (id :: ids) heap heap' := by
  obtain ⟨haccepts, rfl⟩ := set_eq_some hset
  have hsame : ∀ r, (Function.update heap ref ((heap ref).set field (.string id)) r).accepts =
      (heap r).accepts := fun r ↦ by
    by_cases hr : r = ref
    · subst hr
      rw [Function.update_self]
      rfl
    · rw [Function.update_of_ne hr]
  have hcolumn : (fun r ↦
      (Function.update heap ref ((heap ref).set field (.string id)) r).get field) =
      Function.update (fun r ↦ (heap r).get field) ref (.string id) := by
    funext r
    by_cases hr : r = ref
    · subst hr
      rw [Function.update_self, Function.update_self]
      exact Function.update_self ..
    · rw [Function.update_of_ne hr, Function.update_of_ne hr]
  refine ⟨List.forall_mem_cons.mpr ⟨haccepts, fun r hr ↦ ?_⟩, fun r ↦ ?_, fun r name hname ↦ ?_,
    fun r ↦ (h.accepts r).trans (hsame r)⟩
  · rw [← hsame r]
    exact h.accepted r hr
  · rw [h.key, List.map_cons, List.zip_cons_cons, writeAll_cons, hcolumn]
  · rw [h.others r name hname]
    by_cases hr : r = ref
    · subst hr
      rw [Function.update_self]
      exact Function.update_of_ne hname ..
    · rw [Function.update_of_ne hr]

/-- What another object has stays. -/
theorem Given.kept (h : Given field refs ids heap heap') {ref : ℕ} (href : ref ∉ refs) :
    (heap' ref).get field = (heap ref).get field := by
  rw [h.key]
  refine writeAll_of_not_mem fun hmem ↦ href ?_
  obtain ⟨w, hw, rfl⟩ := List.mem_map.mp hmem
  exact (List.of_mem_zip hw).1

/-- Each of them has a key. -/
theorem Given.keyed (h : Given field refs ids heap heap') (hlen : refs.length ≤ ids.length)
    {ref : ℕ} (href : ref ∈ refs) : ((heap' ref).get field).isNullish = false := by
  have hmem : ref ∈ (refs.zip (ids.map JsValue.string)).map Prod.fst := by
    rw [List.map_fst_zip (by rwa [List.length_map])]
    exact href
  obtain ⟨w, hw, hvalue⟩ :=
    List.mem_map.mp (writeAll_mem (f := fun ref ↦ (heap ref).get field) hmem)
  obtain ⟨id, -, hid⟩ := List.mem_map.mp (List.of_mem_zip hw).2
  rw [h.key, ← hvalue, ← hid]
  rfl

/-- All that changes of an object is a key that it had not got. -/
theorem Given.changed {rows : List Row} (h : Given field refs ids heap heap')
    (hrefs : ∀ ref ∈ refs, ref ∈ missing heap field rows) {ref : ℕ} {name : JsString}
    (hne : (heap' ref).get name ≠ (heap ref).get name) :
    name = field ∧ some ref ∈ rows ∧ ((heap ref).get name).isNullish = true := by
  have hname : name = field := by
    by_contra hname
    exact hne (h.others ref name hname)
  subst hname
  refine ⟨rfl, mem_missing.mp (hrefs ref ?_)⟩
  by_contra href
  exact hne (h.kept href)

/-- What a throw in the middle leaves behind: the rows in front of the one that accepts no key
have theirs. -/
def Stopped (field : JsString) (refs : List ℕ) (ids : List Str) (heap heap' : Heap) : Prop :=
  ∃ front ref back, refs = front ++ ref :: back ∧ (heap ref).accepts field = false ∧
    Given field front ids heap heap'

theorem assign_cons_of_set {i : ℕ} {ref : ℕ} (hi : i < ids.length) :
    assign field ids heap i (ref :: refs) =
      match heap.set field ref (.string ids[i]) with
      | none => (.error .typeError, heap)
      | some heap => assign field ids heap (i + 1) refs := by
  rw [assign, List.getElem?_eq_getElem hi]
  rfl

/-- The loop over the missing rows gives all of them their keys, or stops. -/
theorem assign_cases (heap : Heap) (i : ℕ) (hlen : i + refs.length ≤ ids.length)
    {r : Except Thrown Unit} (h : assign field ids heap i refs = (r, heap')) :
    r = .ok () ∧ Given field refs (ids.drop i) heap heap' ∨
      r = .error .typeError ∧ Stopped field refs (ids.drop i) heap heap' := by
  induction refs generalizing heap i with
  | nil =>
      cases h
      exact .inl ⟨rfl, given_nil field _ _⟩
  | cons ref refs ih =>
      rw [List.length_cons] at hlen
      have hi : i < ids.length := by omega
      rw [assign_cons_of_set hi] at h
      rw [List.drop_eq_getElem_cons hi]
      cases hset : heap.set field ref (.string ids[i]) with
      | none =>
          rw [hset] at h
          cases h
          exact .inr ⟨rfl, [], ref, refs, rfl, set_eq_none hset, given_nil field _ _⟩
      | some heap₁ =>
          rw [hset] at h
          rcases ih heap₁ (i + 1) (by omega) h with ⟨hr, hgiven⟩ | ⟨hr, front, ref', back, hrefs,
            hrefused, hgiven⟩
          · exact .inl ⟨hr, hgiven.cons hset⟩
          · have hall := hgiven.cons hset
            refine .inr ⟨hr, ref :: front, ref', back, by rw [hrefs, List.cons_append], ?_, hall⟩
            rw [← hrefused, ← hgiven.accepts ref', hall.accepts ref']

end Given

section Spec

variable {ρ : Type} [Rng ρ] {mode : Mode} {th th' : Thread ρ}

theorem length_nextLoopSecure (ts : U64) (secure : ρ) (count : ℕ) :
    (UlidGenerator.nextLoopSecure ts secure count).1.length = count := by
  induction count generalizing secure with
  | zero => rfl
  | succ count ih => rw [UlidGenerator.nextLoopSecure, List.length_cons, ih]

/-- A batch has as many keys as are asked for. -/
theorem length_generateAll {count : ℕ} {ids : List Str}
    (h : generateAll mode th count = some (.ok ids, th')) : ids.length = count := by
  cases mode with
  | ulid =>
      rw [generateAll, Napi.generateMany] at h
      split at h
      · cases h
      · obtain ⟨_, -, h⟩ := Option.bind_eq_some_iff.mp h
        cases h
        exact length_nextLoopSecure _ _ _
  | uuid7 =>
      rw [generateAll, generateUuidV7Many] at h
      split at h
      · cases h
      · obtain ⟨_, -, h⟩ := Option.bind_eq_some_iff.mp h
        cases h
        rw [Uuidv7.generateStrings, Chunks.pushLoop_eq, List.length_map, List.length_range]
        rfl

/-- What a call of `fillIds` does to the objects: nothing, and it throws; or it gives every
missing row a key, or those in front of one that accepts none. -/
inductive Fills (field : JsString) (rows : List Row) (heap heap' : Heap) :
    Except Thrown ℕ → Prop where
  | failed (x : Thrown) (same : heap' = heap) : Fills field rows heap heap' (.error x)
  | stopped (ids : List Str) (stopped : Stopped field (missing heap field rows) ids heap heap') :
      Fills field rows heap heap' (.error .typeError)
  | filled (ids : List Str) (objects : none ∉ rows)
      (count : ids.length = (missing heap field rows).length)
      (given : Given field (missing heap field rows) ids heap heap') :
      Fills field rows heap heap' (.ok ids.length)

theorem fillIds_cases {heap heap' : Heap} {rows : List Row} {field : JsString}
    {r : Except Thrown ℕ} (h : fillIds heap rows field mode th = some (r, heap', th')) :
    Fills field rows heap heap' r := by
  rw [fillIds] at h
  split at h
  · cases h
    exact .failed _ rfl
  rename_i hnone
  have hobjects : none ∉ rows := fun hmem ↦ hnone (List.contains_iff_mem.mpr hmem)
  split at h
  · rename_i hmissing
    cases h
    refine .filled [] hobjects ?_ ?_
    · rw [hmissing]
      rfl
    · rw [hmissing]
      exact given_nil field [] heap
  · rename_i ref hmissing
    obtain ⟨⟨id, th₁⟩, -, h⟩ := Option.bind_eq_some_iff.mp h
    cases id with
    | error e =>
        cases h
        exact .failed _ rfl
    | ok id =>
        dsimp only at h
        split at h
        · cases h
          exact .failed _ rfl
        · rename_i hset
          cases h
          refine .filled [id] hobjects ?_ ?_
          · rw [hmissing]
            rfl
          · rw [hmissing]
            exact (given_nil field [] _).cons hset
  · obtain ⟨⟨ids, th₁⟩, hids, h⟩ := Option.bind_eq_some_iff.mp h
    cases ids with
    | error e =>
        cases h
        exact .failed _ rfl
    | ok ids =>
        have hcount := length_generateAll hids
        cases hassign : assign field ids heap 0 (missing heap field rows) with
        | mk r heap₁ =>
            dsimp only at h
            rw [hassign] at h
            cases h
            rcases assign_cases heap 0 (by omega) hassign with ⟨rfl, hgiven⟩ | ⟨rfl, hstopped⟩
            · rw [Except.map, ← hcount]
              exact .filled ids hobjects hcount hgiven
            · exact .stopped ids hstopped

end Spec

/-! ## Runs -/

section Runs

variable {ρ : Type} [Rng ρ] {opts : RidOptions} {w w' : Client ρ} {stmts : List Statement}

/-- What a run of the client records of a statement. -/
abbrev StatementEvent (ρ : Type) :=
  Event (Client ρ) Statement (Except Thrown (List (Option Record)))

/-- What a statement does: it fails and leaves every object alone; it stops at a row that accepts
no key; or its rows reach the database, as they are or filled in. -/
inductive Handled (opts : RidOptions) (e : StatementEvent ρ) : Prop where
  | failed (x : Thrown) (thrown : e.output = .error x) (same : e.after.heap = e.before.heap)
  | stopped (own : opts.shouldFill e.input.model = true) (thrown : e.output = .error .typeError)
      (ids : List Str)
      (stopped : Stopped opts.field (missing e.before.heap opts.field e.input.rows) ids
        e.before.heap e.after.heap)
  | passed (other : opts.shouldFill e.input.model = false)
      (rows : e.output = .ok (e.input.rows.map (Option.map e.before.heap)))
      (same : e.after = e.before)
  | filled (own : opts.shouldFill e.input.model = true) (ids : List Str)
      (rows : e.output = .ok (e.input.rows.map (Option.map e.after.heap)))
      (objects : none ∉ e.input.rows)
      (count : ids.length = (missing e.before.heap opts.field e.input.rows).length)
      (given : Given opts.field (missing e.before.heap opts.field e.input.rows) ids
        e.before.heap e.after.heap)

theorem handled_of_fillRows {s : Statement} {o : Except Thrown (List (Option Record))}
    (hown : opts.shouldFill s.model = true) (h : fillRows opts w s.rows = some (o, w')) :
    Handled opts ⟨w, s, o, w'⟩ := by
  obtain ⟨⟨r, heap, thread⟩, hfill, h⟩ := Option.bind_eq_some_iff.mp h
  cases fillIds_cases hfill with
  | failed x same =>
      cases h
      exact .failed x rfl same
  | stopped ids stopped =>
      cases h
      exact .stopped hown rfl ids stopped
  | filled ids objects count given =>
      cases h
      exact .filled hown ids rfl objects count given

theorem handled_of_step {s : Statement} {o : Except Thrown (List (Option Record))}
    (h : step opts w s = some (o, w')) : Handled opts ⟨w, s, o, w'⟩ := by
  unfold step at h
  by_cases hown : opts.shouldFill s.model = true
  · rw [if_pos hown] at h
    cases s with
    | create model row => exact handled_of_fillRows hown h
    | createMany model data =>
        cases data with
        | object row =>
            cases h
            exact .failed _ rfl rfl
        | array rows => exact handled_of_fillRows hown h
  · rw [if_neg hown] at h
    cases h
    exact .passed (Bool.eq_false_iff.mpr hown) rfl rfl

/-- What the keys are to the client. -/
structure KeysFilledOnce (opts : RidOptions) (es : List (StatementEvent ρ)) : Prop where
  handled : ∀ e ∈ es, Handled opts e
  /-- No row of a model that is looked after reaches the database without a key. -/
  keyed : ∀ e ∈ es, opts.shouldFill e.input.model → ∀ rows, e.output = .ok rows →
    ∀ row ∈ rows, ∃ r, row = some r ∧ (r.get opts.field).isNullish = false
  /-- All that changes of any object is a key that it has not got. -/
  changed : ∀ e ∈ es, ∀ ref name, (e.after.heap ref).get name ≠ (e.before.heap ref).get name →
    name = opts.field ∧ some ref ∈ e.input.rows ∧
      ((e.before.heap ref).get name).isNullish = true
  /-- A key stays for the rest of the run. -/
  kept : es.Pairwise fun e f ↦ ∀ ref, ((e.after.heap ref).get opts.field).isNullish = false →
    (f.after.heap ref).get opts.field = (e.after.heap ref).get opts.field

omit [Rng ρ] in
theorem Handled.changed {e : StatementEvent ρ} (h : Handled opts e) {ref : ℕ} {name : JsString}
    (hne : (e.after.heap ref).get name ≠ (e.before.heap ref).get name) :
    name = opts.field ∧ some ref ∈ e.input.rows ∧
      ((e.before.heap ref).get name).isNullish = true := by
  cases h with
  | failed x _ same => exact absurd (by rw [same]) hne
  | stopped _ _ ids stopped =>
      obtain ⟨front, ref', back, hrefs, -, hgiven⟩ := stopped
      exact hgiven.changed (fun r hr ↦ by rw [hrefs]; exact List.mem_append_left _ hr) hne
  | passed _ _ same => exact absurd (by rw [same]) hne
  | filled _ ids _ _ _ given => exact given.changed (fun _ hr ↦ hr) hne

omit [Rng ρ] in
theorem Handled.keyed {e : StatementEvent ρ} (h : Handled opts e)
    (hown : opts.shouldFill e.input.model) {rows : List (Option Record)}
    (hrows : e.output = .ok rows) {row : Option Record} (hrow : row ∈ rows) :
    ∃ r, row = some r ∧ (r.get opts.field).isNullish = false := by
  cases h with
  | failed x thrown _ =>
      rw [thrown] at hrows
      cases hrows
  | stopped _ thrown _ _ =>
      rw [thrown] at hrows
      cases hrows
  | passed other _ _ =>
      rw [other] at hown
      cases hown
  | filled _ ids houtput objects count given =>
      rw [houtput, Except.ok.injEq] at hrows
      rw [← hrows] at hrow
      obtain ⟨row, hmem, rfl⟩ := List.mem_map.mp hrow
      obtain ⟨ref, rfl⟩ := Option.ne_none_iff_exists'.mp fun hnone ↦ objects (hnone ▸ hmem)
      refine ⟨e.after.heap ref, rfl, ?_⟩
      by_cases href : ref ∈ missing e.before.heap opts.field e.input.rows
      · exact given.keyed count.ge href
      · rw [given.kept href]
        exact Bool.eq_false_iff.mpr fun hnull ↦ href (mem_missing.mpr ⟨hmem, hnull⟩)

/-- **Keys are filled in once.**  In a run of statements no row of a model that is looked after
reaches the database without a key, and no key is ever replaced.  A statement that throws has
changed nothing, or has given keys to the rows in front of one that accepts none. -/
theorem keysFilledOnce {es : List (StatementEvent ρ)} (h : run (step opts) w stmts = some es) :
    KeysFilledOnce opts es := by
  have hinv := Machine.run_invariant (I := fun _ ↦ True) (J := fun _ ↦ True)
    (fun _ _ _ _ _ _ _ ↦ trivial) trivial (fun _ _ ↦ trivial) h
  have hall : ∀ e ∈ es, Handled opts e := fun e he ↦ handled_of_step (hinv e he).2.2
  refine ⟨hall, fun e he hown rows hrows row hrow ↦ (hall e he).keyed hown hrows hrow,
    fun e he ref name hne ↦ (hall e he).changed hne, ?_⟩
  refine List.pairwise_iff_getElem.mpr fun m n hm hn hmn ref hkey ↦ ?_
  have hstays : ∀ k (hk : k < es.length),
      (es[k].before.heap ref).get opts.field = (es[m].after.heap ref).get opts.field →
      (es[k].after.heap ref).get opts.field = (es[m].after.heap ref).get opts.field := by
    intro k hk hbefore
    by_contra hne
    rw [← hbefore] at hne hkey
    rw [((hall _ (List.getElem_mem hk)).changed hne).2.2] at hkey
    cases hkey
  refine hstays n hn (Machine.before_of_kept h hmn hn
    (P := fun w ↦ (w.heap ref).get opts.field = (es[m].after.heap ref).get opts.field) rfl ?_)
  exact fun k hk _ hbefore ↦ hstays k (by omega) hbefore

end Runs

/-- Objects without properties, the third of them frozen, at a clock that shows 5. -/
def emptyClient : Client Tape :=
  ⟨fun ref ↦ ⟨fun _ ↦ .undefined, fun _ ↦ ref != 2⟩, clockThread [5, 5]⟩

/-- An object is inserted, then given to `createMany` as it is, and inserted again; last come
another one, the frozen one and the first. -/
def insertTwice : List Statement :=
  [.create (JsString.ofAscii "User") (some 0),
    .createMany (JsString.ofAscii "User") (.object (some 0)),
    .create (JsString.ofAscii "User") (some 0),
    .createMany (JsString.ofAscii "User") (.array [some 1, some 2, some 0])]

theorem run_insertTwice : ∃ es, run (step {}) emptyClient insertTwice = some es := ⟨_, rfl⟩

theorem keysFilledOnce_insertTwice : ∃ es, run (step {}) emptyClient insertTwice = some es ∧
    KeysFilledOnce {} es := by
  obtain ⟨es, hrun⟩ := run_insertTwice
  exact ⟨es, hrun, keysFilledOnce hrun⟩

end Rivid.Prisma
