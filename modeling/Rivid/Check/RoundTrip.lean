import Rivid.Check.Layout

/-!
# Rendering a policy and reading it back

A `Policy` is a `rivid` map of scalars with one `allow` list of maps, and `render`
writes it in the documented block layout.

`parse_render` says what the parser makes of it: the policy is a layout without
comments, so the list survives up to the first key of its first item with several
keys, and nothing is lost exactly if there is none (`parsePolicyYaml_render_iff`).
-/

namespace Rivid.Check

/-! ## Policies -/

/-- `[A-Za-z0-9_][A-Za-z0-9_-]*`, except the key that sets the prototype. -/
def IsKey (key : JsString) : Prop :=
  key.head?.any isWordChar = true ∧ (∀ u ∈ key, isKeyChar u = true) ∧ key ≠ proto

instance : DecidablePred IsKey := fun key ↦
  have := List.decidableBAll (fun u ↦ isKeyChar u = true) key
  inferInstanceAs (Decidable (_ ∧ _ ∧ _))

/-- A non-empty string on one line without surrounding blanks, without quotes, `#` and
`:`, that does not read as a boolean. -/
def IsText (value : JsString) : Prop :=
  Solid value ∧ (∀ u ∈ value, isQuote u = false ∧ u ≠ hash ∧ u ≠ colon) ∧
    value ≠ JsString.ofAscii "true" ∧ value ≠ JsString.ofAscii "false"

instance : DecidablePred IsText := fun value ↦
  have := List.decidableBAll (fun u ↦ isQuote u = false ∧ u ≠ hash ∧ u ≠ colon) value
  inferInstanceAs (Decidable (_ ∧ _ ∧ _ ∧ _))

/-- An entry `key: value`. -/
structure Scalar where
  key : JsString
  value : JsString
  isKey : IsKey key
  isText : IsText value

/-- An item of the `allow` list: a map with at least one entry. -/
structure AllowEntry where
  first : Scalar
  rest : List Scalar
  distinct : ((first :: rest).map Scalar.key).Nodup

/-- The `rivid` map: the scalars in front of `allow`, its items, and the scalars behind. -/
structure Policy where
  before : List Scalar
  allow : List AllowEntry
  after : List Scalar
  allow_ne : allow ≠ []
  distinct : (before.map Scalar.key ++ allowKey :: after.map Scalar.key).Nodup

/-! ## Rendering -/

namespace Scalar

def text (e : Scalar) : JsString := e.key ++ colon :: space :: e.value

/-- `key: value` with `n` blanks in front. -/
def line (n : ℕ) (e : Scalar) : JsString := List.replicate n space ++ e.text

/-- `- key: value` with `n` blanks in front. -/
def itemLine (n : ℕ) (e : Scalar) : JsString := List.replicate n space ++ dash :: space :: e.text

def branch (e : Scalar) : JsString × Tree := (e.key, .string e.value)

end Scalar

/-- `key:` with `n` blanks in front. -/
def bareLine (n : ℕ) (key : JsString) : JsString := List.replicate n space ++ (key ++ [colon])

/-- The map with the given entries. -/
def mapTree (l : List Scalar) : Tree := .object (l.map Scalar.branch)

namespace AllowEntry

def entries (a : AllowEntry) : List Scalar := a.first :: a.rest

def lines (a : AllowEntry) : List JsString := a.first.itemLine 4 :: a.rest.map (Scalar.line 6)

end AllowEntry

namespace Policy

def lines (p : Policy) : List JsString :=
  bareLine 0 rividKey :: (p.before.map (Scalar.line 2) ++ bareLine 2 allowKey ::
    (p.allow.flatMap AllowEntry.lines ++ p.after.map (Scalar.line 2)))

/-- The documented block layout, every line ended by a line feed. -/
def render (p : Policy) : JsString := p.lines.flatMap (· ++ [lineFeed])

/-- The object with the scalars of `p` and the given items under `allow`. -/
def treeWith (p : Policy) (items : List (List Scalar)) : Tree :=
  .object [(rividKey, .object (p.before.map Scalar.branch ++
    (allowKey, .array (items.map mapTree)) :: p.after.map Scalar.branch))]

/-- The object `p` stands for. -/
def tree (p : Policy) : Tree := p.treeWith (p.allow.map AllowEntry.entries)

end Policy

/-- What is left of the items: all of them up to the first with several keys, and of
each its first key. -/
def survivors : List AllowEntry → List Scalar
  | [] => []
  | a :: as => a.first :: if a.rest = [] then survivors as else []

/-! ## A policy as a layout -/

namespace Scalar

variable (e : Scalar)

def entry : Entry := ⟨e.key, e.value, none, ⟨e.isKey.1, e.isKey.2.1⟩, e.isText.1⟩

theorem written_entry : e.entry.written = e.text := List.append_nil _

theorem line_entry (n : ℕ) : e.entry.line n = e.line n := by
  rw [Entry.line, written_entry]
  rfl

theorem itemLine_entry (n : ℕ) : e.entry.itemLine n = e.itemLine n := by
  rw [Entry.itemLine, written_entry]
  rfl

/-- The value of a scalar is read as itself. -/
theorem coerce_value : coerce e.value = .string e.value := by
  obtain ⟨hsolid, hmarks, htrue, hfalse⟩ := e.isText
  have hquote : ∀ o : Option U16, (∀ u, o = some u → u ∈ e.value) → o.any isQuote = false := by
    rintro (_ | u) ho
    · rfl
    · exact (hmarks u (ho u rfl)).1
  have hstrip : stripQuotes e.value = e.value := by
    rw [stripQuotes, hquote e.value.head? fun _ ↦ List.mem_of_head?]
    simp only [Bool.false_eq_true, if_false]
    rw [hquote e.value.getLast? fun _ ↦ List.mem_of_getLast?]
    exact if_neg Bool.false_ne_true
  rw [coerce, trim, hsolid.trimStart_eq, hsolid.trimEnd_eq, hstrip, if_neg htrue, if_neg hfalse]

theorem branch_entry : e.entry.branch = e.branch := by
  have hread : e.entry.read = e.value := List.append_nil _
  rw [Entry.branch, Entry.item, hread, coerce_value]
  rfl

end Scalar

theorem map_line_entry (n : ℕ) (l : List Scalar) :
    (l.map Scalar.entry).map (Entry.line n) = l.map (Scalar.line n) := by
  rw [List.map_map]
  exact List.map_congr_left fun e _ ↦ e.line_entry n

theorem branches_entry (l : List Scalar) :
    branches (l.map Scalar.entry) = l.map Scalar.branch := by
  have hown : ∀ e ∈ l.map Scalar.entry, e.isOwn = true :=
    List.forall_mem_map.mpr fun e _ ↦ decide_eq_true e.isKey.2.2
  rw [branches, List.filter_eq_self.mpr hown, List.map_map]
  exact List.map_congr_left fun e _ ↦ e.branch_entry

theorem map_key_entry (l : List Scalar) :
    (l.map Scalar.entry).map Entry.key = l.map Scalar.key := by
  rw [List.map_map]
  rfl

namespace AllowEntry

def item (a : AllowEntry) : MapItem := ⟨a.first.entry, a.rest.map Scalar.entry⟩

theorem lines_item (a : AllowEntry) : a.item.lines = a.lines := by
  rw [MapItem.lines, item, map_line_entry, Scalar.itemLine_entry]
  rfl

theorem survivors_item (as : List AllowEntry) :
    MapItem.survivors (as.map item) = (survivors as).map Scalar.entry := by
  induction as with
  | nil => rfl
  | cons a as ih =>
      rw [List.map_cons, MapItem.survivors, survivors, List.map_cons, item, ih]
      simp only [List.map_eq_nil_iff]
      split <;> rfl

end AllowEntry

namespace Policy

variable (p : Policy)

def layout : Layout where
  comment := none
  before := p.before.map Scalar.entry
  allow := some ⟨none, p.allow.map AllowEntry.item, by
    rw [Ne, List.map_eq_nil_iff]
    exact p.allow_ne⟩
  after := p.after.map Scalar.entry
  distinct := by
    rw [map_key_entry, map_key_entry]
    exact p.distinct

theorem lines_layout : p.layout.lines = p.lines := by
  have hitems : (p.allow.map AllowEntry.item).flatMap MapItem.lines =
      p.allow.flatMap AllowEntry.lines := by
    rw [List.flatMap_map]
    exact List.flatMap_congr fun a _ ↦ a.lines_item
  have hbare : ∀ n key, headerLine n key none = bareLine n key := fun n key ↦
    congrArg (List.replicate n space ++ ·) (List.append_nil _)
  rw [Layout.lines, layout, Option.toList_some, List.flatMap_singleton, AllowList.lines,
    map_line_entry, map_line_entry, hitems, hbare, hbare]
  rfl

theorem tree_layout :
    p.layout.tree = p.treeWith ((survivors p.allow).map fun e ↦ [e]) := by
  have hitems : (MapItem.survivors (p.allow.map AllowEntry.item)).map
      (fun e ↦ Tree.object (branches [e])) = ((survivors p.allow).map fun e ↦ [e]).map mapTree := by
    rw [AllowEntry.survivors_item, List.map_map, List.map_map]
    exact List.map_congr_left fun e _ ↦ congrArg Tree.object (branches_entry [e])
  rw [Layout.tree, layout, Option.map_some, Option.toList_some, AllowList.tree, branches_entry,
    branches_entry, hitems]
  rfl

end Policy

/-! ## The round trip -/

/-- What the parser makes of a rendered policy. -/
theorem parse_render (p : Policy) :
    (parsePolicyYaml p.render).tree = p.treeWith ((survivors p.allow).map fun e ↦ [e]) := by
  have htext : contentLines p.render = p.layout.lines := by
    rw [← p.layout.contentLines_flatMap, p.lines_layout, Policy.render]
  rw [← p.tree_layout]
  refine Layout.parse_eq rfl ?_ htext
  rintro a ⟨⟩
  rfl

theorem mapTree_length {l l' : List Scalar} (h : mapTree l = mapTree l') :
    l.length = l'.length := by
  rw [mapTree, mapTree, Tree.object.injEq] at h
  simpa using congrArg List.length h

theorem treeWith_inj {p : Policy} {items items' : List (List Scalar)} :
    p.treeWith items = p.treeWith items' ↔ items.map mapTree = items'.map mapTree := by
  simp only [Policy.treeWith, Tree.object.injEq, List.cons.injEq, Prod.mk.injEq,
    List.append_cancel_left_eq, Tree.array.injEq, true_and, and_true]

/-- All items survive with all of their keys exactly if each has one key. -/
theorem map_survivors_eq_iff (as : List AllowEntry) :
    ((survivors as).map fun e ↦ [e]).map mapTree = (as.map AllowEntry.entries).map mapTree ↔
      ∀ a ∈ as, a.rest = [] := by
  induction as with
  | nil => simp [survivors]
  | cons a as ih =>
      rw [survivors, List.map_cons, List.map_cons, List.map_cons, List.map_cons,
        List.cons.injEq, List.forall_mem_cons]
      by_cases hrest : a.rest = []
      · rw [if_pos hrest, ih, AllowEntry.entries, hrest]
        simp only [true_and]
      · refine ⟨fun h ↦ absurd (mapTree_length h.1) ?_, fun h ↦ absurd h.1 hrest⟩
        simpa [AllowEntry.entries] using hrest

/-- A rendered policy is parsed back, every item present and in order with all of its
keys, exactly if each item has a single key. -/
theorem parsePolicyYaml_render_iff (p : Policy) :
    (parsePolicyYaml p.render).tree = p.tree ↔ ∀ a ∈ p.allow, a.rest = [] := by
  rw [parse_render, Policy.tree, treeWith_inj]
  exact map_survivors_eq_iff p.allow

/-! ### The documented example -/

/-- An entry of ASCII text. -/
def scalar (key value : String)
    (h : IsKey (JsString.ofAscii key) ∧ IsText (JsString.ofAscii value)) : Scalar :=
  ⟨JsString.ofAscii key, JsString.ofAscii value, h.1, h.2⟩

/-- The policy of the documentation. -/
def legacyPolicy : Policy where
  before := [scalar "database" "uuidv7" (by decide)]
  allow := [{
    first := scalar "table" "legacy_users" (by decide +kernel)
    rest := [scalar "column" "id" (by decide),
      scalar "reason" "frozen legacy schema" (by decide +kernel)]
    distinct := by decide +kernel }]
  after := []
  allow_ne := List.cons_ne_nil _ _
  distinct := by decide

example : legacyPolicy.lines = ["rivid:", "  database: uuidv7", "  allow:",
    "    - table: legacy_users", "      column: id",
    "      reason: frozen legacy schema"].map JsString.ofAscii := by decide

/-- The documented policy is not read back: the item comes out without its column. -/
theorem parse_legacyPolicy_ne : (parsePolicyYaml legacyPolicy.render).tree ≠ legacyPolicy.tree := by
  rw [parse_render, Policy.tree, Ne, treeWith_inj, map_survivors_eq_iff]
  intro h
  exact absurd (h _ List.mem_cons_self) (List.cons_ne_nil _ _)

end Rivid.Check
