import Rivid.Check.PolicyLines

/-!
# The block layout

A policy in the documented block layout is a `rivid` map of scalars, one a line,
that may have an `allow` list of maps; every line may end in a comment (`Layout`).

`Layout.parse_eq` says what the parser makes of it.  It knows no comments behind
other text, so a value takes the comment of its line with it.  The frame pushed for
a list item is opened at the indentation of the item's further entries, so the first
of these pops it and is written to the frame below: the object that was the
placeholder of `allow:`, which the list has replaced.  From there on that frame has
a last key and every later item goes to it as well.  So the list survives up to the
first key of its first item with several keys (`MapItem.survivors`).
-/

namespace Rivid.Check

/-! ## Objects under construction -/

def Item.IsScalar : Item → Prop
  | .object _ => False
  | _ => True

theorem isScalar_coerce (v : JsString) : (coerce v).IsScalar := by
  rw [coerce]
  split
  · trivial
  · split <;> trivial

namespace Object

theorem set_of_ne {key : JsString} (h : key ≠ proto) (o : Object) (value : Value) :
    o.set key value = { o with properties := o.properties.set key value } := if_neg h

/-- A scalar does not become the prototype. -/
theorem set_proto {i : Item} (h : i.IsScalar) (o : Object) : o.set proto (.item i) = o := by
  cases i with
  | object r => exact absurd h id
  | _ => exact if_pos rfl

/-- Sets the entries one after another. -/
def assign (o : Object) (l : List Entry) : Object :=
  { o with properties := o.properties.setAll ((l.filter Entry.isOwn).map Entry.property) }

theorem assign_set (o : Object) (e : Entry) (l : List Entry) :
    (o.set e.key (.item e.item)).assign l = o.assign (e :: l) := by
  by_cases hkey : e.key = proto
  · have hown : ¬ e.isOwn = true := not_not.mpr hkey ∘ of_decide_eq_true
    have hscalar : e.item.IsScalar := isScalar_coerce e.read
    rw [hkey, set_proto hscalar, assign, assign, List.filter_cons_of_neg hown]
  · have hown : e.isOwn = true := decide_eq_true hkey
    rw [set_of_ne hkey, assign, assign, List.filter_cons_of_pos hown]
    rfl

end Object

namespace State

/-- A line `key: value` sets the property of the top frame's object. -/
theorem keyValue_entry (s : State) (n : ℤ) (e : Entry) :
    s.keyValue n e.key e.read =
      { heap := s.heap.set s.top.obj e.key (.item e.item)
        top := { s.top with lastKey := some e.key }
        below := s.below } := by
  rw [keyValue, if_neg e.solid_read.ne]
  rfl

/-- An item line makes an object and appends it to the list of the holder. -/
theorem listItem_trimmed (s : State) (n : ℤ) (e : Entry) {obj : Ref} {key : JsString}
    (h : s.holder = some (obj, key)) :
    s.listItem n e.trimmed =
      { heap := Heap.set (s.heap ++ [Object.new.assign [e]]) obj key
          (.array (s.heap.elements (s.heap.get obj key) ++ [.object s.heap.length]))
        top := ⟨n + 2, s.heap.length, none⟩
        below := s.top :: s.below } := by
  rw [listItem, h]
  simp only [e.matchKeyValue_trimmed]
  rw [← Object.assign_set]
  rfl

/-- A run of lines `key: value` at one indentation: the object of the frame they are
popped to gets the entries. -/
theorem pop_foldl_lines (l : List Entry) (n : ℕ) (s : State) :
    ((l.map (Entry.line n)).foldl step s).pop n =
      { heap := s.heap.modify (s.pop n).top.obj fun o ↦ o.assign l
        top :=
          { (s.pop n).top with lastKey := l.foldl (fun _ e ↦ some e.key) (s.pop n).top.lastKey }
        below := (s.pop n).below } := by
  induction l generalizing s with
  | nil =>
      rw [show (fun o : Object ↦ o.assign []) = id from rfl, List.modify_id]
      rfl
  | cons e l ih =>
      have hpopped : (s.step (e.line n)).pop n = s.step (e.line n) := by
        refine pop_of_popped ?_
        rw [step_line, keyValue_entry]
        exact s.popped_pop n
      rw [List.map_cons, List.foldl_cons, ih, hpopped, step_line, keyValue_entry]
      simp only [Heap.set, List.modify_modify_eq, Function.comp_def, Object.assign_set]
      rfl

end State

/-! ## Inside the list

The objects 2 and 3 are the one under `rivid` and the placeholder of `allow:`. -/

/-- An item of the list: a map with at least one entry. -/
structure MapItem where
  first : Entry
  rest : List Entry

def MapItem.lines (a : MapItem) : List JsString := a.first.itemLine 4 :: a.rest.map (Entry.line 6)

/-- What the list items of `allow` are put under: the placeholder until there is one. -/
def allowValue : List Item → Value
  | [] => .item (.object 3)
  | items => .array items

/-- The items of the list: the objects behind the placeholder. -/
def itemRefs (n : ℕ) : List Item := (List.range n).map fun i ↦ .object (i + 4)

/-- What is left of the items: all of them up to the first with several keys, and of
each its first key. -/
def MapItem.survivors : List MapItem → List Entry
  | [] => []
  | a :: as => a.first :: if a.rest = [] then survivors as else []

theorem itemRefs_succ (n : ℕ) : itemRefs (n + 1) = itemRefs n ++ [.object (n + 4)] := by
  rw [itemRefs, List.range_succ, List.map_append]
  rfl

namespace State

/-- The parser inside the list, once the frames of its items are popped. -/
def inList (policy placeholder : Object) (items : List Object) (last : Option JsString) :
    State where
  heap := ⟨OrderedMap.empty, .item .undefined⟩ ::
    Object.new.set rividKey (.item (.object 2)) :: policy :: placeholder :: items
  top := ⟨2, 3, last⟩
  below := [⟨0, 2, some allowKey⟩, ⟨-1, root, some rividKey⟩]

/-- The parser inside the `rivid` map. -/
def inMap (policy : Object) (last : Option JsString) : State where
  heap := [⟨OrderedMap.empty, .item .undefined⟩, Object.new.set rividKey (.item (.object 2)),
    policy]
  top := ⟨0, 2, last⟩
  below := [⟨-1, root, some rividKey⟩]

/-- The scalars in front of the list. -/
theorem pop_foldl_head (before : List Entry) :
    ((headerLine 0 rividKey none :: before.map (Entry.line 2)).foldl step init).pop 2 =
      inMap (Object.new.assign before) (before.foldl (fun _ e ↦ some e.key) none) := by
  have hopen : (init.step (headerLine 0 rividKey none)).pop 2 =
      init.step (headerLine 0 rividKey none) := by
    rw [step_headerLine _ _ isKeyText_rividKey]
    rfl
  rw [List.foldl_cons, show (2 : ℤ) = ((2 : ℕ) : ℤ) from rfl, pop_foldl_lines, Nat.cast_ofNat,
    hopen, step_headerLine _ _ isKeyText_rividKey]
  rfl

/-- The line `allow:`. -/
theorem step_allowLine {s : State} {policy : Object} {last : Option JsString}
    (h : s.pop 2 = inMap policy last) : s.step (headerLine 2 allowKey none) =
      inList (policy.set allowKey (.item (.object 3))) Object.new [] none := by
  rw [step_headerLine _ _ isKeyText_allowKey, Nat.cast_ofNat, h]
  rfl

theorem elements_allowValue {h : Heap} (hempty : h.object 3 = Object.new) (items : List Item) :
    h.elements (allowValue items) = items := by
  cases items with
  | nil =>
      rw [allowValue, Heap.elements, Heap.isEmptyObject, hempty]
      rfl
  | cons i is => rfl

variable {policy placeholder : Object} {items : List Object} {last : Option JsString} {s : State}

/-- The frames of the list are opened to the left of its items. -/
theorem pop_inList {n : ℤ} (h : 2 < n) :
    (inList policy placeholder items last).pop n = inList policy placeholder items last :=
  pop_of_popped (Or.inr h)

/-- An item line inside the list. -/
theorem pop_itemLine (obj : Ref) (key : JsString)
    (h : s.pop 6 = inList policy placeholder items last)
    (hholder : (inList policy placeholder items last).holder = some (obj, key)) (e : Entry) :
    let heap := (inList policy placeholder items last).heap
    (s.step (e.itemLine 4)).pop 6 =
      { inList policy placeholder items last with
        heap := Heap.set (heap ++ [Object.new.assign [e]]) obj key
          (.array (heap.elements (heap.get obj key) ++ [.object (items.length + 4)])) } := by
  have hpop : s.pop (4 : ℕ) = inList policy placeholder items last := by
    rw [← pop_pop s (show ((4 : ℕ) : ℤ) ≤ 6 by decide), h]
    exact pop_inList (by decide)
  rw [step_itemLine, hpop, listItem_trimmed _ _ e hholder]
  rfl

/-- The list while nothing is lost: the items so far and a placeholder nobody wrote to. -/
def kept (o : Object) (items : List Entry) : State :=
  inList (o.set allowKey (allowValue (itemRefs items.length))) Object.new
    (items.map fun e ↦ Object.new.assign [e]) none

/-- While nothing is lost an item line appends its item. -/
theorem pop_itemLine_kept {o : Object} {items : List Entry} (h : s.pop 6 = kept o items)
    (e : Entry) : (s.step (e.itemLine 4)).pop 6 = kept o (items ++ [e]) := by
  have hallow := allowKey_ne_proto
  have hget : (kept o items).heap.get 2 allowKey = allowValue (itemRefs items.length) := by
    rw [Heap.get, if_neg hallow]
    show (((o.set allowKey _).properties.get? allowKey).getD _) = _
    rw [Object.set_of_ne hallow, OrderedMap.get?_set_self]
    rfl
  have hset : ∀ v w : Value, (o.set allowKey v).set allowKey w = o.set allowKey w := by
    intro v w
    rw [Object.set_of_ne hallow, Object.set_of_ne hallow, Object.set_of_ne hallow,
      OrderedMap.set_set]
  have hvalue : allowValue (itemRefs (items.length + 1)) =
      .array (itemRefs items.length ++ [.object (items.length + 4)]) := by
    rw [itemRefs_succ]
    cases itemRefs items.length <;> rfl
  have hlast := pop_itemLine 2 allowKey h rfl e
  simp only [kept] at hget
  rw [hlast, hget, elements_allowValue rfl, List.length_map, ← hvalue]
  rw [kept, List.length_append, List.map_append]
  simp only [inList, Heap.set, List.cons_append, List.modify_succ_cons, List.modify_zero_cons, hset]
  rfl

/-- The further entries of an item go to the placeholder. -/
theorem pop_restLines (h : s.pop 6 = inList policy placeholder items last) (l : List Entry) :
    ((l.map (Entry.line 6)).foldl step s).pop 6 =
      inList policy (placeholder.assign l) items (l.foldl (fun _ e ↦ some e.key) last) := by
  have hheap : s.heap = (inList policy placeholder items last).heap := by rw [← h]; rfl
  rw [show (6 : ℤ) = ((6 : ℕ) : ℤ) from rfl, pop_foldl_lines, Nat.cast_ofNat, h, hheap]
  rfl

theorem exists_lastKey (l : List Entry) (last : Option JsString) (h : last ≠ none ∨ l ≠ []) :
    ∃ key, l.foldl (fun _ e ↦ some e.key) last = some key := by
  induction l generalizing last with
  | nil => exact Option.ne_none_iff_exists'.mp (h.resolve_right (· rfl))
  | cons e l ih => exact ih _ (Or.inl (Option.some_ne_none e.key))

/-- Once the placeholder has a last key it is the holder: no item inside the list
reaches the policy. -/
theorem pop_lines_lost {key : JsString} (h : s.pop 6 = inList policy placeholder items (some key))
    (as : List MapItem) :
    ∃ placeholder' items' key', ((as.flatMap MapItem.lines).foldl step s).pop 6 =
      inList policy placeholder' (items ++ items') (some key') := by
  induction as generalizing s placeholder items key with
  | nil => exact ⟨placeholder, [], key, by rw [List.append_nil]; exact h⟩
  | cons a as ih =>
      have hitem := pop_itemLine 3 key h rfl a.first
      obtain ⟨key₁, hkey₁⟩ := exists_lastKey a.rest _ (Or.inl (Option.some_ne_none key))
      have hitem' : (s.step (a.first.itemLine 4)).pop 6 = inList policy
          (placeholder.set key (.array _)) (items ++ [Object.new.assign [a.first]])
          (some key) := hitem
      have hlines := pop_restLines hitem' a.rest
      rw [hkey₁] at hlines
      obtain ⟨placeholder', items', key', hrest⟩ := ih hlines
      refine ⟨placeholder', Object.new.assign [a.first] :: items', key', ?_⟩
      rw [List.append_cons, List.flatMap_cons, List.foldl_append, MapItem.lines, List.foldl_cons]
      exact hrest

/-- The lines of the list. -/
theorem pop_foldl_entries {o : Object} (as : List MapItem) {items : List Entry}
    (h : s.pop 6 = kept o items) :
    ∃ placeholder junk last, ((as.flatMap MapItem.lines).foldl step s).pop 6 =
      inList (o.set allowKey (allowValue (itemRefs (items ++ MapItem.survivors as).length)))
        placeholder
        ((items ++ MapItem.survivors as).map (fun e ↦ Object.new.assign [e]) ++ junk) last := by
  induction as generalizing s items with
  | nil =>
      refine ⟨Object.new, [], none, ?_⟩
      rw [MapItem.survivors, List.append_nil, List.append_nil]
      exact h
  | cons a as ih =>
      have hitem := pop_itemLine_kept h a.first
      rw [List.flatMap_cons, List.foldl_append, MapItem.lines, List.foldl_cons, MapItem.survivors]
      by_cases hrest : a.rest = []
      · rw [if_pos hrest, hrest, List.append_cons]
        exact ih hitem
      · obtain ⟨key, hkey⟩ := exists_lastKey a.rest none (Or.inr hrest)
        have hlines := pop_restLines hitem a.rest
        rw [hkey] at hlines
        obtain ⟨placeholder, junk, key', hlost⟩ := pop_lines_lost hlines as
        rw [if_neg hrest]
        exact ⟨placeholder, junk, some key', hlost⟩

end State

/-! ## Layouts -/

/-- The `allow` list: the line `allow:` and the items. -/
structure AllowList where
  comment : Option Comment
  items : List MapItem
  items_ne : items ≠ []

/-- The `rivid` map: the line `rivid:`, the scalars in front of the list, the list if
there is one, and the scalars behind it. -/
structure Layout where
  comment : Option Comment
  before : List Entry
  allow : Option AllowList
  after : List Entry
  distinct : (before.map Entry.key ++ ((allow.map fun _ ↦ allowKey).toList ++
    after.map Entry.key)).Nodup

def AllowList.lines (a : AllowList) : List JsString :=
  headerLine 2 allowKey a.comment :: a.items.flatMap MapItem.lines

def Layout.lines (l : Layout) : List JsString :=
  headerLine 0 rividKey l.comment :: (l.before.map (Entry.line 2) ++
    (l.allow.toList.flatMap AllowList.lines ++ l.after.map (Entry.line 2)))

/-- A line that is neither blank nor a comment as a whole. -/
def isContent (line : JsString) : Bool := ¬ (trim line = [] ∨ (trim line).head? = some hash)

def contentLines (text : JsString) : List JsString := (splitLines text).filter isContent

/-- Only the content of a text counts. -/
theorem parsePolicyYaml_eq (text : JsString) :
    parsePolicyYaml text = ((contentLines text).foldl State.step State.init).heap := by
  have hstep : (fun s line ↦ if isContent line then State.step s line else s) = State.step := by
    funext s line
    by_cases hskip : trim line = [] ∨ (trim line).head? = some hash
    · rw [State.step, if_pos hskip, ite_self]
    · exact if_pos (decide_eq_true hskip)
  rw [parsePolicyYaml, contentLines, List.foldl_filter, hstep]

/-- A raw line that is content: it starts with something else than a comment. -/
def IsWritten (rawLine : JsString) : Prop := ∃ (n : ℕ) (line : JsString) (c : Option Comment),
  Solid line ∧ line.head? ≠ some hash ∧
    rawLine = List.replicate n space ++ (line ++ Comment.written c)

namespace IsWritten

theorem isContent {rawLine : JsString} (h : IsWritten rawLine) : isContent rawLine = true := by
  obtain ⟨n, line, c, hsolid, hhash, rfl⟩ := h
  refine decide_eq_true fun hskip ↦ ?_
  rw [trim_written n hsolid, List.head?_append_of_ne_nil _ hsolid.ne] at hskip
  exact hskip.elim (List.append_ne_nil_of_left_ne_nil hsolid.ne _) hhash

/-- There is no line break in it. -/
theorem isLineTerminator {rawLine : JsString} (h : IsWritten rawLine) :
    ∀ u ∈ rawLine, isLineTerminator u = false := by
  obtain ⟨n, line, c, hsolid, -, rfl⟩ := h
  intro u hu
  rcases List.mem_append.mp hu with hu | hu
  · rw [List.eq_of_mem_replicate hu]
    rfl
  · rcases List.mem_append.mp hu with hu | hu
    · exact hsolid.line u hu
    · cases c with
      | none => exact absurd hu List.not_mem_nil
      | some c =>
          rcases List.mem_append.mp hu with hu | hu
          · exact (c.blank u hu).2
          · rcases List.mem_cons.mp hu with rfl | hu
            · rfl
            · exact c.line u hu

variable (n : ℕ) (e : Entry)

theorem line : IsWritten (e.line n) :=
  ⟨n, _, e.comment, e.solid_plain, (e.isKeyText.head_ne _).1, rfl⟩

theorem itemLine : IsWritten (e.itemLine n) :=
  ⟨n, _, e.comment, solid_item e.solid_plain, by simp; decide, rfl⟩

theorem headerLine {key : JsString} (h : IsKeyText key) (c : Option Comment) :
    IsWritten (headerLine n key c) :=
  ⟨n, _, c, solid_header h, (h.head_ne _).1, rfl⟩

end IsWritten

theorem Layout.isWritten_lines (l : Layout) : ∀ rawLine ∈ l.lines, IsWritten rawLine := by
  have hscalars : ∀ (n : ℕ) (es : List Entry), ∀ rawLine ∈ es.map (Entry.line n),
      IsWritten rawLine := by
    intro n es rawLine h
    obtain ⟨e, -, rfl⟩ := List.mem_map.mp h
    exact IsWritten.line n e
  intro rawLine h
  rw [lines, List.mem_cons, List.mem_append, List.mem_append] at h
  rcases h with rfl | hbefore | hlist | hafter
  · exact IsWritten.headerLine 0 isKeyText_rividKey l.comment
  · exact hscalars 2 l.before rawLine hbefore
  · obtain ⟨a, -, h⟩ := List.mem_flatMap.mp hlist
    rcases List.mem_cons.mp h with rfl | h
    · exact IsWritten.headerLine 2 isKeyText_allowKey a.comment
    · obtain ⟨i, -, h⟩ := List.mem_flatMap.mp h
      rcases List.mem_cons.mp h with rfl | h
      · exact IsWritten.itemLine 4 i.first
      · exact hscalars 6 i.rest rawLine h
  · exact hscalars 2 l.after rawLine hafter

/-- Every layout has a text: its lines, each ended by a line feed. -/
theorem Layout.contentLines_flatMap (l : Layout) :
    contentLines (l.lines.flatMap (· ++ [lineFeed])) = l.lines := by
  have hbreak : ∀ rawLine ∈ l.lines, lineFeed ∉ rawLine ∧ carriageReturn ∉ rawLine := by
    intro rawLine h
    have hline := (l.isWritten_lines rawLine h).isLineTerminator
    exact ⟨fun hmem ↦ absurd (hline _ hmem) (by decide),
      fun hmem ↦ absurd (hline _ hmem) (by decide)⟩
  rw [contentLines, splitLines_flatMap hbreak, List.filter_append,
    List.filter_eq_self.mpr fun rawLine h ↦ (l.isWritten_lines rawLine h).isContent]
  exact List.append_nil _

/-! ## The result -/

/-- The tree of a value that is no object. -/
def Item.leaf : Item → Tree
  | .string s => .string s
  | .boolean b => .boolean b
  | _ => .undefined

theorem itemTree_coerce (h : Heap) (n : ℕ) (v : JsString) :
    h.itemTree n (coerce v) = (coerce v).leaf := by
  rw [coerce]
  cases n <;> split <;> (try split) <;> rfl

def Entry.branch (e : Entry) : JsString × Tree := (e.key, e.item.leaf)

/-- What the entries of one object come out as. -/
def branches (l : List Entry) : List (JsString × Tree) := (l.filter Entry.isOwn).map Entry.branch

/-- What is left of the list. -/
def AllowList.tree (a : AllowList) : Tree :=
  .array ((MapItem.survivors a.items).map fun e ↦ .object (branches [e]))

/-- The object the parser makes of the layout if no comment is behind a key without a
value. -/
def Layout.tree (l : Layout) : Tree :=
  .object [(rividKey, .object (branches l.before ++
    ((l.allow.map fun a ↦ (allowKey, a.tree)).toList ++ branches l.after)))]

theorem itemTree_object (h : Heap) (n : ℕ) (r : Ref) :
    h.itemTree (n + 1) (.object r) =
      .object ((h.object r).properties.entries.map fun e ↦ (e.1, e.2.tree (h.itemTree n))) := by
  rw [Heap.itemTree]

/-- Entries come out as they were read. -/
theorem map_tree_property (h : Heap) (n : ℕ) (l : List Entry) :
    (l.map Entry.property).map (fun e ↦ (e.1, e.2.tree (h.itemTree n))) = l.map Entry.branch := by
  rw [List.map_map]
  refine List.map_congr_left fun e _ ↦ ?_
  rw [Function.comp_apply, Entry.property, Value.tree, Entry.item, itemTree_coerce]
  rfl

/-- The entries of an object stand in the order of the lines. -/
theorem entries_assign {l : List Entry} (h : (l.map Entry.key).Nodup) :
    (Object.new.assign l).properties.entries = (l.filter Entry.isOwn).map Entry.property := by
  refine OrderedMap.entries_setAll ?_
  rw [List.map_map]
  exact h.sublist (List.filter_sublist.map Entry.key)

/-- The items of the list, read from the heap. -/
theorem map_itemTree_itemRefs {h : Heap} {items : List Entry} {junk : List Object}
    {o₀ o₁ o₂ o₃ : Object}
    (hheap : h = o₀ :: o₁ :: o₂ :: o₃ :: (items.map (fun e ↦ Object.new.assign [e]) ++ junk))
    (n : ℕ) : (itemRefs items.length).map (h.itemTree (n + 1)) =
      items.map fun e ↦ .object (branches [e]) := by
  refine List.ext_getElem (by simp [itemRefs]) fun i hi hi' ↦ ?_
  rw [List.length_map] at hi'
  have hobject : h.object (i + 4) = Object.new.assign [items[i]] := by
    rw [hheap, Heap.object, List.getD_cons_succ, List.getD_cons_succ, List.getD_cons_succ,
      List.getD_cons_succ, List.getD_append _ _ _ _ (by rwa [List.length_map]),
      List.getD_eq_getElem _ _ (by rwa [List.length_map]), List.getElem_map]
  simp only [itemRefs, List.map_map, List.getElem_map, List.getElem_range, Function.comp_apply,
    Heap.itemTree, hobject]
  rw [entries_assign (l := [items[i]]) (List.nodup_singleton _)]
  exact congrArg Tree.object (map_tree_property h n _)

theorem entries_assign_allow {before after : List Entry} (v : Value)
    (h : (before.map Entry.key ++ allowKey :: after.map Entry.key).Nodup) :
    (((Object.new.assign before).set allowKey v).assign after).properties.entries =
      (before.filter Entry.isOwn).map Entry.property ++
        (allowKey, v) :: (after.filter Entry.isOwn).map Entry.property := by
  set es := (before.filter Entry.isOwn).map Entry.property ++
    (allowKey, v) :: (after.filter Entry.isOwn).map Entry.property with hes
  have hkeys : es.map Prod.fst = (before.filter Entry.isOwn).map Entry.key ++
      allowKey :: (after.filter Entry.isOwn).map Entry.key := by
    rw [hes, List.map_append, List.map_cons, List.map_map, List.map_map]
    rfl
  have hdistinct : (es.map Prod.fst).Nodup := by
    rw [hkeys]
    exact h.sublist ((List.filter_sublist.map Entry.key).append
      ((List.filter_sublist.map Entry.key).cons_cons allowKey))
  have hentries : (OrderedMap.empty.setAll es).entries = es :=
    OrderedMap.entries_setAll hdistinct
  rw [hes, OrderedMap.setAll, List.foldl_append] at hentries
  rw [Object.set_of_ne allowKey_ne_proto]
  exact hentries

/-- The tree of a heap in which the object under `rivid` has the given entries. -/
theorem tree_of_entries {h : Heap} {n : ℕ} {es : List (JsString × Value)}
    (hlength : h.length = n + 2)
    (hroot : h.object root = Object.new.set rividKey (.item (.object 2)))
    (hpolicy : (h.object 2).properties.entries = es) :
    h.tree = .object [(rividKey, .object (es.map fun e ↦ (e.1, e.2.tree (h.itemTree n))))] := by
  have hentries : (h.object root).properties.entries = [(rividKey, .item (.object 2))] := by
    rw [hroot, Object.set_of_ne rividKey_ne_proto]
    rfl
  rw [Heap.tree, hlength, itemTree_object, hentries, List.map_singleton, Value.tree,
    itemTree_object, hpolicy]

namespace Layout

variable {l : Layout}

/-- The heap after the lines of a layout without a list. -/
theorem heap_of_scalars (hcomment : l.comment = none) (hallow : l.allow = none) :
    (l.lines.foldl State.step State.init).heap =
      (State.inMap (Object.new.assign (l.before ++ l.after)) none).heap := by
  have hlines : l.lines =
      headerLine 0 rividKey none :: (l.before ++ l.after).map (Entry.line 2) := by
    rw [lines, hcomment, hallow, List.map_append]
    rfl
  have hheap := congrArg State.heap (State.pop_foldl_head (l.before ++ l.after))
  rw [hlines]
  exact hheap

/-- The heap after the lines of a layout with a list. -/
theorem exists_heap_of_list {a : AllowList} (hcomment : l.comment = none)
    (hallow : l.allow = some a) (hcomment' : a.comment = none) :
    ∃ placeholder junk last, (l.lines.foldl State.step State.init).heap =
      (State.inList (((Object.new.assign l.before).set allowKey
        (allowValue (itemRefs (MapItem.survivors a.items).length))).assign l.after) placeholder
      ((MapItem.survivors a.items).map (fun e ↦ Object.new.assign [e]) ++ junk) last).heap := by
  set o := Object.new.assign l.before
  have hlines : l.lines = (headerLine 0 rividKey none :: l.before.map (Entry.line 2)) ++
      headerLine 2 allowKey none ::
        (a.items.flatMap MapItem.lines ++ l.after.map (Entry.line 2)) := by
    rw [lines, hcomment, hallow, Option.toList_some, List.flatMap_singleton, AllowList.lines,
      hcomment']
    rfl
  have hopen : (State.inList (o.set allowKey (.item (.object 3))) Object.new [] none).pop 6 =
      State.kept o [] := State.pop_inList (by decide)
  obtain ⟨placeholder, junk, last, hlist⟩ := State.pop_foldl_entries a.items hopen
  rw [List.nil_append] at hlist
  refine ⟨placeholder, junk, last, ?_⟩
  -- Only the lines behind the list are left, and they go to the object under `rivid`.
  rw [hlines, List.foldl_append, List.foldl_cons,
    State.step_allowLine (State.pop_foldl_head l.before), List.foldl_append]
  generalize (a.items.flatMap MapItem.lines).foldl _ _ = s at hlist
  have hheap := congrArg State.heap hlist
  rw [show (s.pop 6).heap = s.heap from rfl] at hheap
  have hobj : (s.pop 2).top.obj = 2 := by
    rw [← s.pop_pop (show (2 : ℤ) ≤ 6 by decide), hlist]
    rfl
  have hafter := congrArg State.heap (State.pop_foldl_lines l.after 2 s)
  rw [Nat.cast_ofNat, hobj, hheap] at hafter
  exact hafter

/-- What the parser makes of the layout. -/
theorem parse_eq (hcomment : l.comment = none) (hallow : ∀ a, l.allow = some a → a.comment = none)
    {text : JsString} (htext : contentLines text = l.lines) :
    (parsePolicyYaml text).tree = l.tree := by
  rw [parsePolicyYaml_eq, htext, tree]
  have hdistinct := l.distinct
  cases hlist : l.allow with
  | none =>
      rw [hlist, Option.map_none, Option.toList_none, List.nil_append,
        ← List.map_append] at hdistinct
      rw [heap_of_scalars hcomment hlist]
      generalize hh : (State.inMap _ _).heap = h
      have hpolicy : (h.object 2).properties.entries =
          ((l.before ++ l.after).filter Entry.isOwn).map Entry.property := by
        rw [← entries_assign hdistinct, ← hh]
        rfl
      rw [tree_of_entries (n := 1) (by rw [← hh]; rfl) (by rw [← hh]; rfl) hpolicy,
        map_tree_property, List.filter_append, List.map_append]
      rfl
  | some a =>
      obtain ⟨placeholder, junk, last, hheap⟩ := exists_heap_of_list hcomment hlist (hallow a hlist)
      have hvalue : allowValue (itemRefs (MapItem.survivors a.items).length) =
          .array (itemRefs (MapItem.survivors a.items).length) := by
        obtain ⟨b, bs, heq⟩ := List.exists_cons_of_ne_nil a.items_ne
        rw [heq, MapItem.survivors, List.length_cons, itemRefs_succ]
        cases itemRefs _ <;> rfl
      rw [hlist] at hdistinct
      rw [hheap, hvalue]
      generalize hh : (State.inList _ _ _ _).heap = h
      have hlength : h.length = ((MapItem.survivors a.items).length + junk.length + 1 + 1) + 2 := by
        rw [← hh]
        simp [State.inList]
      have hpolicy : (h.object 2).properties.entries =
          (l.before.filter Entry.isOwn).map Entry.property ++
          (allowKey, .array (itemRefs (MapItem.survivors a.items).length)) ::
            (l.after.filter Entry.isOwn).map Entry.property := by
        rw [← entries_assign_allow _ hdistinct, ← hh]
        rfl
      have hitems := map_itemTree_itemRefs hh.symm
        ((MapItem.survivors a.items).length + junk.length + 1)
      rw [tree_of_entries hlength (by rw [← hh]; rfl) hpolicy, List.map_append, List.map_cons,
        map_tree_property, map_tree_property, Value.tree, hitems]
      rfl

end Layout

end Rivid.Check
