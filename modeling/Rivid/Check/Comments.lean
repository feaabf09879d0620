import Rivid.Check.Layout

/-!
# Comments behind a line

The documented policies have comments behind their lines, but the parser takes them
for a part of the value, and a key with nothing but a comment behind it has a value.
`Layout.parse_strip_iff` says when that makes no difference: when every comment is on
a line that is lost anyway, behind the first key of the first list item with several
keys or with the key `__proto__`.

A scalar that took its comment with it has a `#` in it.  A line `rivid:` or `allow:`
that became a scalar stays one, or becomes a list that starts with it (`Spoiled`), as
no later line of the layout makes a map of the same entry.
-/

namespace Rivid.Check

/-! ## Taking the comments away -/

def Entry.strip (e : Entry) : Entry := { e with comment := none }

def MapItem.strip (a : MapItem) : MapItem := ⟨a.first.strip, a.rest.map Entry.strip⟩

def AllowList.strip (a : AllowList) : AllowList where
  comment := none
  items := a.items.map MapItem.strip
  items_ne := fun h ↦ a.items_ne (List.map_eq_nil_iff.mp h)

theorem map_key_strip (l : List Entry) : (l.map Entry.strip).map Entry.key = l.map Entry.key := by
  rw [List.map_map]
  rfl

namespace Layout

variable (l : Layout)

def strip : Layout where
  comment := none
  before := l.before.map Entry.strip
  allow := l.allow.map AllowList.strip
  after := l.after.map Entry.strip
  distinct := by
    rw [map_key_strip, map_key_strip, Option.map_map]
    exact l.distinct

/-- All entries, those of the list items included. -/
def entries : List Entry :=
  l.before ++ (l.allow.toList.flatMap (fun a ↦ a.items.flatMap fun i ↦ i.first :: i.rest) ++
    l.after)

/-- The lines with a comment are among those that the parser loses. -/
structure CommentsLost : Prop where
  rivid : l.comment = none
  scalars : ∀ e ∈ l.before ++ l.after, e.isOwn = true → e.comment = none
  allow : ∀ a, l.allow = some a → a.comment = none
  items : ∀ a, l.allow = some a → ∀ e ∈ MapItem.survivors a.items, e.isOwn = true → e.comment = none

end Layout

/-! ## Comments behind a value -/

theorem hash_mem_stripQuotes {s : JsString} : hash ∈ stripQuotes s ↔ hash ∈ s := by
  have hne : ∀ {u : U16}, isQuote u = true → u ≠ hash := by
    rintro u hu rfl
    exact absurd hu (by decide)
  have htail : ∀ t : JsString, (hash ∈ if t.head?.any isQuote then t.tail else t) ↔ hash ∈ t := by
    rintro (_ | ⟨u, t⟩)
    · rfl
    · split
      · next hu => exact ⟨List.mem_cons_of_mem u, fun h ↦ List.mem_of_ne_of_mem (hne hu).symm h⟩
      · rfl
  have hlast : ∀ t : JsString, (hash ∈ if t.getLast?.any isQuote then t.dropLast else t) ↔
      hash ∈ t := by
    intro t
    induction t using List.reverseRecOn with
    | nil => rfl
    | append_singleton t u _ =>
        rw [List.getLast?_concat, List.dropLast_concat]
        split
        · next hu =>
            refine ⟨List.mem_append_left [u], fun h ↦ ?_⟩
            exact (List.mem_append.mp h).resolve_right fun h ↦
              hne hu (List.mem_singleton.mp h).symm
        · rfl
  rw [stripQuotes, hlast, htail]

/-- A value on one line is read without the quotes. -/
theorem Solid.coerce_eq {s : JsString} (h : Solid s) (hhash : hash ∈ s) :
    coerce s = .string (stripQuotes s) := by
  have hne : ∀ t : JsString, hash ∉ t → stripQuotes s ≠ t := by
    rintro t ht rfl
    exact ht (hash_mem_stripQuotes.mpr hhash)
  rw [coerce, trim, h.trimStart_eq, h.trimEnd_eq]
  rw [if_neg (hne _ (by decide)), if_neg (hne _ (by decide))]

theorem hash_notMem_of_coerce {s t : JsString} (h : Solid s) (hhash : hash ∉ s)
    (hcoerce : coerce s = .string t) : hash ∉ t := by
  rw [coerce, trim, h.trimStart_eq, h.trimEnd_eq] at hcoerce
  split at hcoerce
  · cases hcoerce
  · split at hcoerce
    · cases hcoerce
    · obtain rfl := Item.string.inj hcoerce
      rwa [hash_mem_stripQuotes]

namespace Entry

variable {e : Entry}

/-- An entry comes out the same without its comment only if it has none. -/
theorem branch_strip_iff (hhash : hash ∉ e.value) :
    e.branch = e.strip.branch ↔ e.comment = none := by
  obtain ⟨key, value, comment, isKeyText, solid⟩ := e
  cases comment with
  | none => exact ⟨fun _ ↦ rfl, fun _ ↦ rfl⟩
  | some c =>
      refine ⟨fun h ↦ ?_, fun h ↦ nomatch h⟩
      have hmem : hash ∈ value ++ Comment.seen (some c) :=
        List.mem_append_right _ (List.mem_append_right _ (List.mem_of_mem_head? (c.head_body)))
      have hread : (coerce (value ++ Comment.seen (some c))).leaf = (coerce (value ++ [])).leaf :=
        congrArg Prod.snd h
      rw [(Comment.solid_seen solid (some c)).coerce_eq hmem, List.append_nil] at hread
      cases hcoerce : coerce value with
      | string t =>
          rw [hcoerce] at hread
          have hnot := hash_notMem_of_coerce solid hhash hcoerce
          rw [← Tree.string.inj hread, hash_mem_stripQuotes] at hnot
          exact absurd hmem hnot
      | _ =>
          rw [hcoerce] at hread
          cases hread

end Entry

theorem branches_strip (l : List Entry) :
    branches (l.map Entry.strip) = (l.filter Entry.isOwn).map fun e ↦ e.strip.branch := by
  rw [branches, List.filter_map, List.map_map]
  rfl

theorem branches_strip_iff {l : List Entry} (hhash : ∀ e ∈ l, hash ∉ e.value) :
    branches l = branches (l.map Entry.strip) ↔ ∀ e ∈ l, e.isOwn = true → e.comment = none := by
  rw [branches_strip, branches, List.map_inj_left]
  simp only [List.mem_filter, and_imp]
  exact forall₃_congr fun e he _ ↦ Entry.branch_strip_iff (hhash e he)

theorem survivors_strip (as : List MapItem) :
    MapItem.survivors (as.map MapItem.strip) = (MapItem.survivors as).map Entry.strip := by
  induction as with
  | nil => rfl
  | cons a as ih =>
      rw [List.map_cons, MapItem.survivors, MapItem.survivors, List.map_cons, MapItem.strip, ih]
      simp only [List.map_eq_nil_iff]
      split <;> rfl

theorem survivors_subset (as : List MapItem) :
    ∀ e ∈ MapItem.survivors as, e ∈ as.flatMap fun i ↦ i.first :: i.rest := by
  induction as with
  | nil => exact fun e he ↦ he
  | cons a as ih =>
      intro e he
      rw [List.flatMap_cons]
      rcases List.mem_cons.mp he with rfl | he
      · exact List.mem_append_left _ List.mem_cons_self
      · split at he
        · exact List.mem_append_right _ (ih e he)
        · cases he

/-- The list starts with a map. -/
theorem AllowList.exists_tree_eq (a : AllowList) :
    ∃ es ts, a.tree = .array (.object es :: ts) := by
  obtain ⟨b, bs, heq⟩ := List.exists_cons_of_ne_nil a.items_ne
  rw [AllowList.tree, heq, MapItem.survivors, List.map_cons]
  exact ⟨_, _, rfl⟩

theorem AllowList.tree_strip_iff {a : AllowList}
    (hhash : ∀ e ∈ MapItem.survivors a.items, hash ∉ e.value) :
    a.tree = a.strip.tree ↔
      ∀ e ∈ MapItem.survivors a.items, e.isOwn = true → e.comment = none := by
  rw [AllowList.tree, AllowList.tree, AllowList.strip, survivors_strip, Tree.array.injEq,
    List.map_map, List.map_inj_left]
  refine forall₂_congr fun e he ↦ ?_
  have hitem := branches_strip_iff (List.forall_mem_singleton.mpr (hhash e he))
  rw [List.forall_mem_singleton] at hitem
  rw [Function.comp_apply, Tree.object.injEq, ← hitem]
  rfl

namespace Layout

variable {l : Layout}

/-- The result is the same without the comments only if they are on lost lines. -/
theorem tree_strip_iff (hhash : ∀ e ∈ l.entries, hash ∉ e.value) :
    l.tree = l.strip.tree ↔ (∀ e ∈ l.before ++ l.after, e.isOwn = true → e.comment = none) ∧
      ∀ a, l.allow = some a →
        ∀ e ∈ MapItem.survivors a.items, e.isOwn = true → e.comment = none := by
  have hbefore := branches_strip_iff fun e he ↦ hhash e (List.mem_append_left _ he)
  have hafter := branches_strip_iff fun e he ↦
    hhash e (List.mem_append_right _ (List.mem_append_right _ he))
  have hallow : (l.allow.map fun a ↦ (allowKey, a.tree)) =
      (l.allow.map AllowList.strip).map (fun a ↦ (allowKey, a.tree)) ↔
        ∀ a, l.allow = some a →
          ∀ e ∈ MapItem.survivors a.items, e.isOwn = true → e.comment = none := by
    cases hlist : l.allow with
    | none => exact ⟨fun _ a ha ↦ (nomatch ha), fun _ ↦ rfl⟩
    | some a =>
        have ha := AllowList.tree_strip_iff (a := a) fun e he ↦ by
          refine hhash e (List.mem_append_right _ (List.mem_append_left _ ?_))
          rw [hlist, Option.toList_some, List.flatMap_singleton]
          exact survivors_subset a.items e he
        simp only [Option.map_some, Option.some.injEq, Prod.mk.injEq, true_and, ha,
          forall_eq']
  have hlength : ∀ es : List Entry,
      (branches es).length = (branches (es.map Entry.strip)).length := by
    intro es
    rw [branches_strip, branches, List.length_map, List.length_map]
  rw [List.forall_mem_append, ← hbefore, ← hafter, ← hallow]
  rw [tree, tree, Tree.object.injEq, List.singleton_inj, Prod.mk.injEq, Tree.object.injEq]
  constructor
  · rintro ⟨-, h⟩
    obtain ⟨hb, h⟩ := List.append_inj h (hlength l.before)
    obtain ⟨ha, hc⟩ := List.append_inj h (by simp only [strip]; cases l.allow <;> rfl)
    have hhead := congrArg List.head? ha
    rw [Option.head?_toList, Option.head?_toList] at hhead
    exact ⟨⟨hb, hc⟩, hhead⟩
  · rintro ⟨⟨hb, hc⟩, ha⟩
    refine ⟨rfl, ?_⟩
    rw [hb, ha, hc]
    rfl

end Layout

/-! ## Comments behind a key -/

/-- A scalar, or a list that starts with one. -/
def Value.StartsScalar : Value → Prop
  | .item i => i.IsScalar
  | .array [] => False
  | .array (i :: _) => i.IsScalar

/-- A list is put behind what starts with a scalar. -/
theorem Value.StartsScalar.elements {v : Value} (hv : v.StartsScalar) (h : Heap) (new : List Item) :
    (Value.array (h.elements v ++ new)).StartsScalar := by
  match v, hv with
  | .array (_ :: _), hv => exact hv
  | .item .undefined, hv | .item (.string _), hv | .item (.boolean _), hv => exact hv

theorem Value.StartsScalar.tree_ne {v : Value} (hv : v.StartsScalar) (h : Heap) (n : ℕ) :
    (∀ es, v.tree (h.itemTree n) ≠ .object es) ∧
      ∀ es ts, v.tree (h.itemTree n) ≠ .array (.object es :: ts) := by
  have hitem : ∀ i : Item, i.IsScalar → ∀ es, h.itemTree n i ≠ .object es := by
    rintro (_ | _ | _ | _) hi es heq
    · cases n <;> cases heq
    · cases n <;> cases heq
    · cases n <;> cases heq
    · exact hi
  have hitem' : ∀ i : Item, ∀ ts, h.itemTree n i ≠ .array ts := by
    rintro (_ | _ | _ | _) ts heq <;> cases n <;> cases heq
  match v, hv with
  | .item i, hv => exact ⟨hitem i hv, fun es ts ↦ hitem' i _⟩
  | .array (i :: is), hv =>
      refine ⟨fun es heq ↦ Tree.noConfusion heq, fun es ts heq ↦ ?_⟩
      exact hitem i hv es (List.cons.inj (Tree.array.inj heq)).1

namespace Heap

/-- The entry `key` of an object starts with a scalar. -/
structure Spoiled (h : Heap) (r : Ref) (key : JsString) : Prop where
  ne_proto : key ≠ proto
  lt : r < h.length
  entry : ∃ v, (h.object r).properties.get? key = some v ∧ v.StartsScalar

namespace Spoiled

variable {h : Heap} {r : Ref} {key : JsString}

theorem concat (hs : h.Spoiled r key) (o : Object) : Spoiled (h ++ [o]) r key where
  ne_proto := hs.ne_proto
  lt := by
    rw [List.length_append]
    exact Nat.lt_add_right _ hs.lt
  entry := by
    rw [object_concat_of_lt h o hs.lt]
    exact hs.entry

/-- It stays so as long as it is assigned nothing else. -/
theorem set (hs : h.Spoiled r key) {obj : Ref} {k : JsString} {v : Value}
    (hv : obj = r → k = key → v.StartsScalar) : (h.set obj k v).Spoiled r key where
  ne_proto := hs.ne_proto
  lt := by
    rw [length_set]
    exact hs.lt
  entry := by
    by_cases hobj : r = obj
    · subst hobj
      rw [object_set_self h k v hs.lt, Object.get?_set hs.ne_proto]
      split
      · next hk => exact ⟨v, rfl, hv rfl hk.symm⟩
      · exact hs.entry
    · rw [object_set_of_ne h k v hobj]
      exact hs.entry

theorem get (hs : h.Spoiled r key) : (h.get r key).StartsScalar := by
  obtain ⟨v, hv, hscalar⟩ := hs.entry
  rw [Heap.get, if_neg hs.ne_proto, hv]
  exact hscalar

/-- Then the object's tree is none with a map, or a list of maps, under that key. -/
theorem exists_branch (hs : h.Spoiled r key) (n : ℕ) :
    ∃ t, (key, t) ∈ (h.object r).properties.entries.map (fun e ↦ (e.1, e.2.tree (h.itemTree n))) ∧
      (∀ es, t ≠ .object es) ∧ ∀ es ts, t ≠ .array (.object es :: ts) := by
  obtain ⟨v, hv, hscalar⟩ := hs.entry
  have hmem : (key, v) ∈ (h.object r).properties.entries := OrderedMap.mem_entries_iff.mpr hv
  exact ⟨_, List.mem_map.mpr ⟨_, hmem, rfl⟩, hscalar.tree_ne h n⟩

end Spoiled

end Heap

namespace State

variable {s : State} {r : Ref} {key : JsString}

theorem spoiled_step_line (hs : s.heap.Spoiled r key) (n : ℕ) (e : Entry) :
    (s.step (e.line n)).heap.Spoiled r key := by
  rw [step_line, keyValue_entry]
  exact hs.set fun _ _ ↦ isScalar_coerce e.read

theorem spoiled_step_itemLine (hs : s.heap.Spoiled r key) (n : ℕ) (e : Entry) :
    (s.step (e.itemLine n)).heap.Spoiled r key := by
  rw [step_itemLine]
  cases hholder : (s.pop n).holder with
  | none =>
      rw [listItem, hholder]
      exact hs
  | some objKey =>
      obtain ⟨obj, k⟩ := objKey
      rw [listItem_trimmed _ _ _ hholder]
      refine (hs.concat _).set ?_
      rintro rfl rfl
      exact hs.get.elements _ _

theorem spoiled_step_headerLine (hs : s.heap.Spoiled r key) (n : ℕ) {k : JsString}
    (hk : IsKeyText k)
    (hne : k ≠ key) (c : Option Comment) :
    (s.step (headerLine n k c)).heap.Spoiled r key := by
  rw [step_headerLine _ _ hk, keyValue]
  split
  · exact (hs.concat _).set fun _ heq ↦ absurd heq hne
  · exact hs.set fun _ heq ↦ absurd heq hne

theorem spoiled_foldl {lines : List JsString} (hs : s.heap.Spoiled r key)
    (hlines : ∀ rawLine ∈ lines, ∀ s : State, s.heap.Spoiled r key →
      (s.step rawLine).heap.Spoiled r key) : (lines.foldl step s).heap.Spoiled r key := by
  induction lines generalizing s with
  | nil => exact hs
  | cons rawLine lines ih =>
      obtain ⟨hline, hlines⟩ := List.forall_mem_cons.mp hlines
      exact ih (hline s hs) hlines

theorem spoiled_foldl_lines (hs : s.heap.Spoiled r key) (n : ℕ) (es : List Entry) :
    ((es.map (Entry.line n)).foldl step s).heap.Spoiled r key := by
  refine spoiled_foldl hs fun rawLine h s hs ↦ ?_
  obtain ⟨e, -, rfl⟩ := List.mem_map.mp h
  exact spoiled_step_line hs n e

theorem spoiled_foldl_items (hs : s.heap.Spoiled r key) (as : List MapItem) :
    ((as.flatMap MapItem.lines).foldl step s).heap.Spoiled r key := by
  refine spoiled_foldl hs fun rawLine h s hs ↦ ?_
  obtain ⟨a, -, h⟩ := List.mem_flatMap.mp h
  rcases List.mem_cons.mp h with rfl | h
  · exact spoiled_step_itemLine hs 4 a.first
  · obtain ⟨e, -, rfl⟩ := List.mem_map.mp h
    exact spoiled_step_line hs 6 e

/-! ### The object under `rivid` stays there -/

/-- No frame but the one of the `rivid` map is left once the frames of list items are
popped, and it has a last key. -/
structure InRivid (s : State) : Prop where
  top : ∃ key, (s.pop 6).top = ⟨0, 2, some key⟩
  below : (s.pop 6).below = [⟨-1, root, some rividKey⟩]
  lt : 2 < s.heap.length
  object : s.heap.object root = Object.new.set rividKey (.item (.object 2))

namespace InRivid

theorem pop_eq (h : s.InRivid) {n : ℕ} (hn : 0 < n ∧ n ≤ 6) : ∃ key, s.pop n =
    ⟨s.heap, ⟨0, 2, some key⟩, [⟨-1, root, some rividKey⟩]⟩ := by
  obtain ⟨key, htop⟩ := h.top
  refine ⟨key, ?_⟩
  have hpop : s.pop 6 = ⟨s.heap, ⟨0, 2, some key⟩, [⟨-1, root, some rividKey⟩]⟩ := by
    rw [← htop, ← h.below]
    rfl
  rw [← s.pop_pop (show (n : ℤ) ≤ 6 by omega), hpop]
  exact pop_of_popped (Or.inr (show (0 : ℤ) < n by omega))

theorem step_line (h : s.InRivid) {n : ℕ} (hn : 0 < n ∧ n ≤ 6) (e : Entry) :
    (s.step (e.line n)).InRivid := by
  obtain ⟨key, hpop⟩ := h.pop_eq hn
  rw [State.step_line, keyValue_entry, hpop]
  exact {
    top := ⟨e.key, rfl⟩
    below := rfl
    lt := by
      rw [Heap.length_set]
      exact h.lt
    object := (Heap.object_set_of_ne s.heap _ _ (show root ≠ 2 by decide)).trans h.object }

theorem step_itemLine (h : s.InRivid) (e : Entry) : (s.step (e.itemLine 4)).InRivid := by
  obtain ⟨key, hpop⟩ := h.pop_eq (n := 4) (by decide)
  have hholder : (s.pop (4 : ℕ)).holder = some (2, key) := by
    rw [hpop]
    rfl
  rw [State.step_itemLine, listItem_trimmed _ _ _ hholder, hpop]
  exact {
    top := ⟨key, rfl⟩
    below := rfl
    lt := by
      rw [Heap.length_set, List.length_append]
      exact Nat.lt_add_right _ h.lt
    object := (Heap.object_set_of_ne _ _ _ (show root ≠ 2 by decide)).trans
      ((Heap.object_concat_of_lt s.heap _ (Nat.lt_of_succ_lt h.lt)).trans h.object) }

theorem foldl_lines (h : s.InRivid) {n : ℕ} (hn : 0 < n ∧ n ≤ 6) (es : List Entry) :
    ((es.map (Entry.line n)).foldl step s).InRivid := by
  induction es generalizing s with
  | nil => exact h
  | cons e es ih => exact ih (h.step_line hn e)

theorem foldl_items (h : s.InRivid) (as : List MapItem) :
    ((as.flatMap MapItem.lines).foldl step s).InRivid := by
  induction as generalizing s with
  | nil => exact h
  | cons a as ih =>
      rw [List.flatMap_cons, List.foldl_append]
      exact ih ((h.step_itemLine a.first).foldl_lines (by decide) a.rest)

end InRivid

/-- The line `allow:` with a comment. -/
theorem inRivid_step_allowLine {policy : Object} {last : Option JsString}
    (h : s.pop 2 = inMap policy last) (c : Comment) :
    (s.step (headerLine 2 allowKey (some c))).InRivid ∧
      (s.step (headerLine 2 allowKey (some c))).heap.Spoiled 2 allowKey := by
  rw [step_headerLine _ _ isKeyText_allowKey, Nat.cast_ofNat, h, keyValue, if_neg c.body_ne]
  refine ⟨⟨⟨allowKey, rfl⟩, rfl, Nat.lt_succ_self 2, rfl⟩, allowKey_ne_proto, Nat.lt_succ_self 2,
    .item (coerce (Comment.body (some c))), ?_, isScalar_coerce _⟩
  change ((policy.set allowKey _).properties.get? allowKey) = _
  rw [Object.get?_set allowKey_ne_proto, if_pos rfl]

/-- The line `rivid:` with a comment. -/
theorem spoiled_step_rividLine (c : Comment) :
    (init.step (headerLine 0 rividKey (some c))).heap.Spoiled root rividKey := by
  rw [step_headerLine _ _ isKeyText_rividKey, keyValue, if_neg c.body_ne]
  refine ⟨rividKey_ne_proto, Nat.lt_succ_self 1, .item (coerce (Comment.body (some c))), ?_,
    isScalar_coerce _⟩
  change ((Object.new.set rividKey _).properties.get? rividKey) = _
  rw [Object.get?_set rividKey_ne_proto, if_pos rfl]

end State

namespace Layout

variable {l : Layout} {text : JsString}

/-- Under `allow` stands the list and no scalar. -/
theorem eq_tree_of_mem {a : AllowList} (hallow : l.allow = some a) {t : Tree}
    (hmem : (allowKey, t) ∈ branches l.before ++
      ((l.allow.map fun a ↦ (allowKey, a.tree)).toList ++ branches l.after)) : t = a.tree := by
  have hkey : ∀ es : List Entry, (allowKey, t) ∈ branches es → allowKey ∈ es.map Entry.key := by
    intro es h
    obtain ⟨e, he, heq⟩ := List.mem_map.mp h
    exact List.mem_map.mpr ⟨e, List.mem_of_mem_filter he, congrArg Prod.fst heq⟩
  have hdistinct := l.distinct
  rw [hallow] at hdistinct hmem
  have hnot := (List.nodup_cons.mp (List.nodup_middle.mp hdistinct)).1
  rw [List.mem_append, not_or] at hnot
  rw [List.mem_append, List.mem_append] at hmem
  rcases hmem with h | h | h
  · exact absurd (hkey _ h) hnot.1
  · exact congrArg Prod.snd (List.mem_singleton.mp h)
  · exact absurd (hkey _ h) hnot.2

theorem parse_ne_of_comment {c : Comment} (hcomment : l.comment = some c)
    (htext : contentLines text = l.lines) : (parsePolicyYaml text).tree ≠ l.strip.tree := by
  have hs : (parsePolicyYaml text).Spoiled root rividKey := by
    rw [parsePolicyYaml_eq, htext, lines, hcomment, List.foldl_cons, List.foldl_append,
      List.foldl_append]
    refine State.spoiled_foldl_lines ?_ 2 l.after
    have hbefore := State.spoiled_foldl_lines (State.spoiled_step_rividLine c) 2 l.before
    cases l.allow with
    | none => exact hbefore
    | some a =>
        rw [Option.toList_some, List.flatMap_singleton]
        exact State.spoiled_foldl_items
          (State.spoiled_step_headerLine hbefore 2 isKeyText_allowKey (by decide) a.comment) a.items
  obtain ⟨n, hlength⟩ := Nat.exists_eq_succ_of_ne_zero (Nat.ne_zero_of_lt hs.lt)
  obtain ⟨t, hmem, hobject, -⟩ := hs.exists_branch n
  intro htree
  rw [Heap.tree, hlength, itemTree_object, tree, Tree.object.injEq] at htree
  rw [htree, List.mem_singleton] at hmem
  exact hobject _ (congrArg Prod.snd hmem)

theorem parse_ne_of_allow_comment {a : AllowList} {c : Comment} (hcomment : l.comment = none)
    (hallow : l.allow = some a) (ha : a.comment = some c) (htext : contentLines text = l.lines) :
    (parsePolicyYaml text).tree ≠ l.strip.tree := by
  have hlines : l.lines = (headerLine 0 rividKey none :: l.before.map (Entry.line 2)) ++
      headerLine 2 allowKey (some c) ::
        (a.items.flatMap MapItem.lines ++ l.after.map (Entry.line 2)) := by
    rw [lines, hcomment, hallow, Option.toList_some, List.flatMap_singleton, AllowList.lines, ha]
    rfl
  have hrun : ∃ s : State, parsePolicyYaml text = s.heap ∧ s.InRivid ∧
      s.heap.Spoiled 2 allowKey := by
    obtain ⟨hrivid, hs⟩ := State.inRivid_step_allowLine (State.pop_foldl_head l.before) c
    refine ⟨_, ?_, (hrivid.foldl_items a.items).foldl_lines (n := 2) (by decide) l.after,
      State.spoiled_foldl_lines (State.spoiled_foldl_items hs a.items) 2 l.after⟩
    rw [parsePolicyYaml_eq, htext, hlines, List.foldl_append, List.foldl_cons, List.foldl_append]
  obtain ⟨s, hparse, hrivid, hs⟩ := hrun
  obtain ⟨n, hlength⟩ := Nat.exists_eq_add_of_lt hrivid.lt
  obtain ⟨t, hmem, -, harray⟩ := hs.exists_branch (n + 1)
  intro htree
  rw [hparse, tree_of_entries (n := n + 1) (by rw [hlength]; omega) hrivid.object rfl, tree,
    Tree.object.injEq, List.singleton_inj, Prod.mk.injEq, Tree.object.injEq] at htree
  rw [htree.2] at hmem
  have hlist : l.strip.allow = some a.strip := congrArg (Option.map AllowList.strip) hallow
  obtain ⟨es, ts, hmaps⟩ := a.strip.exists_tree_eq
  exact harray es ts ((eq_tree_of_mem hlist hmem).trans hmaps)

/-- The comments make no difference exactly when their lines are lost anyway. -/
theorem parse_strip_iff (hhash : ∀ e ∈ l.entries, hash ∉ e.value) {bare : JsString}
    (htext : contentLines text = l.lines) (hbare : contentLines bare = l.strip.lines) :
    (parsePolicyYaml text).tree = (parsePolicyYaml bare).tree ↔ l.CommentsLost := by
  have hstrip : (parsePolicyYaml bare).tree = l.strip.tree := by
    refine parse_eq rfl (fun a ha ↦ ?_) hbare
    obtain ⟨a', -, rfl⟩ := Option.map_eq_some_iff.mp ha
    rfl
  rw [hstrip]
  cases hcomment : l.comment with
  | some c =>
      exact ⟨fun h ↦ absurd h (parse_ne_of_comment hcomment htext),
        fun h ↦ absurd (hcomment.symm.trans h.rivid) (Option.some_ne_none c)⟩
  | none =>
      by_cases hallow : ∀ a, l.allow = some a → a.comment = none
      · rw [parse_eq hcomment hallow htext, tree_strip_iff hhash]
        exact ⟨fun h ↦ ⟨hcomment, h.1, hallow, h.2⟩, fun h ↦ ⟨h.scalars, h.items⟩⟩
      · refine ⟨fun h ↦ ?_, fun h ↦ absurd h.allow hallow⟩
        obtain ⟨a, ha⟩ := not_forall.mp hallow
        obtain ⟨ha, hne⟩ := Classical.not_imp.mp ha
        obtain ⟨c, hc⟩ := Option.ne_none_iff_exists'.mp hne
        exact absurd h (parse_ne_of_allow_comment hcomment ha hc htext)

end Layout

/-! ### Documented comments -/

/-- An entry of ASCII text. -/
def entry (key value : String) (comment : Option Comment)
    (h : IsKeyText (JsString.ofAscii key) ∧ Solid (JsString.ofAscii value)) : Entry :=
  ⟨JsString.ofAscii key, JsString.ofAscii value, comment, h.1, h.2⟩

/-- A comment of ASCII text, so many blanks and one behind the line. -/
def comment (n : ℕ) (text : String)
    (h : (JsString.ofAscii text).any isLineTerminator = false) : Comment where
  gap := List.replicate (n + 1) space
  text := JsString.ofAscii text
  gap_ne := List.cons_ne_nil _ _
  blank u hu := by
    rw [List.eq_of_mem_replicate hu]
    exact ⟨rfl, rfl⟩
  line u hu := Bool.eq_false_iff.mpr (List.any_eq_false.mp h u hu)

/-- A scalar with its documented comment. -/
def commentedFamily : Layout where
  comment := none
  before := [entry "database" "uuidv7"
    (some (comment 6 " expected primary-key family" (by decide +kernel)))
    (by decide)]
  allow := none
  after := []
  distinct := by decide

/-- A comment behind a key that is lost. -/
def commentedColumn : Layout where
  comment := none
  before := []
  allow := some {
    comment := none
    items := [⟨entry "table" "legacy_users" none (by decide),
      [entry "column" "id" (some (comment 0 " frozen" (by decide))) (by decide)]⟩]
    items_ne := List.cons_ne_nil _ _ }
  after := []
  distinct := by decide

theorem parse_commentedColumn :
    (parsePolicyYaml (JsString.ofAscii
      "rivid:\n  allow:\n    - table: legacy_users\n      column: id # frozen\n")).tree =
    (parsePolicyYaml (JsString.ofAscii
      "rivid:\n  allow:\n    - table: legacy_users\n      column: id\n")).tree := by
  refine (Layout.parse_strip_iff (l := commentedColumn) (by decide) (by decide +kernel)
    (by decide)).mpr ⟨rfl, fun e he ↦ (nomatch he), ?_, ?_⟩
  · rintro a ⟨⟩
    rfl
  · rintro a ⟨⟩ e he
    obtain rfl := List.mem_singleton.mp he
    exact fun _ ↦ rfl

/-- The documented comment is no comment to the parser. -/
theorem parse_commentedFamily_ne :
    (parsePolicyYaml (JsString.ofAscii
      "rivid:\n  database: uuidv7       # expected primary-key family\n")).tree ≠
    (parsePolicyYaml (JsString.ofAscii "rivid:\n  database: uuidv7\n")).tree := by
  rw [Layout.parse_eq (l := commentedFamily) rfl (fun a ha ↦ (nomatch ha)) (by decide),
    Layout.parse_eq (l := commentedFamily.strip) rfl (fun a ha ↦ (nomatch ha)) (by decide),
    Ne, Layout.tree_strip_iff (by decide)]
  intro h
  exact absurd (h.1 _ List.mem_cons_self (by decide)) (Option.some_ne_none _)

end Rivid.Check
