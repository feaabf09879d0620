import Rivid.Lib.LastWrite
import Mathlib.Data.List.Induction
import Mathlib.Data.List.Nodup

/-!
# Maps that keep the order of insertion

A map as a list of entries with distinct keys.  Setting a new key appends an
entry, and setting a key that is present replaces its value where it stands.

`get?_set` says what `set` does to the values, `set_set` that the last of two
writes to a key counts, and `entries_setAll` what the entries are after writing
a list of distinct new keys.
-/

universe u v

/-- A map whose entries stand in the order in which their keys were first set. -/
@[ext] structure OrderedMap (κ : Type u) (α : Type v) where
  entries : List (κ × α)
  nodup : (entries.map Prod.fst).Nodup

namespace OrderedMap

variable {κ : Type u} {α : Type v}

def empty : OrderedMap κ α := ⟨[], List.nodup_nil⟩

/-- The keys, in the order of the entries. -/
def keys (m : OrderedMap κ α) : List κ := m.entries.map Prod.fst

def isEmpty (m : OrderedMap κ α) : Bool := m.entries.isEmpty

variable [DecidableEq κ]

def get? (m : OrderedMap κ α) (key : κ) : Option α := m.entries.lookup key

/-- `set` on the entries. -/
def setEntry (key : κ) (value : α) : List (κ × α) → List (κ × α)
  | [] => [(key, value)]
  | e :: es => if e.1 = key then (key, value) :: es else e :: setEntry key value es

/-- A key keeps its place, a new one comes last. -/
theorem map_fst_setEntry (key : κ) (value : α) (es : List (κ × α)) :
    (setEntry key value es).map Prod.fst =
      if key ∈ es.map Prod.fst then es.map Prod.fst else es.map Prod.fst ++ [key] := by
  induction es with
  | nil => rfl
  | cons e es ih =>
      rw [setEntry]
      by_cases he : e.1 = key
      · rw [if_pos he, if_pos (by rw [List.map_cons, he]; exact List.mem_cons_self), List.map_cons,
          List.map_cons, he]
      · rw [if_neg he, List.map_cons, ih, List.map_cons]
        by_cases hmem : key ∈ es.map Prod.fst
        · rw [if_pos hmem, if_pos (List.mem_cons_of_mem _ hmem)]
        · rw [if_neg hmem, if_neg (by rw [List.mem_cons, not_or]; exact ⟨Ne.symm he, hmem⟩)]
          rfl

/-- Sets the value of a key. -/
def set (m : OrderedMap κ α) (key : κ) (value : α) : OrderedMap κ α where
  entries := setEntry key value m.entries
  nodup := by
    rw [map_fst_setEntry]
    split
    · exact m.nodup
    · next h => exact List.nodup_append.mpr ⟨m.nodup, List.nodup_singleton key, by
        rintro k hk k' hk' rfl
        exact h (List.mem_singleton.mp hk' ▸ hk)⟩

theorem lookup_cons_eq (key : κ) (value : α) (es : List (κ × α)) (k : κ) :
    ((key, value) :: es).lookup k = if k = key then some value else es.lookup k := by
  by_cases hk : k = key
  · rw [if_pos hk, hk, List.lookup_cons_self]
  · rw [if_neg hk, List.lookup_cons, beq_false_of_ne hk]

theorem lookup_setEntry (key : κ) (value : α) (es : List (κ × α)) (k : κ) :
    (setEntry key value es).lookup k = if k = key then some value else es.lookup k := by
  induction es with
  | nil => exact lookup_cons_eq key value [] k
  | cons e es ih =>
      obtain ⟨key', value'⟩ := e
      by_cases he : key' = key
      · rw [setEntry, if_pos he, lookup_cons_eq, lookup_cons_eq, he]
        by_cases hk : k = key
        · rw [if_pos hk, if_pos hk]
        · rw [if_neg hk, if_neg hk, if_neg hk]
      · rw [setEntry, if_neg he, lookup_cons_eq, lookup_cons_eq, ih]
        by_cases hk : k = key'
        · rw [if_pos hk, if_pos hk, if_neg (by rw [hk]; exact he)]
        · rw [if_neg hk, if_neg hk]

/-- The value just set is the value of its key, and no other value changes. -/
theorem get?_set (m : OrderedMap κ α) (key : κ) (value : α) (k : κ) :
    (m.set key value).get? k = if k = key then some value else m.get? k :=
  lookup_setEntry key value m.entries k

theorem get?_set_self (m : OrderedMap κ α) (key : κ) (value : α) :
    (m.set key value).get? key = some value := by rw [get?_set, if_pos rfl]

theorem setEntry_setEntry (key : κ) (value value' : α) (es : List (κ × α)) :
    setEntry key value' (setEntry key value es) = setEntry key value' es := by
  induction es with
  | nil => exact if_pos rfl
  | cons e es ih =>
      by_cases he : e.1 = key
      · rw [setEntry, setEntry, if_pos he, if_pos he]
        exact if_pos rfl
      · rw [setEntry, if_neg he, setEntry, if_neg he, setEntry, if_neg he, ih]

/-- Of two writes to one key the last counts. -/
theorem set_set (m : OrderedMap κ α) (key : κ) (value value' : α) :
    (m.set key value).set key value' = m.set key value' :=
  OrderedMap.ext (setEntry_setEntry key value value' m.entries)

theorem setEntry_of_notMem {key : κ} {es : List (κ × α)} (h : key ∉ es.map Prod.fst) (value : α) :
    setEntry key value es = es ++ [(key, value)] := by
  induction es with
  | nil => rfl
  | cons e es ih =>
      rw [List.map_cons, List.mem_cons, not_or] at h
      rw [setEntry, if_neg (Ne.symm h.1), ih h.2, List.cons_append]

/-- A new key is set behind the others. -/
theorem entries_set_of_notMem {m : OrderedMap κ α} {key : κ} (h : key ∉ m.keys) (value : α) :
    (m.set key value).entries = m.entries ++ [(key, value)] := setEntry_of_notMem h value

/-- Sets one entry after another. -/
def setAll (m : OrderedMap κ α) (es : List (κ × α)) : OrderedMap κ α :=
  es.foldl (fun m e ↦ m.set e.1 e.2) m

/-- Distinct new keys are set in their order behind the others. -/
theorem entries_setAll {m : OrderedMap κ α} {es : List (κ × α)}
    (h : (m.keys ++ es.map Prod.fst).Nodup) : (m.setAll es).entries = m.entries ++ es := by
  induction es generalizing m with
  | nil => exact (List.append_nil _).symm
  | cons e es ih =>
      obtain ⟨key, value⟩ := e
      have hkey : key ∉ m.keys := by
        intro hmem
        exact (List.nodup_append.mp h).2.2 key hmem key List.mem_cons_self rfl
      have hset := entries_set_of_notMem hkey value
      have hkeys : (m.set key value).keys = m.keys ++ [key] := by
        rw [keys, hset, List.map_append]
        rfl
      have hrec := ih (m := m.set key value) (by rwa [hkeys, List.append_assoc])
      rw [hset, List.append_assoc] at hrec
      exact hrec

/-! ## What was written last -/

theorem setAll_concat (m : OrderedMap κ α) (es : List (κ × α)) (e : κ × α) :
    m.setAll (es ++ [e]) = (m.setAll es).set e.1 e.2 := by
  rw [setAll, List.foldl_append]
  rfl

/-- Of the elements written under their keys, a key has the value of the last one. -/
theorem get?_setAll_map {β : Type*} (f : β → κ) (g : β → α) (l : List β) (k : κ) :
    (empty.setAll (l.map fun b ↦ (f b, g b))).get? k = (lastWhere (fun b ↦ f b = k) l).map g := by
  induction l using List.reverseRecOn with
  | nil => rfl
  | append_singleton l b ih =>
      rw [List.map_append, List.map_singleton, setAll_concat, get?_set]
      by_cases hb : f b = k
      · have hlast := lastWhere_concat_of_pos (p := fun b ↦ f b = k) (l := l) (decide_eq_true hb)
        rw [if_pos hb.symm, hlast]
        rfl
      · have hlast := lastWhere_concat_of_neg (p := fun b ↦ f b = k) (l := l) (decide_eq_false hb)
        rw [if_neg (Ne.symm hb), ih, hlast]

theorem mem_entries_iff {m : OrderedMap κ α} {key : κ} {value : α} :
    (key, value) ∈ m.entries ↔ m.get? key = some value := by
  obtain ⟨es, hnodup⟩ := m
  rw [get?]
  induction es with
  | nil => simp
  | cons e es ih =>
      obtain ⟨key', value'⟩ := e
      rw [List.map_cons, List.nodup_cons] at hnodup
      rw [lookup_cons_eq, List.mem_cons, ih hnodup.2, Prod.mk.injEq]
      by_cases hkey : key = key'
      · have hnone : es.lookup key ≠ some value := by
          intro hsome
          refine hnodup.1 (hkey ▸ ?_)
          exact List.mem_map.mpr ⟨(key, value), (ih hnodup.2).mpr hsome, rfl⟩
        rw [if_pos hkey, Option.some.injEq]
        constructor
        · rintro (⟨-, rfl⟩ | hsome)
          · rfl
          · exact absurd hsome hnone
        · rintro rfl
          exact Or.inl ⟨hkey, rfl⟩
      · rw [if_neg hkey]
        constructor
        · rintro (⟨heq, -⟩ | hsome)
          · exact absurd heq hkey
          · exact hsome
        · exact Or.inr

end OrderedMap
