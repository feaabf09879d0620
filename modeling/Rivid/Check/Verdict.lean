import Rivid.Check.HeapOrder

/-!
# Which policies lead to a verdict

Nothing but the `allow` entry can make `analyze` throw.  `hasVerdict_iff` says
exactly when it does: when there is an `allow` entry that is no list, or when the
`table` or `column` of one of its elements has no text, which is when it is or
contains a map with a `toString` entry (`Blocked`).

The objects of a policy are ordered, so converting nested lists comes to an end.
-/

namespace Rivid.Check

/-! ## Values without a text -/

section Blocked

variable {toLength : Heap → Value → Except Thrown ℕ} {h : Heap}

/-- The value is turned into text by `Array.prototype.join`. -/
structure Joined (h : Heap) (v : Value) : Prop where
  object : v.primitiveText = none
  toString : h.lookup v (literal "toString") = .arrayMethod
  join : h.lookup v (literal "join") = .arrayMethod

/-- The value is, or contains in nested lists, a map with a `toString` entry. -/
inductive Blocked (toLength : Heap → Value → Except Thrown ℕ) (h : Heap) : Value → Prop
  | toString {v w : Value} (hobject : v.primitiveText = none)
      (hfound : h.lookup v (literal "toString") = .value w) : Blocked toLength h v
  /-- Only maps that inherit from a list have a length that can fail. -/
  | length {v : Value} {e : Thrown} (hjoined : Joined h v)
      (hlen : h.arrayLength toLength v = .error e) : Blocked toLength h v
  | element {v w : Value} {len i : ℕ} (hjoined : Joined h v)
      (hlen : h.arrayLength toLength v = .ok len) (hi : i < len)
      (hfound : h.lookup v (indexKey i) = .value w) (hw : Blocked toLength h w) :
      Blocked toLength h v

theorem Blocked.object {v : Value} (hv : Blocked toLength h v) : v.primitiveText = none := by
  cases hv with
  | toString hobject _ => exact hobject
  | length hjoined _ => exact hjoined.object
  | element hjoined _ _ _ _ => exact hjoined.object

namespace Heap

/-- The text of the element at an index: nothing where there is none. -/
def elementText (h : Heap) (textOf : Value → Except Thrown JsString) (v : Value) (i : ℕ) :
    Except Thrown JsString :=
  match h.lookup v (indexKey i) with
  | .value (.item .undefined) => pure []
  | .value w => textOf w
  | _ => pure []

theorem textOf_joined {v : Value} (hv : Joined h v) (n : ℕ) : h.textOf toLength (n + 1) v = (do
    let len ← h.arrayLength toLength v
    let parts ← (List.range len).mapM (h.elementText (h.textOf toLength n) v)
    return joinWith (literal ",") parts) := by
  rw [textOf, hv.object]
  dsimp only
  rw [hv.toString]
  dsimp only
  rw [if_pos hv.join]
  rfl

theorem textOf_joined_eq_ok_iff {v : Value} (hv : Joined h v) (n : ℕ) :
    (∃ s, h.textOf toLength (n + 1) v = .ok s) ↔ ∃ len, h.arrayLength toLength v = .ok len ∧
      ∀ i < len, ∃ s, h.elementText (h.textOf toLength n) v i = .ok s := by
  have hrange : ∀ len, (∀ i < len, ∃ s, h.elementText (h.textOf toLength n) v i = .ok s) ↔
      ∃ parts, (List.range len).mapM (h.elementText (h.textOf toLength n) v) = .ok parts := by
    intro len
    rw [exists_mapM_eq_ok_iff]
    simp only [List.mem_range]
  simp only [hrange, textOf_joined hv]
  constructor
  · rintro ⟨s, hs⟩
    obtain ⟨len, hlen, hs⟩ := bind_eq_ok_iff.mp hs
    obtain ⟨parts, hparts, -⟩ := bind_eq_ok_iff.mp hs
    exact ⟨len, hlen, parts, hparts⟩
  · rintro ⟨len, hlen, parts, hparts⟩
    exact ⟨_, by rw [hlen, ok_bind, hparts]; rfl⟩

theorem elementText_eq_ok_iff {textOf : Value → Except Thrown JsString} {v : Value} {i : ℕ}
    (hundefined : h.lookup v (indexKey i) = .value (.item .undefined) →
      ∃ s, textOf (.item .undefined) = .ok s) :
    (∃ s, h.elementText textOf v i = .ok s) ↔
      ∀ w, h.lookup v (indexKey i) = .value w → ∃ s, textOf w = .ok s := by
  rw [elementText]
  cases hfound : h.lookup v (indexKey i) with
  | value w =>
      match w with
      | .item .undefined =>
          refine ⟨fun _ w hw ↦ ?_, fun _ ↦ ⟨[], rfl⟩⟩
          cases hw
          exact hundefined hfound
      | .item (.string _) | .item (.boolean _) | .item (.object _) | .array _ =>
          refine ⟨fun hok w hw ↦ ?_, fun hall ↦ hall _ rfl⟩
          cases hw
          exact hok
  | _ => exact ⟨fun _ w hw ↦ (by cases hw), fun _ ↦ ⟨[], rfl⟩⟩

/-- A blocked value has no text, however deep it is looked at. -/
theorem textOf_ne_ok_of_blocked {v : Value} (hv : Blocked toLength h v) (n : ℕ) :
    ¬ ∃ s, h.textOf toLength n v = .ok s := by
  induction hv generalizing n with
  | @toString v w hobject hfound =>
      cases n with
      | zero => rintro ⟨s, hs⟩; cases hs
      | succ n =>
          rw [textOf, hobject]
          dsimp only
          rw [hfound]
          rintro ⟨s, hs⟩
          cases hs
  | @length v e hjoined hlen =>
      cases n with
      | zero => rintro ⟨s, hs⟩; cases hs
      | succ n =>
          rw [textOf_joined_eq_ok_iff hjoined, hlen]
          rintro ⟨len, h', -⟩
          cases h'
  | @element v w len i hjoined hlen hi hfound hw ih =>
      cases n with
      | zero => rintro ⟨s, hs⟩; cases hs
      | succ n =>
          rw [textOf_joined_eq_ok_iff hjoined]
          rintro ⟨len', hlen', hall⟩
          obtain rfl := Except.ok.inj (hlen.symm.trans hlen')
          cases n with
          | zero =>
              obtain ⟨s, hs⟩ := hall i hi
              rw [elementText, hfound] at hs
              have hobject := hw.object
              match w, hobject with
              | .item (.object _), _ | .array _, _ => cases hs
          | succ n =>
              exact ih (n + 1) ((elementText_eq_ok_iff fun _ ↦ ⟨_, rfl⟩).mp (hall i hi) w hfound)

/-- From a value to one it contains, either the objects are further behind or a list is
left. -/
theorem Ordered.exists_within_element (hh : h.Ordered) {v w : Value} {r n : ℕ}
    {key : JsString} (hv : v.Within r h.length)
    (hn : 2 * (h.length - r) + (if v.isList then 2 else 1) ≤ n + 1)
    (hw : h.lookup v key = .value w) : ∃ r', w.Within r' h.length ∧
      2 * (h.length - r') + (if w.isList then 2 else 1) ≤ n := by
  match v, hv with
  | .array items, hv =>
      obtain ⟨i, hi, rfl⟩ := find_array hw
      refine ⟨r, hv i hi, ?_⟩
      simp only [Value.isList, if_true, Bool.false_eq_true, if_false] at hn ⊢
      omega
  | .item (.object r'), hv =>
      have hlt : @LT.lt ℕ _ r r' := hv.1
      have hlt' : @LT.lt ℕ _ r' h.length := hv.2
      refine ⟨r', hh.find_within (Or.inr ⟨rfl, Nat.zero_lt_of_lt hlt⟩) hw, ?_⟩
      simp only [Value.isList, Bool.false_eq_true, if_false] at hn
      split <;> omega
  | .item .undefined, _ | .item (.string _), _ | .item (.boolean _), _ => cases hw

/-- A value that is not blocked has a text, and the depth suffices. -/
theorem Ordered.exists_textOf (hh : h.Ordered) {v : Value} {r n : ℕ} (hv : v.Within r h.length)
    (hn : 2 * (h.length - r) + (if v.isList then 2 else 1) ≤ n) (hfree : ¬ Blocked toLength h v) :
    ∃ s, h.textOf toLength n v = .ok s := by
  induction n generalizing v r with
  | zero => split at hn <;> omega
  | succ n ih =>
      cases hobject : v.primitiveText with
      | some s => exact ⟨s, by rw [textOf, hobject]⟩
      | none =>
          rcases hh.find_toString hv hobject (show h.length - r < h.length + 1 by omega) with
            ⟨w, hfound⟩ | hfound | hfound
          · exact absurd (Blocked.toString hobject hfound) hfree
          · by_cases hjoin : h.lookup v (literal "join") = .arrayMethod
            · have hjoined : Joined h v := ⟨hobject, hfound, hjoin⟩
              rw [textOf_joined_eq_ok_iff hjoined]
              cases hlen : h.arrayLength toLength v with
              | error e => exact absurd (Blocked.length hjoined hlen) hfree
              | ok len =>
                  refine ⟨len, rfl, fun i hi ↦ ?_⟩
                  have helement : ∀ w, h.lookup v (indexKey i) = .value w →
                      ∃ s, h.textOf toLength n w = .ok s := by
                    intro w hw
                    have hfree' : ¬ Blocked toLength h w := fun hb ↦
                      hfree (Blocked.element hjoined hlen hi hw hb)
                    obtain ⟨r', hw', hn'⟩ := hh.exists_within_element hv hn hw
                    exact ih hw' hn' hfree'
                  exact (elementText_eq_ok_iff (helement _)).mpr helement
            · refine ⟨literal "[object Object]", ?_⟩
              rw [textOf, hobject]
              dsimp only
              rw [lookup, hfound]
              exact if_neg hjoin
          · refine ⟨literal "[object Object]", ?_⟩
            rw [textOf, hobject]
            dsimp only
            rw [lookup, hfound]

theorem Ordered.text_eq_ok_iff (hh : h.Ordered) (toLength : Heap → Value → Except Thrown ℕ)
    {v : Value} (hv : v.Within 0 h.length) :
    (∃ s, h.text toLength v = .ok s) ↔ ¬ Blocked toLength h v := by
  refine ⟨fun hs hb ↦ textOf_ne_ok_of_blocked hb _ hs, fun hfree ↦ hh.exists_textOf hv ?_ hfree⟩
  split <;> omega

end Heap

end Blocked

/-! ## The verdict -/

section Verdict

variable (toLength : Heap → Value → Except Thrown ℕ) (h : Heap)

/-- An element of `allow` is there, and its `table` and `column` have a text. -/
structure EntryReadable (a : Value) : Prop where
  ne_undefined : a ≠ .item .undefined
  table : ¬ Blocked toLength h (h.read a (literal "table"))
  column : ¬ Blocked toLength h (h.read a (literal "column"))

/-- What `(policy.allow ?? []).map` needs of `allow`: a list, or a map that inherits from
one and is not too long for a new one, of readable elements. -/
structure ListReadable (allow : Value) : Prop where
  map : h.lookup allow (literal "map") = .arrayMethod
  elements : ∃ len, h.arrayLength toLength allow = .ok len ∧ (allow.isList ∨ len < 2 ^ 32) ∧
    ∀ i < len, ∀ a, h.lookup allow (indexKey i) = .value a → EntryReadable toLength h a

/-- The policy has no `allow` entry or a readable one. -/
def AllowReadable : Prop :=
  h.read h.policy (literal "allow") ≠ .item .undefined →
    ListReadable toLength h (h.read h.policy (literal "allow"))

variable {toLength h}

namespace Heap

theorem Ordered.read_within (hh : h.Ordered) {v : Value} (hv : v.Within 0 h.length)
    (key : JsString) : (h.read v key).Within 0 h.length := by
  rw [read]
  split
  · next hfound => exact hh.find_within (Or.inl hv) hfound
  · trivial

theorem Ordered.policy_within (hh : h.Ordered) : h.policy.Within 0 h.length := by
  have hroot : (Value.item (.object root)).Within 0 h.length := ⟨Nat.zero_lt_one, hh.root_lt⟩
  rw [policy]
  split
  · exact hroot
  · exact hh.read_within hroot _

theorem Ordered.entryKey_eq_ok_iff (hh : h.Ordered) (toLength : Heap → Value → Except Thrown ℕ)
    {a : Value} (ha : a.Within 0 h.length) :
    (∃ s, h.entryKey toLength a = .ok s) ↔ EntryReadable toLength h a := by
  have htext := fun k ↦ hh.text_eq_ok_iff toLength (hh.read_within ha k)
  have htable := htext (literal "table")
  have hcolumn := htext (literal "column")
  rw [entryKey]
  constructor
  · rintro ⟨s, hs⟩
    split at hs
    · cases hs
    · next hne =>
        obtain ⟨table, ht, hs⟩ := bind_eq_ok_iff.mp hs
        obtain ⟨column, hc, -⟩ := bind_eq_ok_iff.mp hs
        exact ⟨hne, htable.mp ⟨table, ht⟩, hcolumn.mp ⟨column, hc⟩⟩
  · intro ha
    obtain ⟨table, ht⟩ := htable.mpr ha.table
    obtain ⟨column, hc⟩ := hcolumn.mpr ha.column
    exact ⟨key table column, by rw [if_neg ha.ne_undefined, ht, ok_bind, hc]; rfl⟩

/-- The element of `allow` at an index, as a text of the set. -/
def elementKey (toLength : Heap → Value → Except Thrown ℕ) (h : Heap) (allow : Value) (i : ℕ) :
    Except Thrown (Option JsString) :=
  match h.lookup allow (indexKey i) with
  | .value a => (h.entryKey toLength a).map some
  | _ => pure none

theorem Ordered.elementKey_eq_ok_iff (hh : h.Ordered) {allow : Value}
    (hallow : allow.Within 0 h.length) (i : ℕ) :
    (∃ k, h.elementKey toLength allow i = .ok k) ↔
      ∀ a, h.lookup allow (indexKey i) = .value a → EntryReadable toLength h a := by
  rw [elementKey]
  cases hfound : h.lookup allow (indexKey i) with
  | value a =>
      have hentry := hh.entryKey_eq_ok_iff toLength (hh.find_within (Or.inl hallow) hfound)
      constructor
      · rintro ⟨k, hk⟩ a' ha'
        cases ha'
        cases hkey : h.entryKey toLength a with
        | ok s => exact hentry.mp ⟨s, hkey⟩
        | error e =>
            dsimp only at hk
            rw [hkey] at hk
            cases hk
      · intro hall
        obtain ⟨s, hs⟩ := hentry.mpr (hall a rfl)
        exact ⟨some s, by dsimp only; rw [hs]; rfl⟩
  | _ => exact ⟨fun _ a ha ↦ (by cases ha), fun _ ↦ ⟨none, rfl⟩⟩

theorem allowKeys_eq {allow : Value} (hdefined : allow ≠ .item .undefined)
    (hmap : h.lookup allow (literal "map") = .arrayMethod) : h.allowKeys toLength allow = (do
      let len ← h.arrayLength toLength allow
      if !allow.isList && len ≥ 2 ^ 32 then .error .rangeError
      else do
        let keys ← (List.range len).mapM (h.elementKey toLength allow)
        return keys.reduceOption) := by
  rw [allowKeys, if_neg hdefined, if_neg (not_not_intro hmap)]
  rfl

theorem Ordered.allowKeys_eq_ok_iff (hh : h.Ordered) {allow : Value}
    (hallow : allow.Within 0 h.length) : (∃ keys, h.allowKeys toLength allow = .ok keys) ↔
      (allow ≠ .item .undefined → ListReadable toLength h allow) := by
  by_cases hdefined : allow = .item .undefined
  · exact ⟨fun _ hne ↦ absurd hdefined hne, fun _ ↦ ⟨[], if_pos hdefined⟩⟩
  by_cases hmap : h.lookup allow (literal "map") = .arrayMethod
  · rw [allowKeys_eq hdefined hmap]
    have helements : ∀ len,
        (∃ keys, (List.range len).mapM (h.elementKey toLength allow) = .ok keys) ↔
        ∀ i < len, ∀ a, h.lookup allow (indexKey i) = .value a → EntryReadable toLength h a := by
      intro len
      simp only [exists_mapM_eq_ok_iff, List.mem_range, hh.elementKey_eq_ok_iff hallow]
    have hguarded : ∀ len, ¬ (!allow.isList && len ≥ 2 ^ 32) = true ↔
        allow.isList ∨ len < 2 ^ 32 := by
      intro len
      cases allow.isList <;> simp
    constructor
    · rintro ⟨keys, hkeys⟩ -
      obtain ⟨len, hlen, hkeys⟩ := bind_eq_ok_iff.mp hkeys
      split at hkeys
      · cases hkeys
      · next hguard =>
          obtain ⟨keys', hkeys', -⟩ := bind_eq_ok_iff.mp hkeys
          refine ⟨hmap, len, hlen, ?_, (helements len).mp ⟨keys', hkeys'⟩⟩
          exact (hguarded len).mp hguard
    · intro hlist
      obtain ⟨-, len, hlen, hguard, hall⟩ := hlist hdefined
      obtain ⟨keys, hkeys⟩ := (helements len).mpr hall
      refine ⟨keys.reduceOption, ?_⟩
      rw [hlen, ok_bind, if_neg ((hguarded len).mpr hguard), hkeys]
      rfl
  · refine ⟨?_, fun hlist ↦ absurd (hlist hdefined).map hmap⟩
    rintro ⟨keys, hkeys⟩
    rw [allowKeys, if_neg hdefined, if_pos hmap] at hkeys
    cases hkeys

end Heap

/-- The policy leads to a verdict exactly when its `allow` entry, if any, is a list of
elements whose `table` and `column` have a text. -/
theorem hasVerdict_iff (toLowerCase : JsString → JsString)
    (toLength : Heap → Value → Except Thrown ℕ) (text : JsString) (cols : List Column) :
    (∃ report, check toLowerCase toLength text cols = .ok report) ↔
      AllowReadable toLength (parsePolicyYaml text) := by
  have hh := ordered_parsePolicyYaml text
  have hallow := hh.read_within hh.policy_within (literal "allow")
  rw [AllowReadable, ← hh.allowKeys_eq_ok_iff hallow]
  constructor
  · rintro ⟨report, hreport⟩
    obtain ⟨config, hconfig, -⟩ := bind_eq_ok_iff.mp hreport
    obtain ⟨allow, hkeys, -⟩ := bind_eq_ok_iff.mp hconfig
    exact ⟨allow, hkeys⟩
  · rintro ⟨allow, hkeys⟩
    rw [check, Heap.config, hkeys]
    exact ⟨_, rfl⟩

/-- `allow: all` has no verdict. -/
theorem no_verdict_of_scalar_allow : ¬ ∃ report,
    check (fun s ↦ s) (fun _ _ ↦ .ok 0) (literal "rivid:\n  allow: all") [] = .ok report := by
  rintro ⟨report, h⟩
  have hthrow : check (fun s ↦ s) (fun _ _ ↦ .ok 0) (literal "rivid:\n  allow: all") [] =
      .error .typeError := rfl
  rw [hthrow] at h
  cases h

end Verdict

end Rivid.Check
