import Rivid.Check.Load

/-!
# The order of the objects of a policy

The parser makes every object after the ones that refer to it (`Heap.Ordered`): each line of a
policy keeps this order.  So no object is its own prototype or an entry of its own, and reading
along the prototypes comes to an end at a built-in one or at nothing.
-/

namespace Rivid.Check

/-! ## Objects are made after what refers to them -/

/-- The object an item is, if it is one, stands behind `r` in a heap of length `n`. -/
def Item.Within (r n : ℕ) : Item → Prop
  | .object r' => r < r' ∧ r' < n
  | _ => True

def Value.Within (r n : ℕ) : Value → Prop
  | .item i => i.Within r n
  | .array items => ∀ i ∈ items, i.Within r n

structure Object.Within (o : Object) (r n : ℕ) : Prop where
  properties : ∀ key v, o.properties.get? key = some v → v.Within r n
  prototype : o.prototype = .item (.object objectPrototype) ∨
    o.prototype.primitiveText = none ∧ o.prototype.Within r n

/-- Whatever an object refers to stands behind it, or is `Object.prototype`, to
which nothing is written. -/
structure Heap.Ordered (h : Heap) : Prop where
  root_lt : root < h.length
  objectPrototype : (h.object objectPrototype).properties = OrderedMap.empty
  within : ∀ r, 0 < r → (h.object r).Within r h.length

section Within

variable {r r' n n' : ℕ}

theorem Item.Within.mono {i : Item} (h : i.Within r n) (hr : r' ≤ r) (hn : n ≤ n') :
    i.Within r' n' := by
  cases i with
  | object r'' => exact ⟨lt_of_le_of_lt hr h.1, lt_of_lt_of_le h.2 hn⟩
  | _ => trivial

theorem Value.Within.mono {v : Value} (h : v.Within r n) (hr : r' ≤ r) (hn : n ≤ n') :
    v.Within r' n' := by
  cases v with
  | item i => exact Item.Within.mono h hr hn
  | array items => exact fun i hi ↦ (h i hi).mono hr hn

theorem Object.Within.mono {o : Object} (h : o.Within r n) (hn : n ≤ n') : o.Within r n' where
  properties key v hv := (h.properties key v hv).mono le_rfl hn
  prototype := h.prototype.imp_right fun hp ↦ ⟨hp.1, hp.2.mono le_rfl hn⟩

theorem Object.within_new : Object.new.Within r n where
  properties _ _ h := by cases h
  prototype := Or.inl rfl

theorem Object.Within.set {o : Object} (h : o.Within r n) (key : JsString) {v : Value}
    (hv : v.Within r n) : (o.set key v).Within r n := by
  by_cases hkey : key = proto
  · match v, hv with
    | .item (.object _), hv =>
        rw [Object.set, if_pos hkey]
        exact ⟨h.properties, Or.inr ⟨rfl, hv⟩⟩
    | .array _, hv =>
        rw [Object.set, if_pos hkey]
        exact ⟨h.properties, Or.inr ⟨rfl, hv⟩⟩
    | .item .undefined, _ | .item (.string _), _ | .item (.boolean _), _ =>
        change (if key = proto then o else _ : Object).Within r n
        rw [if_pos hkey]
        exact h
  · have hset : o.set key v = { o with properties := o.properties.set key v } := if_neg hkey
    rw [hset]
    refine ⟨fun k w hw ↦ ?_, h.prototype⟩
    rw [OrderedMap.get?_set] at hw
    split at hw
    · obtain rfl := Option.some.inj hw
      exact hv
    · exact h.properties k w hw

theorem coerce_within (v : JsString) : (coerce v).Within r n := by
  rw [coerce]
  split
  · trivial
  · split <;> trivial

end Within

namespace Heap

variable {h : Heap}

namespace Ordered

/-- A new object that refers to nothing made so far. -/
theorem concat (hh : h.Ordered) {o : Object} (ho : ∀ r n, o.Within r n) :
    Ordered (h ++ [o]) := by
  have hlen : (h ++ [o] : Heap).length = h.length + 1 := by simp
  have hroot : 1 < h.length := hh.root_lt
  refine ⟨by rw [hlen]; exact Nat.lt_succ_of_lt hh.root_lt, ?_, fun r hr ↦ ?_⟩
  · rw [object_concat_of_lt h o
      (show Check.objectPrototype < h.length from Nat.zero_lt_of_lt hroot)]
    exact hh.objectPrototype
  · rw [hlen]
    rcases Nat.lt_trichotomy r h.length with hlt | rfl | hlt
    · rw [object_concat_of_lt _ _ hlt]
      exact (hh.within r hr).mono (Nat.le_succ _)
    · rw [object, List.getD_append_right _ _ _ _ le_rfl, Nat.sub_self]
      exact ho _ _
    · rw [object, List.getD_eq_default _ _ (hlen.trans_le hlt)]
      exact Object.within_new

theorem set (hh : h.Ordered) {obj : Ref} (hpos : 0 < obj) (hlt : obj < h.length) (key : JsString)
    {v : Value} (hv : v.Within obj h.length) : (h.set obj key v).Ordered := by
  refine ⟨by rw [length_set]; exact hh.root_lt, ?_, fun r hr ↦ ?_⟩
  · rw [object_set_of_ne h key v (show Check.objectPrototype ≠ obj from Nat.ne_of_lt hpos)]
    exact hh.objectPrototype
  · rw [length_set]
    by_cases heq : r = obj
    · subst heq
      rw [object_set_self h key v hlt]
      exact (hh.within r hr).set key hv
    · rw [object_set_of_ne h key v heq]
      exact hh.within r hr

/-- What a list item is put behind. -/
theorem elements_within (hh : h.Ordered) {obj : Ref} (hpos : 0 < obj) (key : JsString) :
    ∀ i ∈ h.elements (h.get obj key), i.Within obj h.length := by
  have helements : ∀ v : Value, v.Within obj h.length →
      ∀ i ∈ h.elements v, i.Within obj h.length := by
    rintro (i | items) hv j hj
    · rw [elements] at hj
      split at hj
      · cases hj
      · obtain rfl := List.mem_singleton.mp hj
        exact hv
    · exact hv j hj
  have hobj := hh.within obj hpos
  rw [get]
  split
  · rcases hobj.prototype with hproto | hproto
    · rw [hproto, elements, isEmptyObject, hh.objectPrototype]
      exact fun i hi ↦ absurd hi List.not_mem_nil
    · exact helements _ hproto.2
  · cases hget : (h.object obj).properties.get? key with
    | none => exact helements _ trivial
    | some v => exact helements v (hobj.properties key v hget)

end Ordered

end Heap

/-! ## Every line keeps the order -/

namespace State

/-- The heap is ordered and the frames are about its objects. -/
structure Ordered (s : State) : Prop where
  heap : s.heap.Ordered
  frames : ∀ f ∈ s.top :: s.below, 0 < f.obj ∧ f.obj < s.heap.length

variable {s : State}

theorem ordered_init : init.Ordered where
  heap := by
    refine ⟨by decide, rfl, ?_⟩
    rintro (_ | _ | r) hr
    · exact absurd hr (Nat.lt_irrefl 0)
    · exact Object.within_new
    · exact Object.within_new
  frames := by
    intro f hf
    obtain rfl := List.mem_singleton.mp hf
    exact ⟨by decide, by decide⟩

theorem popFrames_subset (n : ℤ) (top : Frame) (below : List Frame) :
    ∀ f ∈ (popFrames n top below).1 :: (popFrames n top below).2, f ∈ top :: below := by
  induction below generalizing top with
  | nil => exact fun f hf ↦ hf
  | cons g fs ih =>
      intro f hf
      rw [popFrames] at hf
      split at hf
      · exact List.mem_cons_of_mem top (ih g f hf)
      · exact hf

theorem Ordered.pop (h : s.Ordered) (n : ℤ) : (s.pop n).Ordered where
  heap := h.heap
  frames f hf := h.frames f (popFrames_subset n s.top s.below f hf)

theorem holder_mem {obj : Ref} {key : JsString} (h : s.holder = some (obj, key)) :
    ∃ f ∈ s.top :: s.below, f.obj = obj := by
  obtain ⟨f, hf, hkey⟩ := List.exists_of_findSome?_eq_some h
  obtain ⟨k, -, heq⟩ := Option.map_eq_some_iff.mp hkey
  exact ⟨f, hf, congrArg Prod.fst heq⟩

theorem Ordered.listItem (h : s.Ordered) (n : ℤ) (text : JsString) :
    (s.listItem n text).Ordered := by
  rw [State.listItem]
  cases hholder : s.holder with
  | none => exact h
  | some objKey =>
      obtain ⟨obj, key⟩ := objKey
      obtain ⟨f, hf, rfl⟩ := holder_mem hholder
      obtain ⟨hpos, hlt⟩ := h.frames f hf
      have hitems := h.heap.elements_within hpos key
      cases matchKeyValue text with
      | none =>
          refine ⟨h.heap.set hpos hlt key fun i hi ↦ ?_, fun g hg ↦ ?_⟩
          · rcases List.mem_append.mp hi with hi | hi
            · exact hitems i hi
            · obtain rfl := List.mem_singleton.mp hi
              exact coerce_within text
          · exact (Heap.length_set s.heap key _).symm ▸ h.frames g hg
      | some kv =>
          obtain ⟨k, v⟩ := kv
          have hlen : (s.heap ++ [Object.new.set k (.item (coerce v))]).length =
              s.heap.length + 1 := by
            simp
          have hheap : Heap.Ordered (s.heap ++ [Object.new.set k (.item (coerce v))]) :=
            h.heap.concat fun r n ↦ Object.within_new.set k (coerce_within v)
          refine ⟨hheap.set hpos (hlen ▸ Nat.lt_succ_of_lt hlt) key fun i hi ↦ ?_, fun g hg ↦ ?_⟩
          · rw [hlen]
            rcases List.mem_append.mp hi with hi | hi
            · exact (hitems i hi).mono le_rfl (Nat.le_succ _)
            · obtain rfl := List.mem_singleton.mp hi
              exact ⟨hlt, Nat.lt_succ_self _⟩
          · dsimp only
            rw [Heap.length_set, hlen]
            rcases List.mem_cons.mp hg with rfl | hg
            · exact ⟨Nat.zero_lt_of_lt hlt, Nat.lt_succ_self _⟩
            · exact ⟨(h.frames g hg).1, Nat.lt_succ_of_lt (h.frames g hg).2⟩

theorem Ordered.keyValue (h : s.Ordered) (n : ℤ) (key value : JsString) :
    (s.keyValue n key value).Ordered := by
  obtain ⟨hpos, hlt⟩ := h.frames s.top List.mem_cons_self
  rw [State.keyValue]
  dsimp only
  split
  · have hlen : (s.heap ++ [Object.new]).length = s.heap.length + 1 := by simp
    have hheap : Heap.Ordered (s.heap ++ [Object.new]) := h.heap.concat fun _ _ ↦ Object.within_new
    refine ⟨hheap.set hpos (hlen ▸ Nat.lt_succ_of_lt hlt) key ?_, fun g hg ↦ ?_⟩
    · rw [hlen]
      exact ⟨hlt, Nat.lt_succ_self _⟩
    · dsimp only
      rw [Heap.length_set, hlen]
      rcases List.mem_cons.mp hg with rfl | hg
      · exact ⟨Nat.zero_lt_of_lt hlt, Nat.lt_succ_self _⟩
      · rcases List.mem_cons.mp hg with rfl | hg
        · exact ⟨hpos, Nat.lt_succ_of_lt hlt⟩
        · have hf := h.frames g (List.mem_cons_of_mem _ hg)
          exact ⟨hf.1, Nat.lt_succ_of_lt hf.2⟩
  · refine ⟨h.heap.set hpos hlt key (coerce_within value), fun g hg ↦ ?_⟩
    dsimp only
    rw [Heap.length_set]
    rcases List.mem_cons.mp hg with rfl | hg
    · exact ⟨hpos, hlt⟩
    · exact h.frames g (List.mem_cons_of_mem _ hg)

theorem Ordered.step (h : s.Ordered) (rawLine : JsString) : (s.step rawLine).Ordered := by
  rw [State.step]
  dsimp only
  split
  · exact h
  · rw [trimmedLine]
    split
    · exact (h.pop _).listItem _ _
    · split
      · exact (h.pop _).keyValue _ _ _
      · exact h.pop _

end State

/-- What the parser returns is ordered. -/
theorem ordered_parsePolicyYaml (text : JsString) : (parsePolicyYaml text).Ordered := by
  have hrun : ∀ (lines : List JsString) (s : State), s.Ordered →
      (lines.foldl State.step s).Ordered := by
    intro lines
    induction lines with
    | nil => exact fun s hs ↦ hs
    | cons line lines ih => exact fun s hs ↦ ih _ (hs.step line)
  exact (hrun _ _ State.ordered_init).heap

/-! ## Reading comes to an end -/

namespace Heap

variable {h : Heap} {key : JsString} {n r : ℕ} {v w : Value}

theorem find_objectPrototype_ne (w : Value) :
    h.find key n (.item (.object objectPrototype)) ≠ .value w := by
  cases n with
  | zero => exact Found.noConfusion
  | succ n =>
      rw [find, if_pos rfl]
      split <;> exact Found.noConfusion

theorem find_array {items : List Item} (hf : h.find key n (.array items) = .value w) :
    ∃ i ∈ items, w = .item i := by
  cases n with
  | zero => cases hf
  | succ n =>
      rw [find] at hf
      split at hf
      · cases hf
      · split at hf
        · next e he =>
            cases hf
            exact ⟨e.1, (List.mem_zipIdx' (List.mem_of_find?_eq_some he)).2 ▸ List.getElem_mem _,
              rfl⟩
        · split at hf <;> cases hf

/-- What is read from an object stands behind it. -/
theorem Ordered.find_within (hh : h.Ordered)
    (hv : v.Within r h.length ∨ v = .item (.object r) ∧ 0 < r) (hf : h.find key n v = .value w) :
    w.Within r h.length := by
  induction n generalizing v with
  | zero => cases hf
  | succ n ih =>
      match v, hv with
      | .array items, hv =>
          obtain ⟨i, hi, rfl⟩ := find_array hf
          exact (hv.resolve_right fun heq ↦ Value.noConfusion heq.1) i hi
      | .item (.object r'), hv =>
          have hle : r ≤ r' ∧ 0 < r' := by
            rcases hv with hv | ⟨heq, hpos⟩
            · exact ⟨hv.1.le, Nat.zero_lt_of_lt hv.1⟩
            · cases heq
              exact ⟨le_rfl, hpos⟩
          have hobj := hh.within r' hle.2
          rw [find] at hf
          split at hf
          · split at hf <;> cases hf
          · split at hf
            · next u hu =>
                cases hf
                exact (hobj.properties key _ hu).mono hle.1 le_rfl
            · rcases hobj.prototype with hproto | hproto
              · rw [hproto] at hf
                exact absurd hf (find_objectPrototype_ne w)
              · exact ih (Or.inl (hproto.2.mono hle.1 le_rfl)) hf
      | .item .undefined, _ | .item (.string _), _ | .item (.boolean _), _ => cases hf

/-- Every object has a `toString`: one of the policy or a built-in one. -/
theorem Ordered.find_toString (hh : h.Ordered) (hv : v.Within r h.length)
    (hobject : v.primitiveText = none) (hn : h.length - r < n) :
    (∃ w, h.find (literal "toString") n v = .value w) ∨
      h.find (literal "toString") n v = .arrayMethod ∨
      h.find (literal "toString") n v = .objectMethod := by
  induction n generalizing v r with
  | zero => exact absurd hn (Nat.not_lt_zero _)
  | succ n ih =>
      match v, hv, hobject with
      | .array items, _, _ =>
          rw [find, if_neg (by decide)]
          split
          · exact Or.inl ⟨_, rfl⟩
          · rw [if_pos (by decide)]
            exact Or.inr (Or.inl rfl)
      | .item (.object r'), hv, _ =>
          have hlt : @LT.lt ℕ _ r r' := hv.1
          have hlt' : @LT.lt ℕ _ r' h.length := hv.2
          rw [find, if_neg
            (show r' ≠ Check.objectPrototype from Nat.ne_of_gt (Nat.zero_lt_of_lt hlt))]
          split
          · exact Or.inl ⟨_, rfl⟩
          · rcases (hh.within r' (Nat.zero_lt_of_lt hlt)).prototype with hproto | ⟨hnone, hproto⟩
            · obtain ⟨m, rfl⟩ : ∃ m, n = m + 1 := Nat.exists_eq_succ_of_ne_zero (by omega)
              rw [hproto, find, if_pos rfl, if_pos rfl]
              exact Or.inr (Or.inr rfl)
            · exact ih hproto hnone (by omega)

end Heap

end Rivid.Check
