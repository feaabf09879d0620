import Rivid.Check.Text
import Rivid.Lib.OrderedMap

/-!
# The policy parser

`parsePolicyYaml` reads a policy file line by line.  It keeps a stack of frames,
each an object with the indentation it was opened at and the key last written to
it, and builds the policy out of objects that several places refer to: a bare
`key:` makes an object that is both the value of the key and the object of a new
frame, and a list under the key replaces the value but not the frame.

So objects live in a heap.  An array is only ever referred to by the property that
holds it, and is never itself in an array; arrays are therefore plain values and
their elements an `Item`.
-/

namespace Rivid.Check

/-! ## Objects -/

/-- Where an object stands in the heap. -/
abbrev Ref := ℕ

/-- A value that is no array. -/
inductive Item where
  | undefined
  | string (s : JsString)
  | boolean (b : Bool)
  | object (r : Ref)
deriving DecidableEq, Repr

inductive Value where
  | item (i : Item)
  | array (items : List Item)
deriving DecidableEq, Repr

/-- An object: its own properties and its prototype. -/
structure Object where
  properties : OrderedMap JsString Value
  prototype : Value

abbrev Heap := List Object

/-- `Object.prototype`, the first object of every heap. -/
def objectPrototype : Ref := 0

/-- The object the parser returns, the second one. -/
def root : Ref := 1

/-- `'__proto__'`: assigning this key sets the prototype instead of a property. -/
def proto : JsString := JsString.ofAscii "__proto__"

namespace Object

/-- `{}`. -/
def new : Object := ⟨OrderedMap.empty, .item (.object objectPrototype)⟩

/-- `obj[key] = value`.  Only objects can be prototypes; other values are ignored. -/
def set (o : Object) (key : JsString) (value : Value) : Object :=
  if key = proto then
    match value with
    | .item (.object _) | .array _ => { o with prototype := value }
    | _ => o
  else { o with properties := o.properties.set key value }

end Object

namespace Heap

/-- The object at `r`. -/
def object (h : Heap) (r : Ref) : Object := h.getD r Object.new

/-- `obj[key]`, for a key that was assigned to `obj`: then it is one of its own
properties, or the prototype. -/
def get (h : Heap) (r : Ref) (key : JsString) : Value :=
  if key = proto then (h.object r).prototype
  else ((h.object r).properties.get? key).getD (.item .undefined)

/-- `obj[key] = value`. -/
def set (h : Heap) (r : Ref) (key : JsString) (value : Value) : Heap :=
  h.modify r fun o ↦ o.set key value

/-- `v && typeof v === 'object' && Object.keys(v).length === 0`. -/
def isEmptyObject (h : Heap) : Item → Bool
  | .object r => (h.object r).properties.isEmpty
  | _ => false

/-- The elements of what a list is put under: an array as it is, the placeholder of a
bare `key:` as no element, and any other value as the first. -/
def elements (h : Heap) : Value → List Item
  | .array items => items
  | .item i => if h.isEmptyObject i then [] else [i]

section Set

variable (h : Heap) {r obj : Ref} (key : JsString) (v : Value)

theorem length_set : (h.set obj key v).length = h.length := List.length_modify _ _ _

theorem object_set_self (hobj : obj < h.length) :
    (h.set obj key v).object obj = (h.object obj).set key v := by
  rw [object, object, set, List.getD_eq_getElem?_getD, List.getElem?_modify,
    List.getElem?_eq_getElem hobj, List.getD_eq_getElem _ _ hobj]
  simp only [if_true]
  rfl

theorem object_set_of_ne (hr : r ≠ obj) : (h.set obj key v).object r = h.object r := by
  rw [object, object, set, List.getD_eq_getElem?_getD, List.getElem?_modify,
    List.getD_eq_getElem?_getD]
  simp only [if_neg hr.symm, Option.map_eq_map, Option.map_id']

theorem object_concat_of_lt (o : Object) (hr : r < h.length) :
    (h ++ [o] : Heap).object r = h.object r := List.getD_append _ _ _ _ hr

end Set

end Heap

/-- What a property is after an assignment to the object. -/
theorem Object.get?_set {key : JsString} (hkey : key ≠ proto) (o : Object) (k : JsString)
    (v : Value) : (o.set k v).properties.get? key =
      if key = k then some v else o.properties.get? key := by
  by_cases hk : k = proto
  · have hset : (o.set k v).properties = o.properties := by
      match v with
      | .item (.object _) | .array _ => rw [Object.set, if_pos hk]
      | .item .undefined | .item (.string _) | .item (.boolean _) =>
          change (if k = proto then o else _ : Object).properties = o.properties
          rw [if_pos hk]
    rw [hset, if_neg fun heq ↦ hkey (heq.trans hk)]
  · have hset : o.set k v = { o with properties := o.properties.set k v } := if_neg hk
    rw [hset, OrderedMap.get?_set]

/-- `coerce`. -/
def coerce (v : JsString) : Item :=
  let s := stripQuotes (trim v)
  if s = JsString.ofAscii "true" then .boolean true
  else if s = JsString.ofAscii "false" then .boolean false
  else .string s

/-! ## The stack -/

/-- A frame of the stack: an object, the indentation it was opened at, and the key
last written to it. -/
structure Frame where
  indent : ℤ
  obj : Ref
  lastKey : Option JsString
deriving DecidableEq, Repr

/-- The parser between two lines.  The stack always has a frame. -/
structure State where
  heap : Heap
  top : Frame
  below : List Frame

namespace State

def init : State where
  heap := [⟨OrderedMap.empty, .item .undefined⟩, Object.new]
  top := ⟨-1, root, none⟩
  below := []

/-- `while (stack.length > 1 && indent <= stack.at(-1).indent) stack.pop()`. -/
def popFrames (indent : ℤ) : Frame → List Frame → Frame × List Frame
  | top, [] => (top, [])
  | top, f :: fs => if indent ≤ top.indent then popFrames indent f fs else (top, f :: fs)

def pop (s : State) (indent : ℤ) : State :=
  { s with
    top := (popFrames indent s.top s.below).1
    below := (popFrames indent s.top s.below).2 }

/-- The frame a list item belongs to: the topmost one with a last key. -/
def holder (s : State) : Option (Ref × JsString) :=
  (s.top :: s.below).findSome? fun f ↦ f.lastKey.map fun key ↦ (f.obj, key)

/-- A list item with the given text. -/
def listItem (s : State) (indent : ℤ) (text : JsString) : State :=
  match s.holder with
  | none => s
  | some (obj, key) =>
      let items := s.heap.elements (s.heap.get obj key)
      match matchKeyValue text with
      | some (k, v) =>
          let item := s.heap.length
          let heap := s.heap ++ [Object.new.set k (.item (coerce v))]
          { heap := heap.set obj key (.array (items ++ [.object item]))
            top := ⟨indent + 2, item, none⟩
            below := s.top :: s.below }
      | none => { s with heap := s.heap.set obj key (.array (items ++ [coerce text])) }

/-- A line `key: value`, or `key:` where the value is empty. -/
def keyValue (s : State) (indent : ℤ) (key value : JsString) : State :=
  let parent := s.top.obj
  let top := { s.top with lastKey := some key }
  if value = [] then
    let child := s.heap.length
    { heap := (s.heap ++ [Object.new]).set parent key (.item (.object child))
      top := ⟨indent, child, none⟩
      below := top :: s.below }
  else
    { heap := s.heap.set parent key (.item (coerce value)), top := top, below := s.below }

/-- A trimmed line with the given indentation, after the frames have been popped. -/
def trimmedLine (s : State) (indent : ℤ) (line : JsString) : State :=
  match matchList line with
  | some text => s.listItem indent text
  | none =>
      match matchKeyValue line with
      | some (key, value) => s.keyValue indent key value
      | none => s

/-- One line of the file. -/
def step (s : State) (rawLine : JsString) : State :=
  let line := trim rawLine
  if line = [] ∨ line.head? = some hash then s
  else
    let indent : ℤ := rawLine.length - (trimStart rawLine).length
    (s.pop indent).trimmedLine indent line

end State

/-- Parse a minimal YAML subset: nested maps, scalar lists, inline strings.  The result
is the heap with the parsed object at `root`. -/
def parsePolicyYaml (text : JsString) : Heap := ((splitLines text).foldl State.step State.init).heap

/-! ## What the result looks like -/

/-- A value with everything it refers to.  The properties of an object stand in the
order in which they were first written. -/
inductive Tree where
  | undefined
  | string (s : JsString)
  | boolean (b : Bool)
  | object (properties : List (JsString × Tree))
  | array (items : List Tree)

/-- The tree of a value, given the trees of the items. -/
def Value.tree (itemTree : Item → Tree) : Value → Tree
  | .item i => itemTree i
  | .array items => .array (items.map itemTree)

namespace Heap

/-- The tree below an item, down to a depth. -/
def itemTree (h : Heap) : ℕ → Item → Tree
  | _, .undefined => .undefined
  | _, .string s => .string s
  | _, .boolean b => .boolean b
  | 0, .object _ => .undefined
  | n + 1, .object r =>
      .object ((h.object r).properties.entries.map fun e ↦ (e.1, e.2.tree (h.itemTree n)))

/-- What the parser returns.  An object is made after the one it is assigned to, so the
depth is less than the number of objects. -/
def tree (h : Heap) : Tree := h.itemTree h.length (.object root)

end Heap

end Rivid.Check
