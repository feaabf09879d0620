import Rivid.Check.Policy
import Rivid.Check.Analyze

/-!
# From a policy file to a verdict

`loadPolicy` parses the file and takes its `rivid` entry, and `analyze` reads
the policy without looking at what kind of value each entry is: it maps over
`allow`, and writes the `table` and `column` of each element into a template.
Either can throw.

An entry is read along the prototypes, so a map can inherit from a list through
a `__proto__` entry and with it the methods of arrays.  Such a map takes its
length from a `length` entry if there is one; what number a value is as a length
does not matter here, and `toLength` is any function.
-/

namespace Rivid.Check

/-! ## Reading properties -/

/-- What reading a property finds along the prototypes. -/
inductive Found where
  | absent
  | value (v : Value)
  /-- The length of an array. -/
  | length (n : ℕ)
  /-- A method of `Array.prototype`. -/
  | arrayMethod
  /-- A method of `Object.prototype`. -/
  | objectMethod
deriving DecidableEq, Repr

/-- What is thrown. -/
inductive Thrown where
  | typeError
  | rangeError
deriving DecidableEq, Repr

/-- The property name of an index. -/
def indexKey (i : ℕ) : JsString := literal (toString i)

def Value.isList : Value → Bool
  | .array _ => true
  | .item _ => false

/-- The text of a value that is no object. -/
def Value.primitiveText : Value → Option JsString
  | .item .undefined => some (literal "undefined")
  | .item (.string s) => some s
  | .item (.boolean b) => some (literal (if b then "true" else "false"))
  | .item (.object _) | .array _ => none

namespace Heap

variable (h : Heap)

/-- The property `key`, at most so many prototypes away.  Of the built-in methods only
those that are looked up are here. -/
def find (key : JsString) : ℕ → Value → Found
  | 0, _ => .absent
  | _ + 1, .array items =>
      if key = literal "length" then .length items.length
      else
        match items.zipIdx.find? fun e ↦ indexKey e.2 = key with
        | some e => .value (.item e.1)
        | none =>
            if key ∈ [literal "map", literal "join", literal "toString"] then .arrayMethod
            else .absent
  | n + 1, .item (.object r) =>
      if r = objectPrototype then
        if key = literal "toString" then .objectMethod else .absent
      else
        match (h.object r).properties.get? key with
        | some v => .value v
        | none => find key n (h.object r).prototype
  | _ + 1, .item _ => .absent

/-- `v[key]`; no chain of prototypes is longer than the heap. -/
def lookup (v : Value) (key : JsString) : Found := h.find key (h.length + 1) v

/-- `v[key]` for a key that is no built-in method. -/
def read (v : Value) (key : JsString) : Value :=
  match h.lookup v key with
  | .value w => w
  | _ => .item .undefined

/-! ## Values as text -/

section

variable (toLength : Heap → Value → Except Thrown ℕ)

/-- The length of an array, or of a map that inherits from one. -/
def arrayLength (v : Value) : Except Thrown ℕ :=
  match h.lookup v (literal "length") with
  | .length n => .ok n
  | .value w => toLength h w
  | _ => .ok 0

/-- `String(v)`, with nested lists up to a depth. -/
def textOf : ℕ → Value → Except Thrown JsString
  | 0, _ => .error .rangeError
  | n + 1, v =>
      match v.primitiveText with
      | some s => .ok s
      | none =>
          match h.lookup v (literal "toString") with
          | .objectMethod => .ok (literal "[object Object]")
          | .arrayMethod =>
              if h.lookup v (literal "join") = .arrayMethod then do
                let len ← h.arrayLength toLength v
                let parts ← (List.range len).mapM fun i ↦
                  match h.lookup v (indexKey i) with
                  | .value (.item .undefined) => pure []
                  | .value w => textOf n w
                  | _ => pure []
                return joinWith (literal ",") parts
              else .ok (literal "[object Object]")
          -- The policy's own entry is no function, and `valueOf` gives no primitive value.
          | _ => .error .typeError

/-- `String(v)`; what a value contains was made after it. -/
def text (v : Value) : Except Thrown JsString := h.textOf toLength (2 * h.length + 2) v

/-! ## The policy -/

/-- `parsed?.rivid ?? parsed ?? {}`. -/
def policy : Value :=
  match h.read (.item (.object root)) (literal "rivid") with
  | .item .undefined => .item (.object root)
  | v => v

/-- `${a.table}.${a.column}`. -/
def entryKey (a : Value) : Except Thrown JsString :=
  if a = .item .undefined then .error .typeError
  else do
    let table ← h.text toLength (h.read a (literal "table"))
    let column ← h.text toLength (h.read a (literal "column"))
    return key table column

/-- `(allow ?? []).map(…)`: the texts of the set. -/
def allowKeys (allow : Value) : Except Thrown (List JsString) :=
  if allow = .item .undefined then .ok []
  else if h.lookup allow (literal "map") ≠ .arrayMethod then .error .typeError
  else do
    let len ← h.arrayLength toLength allow
    -- What is no array is mapped to a new array of its length.
    if !allow.isList && len ≥ 2 ^ 32 then throw .rangeError
    let keys ← (List.range len).mapM fun i ↦
      match h.lookup allow (indexKey i) with
      | .value a => (h.entryKey toLength a).map some
      | _ => pure none
    return keys.reduceOption

/-- An entry of the policy as `analyze` compares it; `n` tells the lists apart. -/
def jsValue (n : ℕ) : Value → JsValue
  | .item .undefined => .undefined
  | .item (.string s) => .string s
  | .item (.boolean b) => .boolean b
  | .item (.object r) => .object r
  | .array _ => .object (h.length + n)

def config : Except Thrown Config := do
  let allow ← h.allowKeys toLength (h.read h.policy (literal "allow"))
  return {
    publicIds := h.jsValue 0 (h.read h.policy (literal "public_ids"))
    idempotency := h.jsValue 1 (h.read h.policy (literal "idempotency"))
    events := h.jsValue 2 (h.read h.policy (literal "events"))
    database := h.jsValue 3 (h.read h.policy (literal "database"))
    allow }

end

end Heap

/-- `loadPolicy` on the text of a `.rivid.yml` file, then `analyze`. -/
def check (toLowerCase : JsString → JsString) (toLength : Heap → Value → Except Thrown ℕ)
    (text : JsString) (cols : List Column) : Except Thrown Report := do
  let config ← (parsePolicyYaml text).config toLength
  return analyze toLowerCase cols config

end Rivid.Check
