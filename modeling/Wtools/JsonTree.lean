import Wtools.FromJson
import Wtools.ToJson
import Wtools.Document

/-!
# JSON values

What the conversions are about: the contents of a JSON object or array, with its parser
events, its generator calls and its member names in document order. `stored` is what
`bkv_from_json` makes of it, given the key of each occurrence of a name; `faithful` is the
tree of the same shape, with one record for each value.
-/

namespace Wtools
open Forest

inductive Value where
  | null
  | boolean (v : Bool)
  | number (text : List UInt8)
  | string (s : List UInt8)
  deriving DecidableEq, Repr

/-- The contents of an object, of kind `map`, or of an array. -/
inductive Json : Kind → Type where
  | nil {k : Kind} : Json k
  | member (name : List UInt8) (v : Value) (rest : Json .map) : Json .map
  | memberIn (name : List UInt8) (c : Kind) (body : Json c) (rest : Json .map) : Json .map
  | element (v : Value) (rest : Json .array) : Json .array
  | elementIn (c : Kind) (body : Json c) (rest : Json .array) : Json .array

def Value.event : Value → JsonEvent
  | null => .null
  | boolean v => .boolean v
  | number text => .number text
  | string s => .string s

def startEvent : Kind → JsonEvent
  | .map => .startMap
  | .array => .startArray

def endEvent : Kind → JsonEvent
  | .map => .endMap
  | .array => .endArray

namespace Json

variable {k : Kind}

def events {k : Kind} : Json k → List JsonEvent
  | nil => []
  | member name v rest => .mapKey name :: v.event :: rest.events
  | memberIn name c body rest =>
    .mapKey name :: startEvent c :: (body.events ++ endEvent c :: rest.events)
  | element v rest => v.event :: rest.events
  | elementIn c body rest => startEvent c :: (body.events ++ endEvent c :: rest.events)

/-- The events of a text whose value is an object. -/
def text (j : Json .map) : List JsonEvent := .startMap :: (j.events ++ [.endMap])

def names {k : Kind} : Json k → List (List UInt8)
  | nil => []
  | member name _ rest => name :: rest.names
  | memberIn name _ body rest => name :: (body.names ++ rest.names)
  | element _ rest => rest.names
  | elementIn _ body rest => body.names ++ rest.names

def isEmpty : Json k → Bool
  | nil => true
  | _ => false

/-- A property of every value, and of every container with the one it is in. -/
def Forall (p : Value → Prop) (q : Kind → Kind → Prop) {k : Kind} : Json k → Prop
  | nil => True
  | member _ v rest => p v ∧ rest.Forall p q
  | memberIn _ c body rest => q .map c ∧ body.Forall p q ∧ rest.Forall p q
  | element v rest => p v ∧ rest.Forall p q
  | elementIn c body rest => q .array c ∧ body.Forall p q ∧ rest.Forall p q

theorem Forall.imp {p p' : Value → Prop} {q q' : Kind → Kind → Prop} (hp : ∀ v, p v → p' v)
    (hq : ∀ k c, q k c → q' k c) {j : Json k} (h : j.Forall p q) : j.Forall p' q' := by
  induction j with
  | nil => trivial
  | member name v rest ih => exact ⟨hp v h.1, ih h.2⟩
  | memberIn name c body rest ihb ih => exact ⟨hq _ c h.1, ihb h.2.1, ih h.2.2⟩
  | element v rest ih => exact ⟨hp v h.1, ih h.2⟩
  | elementIn c body rest ihb ih => exact ⟨hq _ c h.1, ihb h.2.1, ih h.2.2⟩

end Json

/-- What the callback of a value writes under a key, if it writes anything. -/
def Value.scalar (float : List UInt8 → UInt32) : Value → Option Scalar
  | null => none
  | boolean v => some (.boolean v)
  | number text =>
    match getNumberJson float text with
    | .u16 v => some (.u16 v)
    | .u32 v => some (.u32 v)
    | .float v => some (.float v)
    | _ => none
  | string s => some (.str s)

/-- What it writes into an array. -/
def Value.elem (float : List UInt8 → UInt32) : Value → Option Elem
  | null => none
  | boolean v => some (.boolean v)
  | number text =>
    match getNumberJson float text with
    | .u16 v => some (.u16 v)
    | .float v => some (.float v)
    | _ => none
  | string s => some (.str s)

/-- The value of a string of decimal digits. -/
def decimalValue (text : List UInt8) : Nat := text.foldl (fun n c => n * 10 + (c.toNat - 0x30)) 0

/-- The scalar that stands for a value; numbers are taken to be below 65536. -/
def Value.asScalar : Value → Option Scalar
  | null => none
  | boolean v => some (.boolean v)
  | number text => some (.u16 (.ofNat (decimalValue text)))
  | string s => some (.str s)

def Value.asElem : Value → Option Elem
  | null => none
  | boolean v => some (.boolean v)
  | number text => some (.u16 (.ofNat (decimalValue text)))
  | string s => some (.str s)

def leafOf (e : Option Entry) : Items := e.elim .nil (.leaf · .nil)

namespace Json

variable (float : List UInt8 → UInt32) (key : Nat → UInt16)

/-- The records made of the contents of a container that follow `n` names; `key n` is the key
in force after `n` names, and `in_array` the flag of the reader. -/
def stored {k : Kind} : Json k → (n : Nat) → (in_array : Bool) → Items
  | nil, _, _ => .nil
  | member _ v rest, n, _ =>
    leafOf ((v.scalar float).map (.keyed (key (n + 1)))) ++ rest.stored (n + 1) false
  | memberIn _ c body rest, n, _ =>
    .node (c, key (n + 1)) (body.stored (n + 1) (c = .array))
      (rest.stored (n + 1 + body.names.length) false)
  | element v rest, n, in_array =>
    leafOf (if in_array then (v.elem float).map .elem else none) ++ rest.stored n in_array
  | elementIn c body rest, n, in_array =>
    .node (c, key n) (body.stored n in_array)
      (rest.stored (n + body.names.length) (in_array && body.isEmpty))

/-- The tree of the value itself, one record for each scalar. -/
def faithful {k : Kind} : Json k → (n : Nat) → Items
  | nil, _ => .nil
  | member _ v rest, n =>
    leafOf (v.asScalar.map (.keyed (key (n + 1)))) ++ rest.faithful (n + 1)
  | memberIn _ c body rest, n =>
    .node (c, key (n + 1)) (body.faithful (n + 1)) (rest.faithful (n + 1 + body.names.length))
  | element v rest, n => leafOf (v.asElem.map .elem) ++ rest.faithful n
  | elementIn c body rest, n =>
    .node (c, key n) (body.faithful n) (rest.faithful (n + body.names.length))

/-- The flag of the reader after the contents of a container. -/
def flagAfter {k : Kind} : Json k → Bool → Bool
  | nil, in_array => in_array
  | member _ _ rest, _ => rest.flagAfter false
  | memberIn _ _ _ rest, _ => rest.flagAfter false
  | element _ rest, in_array => rest.flagAfter in_array
  | elementIn _ body rest, in_array => rest.flagAfter (in_array && body.isEmpty)

end Json

/-- The contents of an object leave the flag alone only when there are none. -/
theorem flagAfter_map (j : Json .map) (in_array : Bool) :
    j.flagAfter in_array = (in_array && j.isEmpty) := by
  have hfalse : ∀ {k : Kind} (j : Json k), k = .map → j.flagAfter false = false := by
    intro k j hk
    induction j with
    | nil => rfl
    | member name v rest ih => exact ih rfl
    | memberIn name c body rest _ ih => exact ih rfl
    | element v rest => cases hk
    | elementIn c body rest => cases hk
  cases j with
  | nil => simp [Json.flagAfter, Json.isEmpty]
  | member name v rest => simpa [Json.flagAfter, Json.isEmpty] using hfalse rest rfl
  | memberIn name c body rest => simpa [Json.flagAfter, Json.isEmpty] using hfalse rest rfl

end Wtools
