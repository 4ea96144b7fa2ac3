import Mathlib.Data.List.Forall2
import Wtools.JsonStops
import Wtools.PathSearch
import Wtools.RoundTrip

/-!
# Looking up the members of a text

A JSON text is stored with `bkv_from_json`, and `bkv_val_get2` reads its members out of the
document. The names of the members are in the dictionary at the end of the document, under the keys
that the members have. The search for a member ends before it comes to the dictionary.
-/

namespace Wtools
open ByteMemory Forest

/-- What is found under the name of a member. -/
inductive JsonMember where
  | value (v : Value)
  | container (c : Kind) (body : Json c)

/-- A path of names leads from an object to a member, down through the objects. Several members of
an object may have one name. -/
inductive Json.Leads : Json .map → List (List UInt8) → JsonMember → Prop
  | value (name : List UInt8) (v : Value) (rest : Json .map) :
      Leads (.member name v rest) [name] (.value v)
  | container (name : List UInt8) (c : Kind) (body : Json c) (rest : Json .map) :
      Leads (.memberIn name c body rest) [name] (.container c body)
  | into (name : List UInt8) {body : Json .map} (rest : Json .map) {path : List (List UInt8)}
      {m : JsonMember} (h : Leads body path m) :
      Leads (.memberIn name .map body rest) (name :: path) m
  | past (name : List UInt8) (v : Value) {rest : Json .map} {path : List (List UInt8)}
      {m : JsonMember} (h : Leads rest path m) : Leads (.member name v rest) path m
  | pastIn (name : List UInt8) (c : Kind) (body : Json c) {rest : Json .map}
      {path : List (List UInt8)} {m : JsonMember} (h : Leads rest path m) :
      Leads (.memberIn name c body rest) path m

/-- The member of the document that a member of the text is stored as. -/
def JsonMember.StoredAs : JsonMember → Member → Prop
  | .value v, m => ∃ s, v.asScalar = some s ∧ m = .scalar s
  | .container c body, m => ∃ n, m = .container c (body.faithful directKey n)

/-- The output of a lookup holds a member of the text. -/
def JsonMember.Holds (z : Zone) : JsonMember → BkvVal → Prop
  | .value .null, _ => False
  | .value (.boolean b), v => v.type = .boolean ∧ v.u = .b b
  | .value (.number text), v => v.type = .int16 ∧ v.u = .int16 (.ofNat (decimalValue text))
  | .value (.string s), v => v.type = .string ∧ ∃ p, v.u = .string p s.length ∧
      z.slice? p s.length = some s
  | .container c _, v => v.type = c.valType

theorem JsonMember.StoredAs.holds {z : Zone} {off : Nat} {jm : JsonMember} {m : Member} {v : BkvVal}
    (h : jm.StoredAs m) (hv : Fills z off m v) : jm.Holds z v := by
  cases jm with
  | value x =>
    obtain ⟨s, hs, rfl⟩ := h
    cases x with
    | null => cases hs
    | boolean b =>
      cases hs
      exact hv
    | number text =>
      cases hs
      exact ⟨hv.1, hv.2.1⟩
    | string s =>
      cases hs
      exact ⟨hv.1, off + 4, hv.2⟩
  | container c body =>
    obtain ⟨n, rfl⟩ := h
    exact hv.1

section Keys

theorem Locates.after {f : Items} {path : List UInt16} {o : Nat} {m : Member}
    (h : Locates f path o m) (g : Items) : Locates (g ++ f) path (size g + o) m := by
  cases h with
  | scalar f key v rest =>
    rw [← append_assoc, ← size_append]
    exact .scalar (g ++ f) key v rest
  | container f kind key body rest =>
    rw [← append_assoc, ← size_append]
    exact .container (g ++ f) kind key body rest
  | descend f key rest hn =>
    rw [← append_assoc, ← Nat.add_assoc, ← size_append]
    exact .descend (g ++ f) key rest hn

end Keys

section Lookups
variable {z : Zone} {key : UInt16} {f g : Items}

end Lookups

end Wtools
