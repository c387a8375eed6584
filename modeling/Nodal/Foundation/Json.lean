import Mathlib.Data.List.Nodup
import Mathlib.Tactic.Common

/-!
# JSON values, and the schemas that describe them

A JSON value, and when it meets a schema: the keywords are `type`, `properties`, `required` and
`additionalProperties`, and a schema with none of them is met by every value. A keyword that is about
the members of an object says nothing of other values.
-/

set_option autoImplicit false

namespace Nodal.Foundation

/-- A JSON value, and a number as it is written. -/
inductive Json
  | null
  | bool (b : Bool)
  | number (written : String)
  | string (text : String)
  | array (items : List Json)
  | object (members : List (String × Json))

namespace Json

/-- The member of an object with this key. -/
def get (value : Json) (key : String) : Option Json :=
  match value with
  | object members => members.lookup key
  | _ => none

def asStr : Json → Option String
  | string text => some text
  | _ => none

def asBool : Json → Option Bool
  | bool b => some b
  | _ => none

def asArray : Json → Option (List Json)
  | array items => some items
  | _ => none

def asObject : Json → Option (List (String × Json))
  | object members => some members
  | _ => none

def isNull : Json → Bool
  | null => true
  | _ => false

/-- Whether a value is of a type, by the name a schema has for it. -/
def hasType (value : Json) (type : String) : Bool :=
  match value with
  | null => type = "null"
  | bool _ => type = "boolean"
  | number _ => type = "number"
  | string _ => type = "string"
  | array _ => type = "array"
  | object _ => type = "object"

/-- The schema of a member, where a schema has one. -/
def propertyOf (schema : Json) (key : String) : Option Json :=
  (schema.get "properties").bind (·.get key)

/-- A value meets a schema. -/
inductive Meets : Json → Json → Prop
  | intro {schema value : Json}
    (type : ∀ name, schema.get "type" = some (string name) → value.hasType name = true)
    (properties : ∀ key declared held, schema.propertyOf key = some declared →
      value.get key = some held → Meets declared held)
    (required : ∀ keys key, schema.get "required" = some (array keys) → string key ∈ keys →
      value.asObject ≠ none → value.get key ≠ none)
    (closed : schema.get "additionalProperties" = some (bool false) →
      ∀ members, value = object members → ∀ member ∈ members, schema.propertyOf member.1 ≠ none) :
    Meets schema value

variable {schema value : Json}

theorem Meets.property (h : Meets schema value) {key : String} {declared held : Json}
    (hdeclared : schema.propertyOf key = some declared) (hheld : value.get key = some held) :
    Meets declared held := by
  cases h with
  | intro _ properties _ _ => exact properties key declared held hdeclared hheld

theorem Meets.type (h : Meets schema value) {name : String}
    (htype : schema.get "type" = some (string name)) : value.hasType name = true := by
  cases h with
  | intro type _ _ _ => exact type name htype

theorem Meets.needed (h : Meets schema value) {keys : List String} {key : String} (hkey : key ∈ keys)
    (hrequired : schema.get "required" = some (array (keys.map string)))
    (hobject : value.asObject ≠ none) : value.get key ≠ none := by
  cases h with
  | intro _ _ required _ => exact required _ key hrequired (List.mem_map_of_mem hkey) hobject

theorem Meets.closed {members : List (String × Json)} (h : Meets schema (object members))
    (hclosed : schema.get "additionalProperties" = some (bool false)) {member : String × Json}
    (hmember : member ∈ members) : schema.propertyOf member.1 ≠ none := by
  cases h with
  | intro _ _ _ closed => exact closed hclosed members rfl member hmember

/-- A schema that says a type and nothing of members. -/
structure Scalar (schema : Json) (type : String) : Prop where
  type : schema.get "type" = some (string type)
  properties : schema.get "properties" = none
  required : schema.get "required" = none
  closed : schema.get "additionalProperties" = none

/-- Such a schema is met by the values of its type. -/
theorem Scalar.meets_iff {type : String} (h : Scalar schema type) :
    Meets schema value ↔ value.hasType type = true := by
  constructor
  · exact fun hmeets ↦ hmeets.type h.type
  · intro htype
    refine .intro ?_ ?_ ?_ ?_
    · intro name hname
      rw [h.type, Option.some.injEq, string.injEq] at hname
      exact hname ▸ htype
    · intro key declared held hdeclared
      rw [propertyOf, h.properties] at hdeclared
      cases hdeclared
    · intro keys key hrequired
      rw [h.required] at hrequired
      cases hrequired
    · intro hclosed
      rw [h.closed] at hclosed
      cases hclosed

theorem mem_of_lookup {members : List (String × Json)} {key : String} {held : Json}
    (h : members.lookup key = some held) : (key, held) ∈ members := by
  obtain ⟨before, after, rfl, -⟩ := List.lookup_eq_some_iff.mp h
  exact List.mem_append_right before List.mem_cons_self

theorem lookup_of_mem {members : List (String × Json)} (h : (members.map Prod.fst).Nodup)
    {member : String × Json} (hmember : member ∈ members) :
    members.lookup member.1 = some member.2 := by
  obtain ⟨before, after, rfl⟩ := List.append_of_mem hmember
  refine List.lookup_eq_some_iff.mpr ⟨before, after, rfl, fun other hother ↦ ?_⟩
  rw [List.map_append, List.map_cons] at h
  have hdisjoint := List.disjoint_of_nodup_append h
  have hne : member.1 ≠ other.1 := fun hsame ↦
    hdisjoint (List.mem_map_of_mem hother) (hsame ▸ List.mem_cons_self)
  simpa using hne

end Json

end Nodal.Foundation
