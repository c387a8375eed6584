import Mathlib.Data.Int.Notation
import Nodal.Foundation.Json

/-!
# The tools an agent may call

`mcp/tools.rs`: the schema each tool publishes, the check of a call's arguments against it, and the
command a tool makes of its arguments.

The check passes what the schema describes, and besides that an explicit `null` for an argument the
schema has another type for (`check_meets_iff`). A call that passes has a command (`command_of_check`).
-/

set_option autoImplicit false

namespace Nodal.Mcp

open Foundation

/-! ### Failures and refusals -/

/-- What went wrong, in the shape the protocol states. -/
structure Failure where
  code : ℤ
  message : String
  deriving DecidableEq

def PARSE_ERROR : ℤ := -32700

def INVALID_REQUEST : ℤ := -32600

def METHOD_NOT_FOUND : ℤ := -32601

def INVALID_PARAMS : ℤ := -32602

/-- How values are read and printed. -/
structure Serde where
  parse : String → Except String Json
  display : Json → String
  /-- A text in quotes, with its escapes. -/
  quoted : String → String

/-! ### The commands -/

/-- What a tool runs. -/
inductive Command
  | ls
  | show (unit : Option String)
  | reclaimChecked (units : List String) (hooks : Bool)
  | new (objective : String) (name branch : Option String) (carry hooks : Bool)
  | handoff (unit : Option String) (text : String)
  | done (unit remote : Option String) (wip : Bool)
  deriving DecidableEq

/-- One string argument, when it was given. -/
def text (arguments : Json) (name : String) : Option String :=
  (arguments.get name).bind Json.asStr

/-- One string argument the tool cannot work without. -/
def required (arguments : Json) (name : String) : Except Failure String :=
  match text arguments name with
  | some given => .ok given
  | none => .error ⟨INVALID_PARAMS, name ++ " is required"⟩

/-- One boolean argument, false where it was not given. -/
def flag (arguments : Json) (name : String) : Bool :=
  ((arguments.get name).bind Json.asBool).getD false

/-! ### The schemas -/

def described (type about : String) : Json :=
  .object [("description", .string about), ("type", .string type)]

/-- The schema of a tool with these arguments. The members of an object stand in key order. -/
def schemaOf (properties : List (String × Json)) (keys : List String) : Json :=
  .object ([("additionalProperties", .bool false), ("properties", .object properties)] ++
    (if keys = [] then [] else [("required", .array (keys.map .string))]) ++
    [("type", .string "object")])

/-- The schema of a tool whose only argument is a unit's handle. -/
def unitArgument (about : String) : Json := schemaOf [("unit", described "string" about)] []

/-- What a schema says of a unit's handle. -/
def HANDLE : String := "The unit's handle. Defaults to the unit of the working directory."

def newSchema : Json :=
  schemaOf
    [("carry", described "boolean" "Copy the checkout's uncommitted work into the new home."),
      ("from", described "string"
        "The branch to fork from. The project's own default when it is not said."),
      ("name", described "string"
        "The handle to give it. Derived from the objective when it is not said."),
      ("objective", described "string" "What the unit is for.")]
    ["objective"]

def handoffSchema : Json :=
  schemaOf
    [("text", described "string" "What to leave for whoever continues the unit."),
      ("unit", described "string" HANDLE)]
    ["text"]

def doneSchema : Json :=
  schemaOf
    [("remote", described "string" "The remote to push to. `origin` when it is not said."),
      ("unit", described "string" HANDLE)]
    []

/-! ### The tools -/

/-- One tool, and the command it makes of its arguments. -/
structure Tool where
  name : String
  description : String
  schema : Json
  command : Bool → Json → Except Failure Command

/-- The tools that read and change nothing. -/
def reading : List Tool :=
  [{ name := "ls"
     description := "List every unit of the project: what each one needs next, its branch, its " ++
       "integration and who is in it."
     schema := schemaOf [] []
     command := fun _ _ ↦ .ok .ls },
    { name := "show"
      description := "Report one unit in full: its work, its environment, what was recorded of its " ++
        "home, and its log."
      schema := unitArgument HANDLE
      command := fun _ arguments ↦ .ok (.show (text arguments "unit")) },
    { name := "check"
      description := "Report what reclaiming a unit would take away, and do none of it: what is only " ++
        "here, what has another copy, and what is running."
      schema := unitArgument HANDLE
      command := fun hooks arguments ↦ .ok (.reclaimChecked (text arguments "unit").toList hooks) }]

/-- The tools that write. -/
def writing : List Tool :=
  [{ name := "new"
     description := "Make a unit: a branch, a home cloned from the project, its own ports and its own " ++
       "environment."
     schema := newSchema
     command := fun hooks arguments ↦ do
       let objective ← required arguments "objective"
       return .new objective (text arguments "name") (text arguments "from") (flag arguments "carry")
         hooks },
    { name := "handoff"
      description := "Leave a note on a unit for whoever continues it, which the unit's memory " ++
        "carries to the next session."
      schema := handoffSchema
      command := fun _ arguments ↦ do
        let given ← required arguments "text"
        return .handoff (text arguments "unit") given },
    { name := "done"
      description := "Push a unit's work for review and report where the change is opened. It sends " ++
        "the unit's branch and nothing else."
      schema := doneSchema
      command := fun _ arguments ↦
        .ok (.done (text arguments "unit") (text arguments "remote") false) }]

/-- Every tool: what reads first, what writes after it. -/
def all : List Tool := reading ++ writing

/-- The verbs an agent may not call, with the reason each one is a person's. -/
def WITHHELD : List (String × String) :=
  [("reclaim", "it removes a unit's home"),
    ("merge", "it rewrites a branch and removes the unit"),
    ("gc", "it removes trashed homes and warm bases"),
    ("uninstall", "it removes what Nodal installed on this machine"),
    ("base", "it builds and removes the trees homes are cloned from")]

/-! ### The check of a call -/

/-- A key no tool takes. -/
def checkKey (serde : Serde) (properties : Option (List (String × Json))) (key : String) :
    Except Failure Unit :=
  if (properties.bind (·.lookup key)).isSome then .ok ()
  else .error ⟨INVALID_PARAMS, "this tool takes no argument called " ++ serde.quoted key⟩

/-- A value of the wrong type. -/
def checkType (serde : Serde) (given : Json) (property : String × Json) : Except Failure Unit :=
  let wanted := ((property.2.get "type").bind Json.asStr).getD "string"
  let wrong (held : Json) : Except Failure Unit :=
    .error ⟨INVALID_PARAMS,
      property.1 ++ " must be a " ++ wanted ++ "; it is " ++ serde.display held⟩
  match given.get property.1 with
  | none => .ok ()
  | some .null => .ok ()
  | some (.string held) => if wanted = "string" then .ok () else wrong (.string held)
  | some (.bool held) => if wanted = "boolean" then .ok () else wrong (.bool held)
  | some held => wrong held

/-- A key that is needed and was not given. -/
def checkRequired (given : Json) (key : Json) : Except Failure Unit :=
  match key.asStr with
  | none => .ok ()
  | some name =>
    match given.get name with
    | none => .error ⟨INVALID_PARAMS, name ++ " is required"⟩
    | some held =>
      if held.isNull then .error ⟨INVALID_PARAMS, name ++ " is required"⟩ else .ok ()

/-- Check one call's arguments against the tool's own published schema. -/
def check (serde : Serde) (schema arguments : Json) : Except Failure Unit :=
  match arguments.asObject with
  | none => .error ⟨INVALID_PARAMS, "arguments must be an object"⟩
  | some given => do
    let properties := (schema.get "properties").bind Json.asObject
    given.forM fun member ↦ checkKey serde properties member.1
    (properties.getD []).forM (checkType serde arguments)
    (((schema.get "required").bind Json.asArray).getD []).forM (checkRequired arguments)

/-! ### What the check passes -/

theorem forM_eq_ok {α : Type} {f : α → Except Failure Unit} {items : List α} :
    items.forM f = .ok () ↔ ∀ item ∈ items, f item = .ok () := by
  induction items with
  | nil => simp [pure, Except.pure]
  | cons item items ih =>
    rw [List.forall_mem_cons, ← ih]
    show (f item >>= fun _ ↦ items.forM f) = _ ↔ _
    cases hitem : f item with
    | error why => simp [bind, Except.bind]
    | ok u => simp [bind, Except.bind]

theorem bind_eq_ok_iff {x : Except Failure Unit} {f : Unit → Except Failure Unit} :
    (x >>= f) = .ok () ↔ x = .ok () ∧ f () = .ok () := by
  cases x with
  | error why => simp [bind, Except.bind]
  | ok u => simp [bind, Except.bind]

/-- A schema of an object with arguments of scalar types, those it needs among them. -/
structure Published (schema : Json) (properties : List (String × Json)) (keys : List String) :
    Prop where
  eq : schema = schemaOf properties keys
  scalar : ∀ key declared, properties.lookup key = some declared →
    Json.Scalar declared "string" ∨ Json.Scalar declared "boolean"
  needed : ∀ key ∈ keys, ∃ declared, properties.lookup key = some declared ∧
    Json.Scalar declared "string"
  told : (properties.map Prod.fst).Nodup

section Published

variable {serde : Serde} {schema arguments : Json} {properties : List (String × Json)}
  {keys : List String}

theorem schemaOf_get_required : (schemaOf properties keys).get "required" =
    if keys = [] then none else some (.array (keys.map .string)) := by
  by_cases hkeys : keys = []
  · simp [schemaOf, Json.get, hkeys, List.lookup_cons]
  · simp [schemaOf, Json.get, hkeys, List.lookup_cons]

theorem schemaOf_get_type : (schemaOf properties keys).get "type" = some (.string "object") := by
  by_cases hkeys : keys = []
  · simp [schemaOf, Json.get, hkeys, List.lookup_cons]
  · simp [schemaOf, Json.get, hkeys, List.lookup_cons]

theorem schemaOf_get_additionalProperties :
    (schemaOf properties keys).get "additionalProperties" = some (.bool false) := rfl

theorem schemaOf_propertyOf (key : String) :
    (schemaOf properties keys).propertyOf key = properties.lookup key := rfl

/-- The type a scalar schema has for an argument, and what the check asks of it. -/
theorem checkType_eq_ok_iff {key type : String} {declared : Json} (h : Json.Scalar declared type)
    (htype : type = "string" ∨ type = "boolean") :
    checkType serde arguments (key, declared) = .ok () ↔
      ∀ held, arguments.get key = some held → held.isNull = false → held.hasType type = true := by
  have hwanted : ((declared.get "type").bind Json.asStr).getD "string" = type := by
    rw [h.type]
    rfl
  unfold checkType
  dsimp only
  rw [hwanted]
  cases arguments.get key with
  | none => simp
  | some held =>
    rcases htype with rfl | rfl <;> cases held <;> simp [Json.isNull, Json.hasType]

theorem checkRequired_eq_ok_iff {key : String} : checkRequired arguments (.string key) = .ok () ↔
    ∃ held, arguments.get key = some held ∧ held.isNull = false := by
  unfold checkRequired
  dsimp only [Json.asStr]
  cases arguments.get key with
  | none => simp
  | some held => cases hnull : held.isNull <;> simp [hnull]

/-- What the check of a published schema passes. -/
theorem check_eq_ok_iff (h : Published schema properties keys) :
    check serde schema arguments = .ok () ↔ ∃ given, arguments = .object given ∧
      (∀ member ∈ given, properties.lookup member.1 ≠ none) ∧
      (∀ property ∈ properties, checkType serde arguments property = .ok ()) ∧
      ∀ key ∈ keys, checkRequired arguments (.string key) = .ok () := by
  have hproperties : (schema.get "properties").bind Json.asObject = some properties := by
    rw [h.eq]
    rfl
  have hneeded : ((schema.get "required").bind Json.asArray).getD [] = keys.map .string := by
    rw [h.eq, schemaOf_get_required]
    by_cases hkeys : keys = []
    · simp [hkeys]
    · simp [hkeys, Json.asArray]
  cases arguments with
  | object given =>
    have hcheck : check serde schema (.object given) = (do
        given.forM fun member ↦ checkKey serde (some properties) member.1
        properties.forM (checkType serde (.object given))
        (keys.map Json.string).forM (checkRequired (.object given))) := by
      unfold check
      dsimp only [Json.asObject]
      rw [hproperties, hneeded]
      rfl
    have hkey (member : String × Json) : checkKey serde (some properties) member.1 = .ok () ↔
        properties.lookup member.1 ≠ none := by
      unfold checkKey
      cases hlookup : properties.lookup member.1 <;> simp [hlookup]
    rw [hcheck, bind_eq_ok_iff, bind_eq_ok_iff, forM_eq_ok, forM_eq_ok, forM_eq_ok,
      List.forall_mem_map]
    simp only [hkey, Json.object.injEq, exists_eq_left']
  | _ => simp [check, Json.asObject]

/-- Arguments meet the schema exactly where they pass the check and none of them is `null`. -/
theorem meets_iff (h : Published schema properties keys) : Json.Meets schema arguments ↔
    check serde schema arguments = .ok () ∧ ∀ key, arguments.get key ≠ some .null := by
  have hscalar {key : String} {declared held : Json} (hdeclared : properties.lookup key = some declared)
      (hheld : arguments.get key = some held) :
      checkType serde arguments (key, declared) = .ok () ∧ held ≠ .null ↔ Json.Meets declared held := by
    have hnull : held ≠ .null ↔ held.isNull = false := by cases held <;> simp [Json.isNull]
    rw [hnull]
    rcases h.scalar key declared hdeclared with hstring | hboolean
    · rw [hstring.meets_iff, checkType_eq_ok_iff hstring (.inl rfl), hheld]
      cases held <;> simp [Json.isNull, Json.hasType]
    · rw [hboolean.meets_iff, checkType_eq_ok_iff hboolean (.inr rfl), hheld]
      cases held <;> simp [Json.isNull, Json.hasType]
  rw [check_eq_ok_iff h]
  constructor
  · intro hmeets
    have hobject : arguments.hasType "object" = true :=
      hmeets.type (by rw [h.eq, schemaOf_get_type])
    obtain ⟨given, rfl⟩ : ∃ given, arguments = .object given := by
      cases arguments with
      | object given => exact ⟨given, rfl⟩
      | _ => simp [Json.hasType] at hobject
    have hdeclared {key : String} {declared held : Json}
        (hlookup : properties.lookup key = some declared)
        (hheld : (Json.object given).get key = some held) : Json.Meets declared held :=
      hmeets.property (by rw [h.eq, schemaOf_propertyOf, hlookup]) hheld
    have hknown : ∀ member ∈ given, properties.lookup member.1 ≠ none := by
      intro member hmember
      have hclosed := hmeets.closed (by rw [h.eq, schemaOf_get_additionalProperties]) hmember
      rwa [h.eq, schemaOf_propertyOf] at hclosed
    refine ⟨⟨given, rfl, hknown, ?_, ?_⟩, ?_⟩
    · rintro ⟨key, declared⟩ hproperty
      have hlookup : properties.lookup key = some declared := Json.lookup_of_mem h.told hproperty
      cases hheld : (Json.object given).get key with
      | none => simp [checkType, hheld]
      | some held => exact ((hscalar hlookup hheld).mpr (hdeclared hlookup hheld)).1
    · intro key hkey
      have hgiven : (Json.object given).get key ≠ none := hmeets.needed hkey
        (by rw [h.eq, schemaOf_get_required, if_neg (List.ne_nil_of_mem hkey)])
        (Option.some_ne_none given)
      obtain ⟨held, hheld⟩ := Option.ne_none_iff_exists'.mp hgiven
      obtain ⟨declared, hlookup, -⟩ := h.needed key hkey
      have hnull := ((hscalar hlookup hheld).mpr (hdeclared hlookup hheld)).2
      refine checkRequired_eq_ok_iff.mpr ⟨held, hheld, ?_⟩
      cases held <;> simp_all [Json.isNull]
    · intro key hnull
      have hmember : (key, Json.null) ∈ given := Json.mem_of_lookup hnull
      obtain ⟨declared, hlookup⟩ := Option.ne_none_iff_exists'.mp (hknown _ hmember)
      exact ((hscalar hlookup hnull).mpr (hdeclared hlookup hnull)).2 rfl
  · rintro ⟨⟨given, rfl, hknown, htyped, hneeded⟩, hnonnull⟩
    refine .intro ?_ ?_ ?_ ?_
    · intro name hname
      rw [h.eq, schemaOf_get_type, Option.some.injEq, Json.string.injEq] at hname
      exact hname ▸ rfl
    · intro key declared held hdeclared hheld
      rw [h.eq, schemaOf_propertyOf] at hdeclared
      exact (hscalar hdeclared hheld).mp ⟨htyped _ (Json.mem_of_lookup hdeclared),
        fun hnull ↦ hnonnull key (hnull ▸ hheld)⟩
    · intro needed key hrequired hkey _
      rw [h.eq, schemaOf_get_required] at hrequired
      by_cases hkeys : keys = []
      · rw [if_pos hkeys] at hrequired
        cases hrequired
      · rw [if_neg hkeys, Option.some.injEq, Json.array.injEq] at hrequired
        obtain ⟨name, hname, hsame⟩ := List.mem_map.mp (hrequired ▸ hkey)
        obtain rfl := Json.string.inj hsame
        obtain ⟨held, hheld, -⟩ := checkRequired_eq_ok_iff.mp (hneeded name hname)
        rw [hheld]
        exact Option.some_ne_none held
    · rintro - members hmembers member hmember
      obtain rfl := Json.object.inj hmembers
      rw [h.eq, schemaOf_propertyOf]
      exact hknown member hmember

/-- A key a schema needs is a text in every call that passes the check. -/
theorem required_of_check (h : Published schema properties keys)
    (hcheck : check serde schema arguments = .ok ()) {key : String} (hkey : key ∈ keys) :
    ∃ given, required arguments key = .ok given := by
  obtain ⟨-, -, -, htyped, hneeded⟩ := (check_eq_ok_iff h).mp hcheck
  obtain ⟨held, hheld, hnull⟩ := checkRequired_eq_ok_iff.mp (hneeded key hkey)
  obtain ⟨declared, hlookup, hscalar⟩ := h.needed key hkey
  have hstring := (checkType_eq_ok_iff hscalar (.inl rfl)).mp
    (htyped _ (Json.mem_of_lookup hlookup)) held hheld hnull
  obtain ⟨given, rfl⟩ : ∃ given, held = .string given := by
    cases held with
    | string given => exact ⟨given, rfl⟩
    | _ => simp [Json.hasType] at hstring
  exact ⟨given, by simp [required, text, hheld, Json.asStr]⟩

end Published

/-! ### The tools that are published -/

theorem described_scalar (type about : String) : Json.Scalar (described type about) type :=
  ⟨rfl, rfl, rfl, rfl⟩

theorem schemaOf_published {properties : List (String × Json)} {keys : List String}
    (hscalar : ∀ property ∈ properties,
      Json.Scalar property.2 "string" ∨ Json.Scalar property.2 "boolean")
    (hneeded : ∀ key ∈ keys, ∃ about, properties.lookup key = some (described "string" about))
    (htold : (properties.map Prod.fst).Nodup) :
    Published (schemaOf properties keys) properties keys where
  eq := rfl
  scalar _ _ hlookup := hscalar _ (Json.mem_of_lookup hlookup)
  needed key hkey := by
    obtain ⟨about, hlookup⟩ := hneeded key hkey
    exact ⟨_, hlookup, described_scalar "string" about⟩
  told := htold

/-- Every tool publishes a schema of scalar arguments, and makes a command of every call that passes
its check. -/
theorem tool_published {tool : Tool} (h : tool ∈ all) :
    ∃ properties keys, Published tool.schema properties keys ∧
      ∀ (serde : Serde) (hooks : Bool) (arguments : Json),
        check serde tool.schema arguments = .ok () →
          ∃ command, tool.command hooks arguments = .ok command := by
  have hcases : tool ∈ reading ∨ tool ∈ writing := List.mem_append.mp h
  have hunit (about : String) : Published (unitArgument about)
      [("unit", described "string" about)] [] :=
    schemaOf_published (by simp [described_scalar]) (by simp) (by simp)
  have hnew : Published newSchema _ _ :=
    schemaOf_published (by simp [described_scalar])
      (List.forall_mem_singleton.mpr ⟨_, rfl⟩) (by simp)
  have hhandoff : Published handoffSchema _ _ :=
    schemaOf_published (by simp [described_scalar])
      (List.forall_mem_singleton.mpr ⟨_, rfl⟩) (by simp)
  have hdone : Published doneSchema _ _ :=
    schemaOf_published (by simp [described_scalar]) (by simp) (by simp)
  simp only [reading, writing, List.mem_cons, List.not_mem_nil, or_false] at hcases
  rcases hcases with (rfl | rfl | rfl) | (rfl | rfl | rfl)
  · exact ⟨[], [], schemaOf_published (by simp) (by simp) (by simp), fun _ _ _ _ ↦ ⟨_, rfl⟩⟩
  · exact ⟨_, _, hunit _, fun _ _ _ _ ↦ ⟨_, rfl⟩⟩
  · exact ⟨_, _, hunit _, fun _ _ _ _ ↦ ⟨_, rfl⟩⟩
  · refine ⟨_, _, hnew, fun serde hooks arguments hcheck ↦ ?_⟩
    obtain ⟨objective, hobjective⟩ := required_of_check hnew hcheck List.mem_cons_self
    exact ⟨_, by dsimp only; rw [hobjective]; rfl⟩
  · refine ⟨_, _, hhandoff, fun serde hooks arguments hcheck ↦ ?_⟩
    obtain ⟨given, hgiven⟩ := required_of_check hhandoff hcheck List.mem_cons_self
    exact ⟨_, by dsimp only; rw [hgiven]; rfl⟩
  · exact ⟨_, _, hdone, fun _ _ _ _ ↦ ⟨_, rfl⟩⟩

end Nodal.Mcp
