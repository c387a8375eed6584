import Nodal.Foundation.Text
import Nodal.Mcp.Tools

/-!
# A session of the tool surface

`mcp/protocol.rs` and `mcp/mod.rs`: one message a line, read, answered and written before the next line
is read. A message with no identifier is never answered, and a withheld verb is refused by name.

Where every line is text and no argument that passes the check is `null`, each request has one answer
under its identifier, in their order, and each call that ran met its tool's schema; a session in which
this holds has no other lines (`kept_iff`).
-/

set_option autoImplicit false

namespace Nodal.Mcp

open Foundation

/-! ### Messages and answers -/

/-- The only version of the protocol this speaks. -/
def VERSION : String := "2.0"

/-- A request or a notification, after the line has been checked. -/
structure Message where
  method : String
  id : Option Json
  params : Json

/-- Whether a request can be answered under an identifier. -/
def isId : Json → Bool
  | .string _ => true
  | .number _ => true
  | .null => true
  | _ => false

namespace Message

/-- The identifier of a message, and the failure where it has one that cannot be answered under. -/
def readId (serde : Serde) (value : Json) : Except (Json × Failure) (Option Json) :=
  match value.get "id" with
  | none => .ok none
  | some id =>
    if isId id then .ok (some id)
    else .error (.null, ⟨INVALID_REQUEST,
      "an id is a string, a number or null; this one is " ++ serde.display id⟩)

/-- Read one line as a request, or say what is wrong with it and under which identifier. -/
def read (serde : Serde) (line : String) : Except (Json × Failure) Message :=
  match serde.parse line with
  | .error why => .error (.null, ⟨PARSE_ERROR, "the line is not JSON: " ++ why⟩)
  | .ok (.array _) =>
    .error (.null, ⟨INVALID_REQUEST, "a batch is not supported; send one request per line"⟩)
  | .ok (.object members) => do
    let value := Json.object members
    let id ← readId serde value
    let answering := id.getD .null
    if (value.get "jsonrpc").bind Json.asStr ≠ some VERSION then
      throw (answering, ⟨INVALID_REQUEST, "jsonrpc must be " ++ serde.quoted VERSION⟩)
    match (value.get "method").bind Json.asStr with
    | none => throw (answering, ⟨INVALID_REQUEST, "a request names a method, as a string"⟩)
    | some method => return ⟨method, id, (value.get "params").getD .null⟩
  | .ok _ => .error (.null, ⟨INVALID_REQUEST, "a request is a JSON object"⟩)

end Message

/-- One answer: a result or a failure. -/
structure Answer where
  id : Json
  result : Option Json
  error : Option Failure

namespace Answer

def ofResult (id result : Json) : Answer := ⟨id, some result, none⟩

def failed (id : Json) (error : Failure) : Answer := ⟨id, none, some error⟩

end Answer

/-! ### What the server answers -/

/-- The version of the model context protocol this server answers with. -/
def PROTOCOL : String := "2025-06-18"

/-- What the server calls itself to a client. -/
def SERVER : String := "nodal"

/-- A call that ran. -/
structure Call where
  tool : String
  arguments : Json
  command : Command

/-- What is outside of a session. -/
structure Outside where
  version : String
  hooks : Bool
  /-- What a command answers, or the words of its refusal, after these calls. -/
  runs : List Call → Command → Except String String
  /-- Whether the answer after these can be written. -/
  takes : List Answer → Bool

/-- What the server says it is and what it can do. -/
def initialized (outside : Outside) : Json :=
  .object [("capabilities", .object [("tools", .object [])]), ("protocolVersion", .string PROTOCOL),
    ("serverInfo", .object [("name", .string SERVER), ("version", .string outside.version)])]

/-- Every tool, as a client lists them. -/
def listing : Json :=
  .object [("tools", .array (all.map fun tool ↦ .object [("description", .string tool.description),
    ("inputSchema", tool.schema), ("name", .string tool.name)]))]

/-- The content of a result, and whether it is a refusal. -/
def content (said : String) (isError : Bool) : Json :=
  .object [("content", .array [.object [("text", .string said), ("type", .string "text")]]),
    ("isError", .bool isError)]

/-- A refusal the model reads. -/
def refusal (why : String) : Json := content why true

/-- Run one tool and answer with what its command writes. -/
def call (serde : Serde) (outside : Outside) (params : Json) (calls : List Call) :
    Except Failure Json × List Call :=
  match (params.get "name").bind Json.asStr with
  | none => (.error ⟨INVALID_PARAMS, "the call names no tool"⟩, calls)
  | some name =>
    let arguments := (params.get "arguments").getD (.object [])
    match WITHHELD.find? (·.1 = name) with
    | some (verb, why) =>
      (.ok (refusal ("nodal mcp does not offer " ++ verb ++ ", because " ++ why ++
        "; a person runs `nodal " ++ verb ++ "`")), calls)
    | none =>
      match all.find? (·.name = name) with
      | none =>
        (.error ⟨INVALID_PARAMS, "nodal mcp has no tool called " ++ serde.quoted name⟩, calls)
      | some tool =>
        match check serde tool.schema arguments with
        | .error why => (.error why, calls)
        | .ok () =>
          match tool.command outside.hooks arguments with
          | .error why => (.error why, calls)
          | .ok command =>
            (.ok (match outside.runs calls command with
              | .ok said => content said false
              | .error why => refusal why), calls ++ [⟨tool.name, arguments, command⟩])

/-- What one method answers with. -/
def dispatch (serde : Serde) (outside : Outside) (message : Message) (calls : List Call) :
    Except Failure Json × List Call :=
  if message.method = "initialize" then (.ok (initialized outside), calls)
  else if message.method = "ping" then (.ok (.object []), calls)
  else if message.method = "tools/list" then (.ok listing, calls)
  else if message.method = "tools/call" then call serde outside message.params calls
  else
    (.error ⟨METHOD_NOT_FOUND, "nodal mcp does not answer " ++ serde.quoted message.method⟩, calls)

/-- The answer to one line, or nothing for a notification. -/
def answer (serde : Serde) (outside : Outside) (line : String) (calls : List Call) :
    Option Answer × List Call :=
  match Message.read serde line with
  | .error (id, failure) => (some (.failed id failure), calls)
  | .ok message =>
    match message.id with
    | none => (none, calls)
    | some id =>
      match dispatch serde outside message calls with
      | (.ok result, calls) => (some (.ofResult id result), calls)
      | (.error failure, calls) => (some (.failed id failure), calls)

/-! ### The session -/

/-- Why a session ended before its input did. -/
inductive Broken
  | stdin
  | stdout
  deriving DecidableEq

/-- What a session wrote and ran, and how it ended. -/
structure Session where
  answers : List Answer
  calls : List Call
  ended : Except Broken Unit

/-- The lines of an input, each with the newline that ends it. -/
def rawLines : List UInt8 → List (List UInt8)
  | [] => []
  | byte :: rest =>
    if byte = 10 then [byte] :: rawLines rest
    else match rawLines rest with
      | [] => [[byte]]
      | line :: lines => (byte :: line) :: lines

/-- A line as text, where it is UTF-8. -/
def decode (raw : List UInt8) : Option String := String.fromUTF8? ⟨raw.toArray⟩

def isBlank (line : String) : Bool := Text.trim line.toList = []

/-- Answer the lines that are left. -/
def serveFrom (serde : Serde) (outside : Outside) :
    List (List UInt8) → List Answer → List Call → Session
  | [], answers, calls => ⟨answers, calls, .ok ()⟩
  | raw :: rest, answers, calls =>
    match decode raw with
    | none => ⟨answers, calls, .error .stdin⟩
    | some line =>
      if isBlank line then serveFrom serde outside rest answers calls
      else match answer serde outside line calls with
        | (none, calls) => serveFrom serde outside rest answers calls
        | (some given, calls) =>
          if outside.takes answers then serveFrom serde outside rest (answers ++ [given]) calls
          else ⟨answers, calls, .error .stdout⟩

/-- Answer requests on an input until it ends. -/
def serve (serde : Serde) (outside : Outside) (input : List UInt8) : Session :=
  serveFrom serde outside (rawLines input) [] []

/-! ### Requests -/

/-- A line that is a message of the protocol: a request where it has an identifier, else a
notification. -/
structure Asks (serde : Serde) (raw : List UInt8) (id : Option Json) (method : String)
    (params : Json) : Prop where
  line : ∃ line members, decode raw = some line ∧ isBlank line = false ∧
    serde.parse line = .ok (.object members) ∧
    (Json.object members).get "jsonrpc" = some (.string VERSION) ∧
    (Json.object members).get "method" = some (.string method) ∧
    (Json.object members).get "id" = id ∧
    ((Json.object members).get "params").getD .null = params
  answerable : ∀ held, id = some held → isId held = true

/-- What is written for a line: one answer under the identifier of a request, and nothing for a
notification. -/
structure Replied (serde : Serde) (raw : List UInt8) (reply : List Answer) : Prop where
  request : ∀ id method params, Asks serde raw (some id) method params →
    ∃ given, reply = [given] ∧ given.id = id
  notification : ∀ method params, Asks serde raw none method params → reply = []
  single : reply.length ≤ 1

/-- What a request asks to be called. -/
structure Calls (serde : Serde) (raw : List UInt8) (tool : Tool) (arguments : Json) : Prop where
  asks : ∃ id params, Asks serde raw (some id) "tools/call" params ∧
    params.get "name" = some (.string tool.name) ∧
    (params.get "arguments").getD (.object []) = arguments
  offered : tool ∈ all

/-- A session that answered each request once, in their order, and ran a call only where its arguments
meet the schema of its tool. -/
structure Kept (serde : Serde) (input : List UInt8) (session : Session) : Prop where
  ended : session.ended = .ok ()
  replied : ∃ replies, session.answers = replies.flatten ∧
    List.Forall₂ (Replied serde) (rawLines input) replies
  called : ∀ call ∈ session.calls, ∃ tool raw, raw ∈ rawLines input ∧ tool.name = call.tool ∧
    Calls serde raw tool call.arguments ∧ Json.Meets tool.schema call.arguments
  withheld : ∀ call ∈ session.calls, call.tool ∉ WITHHELD.map Prod.fst

/-- An input of which every line is text, and in which no call that passes the check of its tool gives
`null` for an argument. -/
structure Clean (serde : Serde) (input : List UInt8) : Prop where
  text : ∀ raw ∈ rawLines input, decode raw ≠ none
  given : ∀ raw ∈ rawLines input, ∀ tool arguments, Calls serde raw tool arguments →
    check serde tool.schema arguments = .ok () → ∀ key, arguments.get key ≠ some .null

variable {serde : Serde} {outside : Outside} {raw : List UInt8} {line : String} {calls : List Call}

theorem asStr_eq_some {value : Json} {text : String} : value.asStr = some text ↔ value = .string text := by
  cases value <;> simp [Json.asStr]

/-- The identifier that is read is one an answer can go under. -/
theorem readId_eq_ok_iff {value : Json} {read : Option Json} :
    Message.readId serde value = .ok read ↔
      value.get "id" = read ∧ ∀ held, read = some held → isId held = true := by
  unfold Message.readId
  cases hid : value.get "id" with
  | none =>
    rw [Except.ok.injEq]
    constructor
    · rintro rfl
      exact ⟨rfl, fun held hheld ↦ (nomatch hheld)⟩
    · exact fun h ↦ h.1
  | some held =>
    by_cases hanswerable : isId held = true
    · simp only [if_pos hanswerable, Except.ok.injEq]
      constructor
      · rintro rfl
        exact ⟨rfl, fun other hother ↦ Option.some.inj hother ▸ hanswerable⟩
      · exact fun h ↦ h.1
    · simp only [if_neg hanswerable, reduceCtorEq, false_iff]
      rintro ⟨rfl, h⟩
      exact hanswerable (h held rfl)

/-- What is read as a message. -/
theorem read_eq_ok_iff {message : Message} : Message.read serde line = .ok message ↔
    ∃ members, serde.parse line = .ok (.object members) ∧
      (Json.object members).get "jsonrpc" = some (.string VERSION) ∧
      (Json.object members).get "method" = some (.string message.method) ∧
      (Json.object members).get "id" = message.id ∧
      ((Json.object members).get "params").getD .null = message.params ∧
      ∀ held, message.id = some held → isId held = true := by
  unfold Message.read
  cases hparse : serde.parse line with
  | error why => simp
  | ok value =>
    cases value with
    | object members =>
      simp only [Except.ok.injEq, Json.object.injEq, exists_eq_left']
      obtain ⟨method, id, params⟩ := message
      have hversion : ((Json.object members).get "jsonrpc").bind Json.asStr = some VERSION ↔
          (Json.object members).get "jsonrpc" = some (.string VERSION) := by
        cases (Json.object members).get "jsonrpc" <;> simp [asStr_eq_some]
      have hmethod : ((Json.object members).get "method").bind Json.asStr = some method ↔
          (Json.object members).get "method" = some (.string method) := by
        cases (Json.object members).get "method" <;> simp [asStr_eq_some]
      rw [← hversion, ← hmethod]
      cases hid : Message.readId serde (.object members) with
      | error why =>
        constructor
        · intro h
          cases h
        · rintro ⟨-, -, hget, -, hheld⟩
          rw [readId_eq_ok_iff.mpr ⟨hget, hheld⟩] at hid
          cases hid
      | ok read =>
        obtain ⟨hget, hanswerable⟩ := readId_eq_ok_iff.mp hid
        rw [hget]
        by_cases hspoken : ((Json.object members).get "jsonrpc").bind Json.asStr = some VERSION
        · cases hnamed : ((Json.object members).get "method").bind Json.asStr with
          | none => simp [hspoken, bind, Except.bind, throw, throwThe, MonadExceptOf.throw]
          | some name =>
            simp only [hspoken, bind, Except.bind, pure, Except.pure, ne_eq, not_true_eq_false,
              if_false, Except.ok.injEq, Message.mk.injEq, Option.some.injEq, true_and]
            constructor
            · rintro ⟨rfl, rfl, rfl⟩
              exact ⟨rfl, rfl, rfl, hanswerable⟩
            · rintro ⟨rfl, rfl, rfl, -⟩
              exact ⟨rfl, rfl, rfl⟩
        · simp [hspoken, bind, Except.bind, throw, throwThe, MonadExceptOf.throw]
    | _ => simp

theorem asks_iff (hdecode : decode raw = some line) (hblank : isBlank line = false)
    {id : Option Json} {method : String} {params : Json} :
    Asks serde raw id method params ↔ Message.read serde line = .ok ⟨method, id, params⟩ := by
  rw [read_eq_ok_iff]
  constructor
  · rintro ⟨⟨line', members, hline, -, hparse, hversion, hmethod, hid, hparams⟩, hanswerable⟩
    obtain rfl := Option.some.inj (hdecode.symm.trans hline)
    exact ⟨members, hparse, hversion, hmethod, hid, hparams, hanswerable⟩
  · rintro ⟨members, hparse, hversion, hmethod, hid, hparams, hanswerable⟩
    exact ⟨⟨line, members, hdecode, hblank, hparse, hversion, hmethod, hid, hparams⟩, hanswerable⟩

/-! ### The calls -/

theorem eq_of_name {tool tool' : Tool} (h : tool ∈ all) (h' : tool' ∈ all)
    (hname : tool.name = tool'.name) : tool = tool' := by
  have hnames : (all.map Tool.name).Nodup := by decide
  exact List.inj_on_of_nodup_map hnames h h' hname

/-- No tool is a withheld verb. -/
theorem not_withheld {tool : Tool} (h : tool ∈ all) : tool.name ∉ WITHHELD.map Prod.fst := by
  have hnone : ∀ name ∈ all.map Tool.name, name ∉ WITHHELD.map Prod.fst := by decide
  exact hnone _ (List.mem_map_of_mem h)

theorem find_tool {tool : Tool} (h : tool ∈ all) : all.find? (·.name = tool.name) = some tool := by
  cases hfind : all.find? (·.name = tool.name) with
  | none => simpa using List.find?_eq_none.mp hfind tool h
  | some found =>
    have hname := List.find?_some hfind
    rw [eq_of_name (List.mem_of_find?_eq_some hfind) h (of_decide_eq_true hname)]

/-- A call runs a tool whose check its arguments pass, or nothing. -/
theorem call_calls (params : Json) : (call serde outside params calls).2 = calls ∨
    ∃ tool ∈ all, ∃ command, params.get "name" = some (.string tool.name) ∧
      check serde tool.schema ((params.get "arguments").getD (.object [])) = .ok () ∧
      (call serde outside params calls).2 =
        calls ++ [⟨tool.name, (params.get "arguments").getD (.object []), command⟩] := by
  cases hname : (params.get "name").bind Json.asStr with
  | none =>
    left
    simp [call, hname]
  | some name =>
    obtain ⟨value, hvalue, hstr⟩ := Option.bind_eq_some_iff.mp hname
    rw [asStr_eq_some] at hstr
    subst hstr
    cases hwithheld : WITHHELD.find? (·.1 = name) with
    | some verb =>
      left
      simp [call, hname, hwithheld]
    | none =>
      cases hfind : all.find? (·.name = name) with
      | none =>
        left
        simp [call, hname, hwithheld, hfind]
      | some tool =>
        have htool : tool ∈ all := List.mem_of_find?_eq_some hfind
        have hsame := List.find?_some hfind
        obtain rfl : tool.name = name := of_decide_eq_true hsame
        cases hcheck : check serde tool.schema ((params.get "arguments").getD (.object [])) with
        | error why =>
          left
          simp [call, hname, hwithheld, hfind, hcheck]
        | ok u =>
          obtain ⟨-, -, -, hcommand⟩ := tool_published htool
          obtain ⟨command, hcommand⟩ := hcommand serde outside.hooks _ hcheck
          right
          refine ⟨tool, htool, command, hvalue, hcheck, ?_⟩
          simp [call, hname, hwithheld, hfind, hcheck, hcommand]

/-- A call that passes its tool's check runs it. -/
theorem call_of_check {params : Json} {tool : Tool} (htool : tool ∈ all)
    (hname : params.get "name" = some (.string tool.name))
    (hcheck : check serde tool.schema ((params.get "arguments").getD (.object [])) = .ok ()) :
    ∃ command, (call serde outside params calls).2 =
      calls ++ [⟨tool.name, (params.get "arguments").getD (.object []), command⟩] := by
  have hstr : (params.get "name").bind Json.asStr = some tool.name := by
    rw [hname]
    rfl
  have hwithheld : WITHHELD.find? (·.1 = tool.name) = none := by
    rw [List.find?_eq_none]
    intro verb hverb hsame
    exact not_withheld htool (of_decide_eq_true hsame ▸ List.mem_map_of_mem hverb)
  obtain ⟨-, -, -, hcommand⟩ := tool_published htool
  obtain ⟨command, hcommand⟩ := hcommand serde outside.hooks _ hcheck
  refine ⟨command, ?_⟩
  simp [call, hstr, hwithheld, find_tool htool, hcheck, hcommand]

theorem dispatch_calls (message : Message) : (dispatch serde outside message calls).2 =
    if message.method = "tools/call" then (call serde outside message.params calls).2 else calls := by
  unfold dispatch
  split_ifs with hinitialize hping hlist <;> simp_all

/-- What one line is answered, and what it runs. -/
structure Stepped (serde : Serde) (raw : List UInt8) (calls : List Call) (reply : Option Answer)
    (calls' : List Call) : Prop where
  replied : Replied serde raw reply.toList
  ran : calls' = calls ∨ ∃ tool arguments command, Calls serde raw tool arguments ∧
    check serde tool.schema arguments = .ok () ∧ calls' = calls ++ [⟨tool.name, arguments, command⟩]
  runs : ∀ tool arguments, Calls serde raw tool arguments →
    check serde tool.schema arguments = .ok () →
      ∃ command, calls' = calls ++ [⟨tool.name, arguments, command⟩]

theorem answer_stepped (hdecode : decode raw = some line) (hblank : isBlank line = false)
    (calls : List Call) :
    Stepped serde raw calls (answer serde outside line calls).1
      (answer serde outside line calls).2 := by
  have hasks {id : Option Json} {method : String} {params : Json}
      (h : Asks serde raw id method params) : Message.read serde line = .ok ⟨method, id, params⟩ :=
    (asks_iff hdecode hblank).mp h
  cases hread : Message.read serde line with
  | error why =>
    obtain ⟨id, failure⟩ := why
    have hnone {id : Option Json} {method : String} {params : Json} :
        ¬ Asks serde raw id method params := fun h ↦ by
      rw [hasks h] at hread
      cases hread
    have hanswer : answer serde outside line calls = (some (.failed id failure), calls) := by
      simp [answer, hread]
    rw [hanswer]
    refine ⟨⟨fun _ _ _ h ↦ absurd h hnone, fun _ _ h ↦ absurd h hnone, by simp⟩, .inl rfl, ?_⟩
    rintro tool arguments ⟨⟨id, params, h, -⟩, -⟩
    exact absurd h hnone
  | ok message =>
    obtain ⟨method, id, params⟩ := message
    have hsame {id' : Option Json} {method' : String} {params' : Json}
        (h : Asks serde raw id' method' params') : method' = method ∧ id' = id ∧ params' = params := by
      have hmessage := (hasks h).symm.trans hread
      simp only [Except.ok.injEq, Message.mk.injEq] at hmessage
      exact hmessage
    cases id with
    | none =>
      have hanswer : answer serde outside line calls = (none, calls) := by
        simp [answer, hread]
      rw [hanswer]
      refine ⟨⟨fun _ _ _ h ↦ (nomatch (hsame h).2.1), fun _ _ _ ↦ rfl, by simp⟩, .inl rfl, ?_⟩
      rintro tool arguments ⟨⟨id, params, h, -⟩, -⟩
      exact nomatch (hsame h).2.1
    | some id =>
      have hanswer : ∃ given, given.id = id ∧ answer serde outside line calls =
          (some given, (dispatch serde outside ⟨method, some id, params⟩ calls).2) := by
        unfold answer
        rw [hread]
        dsimp only
        cases hdispatch : dispatch serde outside ⟨method, some id, params⟩ calls with
        | mk result calls' =>
          cases result with
          | ok result => exact ⟨.ofResult id result, rfl, rfl⟩
          | error failure => exact ⟨.failed id failure, rfl, rfl⟩
      obtain ⟨given, hid, hanswer⟩ := hanswer
      have hhere : Asks serde raw (some id) method params := (asks_iff hdecode hblank).mpr hread
      rw [hanswer, dispatch_calls]
      refine ⟨⟨?_, fun _ _ h ↦ (nomatch (hsame h).2.1), by simp⟩, ?_, ?_⟩
      · intro id' method' params' h
        exact ⟨given, rfl, hid.trans (Option.some.inj (hsame h).2.1).symm⟩
      · by_cases hmethod : method = "tools/call"
        · subst hmethod
          rw [if_pos rfl]
          rcases @call_calls serde outside calls params with
            hnone | ⟨tool, htool, command, hname, hcheck, hcalls⟩
          · exact .inl hnone
          · exact .inr ⟨tool, _, command, ⟨⟨id, params, hhere, hname, rfl⟩, htool⟩, hcheck, hcalls⟩
        · exact .inl (if_neg hmethod)
      · rintro tool arguments ⟨⟨id', params', h, hname, rfl⟩, htool⟩ hcheck
        obtain ⟨rfl, -, rfl⟩ := hsame h
        rw [if_pos rfl]
        exact call_of_check htool hname hcheck

/-! ### The whole session -/

/-- A session that ended with its input read every line of it. -/
theorem decoded_of_ended {lines : List (List UInt8)} {answers : List Answer}
    (h : (serveFrom serde outside lines answers calls).ended = .ok ()) :
    ∀ raw ∈ lines, decode raw ≠ none := by
  induction lines generalizing answers calls with
  | nil => exact fun raw hraw ↦ absurd hraw List.not_mem_nil
  | cons raw rest ih =>
    rw [serveFrom] at h
    cases hdecode : decode raw with
    | none =>
      rw [hdecode] at h
      cases h
    | some line =>
      rw [hdecode] at h
      have hrest : ∀ raw ∈ rest, decode raw ≠ none := by
        dsimp only at h
        split at h
        · exact ih h
        · split at h
          · exact ih h
          · split at h
            · exact ih h
            · cases h
      refine List.forall_mem_cons.mpr ⟨?_, hrest⟩
      rw [hdecode]
      exact Option.some_ne_none line

/-- What a session of text lines adds to its answers and to its calls. -/
structure Ran (serde : Serde) (lines : List (List UInt8)) (replies : List (List Answer))
    (more : List Call) : Prop where
  replied : List.Forall₂ (Replied serde) lines replies
  called : ∀ call ∈ more, ∃ tool raw, raw ∈ lines ∧ tool.name = call.tool ∧
    Calls serde raw tool call.arguments ∧ check serde tool.schema call.arguments = .ok ()
  calls : ∀ raw ∈ lines, ∀ tool arguments, Calls serde raw tool arguments →
    check serde tool.schema arguments = .ok () →
      ∃ call ∈ more, call.tool = tool.name ∧ call.arguments = arguments

/-- One line more in front. -/
theorem Ran.cons {lines : List (List UInt8)} {replies : List (List Answer)} {more : List Call}
    (h : Ran serde lines replies more) {reply : Option Answer} {calls' : List Call}
    (hstep : Stepped serde raw calls reply calls') :
    ∃ first, calls' = calls ++ first ∧ Ran serde (raw :: lines) (reply.toList :: replies)
      (first ++ more) := by
  have hlater {first : List Call} (hfirst : ∀ call ∈ first, ∃ tool, tool.name = call.tool ∧
      Calls serde raw tool call.arguments ∧ check serde tool.schema call.arguments = .ok ())
      (hruns : ∀ tool arguments, Calls serde raw tool arguments →
        check serde tool.schema arguments = .ok () →
          ∃ call ∈ first, call.tool = tool.name ∧ call.arguments = arguments) :
      Ran serde (raw :: lines) (reply.toList :: replies) (first ++ more) := by
    refine ⟨.cons hstep.replied h.replied, ?_, ?_⟩
    · intro call hcall
      rcases List.mem_append.mp hcall with hcall | hcall
      · obtain ⟨tool, hname, hcalls, hcheck⟩ := hfirst call hcall
        exact ⟨tool, raw, List.mem_cons_self, hname, hcalls, hcheck⟩
      · obtain ⟨tool, other, hother, hname, hcalls, hcheck⟩ := h.called call hcall
        exact ⟨tool, other, List.mem_cons_of_mem _ hother, hname, hcalls, hcheck⟩
    · intro other hother tool arguments hcalls hcheck
      rcases List.mem_cons.mp hother with rfl | hother
      · obtain ⟨call, hcall, hsame⟩ := hruns tool arguments hcalls hcheck
        exact ⟨call, List.mem_append_left _ hcall, hsame⟩
      · obtain ⟨call, hcall, hsame⟩ := h.calls other hother tool arguments hcalls hcheck
        exact ⟨call, List.mem_append_right _ hcall, hsame⟩
  rcases hstep.ran with hnone | ⟨tool, arguments, command, hcalls, hcheck, hsome⟩
  · refine ⟨[], by rw [hnone, List.append_nil], hlater (by simp) ?_⟩
    intro tool arguments hcalls hcheck
    obtain ⟨command, hsome⟩ := hstep.runs tool arguments hcalls hcheck
    have hlength := congrArg List.length (hnone.symm.trans hsome)
    simp at hlength
  · refine ⟨[⟨tool.name, arguments, command⟩], hsome, hlater ?_ ?_⟩
    · intro call hcall
      obtain rfl := List.mem_singleton.mp hcall
      exact ⟨tool, rfl, hcalls, hcheck⟩
    · intro tool' arguments' hcalls' hcheck'
      obtain ⟨command', hsome'⟩ := hstep.runs tool' arguments' hcalls' hcheck'
      have hsame := List.append_cancel_left (hsome.symm.trans hsome')
      simp only [List.cons.injEq, Call.mk.injEq, and_true] at hsame
      exact ⟨_, List.mem_singleton_self _, hsame.1, hsame.2.1⟩

/-- A blank line is no message. -/
theorem blank_stepped (hdecode : decode raw = some line) (hblank : isBlank line = true) :
    Stepped serde raw calls none calls := by
  have hnone {id : Option Json} {method : String} {params : Json} :
      ¬ Asks serde raw id method params := by
    rintro ⟨⟨line', -, hline, hfull, -⟩, -⟩
    obtain rfl := Option.some.inj (hdecode.symm.trans hline)
    rw [hblank] at hfull
    cases hfull
  refine ⟨⟨fun _ _ _ h ↦ absurd h hnone, fun _ _ h ↦ absurd h hnone, by simp⟩, .inl rfl, ?_⟩
  rintro tool arguments ⟨⟨id, params, h, -⟩, -⟩
  exact absurd h hnone

/-- A session answers every line of its input in turn.
Assumes: every answer can be written, and every line is text. -/
theorem serveFrom_ran (htakes : ∀ answers, outside.takes answers = true)
    {lines : List (List UInt8)} (hdecode : ∀ raw ∈ lines, decode raw ≠ none)
    (answers : List Answer) (calls : List Call) : ∃ replies more,
      serveFrom serde outside lines answers calls =
        ⟨answers ++ replies.flatten, calls ++ more, .ok ()⟩ ∧ Ran serde lines replies more := by
  induction lines generalizing answers calls with
  | nil => exact ⟨[], [], by simp [serveFrom], ⟨.nil, by simp, by simp⟩⟩
  | cons raw rest ih =>
    obtain ⟨hraw, hrest⟩ := List.forall_mem_cons.mp hdecode
    obtain ⟨line, hline⟩ := Option.ne_none_iff_exists'.mp hraw
    obtain ⟨reply, calls', hstep, hserve⟩ : ∃ reply calls',
        Stepped serde raw calls reply calls' ∧ serveFrom serde outside (raw :: rest) answers calls =
          serveFrom serde outside rest (answers ++ reply.toList) calls' := by
      by_cases hblank : isBlank line = true
      · refine ⟨none, calls, blank_stepped hline hblank, ?_⟩
        rw [serveFrom, hline]
        simp [hblank]
      · have hfull : isBlank line = false := Bool.not_eq_true _ ▸ hblank
        have hstep := @answer_stepped serde outside raw line hline hfull calls
        refine ⟨_, _, hstep, ?_⟩
        rw [serveFrom, hline]
        dsimp only
        rw [if_neg hblank]
        cases answer serde outside line calls with
        | mk reply calls' =>
          cases reply with
          | none => simp
          | some given => simp [htakes]
    obtain ⟨replies, more, hsession, hran⟩ := ih hrest (answers ++ reply.toList) calls'
    obtain ⟨first, hfirst, hall⟩ := hran.cons hstep
    refine ⟨reply.toList :: replies, first ++ more, ?_, hall⟩
    rw [hserve, hsession, hfirst]
    simp

/-- Arguments meet the schema of a tool exactly where they pass its check and none is `null`. -/
theorem tool_meets_iff {tool : Tool} (htool : tool ∈ all) (serde : Serde) (arguments : Json) :
    Json.Meets tool.schema arguments ↔ check serde tool.schema arguments = .ok () ∧
      ∀ key, arguments.get key ≠ some .null := by
  obtain ⟨properties, keys, hpublished, -⟩ := tool_published htool
  exact meets_iff hpublished

section Kept

variable {input : List UInt8}

theorem clean_of_kept (htakes : ∀ answers, outside.takes answers = true)
    (h : Kept serde input (serve serde outside input)) : Clean serde input := by
  have htext : ∀ raw ∈ rawLines input, decode raw ≠ none := decoded_of_ended h.ended
  refine ⟨htext, fun raw hraw tool arguments hcalls hcheck ↦ ?_⟩
  obtain ⟨replies, more, hsession, hran⟩ := @serveFrom_ran serde outside htakes _ htext [] []
  obtain ⟨call, hcall, hname, rfl⟩ := hran.calls raw hraw tool arguments hcalls hcheck
  have hmem : call ∈ (serve serde outside input).calls := by
    rw [serve, hsession]
    exact hcall
  obtain ⟨tool', raw', _, hname', hcalls', hmet⟩ := h.called call hmem
  obtain rfl := eq_of_name hcalls'.offered hcalls.offered (hname'.trans hname)
  exact ((tool_meets_iff hcalls'.offered serde _).mp hmet).2

theorem kept_of_clean (htakes : ∀ answers, outside.takes answers = true)
    (h : Clean serde input) : Kept serde input (serve serde outside input) := by
  obtain ⟨replies, more, hsession, hran⟩ := @serveFrom_ran serde outside htakes _ h.text [] []
  have hcalled {call : Call} (hcall : call ∈ more) : ∃ tool raw, raw ∈ rawLines input ∧
      tool.name = call.tool ∧ Calls serde raw tool call.arguments ∧
        Json.Meets tool.schema call.arguments := by
    obtain ⟨tool, raw, hraw, hname, hcalls, hcheck⟩ := hran.called call hcall
    exact ⟨tool, raw, hraw, hname, hcalls, (tool_meets_iff hcalls.offered serde _).mpr
      ⟨hcheck, h.given raw hraw tool _ hcalls hcheck⟩⟩
  rw [serve, hsession]
  refine ⟨rfl, ⟨replies, rfl, hran.replied⟩, fun call hcall ↦ hcalled hcall, fun call hcall ↦ ?_⟩
  obtain ⟨tool, raw, _, hname, hcalls, _⟩ := hcalled hcall
  exact hname ▸ not_withheld hcalls.offered

end Kept

/-- A session is kept exactly where its input is clean.
Assumes: every answer can be written. -/
theorem kept_iff (serde : Serde) (outside : Outside)
    (htakes : ∀ answers, outside.takes answers = true) (input : List UInt8) :
    Kept serde input (serve serde outside input) ↔ Clean serde input :=
  ⟨clean_of_kept htakes, kept_of_clean htakes⟩

/-! ### A line that is not text, and an argument that is `null` -/

def pingLine : String := "\x7b\"jsonrpc\":\"2.0\",\"id\":1,\"method\":\"ping\"\x7d\n"

def ping : Json :=
  .object [("id", .number "1"), ("jsonrpc", .string "2.0"), ("method", .string "ping")]

/-- A call of `show` with an explicit `null` for the unit. -/
def showLine : String :=
  "\x7b\"jsonrpc\":\"2.0\",\"id\":1,\"method\":\"tools/call\",\"params\":" ++
    "\x7b\"name\":\"show\",\"arguments\":\x7b\"unit\":null\x7d\x7d\x7d\n"

def showNull : Json :=
  .object [("id", .number "1"), ("jsonrpc", .string "2.0"), ("method", .string "tools/call"),
    ("params", .object [("arguments", .object [("unit", .null)]), ("name", .string "show")])]

/-- What the two lines are read as. -/
def twoLines : Serde where
  parse line := if line = pingLine then .ok ping else if line = showLine then .ok showNull
    else .error "expected value at line 1 column 1"
  display _ := "null"
  quoted text := "\"" ++ text ++ "\""

def quiet : Outside where
  version := "0.1.0-rc.5"
  hooks := true
  runs _ _ := .error "no unit here"
  takes _ := true

def bytesOf (text : String) : List UInt8 := text.toUTF8.data.toList

theorem kept_iff_ping :
    Kept twoLines (bytesOf pingLine) (serve twoLines quiet (bytesOf pingLine)) ↔
      Clean twoLines (bytesOf pingLine) :=
  kept_iff twoLines quiet (fun _ ↦ rfl) (bytesOf pingLine)

/-- A line that is not text ends the session before the request after it, and a `null` the schema has
no place for is passed. -/
theorem session_not_kept :
    ¬ Kept twoLines ([255, 10] ++ bytesOf pingLine)
        (serve twoLines quiet ([255, 10] ++ bytesOf pingLine)) ∧
      ¬ Kept twoLines (bytesOf showLine) (serve twoLines quiet (bytesOf showLine)) := by
  constructor
  · intro hkept
    have hraw : [255, 10] ∈ rawLines ([255, 10] ++ bytesOf pingLine) := by decide +kernel
    have hbroken : decode [255, 10] = none := by decide +kernel
    exact (clean_of_kept (fun _ ↦ rfl) hkept).text _ hraw hbroken
  · intro hkept
    have hraw : bytesOf showLine ∈ rawLines (bytesOf showLine) := by decide +kernel
    have hline : decode (bytesOf showLine) = some showLine := by decide +kernel
    have hfull : isBlank showLine = false := by decide +kernel
    have hparse : twoLines.parse showLine = .ok showNull := by
      have hother : showLine ≠ pingLine := by decide +kernel
      simp only [twoLines, if_neg hother, if_true]
    have hasks : Asks twoLines (bytesOf showLine) (some (.number "1")) "tools/call"
        (.object [("arguments", .object [("unit", .null)]), ("name", .string "show")]) :=
      ⟨⟨showLine, _, hline, hfull, hparse, rfl, rfl, rfl, rfl⟩, fun held hheld ↦
        Option.some.inj hheld ▸ rfl⟩
    obtain ⟨tool, htool, hname, hcheck⟩ : ∃ tool ∈ all, tool.name = "show" ∧
        check twoLines tool.schema (.object [("unit", .null)]) = .ok () :=
      ⟨_, List.mem_append_left _ (List.mem_cons_of_mem _ List.mem_cons_self), rfl, rfl⟩
    have hcalls : Calls twoLines (bytesOf showLine) tool (.object [("unit", .null)]) :=
      ⟨⟨_, _, hasks, hname ▸ rfl, rfl⟩, htool⟩
    exact (clean_of_kept (fun _ ↦ rfl) hkept).given _ hraw tool _ hcalls hcheck "unit" rfl

end Nodal.Mcp
