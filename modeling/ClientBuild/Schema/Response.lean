import ClientBuild.Json.Record
import ClientBuild.Schema.Read

/-!
# Answers of the backend

The backend wraps what it answers in an envelope with a code, the data and a message.  The data
of a schema groups entities by module; the data of a dictionary lists its entries.
-/

namespace ClientBuild

open Json

/-- An answer of the backend. -/
structure Response (α : Type) where
  code : Int := 0
  data : Option α := none
  message : Option String := none
deriving Repr

namespace Response

/-- The code of success. -/
def successCode : Int := 1000

/-- Read an answer whose data `f` reads. -/
def ofJson? {α : Type} (f : Json → Option α) (v : Json) : Option (Response α) := do
  let r ← Record.closed? ["code", "data", "message"] v
  let code ← r.orDefault "code" (asInt (-(Nat.pow 2 63 : Nat)) (Nat.pow 2 63 : Nat)) 0
  let data ← r.optional "data" f
  let message ← r.optional "message" asString
  pure { code, data, message }

/-- Was the request successful? -/
def isSuccess {α : Type} (r : Response α) : Bool := r.code == successCode

/-- The message, or a general one where there is none. -/
def messageText {α : Type} (r : Response α) : String :=
  match r.message with
  | some m => if m.isEmpty then "Failed to fetch data" else m
  | none => "Failed to fetch data"

end Response

/-- The items of a group: those of a list, none of `null`, and any other value itself. -/
def groupItems : Json → List Json
  | .array items => items
  | .null => []
  | v => [v]

/-- The groups of a payload. -/
def payloadGroups : Json → List Json
  | .object members => members.map (·.2)
  | .array items => items
  | _ => []

/-- The entities of a payload, in its order.  Items that are no entities are left out. -/
def entitiesOfPayload (data : Json) : List Entity :=
  ((payloadGroups data).flatMap groupItems).filterMap Entity.ofJson?

/-- The entities of a successful schema answer; a success without data has none. -/
def schemaOfAnswer? (answer : Json) : Option (List Entity) := do
  let r ← Response.ofJson? asAny answer
  if r.isSuccess then pure ((r.data.map entitiesOfPayload).getD []) else none

/-- Read an entry of a dictionary: its key, if it has one. -/
def dictionaryKeyOfJson? (v : Json) : Option (Option String) := do
  let r ← Record.closed? ["key"] v
  r.optional "key" asString

/-- The keys of a successful dictionary answer. -/
def dictionaryOfAnswer? (answer : Json) : Option (List String) := do
  let r ← Response.ofJson? (asList dictionaryKeyOfJson?) answer
  if r.isSuccess then pure ((r.data.getD []).filterMap id) else none

end ClientBuild
