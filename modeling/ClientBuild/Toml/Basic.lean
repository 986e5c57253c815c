import ClientBuild.Json.Basic

/-!
# TOML values

A table remembers how it came about, because that decides whether a later line may add to it.  A
number that is well formed but beyond the limits is part of a document; only who looks at it
learns that it has no value.  Settings read a document as JSON, through `Toml.Value.toJson?`.
-/

namespace ClientBuild.Toml

/-- How a table came about. -/
inductive TableForm where
  /-- By a header of its own. -/
  | header
  /-- Only as a step on the way of a longer header. -/
  | implied
  /-- As a step of a dotted key. -/
  | dotted
  /-- In braces; nothing may be added to it. -/
  | inline
deriving DecidableEq, Repr, Inhabited

/-- A TOML value. -/
inductive Value where
  | string (s : String)
  | integer (i : Int)
  | float (x : Binary64)
  /-- A number that has no value within the limits. -/
  | unreadable (text : String)
  | bool (b : Bool)
  /-- A date, a time or both. -/
  | moment (text : String)
  | array (items : List Value)
  | table (form : TableForm) (members : List (String × Value))
  /-- An array that grows by one table with every header in double brackets. -/
  | tables (items : List (List (String × Value)))
deriving Repr, Inhabited

/-- The members of a table. -/
abbrev Members := List (String × Value)

/-- The items of an array of any form. -/
def Value.items? : Value → Option (List Value)
  | .array items => some items
  | .tables items => some (items.map (.table .header))
  | _ => none

mutual

/-- The JSON form of a value all of whose numbers are readable.  A date stands as an object that no
record has a key of. -/
def Value.toJson? : Value → Option Json
  | .string s => some (.string s)
  | .integer i => some (.number (.integer i))
  | .float x => some (.number (.float x))
  | .unreadable _ => none
  | .bool b => some (.bool b)
  | .moment text => some (.object [("moment", .string text)])
  | .array items => (itemsToJson? items).map .array
  | .table _ members => (membersToJson? members).map .object
  | .tables items => (tablesToJson? items).map .array

/-- `Value.toJson?` on every item. -/
def itemsToJson? : List Value → Option (List Json)
  | [] => some []
  | v :: vs => do
    let w ← v.toJson?
    let ws ← itemsToJson? vs
    pure (w :: ws)

/-- `Value.toJson?` on the value of every member. -/
def membersToJson? : List (String × Value) → Option (List (String × Json))
  | [] => some []
  | (k, v) :: ms => do
    let w ← v.toJson?
    let ws ← membersToJson? ms
    pure ((k, w) :: ws)

/-- `membersToJson?` on every table. -/
def tablesToJson? : List (List (String × Value)) → Option (List Json)
  | [] => some []
  | ms :: ts => do
    let w ← membersToJson? ms
    let ws ← tablesToJson? ts
    pure (.object w :: ws)

end

end ClientBuild.Toml
