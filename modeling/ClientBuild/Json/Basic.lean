import ClientBuild.Assoc
import ClientBuild.Number.Binary64

/-!
# JSON values

Objects keep their members in the order of the text.  A value read from a text may hold a key
more than once; `Json.settled` is the value in which the last member of a key wins and stands
where the first one stood.
-/

namespace ClientBuild

/-- A number of a JSON text: an integer of at most 64 bits, or a binary64 number. -/
inductive Json.Number where
  | integer (i : Int)
  | float (x : Binary64)
deriving DecidableEq, Repr, Inhabited

/-- A JSON value. -/
inductive Json where
  | null
  | bool (b : Bool)
  | number (n : Json.Number)
  | string (s : String)
  | array (items : List Json)
  | object (members : List (String × Json))
deriving Repr, Inhabited

namespace Json

mutual

/-- The value with unique keys in every object. -/
def settled : Json → Json
  | .array items => .array (settledItems items)
  | .object members => .object (Assoc.ofPairs (settledMembers members))
  | v => v

/-- `settled` on every item. -/
def settledItems : List Json → List Json
  | [] => []
  | v :: vs => settled v :: settledItems vs

/-- `settled` on every member. -/
def settledMembers : List (String × Json) → List (String × Json)
  | [] => []
  | (k, v) :: ms => (k, settled v) :: settledMembers ms

end

/-- The value of a member. -/
def member? (key : String) : Json → Option Json
  | .object ms => Assoc.get? key ms
  | _ => none

/-- The text of a string value. -/
def string? : Json → Option String
  | .string s => some s
  | _ => none

/-- An integer value. -/
def ofNat (n : Nat) : Json := .number (.integer n)

/-- An array of strings. -/
def ofStrings (ss : List String) : Json := .array (ss.map .string)

end Json

end ClientBuild
