import ClientBuild.Json.Basic

/-!
# JSON as it is spelled

A text that follows the grammar of JSON need not spell a value: a string may hold half a surrogate
pair, a number may be out of range, and nesting may be too deep.  `Raw` is what such a text spells.
A reader that passes over a part of it never learns about these faults; a `Shape` says which parts
a reader keeps, and `Raw.fit?` makes a value of them.
-/

namespace ClientBuild.Json

/-- What a JSON text spells.  A string or a number without a value is `none`. -/
inductive Raw where
  | null
  | bool (b : Bool)
  | number (n : Option Number)
  | string (s : Option String)
  | array (items : List Raw)
  | object (members : List (Option String × Raw))
deriving Inhabited

/-- Which parts of a value a reader keeps. -/
inductive Shape where
  /-- All of it. -/
  | whole
  /-- The items of an array, each by the same shape. -/
  | list (item : Shape)
  /-- All members of an object, those with the given keys by the shapes for them. -/
  | open (fields : List (String × Shape))
  /-- The members of an object with the given keys, and no others; or the items of an array in the
  order of the keys. -/
  | closed (fields : List (String × Shape))
deriving Inhabited

namespace Shape

/-- The shape of the items of an array. -/
def item : Shape → Shape
  | list s => s
  | _ => whole

/-- The shape of the member with a key, or `none` if it is passed over. -/
def member? (key : String) : Shape → Option Shape
  | .open fields => some ((Assoc.get? key fields).getD whole)
  | closed fields => Assoc.get? key fields
  | _ => some whole

/-- The shapes of the first items of an array, where they differ. -/
def positions : Shape → List Shape
  | closed fields => fields.map (·.2)
  | _ => []

end Shape

/-- The deepest nesting of the arrays and objects that are kept. -/
def depthLimit : Nat := 127

namespace Raw

mutual

/-- The value of the parts that a shape keeps, nested at most `room` deep. -/
def fitIn? (room : Nat) (shape : Shape) : Raw → Option Json
  | null => some .null
  | bool b => some (.bool b)
  | number n => n.map .number
  | string s => s.map .string
  | array items =>
    if room = 0 then none else (fitItems? (room - 1) shape.item shape.positions items).map .array
  | object members =>
    if room = 0 then none else (fitMembers? (room - 1) shape members).map .object

/-- `fitIn?` on every item: the first ones by the shapes of their positions. -/
def fitItems? (room : Nat) (item : Shape) (positions : List Shape) : List Raw → Option (List Json)
  | [] => some []
  | v :: vs => do
    let w ← fitIn? room (positions.headD item) v
    let ws ← fitItems? room item positions.tail vs
    pure (w :: ws)

/-- `fitIn?` on every member that is kept. -/
def fitMembers? (room : Nat) (shape : Shape) :
    List (Option String × Raw) → Option (List (String × Json))
  | [] => some []
  | (key, v) :: ms => do
    let key ← key
    match shape.member? key with
    | none => fitMembers? room shape ms
    | some s =>
      let w ← fitIn? room s v
      let ws ← fitMembers? room shape ms
      pure ((key, w) :: ws)

end

/-- The value of the parts that a shape keeps. -/
def fit? (shape : Shape) (v : Raw) : Option Json := v.fitIn? depthLimit shape

end Raw

end ClientBuild.Json
