import ClientBuild.Json.Basic

/-!
# Reading records from JSON

A record is read from an object by its modelled keys; a key that stands twice is refused.  The
other members are its extra members.  A record without extra members may also be given as the
array of its values in the order of its keys, from which values may be missing at the end.
`none` says that a value does not fit.
-/

namespace ClientBuild.Json

/-- A string. -/
def asString : Json → Option String
  | .string s => some s
  | _ => none

/-- A truth value. -/
def asBool : Json → Option Bool
  | .bool b => some b
  | _ => none

/-- An integer from `low` on and below `high`. -/
def asInt (low high : Int) : Json → Option Int
  | .number (.integer i) => if low ≤ i ∧ i < high then some i else none
  | _ => none

/-- A natural below `bound`. -/
def asNat (bound : Nat) (v : Json) : Option Nat := (asInt 0 bound v).map Int.toNat

/-- A number, integers of at most 64 bits included, as a binary64 number. -/
def asFloat : Json → Option Binary64
  | .number (.integer i) =>
    (asInt (-(Nat.pow 2 63 : Nat)) (Nat.pow 2 64 : Nat) (.number (.integer i))).map Binary64.ofInt
  | .number (.float x) => some x
  | _ => none

/-- An array whose items all fit. -/
def asList {α : Type} (f : Json → Option α) : Json → Option (List α)
  | .array items => items.mapM f
  | _ => none

/-- Any value, with unique keys. -/
def asAny (v : Json) : Option Json := some v.settled

/-- The members of a record, those with modelled keys apart from the others. -/
structure Record where
  known : List (String × Json)
  extra : List (String × Json)

namespace Record

/-- No key twice. -/
def keysUnique : List (String × Json) → Bool
  | [] => true
  | (k, _) :: ms => !(ms.any fun m => m.1 == k) && keysUnique ms

/-- Split the members of an object by the modelled keys. -/
def ofMembers? (keys : List String) (members : List (String × Json)) : Option Record :=
  let known := members.filter fun m => keys.contains m.1
  let extra := members.filter fun m => !keys.contains m.1
  if keysUnique known then some ⟨known, Assoc.ofPairs (settledMembers extra)⟩ else none

/-- Read an object with modelled and extra members. -/
def open? (keys : List String) : Json → Option Record
  | .object members => ofMembers? keys members
  | _ => none

/-- Read an object, or the array of the values in the order of the keys. -/
def closed? (keys : List String) : Json → Option Record
  | .object members => ofMembers? keys members
  | .array items => if items.length ≤ keys.length then some ⟨keys.zip items, []⟩ else none
  | _ => none

/-- The value of a modelled key. -/
def get? (r : Record) (key : String) : Option Json := Assoc.get? key r.known

/-- A value that has to be there. -/
def required {α : Type} (r : Record) (key : String) (f : Json → Option α) : Option α :=
  (r.get? key).bind f

/-- A value with a default for its absence. -/
def orDefault {α : Type} (r : Record) (key : String) (f : Json → Option α) (d : α) : Option α :=
  match r.get? key with
  | none => some d
  | some v => f v

/-- A value with a default for its absence and for `null`. -/
def nullable {α : Type} (r : Record) (key : String) (f : Json → Option α) (d : α) : Option α :=
  match r.get? key with
  | none | some .null => some d
  | some v => f v

/-- A value that may be absent or `null`. -/
def optional {α : Type} (r : Record) (key : String) (f : Json → Option α) : Option (Option α) :=
  match r.get? key with
  | none | some .null => some none
  | some v => (f v).map some

end Record

end ClientBuild.Json
