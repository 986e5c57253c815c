/-!
# Ordered maps

A list of pairs with the order of insertion.  Setting the value of a key that is there keeps the
place of the key; a new key goes to the end.
-/

namespace ClientBuild.Assoc

variable {α : Type}

/-- The value of a key. -/
def get? (key : String) : List (String × α) → Option α
  | [] => none
  | (k, v) :: m => if k = key then some v else get? key m

/-- Change the value of a key; `f` sees the old value, if there is one. -/
def alter (key : String) (f : Option α → α) : List (String × α) → List (String × α)
  | [] => [(key, f none)]
  | (k, v) :: m => if k = key then (k, f (some v)) :: m else (k, v) :: alter key f m

/-- Set the value of a key. -/
def insert (key : String) (v : α) (m : List (String × α)) : List (String × α) :=
  alter key (fun _ => v) m

/-- The keys, in order. -/
def keys (m : List (String × α)) : List String := m.map (·.1)

/-- The map of a list of pairs, the later ones inserted after the earlier ones. -/
def ofPairs (ps : List (String × α)) : List (String × α) :=
  ps.foldl (fun m p => insert p.1 p.2 m) []

end ClientBuild.Assoc
