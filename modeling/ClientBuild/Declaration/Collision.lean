/-!
# Collisions

What was left out of the declarations, and why.
-/

namespace ClientBuild

/-- Why something was left out. -/
inductive CollisionKind where
  /-- Another entity has the name already. -/
  | entityName
  /-- The name cannot be declared. -/
  | illegalName
  /-- The key has another shape already. -/
  | flattenKey
deriving DecidableEq, Repr, Inhabited

namespace CollisionKind

/-- The name of a kind. -/
def name : CollisionKind → String
  | entityName => "entity-name"
  | illegalName => "illegal-name"
  | flattenKey => "flatten-key"

end CollisionKind

/-- A name that was left out, with what tells it apart from others. -/
structure Collision where
  kind : CollisionKind
  name : String
  detail : String
deriving DecidableEq, Repr, Inhabited

namespace Collision

/-- The wording of a collision. -/
def message (c : Collision) : String := s!"[{c.kind.name}] {c.name} ({c.detail})"

end Collision

end ClientBuild
