import ClientBuild.Settings.Basic

/-!
# Types of columns

The rules of a mapping are tried in order: special rules first, then lists of column types.  A
column type that no rule covers is declared as it is.
-/

namespace ClientBuild

/-- A special rule: it answers `result` for the property and the column type that it names, and
declines without a result or with an empty one. -/
structure SpecialRule where
  property : Option String := none
  column : Option String := none
  result : Option String := none
deriving DecidableEq, Repr, Inhabited

namespace SpecialRule

/-- What the rule answers for a column. -/
def apply (r : SpecialRule) (property column : String) : Option String :=
  let agrees (wanted : Option String) (given : String) : Bool := (wanted.map (· == given)).getD true
  if agrees r.property property && agrees r.column column then
    r.result.filter fun t => !t.isEmpty
  else none

end SpecialRule

/-- A mapping from columns to declared types. -/
structure TypeMap where
  special : List SpecialRule := []
  rules : List MappingRule := []
deriving DecidableEq, Repr, Inhabited

namespace TypeMap

/-- The mapping of the settings: their rules in front of the built-in ones. -/
def ofRules (rules : List MappingRule) : TypeMap := { rules := rules ++ MappingRule.builtIn }

/-- The declared type of a column. -/
def typeOf (m : TypeMap) (property column : String) : String :=
  match m.special.findSome? (·.apply property column) with
  | some t => t
  | none =>
    match m.rules.find? fun r => r.test.contains column with
    | some r => r.type
    | none => column

end TypeMap

end ClientBuild
