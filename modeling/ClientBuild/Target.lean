import ClientBuild.Failure
import ClientBuild.Text.Blank

/-!
# Targets

A target is the platform that declarations are generated for.
-/

namespace ClientBuild

/-- The platform that declarations are generated for. -/
inductive Target where
  | admin
  | app
  | uniappX
deriving DecidableEq, Repr, Inhabited

namespace Target

/-- The name of a target. -/
def name : Target → String
  | admin => "admin"
  | app => "app"
  | uniappX => "uniapp-x"

/-- The path on the backend that answers the schema. -/
def schemaEndpoint : Target → String
  | admin => "/admin/base/open/eps"
  | app | uniappX => "/app/base/comm/eps"

/-- The first segment of the routes of a target. -/
def route : Target → String
  | admin => "/admin"
  | app | uniappX => "/app"

/-- Does the target get one module for all platforms instead of ambient declarations? -/
def isCrossPlatform : Target → Bool
  | uniappX => true
  | _ => false

/-- Does the target get only the routes for clients? -/
def isClient : Target → Bool
  | admin => false
  | _ => true

/-- The file that holds the declarations. -/
def declarationFile (t : Target) : String := if t.isCrossPlatform then "eps.ts" else "eps.d.ts"

/-- The target of an exact name. -/
def ofName? : String → Option Target
  | "admin" => some admin
  | "app" => some app
  | "uniapp-x" => some uniappX
  | _ => none

/-- The target that a text names: blanks around it and case do not matter. -/
def parse? (s : String) : Option Target :=
  match String.ofList ((Text.trim s.toList).map Char.toLower) with
  | "admin" => some admin
  | "app" => some app
  | "uniapp-x" | "uniappx" => some uniappX
  | _ => none

/-- The target that a text names, or the failure that says what is expected. -/
def parse (s : String) : Except Failure Target :=
  match parse? s with
  | some t => .ok t
  | none =>
    .error (.invalidArgument s!"invalid target: '{s}' (expected: admin, app, or uniapp-x)")

end Target

end ClientBuild
