import ClientBuild.FilePath
import ClientBuild.Number.Binary64
import ClientBuild.Target
import ClientBuild.Text.Blank
import ClientBuild.Text.Search

/-!
# Settings

The settings of a project: where its backend is, how column types map to declared types, how
utility classes and units are adapted.  Every setting has a default.
-/

namespace ClientBuild

/-- A mapping rule: every column type listed in `test` is declared as `type`. -/
structure MappingRule where
  type : String
  test : List String
deriving DecidableEq, Repr, Inhabited

namespace MappingRule

/-- The rules that are tried after those of the settings. -/
def builtIn : List MappingRule :=
  [⟨"string", ["varchar", "text", "simple-json"]⟩,
   ⟨"string[]", ["simple-array"]⟩,
   ⟨"Date", ["datetime", "date"]⟩,
   ⟨"number", ["tinyint", "int", "decimal"]⟩,
   ⟨"BigInt", ["bigint"]⟩,
   ⟨"any", ["json"]⟩]

end MappingRule

/-- Settings of the schema and its declarations. -/
structure SchemaSettings where
  enable : Bool := true
  /-- The endpoint to use instead of the target's: a target's name or a path. -/
  api : String := ""
  /-- The output directory, relative to the project root. -/
  dist : String := "./build/cool"
  timeoutMs : Nat := 5000
  mapping : List MappingRule := []
deriving DecidableEq, Repr, Inhabited

/-- How utility classes and units are adapted. -/
structure StyleSettings where
  enable : Bool := true
  /-- The number of px that one rem stands for. -/
  remUnit : Binary64 := Binary64.ofInt 14
  /-- Decimal places of the lengths computed. -/
  remPrecision : Nat := 6
  /-- The number of rpx in one px. -/
  rpxRatio : Binary64 := Binary64.ofInt 2
  /-- The class that text tags get for dark mode. -/
  darkTextClass : String := "dark:text-surface-50"
deriving DecidableEq, Repr, Inhabited

/-- Settings of icon names. -/
structure IconSettings where
  skipNames : List String := ["base"]
deriving DecidableEq, Repr, Inhabited

/-- All settings of a project. -/
structure Settings where
  target : Target := .admin
  reqUrl : String := ""
  rootDir : String := "."
  schema : SchemaSettings := {}
  style : StyleSettings := {}
  icon : IconSettings := {}
deriving DecidableEq, Repr, Inhabited

/-- The number of rpx in one rem. -/
def StyleSettings.rpxFactor (s : StyleSettings) : Binary64 := s.remUnit.mul s.rpxRatio

namespace Settings

/-- The path on the backend that answers the schema: the one of the settings, where the name of
a target stands for that target's path, or the one of the target. -/
def schemaEndpoint (s : Settings) : String :=
  let api := String.ofList (Text.trim s.schema.api.toList)
  if api.isEmpty then s.target.schemaEndpoint
  else
    match Target.parse? api with
    | some named => named.schemaEndpoint
    | none => api

/-- The first segment of the schema endpoint, which routes do not repeat in the declarations. -/
def namespaceId (s : Settings) : String :=
  match Text.splitOn (· == '/') s.schemaEndpoint.toList with
  | _ :: second :: _ => String.ofList second
  | _ => ""

/-- The address of the schema. -/
def schemaUrl (s : Settings) : String := s.reqUrl ++ s.schemaEndpoint

/-- The address of the dictionary keys. -/
def dictUrl (s : Settings) : String := s.reqUrl ++ s.target.route ++ "/dict/info/types"

/-- The output directory. -/
def distDir (s : Settings) : String := FilePath.join s.rootDir s.schema.dist

/-- Refuse a timeout of zero and conversion factors that are not positive. -/
def validate (s : Settings) : Except Failure Unit :=
  if s.schema.timeoutMs = 0 then
    .error (.config "eps.timeout_ms must be greater than zero")
  else if s.style.remUnit.leZero || s.style.rpxRatio.leZero then
    .error (.config "tailwind.rem_unit and tailwind.rpx_ratio must be positive")
  else .ok ()

/-- The project root that the build environment names is taken for client targets whose settings
do not name another one than the working directory. -/
def withInputDir (s : Settings) (inputDir : Option String) : Settings :=
  match inputDir with
  | some dir =>
    if !s.target.isClient || !FilePath.same s.rootDir "." || dir.isEmpty then s
    else { s with rootDir := dir }
  | none => s

end Settings

/-- Settings given on the command line, which win over those of the file. -/
structure Overrides where
  target : Option Target := none
  reqUrl : Option String := none
  dist : Option String := none
  api : Option String := none
deriving DecidableEq, Repr, Inhabited

/-- The settings with the overrides in place. -/
def Overrides.apply (o : Overrides) (s : Settings) : Settings :=
  { s with
    target := o.target.getD s.target
    reqUrl := o.reqUrl.getD s.reqUrl
    schema := { s.schema with
      dist := o.dist.getD s.schema.dist
      api := o.api.getD s.schema.api } }

end ClientBuild
