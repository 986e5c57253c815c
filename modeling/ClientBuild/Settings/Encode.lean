import ClientBuild.Json.Record
import ClientBuild.Settings.Basic

/-!
# Settings as JSON

`Settings.ofJson?` reads settings of which any part may be missing; `Settings.toJson` writes all
of them.  A setting that is given has to fit: `null` stands for nothing here.
-/

namespace ClientBuild

open Json

/-- A target is written as its name, or as an object with its name as only key. -/
def Target.ofJson? : Json → Option Target
  | .string s => Target.ofName? s
  | .object [(k, .null)] => Target.ofName? k
  | _ => none

/-- Read a mapping rule; its type has to be given. -/
def MappingRule.ofJson? (v : Json) : Option MappingRule := do
  let r ← Record.closed? ["type", "test"] v
  let type ← r.required "type" asString
  let test ← r.orDefault "test" (asList asString) []
  pure { type, test }

/-- Read the schema settings. -/
def SchemaSettings.ofJson? (v : Json) : Option SchemaSettings := do
  let d : SchemaSettings := {}
  let r ← Record.closed? ["enable", "api", "dist", "timeout_ms", "mapping"] v
  let enable ← r.orDefault "enable" asBool d.enable
  let api ← r.orDefault "api" asString d.api
  let dist ← r.orDefault "dist" asString d.dist
  let timeoutMs ← r.orDefault "timeout_ms" (asNat (Nat.pow 2 64)) d.timeoutMs
  let mapping ← r.orDefault "mapping" (asList MappingRule.ofJson?) d.mapping
  pure { enable, api, dist, timeoutMs, mapping }

/-- Read the style settings. -/
def StyleSettings.ofJson? (v : Json) : Option StyleSettings := do
  let d : StyleSettings := {}
  let r ← Record.closed?
    ["enable", "rem_unit", "rem_precision", "rpx_ratio", "dark_text_class"] v
  let enable ← r.orDefault "enable" asBool d.enable
  let remUnit ← r.orDefault "rem_unit" asFloat d.remUnit
  let remPrecision ← r.orDefault "rem_precision" (asNat (Nat.pow 2 32)) d.remPrecision
  let rpxRatio ← r.orDefault "rpx_ratio" asFloat d.rpxRatio
  let darkTextClass ← r.orDefault "dark_text_class" asString d.darkTextClass
  pure { enable, remUnit, remPrecision, rpxRatio, darkTextClass }

/-- Read the icon settings. -/
def IconSettings.ofJson? (v : Json) : Option IconSettings := do
  let d : IconSettings := {}
  let r ← Record.closed? ["skip_names"] v
  let skipNames ← r.orDefault "skip_names" (asList asString) d.skipNames
  pure { skipNames }

/-- Read all settings. -/
def Settings.ofJson? (v : Json) : Option Settings := do
  let d : Settings := {}
  let r ← Record.closed? ["target", "req_url", "root_dir", "eps", "tailwind", "svg"] v
  let target ← r.orDefault "target" Target.ofJson? d.target
  let reqUrl ← r.orDefault "req_url" asString d.reqUrl
  let rootDir ← r.orDefault "root_dir" asString d.rootDir
  let schema ← r.orDefault "eps" SchemaSettings.ofJson? d.schema
  let style ← r.orDefault "tailwind" StyleSettings.ofJson? d.style
  let icon ← r.orDefault "svg" IconSettings.ofJson? d.icon
  pure { target, reqUrl, rootDir, schema, style, icon }

/-- A mapping rule as an object. -/
def MappingRule.toJson (r : MappingRule) : Json :=
  .object [("type", .string r.type), ("test", .ofStrings r.test)]

/-- All settings as an object, in a fixed order. -/
def Settings.toJson (s : Settings) : Json :=
  .object
    [("target", .string s.target.name),
     ("req_url", .string s.reqUrl),
     ("root_dir", .string s.rootDir),
     ("eps", .object
       [("enable", .bool s.schema.enable),
        ("api", .string s.schema.api),
        ("dist", .string s.schema.dist),
        ("timeout_ms", .ofNat s.schema.timeoutMs),
        ("mapping", .array (s.schema.mapping.map MappingRule.toJson))]),
     ("tailwind", .object
       [("enable", .bool s.style.enable),
        ("rem_unit", .number (.float s.style.remUnit)),
        ("rem_precision", .ofNat s.style.remPrecision),
        ("rpx_ratio", .number (.float s.style.rpxRatio)),
        ("dark_text_class", .string s.style.darkTextClass)]),
     ("svg", .object [("skip_names", .ofStrings s.icon.skipNames)])]

end ClientBuild
