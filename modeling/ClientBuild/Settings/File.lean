import ClientBuild.Json.Printer
import ClientBuild.Settings.Encode
import ClientBuild.Toml.Document

/-!
# Settings files

Settings are kept in a TOML document, in which any of them may be missing.  `Settings.ofToml?`
reads one; `Settings.initialText` is the document that a project starts with.
-/

namespace ClientBuild.Settings

/-- A record given as the array of its values is the table of as many of them as there are keys;
the others are not looked at. -/
def named (keys : List String) (v : Toml.Value) : Toml.Value :=
  match v.items? with
  | some items => .table .inline (keys.zip items)
  | none => v

/-- Change the value of a member, if it is there. -/
def changeMember (key : String) (f : Toml.Value → Toml.Value) : Toml.Value → Toml.Value
  | .table form ms => .table form (ms.map fun m => if m.1 = key then (m.1, f m.2) else m)
  | v => v

/-- A target may stand as a table whose only key is its name, with nothing in it. -/
def targetName : Toml.Value → Toml.Value
  | .table _ [(name, .table _ [])] | .table _ [(name, .array [])] => .string name
  | v => v

/-- The rules of a mapping as tables. -/
def namedRules (v : Toml.Value) : Toml.Value :=
  match v.items? with
  | some rules => .array (rules.map (named ["type", "test"]))
  | none => v

/-- The settings of a document as `Settings.ofJson?` reads them. -/
def ofDocument (doc : Toml.Value) : Toml.Value :=
  let schema (v : Toml.Value) : Toml.Value :=
    changeMember "mapping" namedRules
      (named ["enable", "api", "dist", "timeout_ms", "mapping"] v)
  let style :=
    named ["enable", "rem_unit", "rem_precision", "rpx_ratio", "dark_text_class"]
  changeMember "target" targetName (changeMember "eps" schema
    (changeMember "tailwind" style (changeMember "svg" (named ["skip_names"]) doc)))

/-- Read the text of a settings file. -/
def ofToml? (text : List Char) : Option Settings := do
  let doc ← Toml.parse? text
  let v ← (ofDocument doc).toJson?
  Settings.ofJson? v

/-- The lines that set the members that are no tables. -/
def assignments (ms : List (String × Json)) : String :=
  String.join (ms.map fun
    | (_, .object _) => ""
    | (k, v) => k ++ " = " ++ v.compact ++ "\n")

/-- The tables among the members, each behind a blank line. -/
def sections (ms : List (String × Json)) : String :=
  String.join (ms.map fun
    | (k, .object inner) => "\n[" ++ k ++ "]\n" ++ assignments inner
    | _ => "")

/-- The document that sets every setting to its default.  Texts, numbers, truth values and arrays
of them are written in TOML as they are in JSON. -/
def initialText : String :=
  match Settings.toJson {} with
  | .object ms => assignments ms ++ sections ms
  | _ => ""

end ClientBuild.Settings
