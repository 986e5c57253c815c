import ClientBuild.Adaptation
import ClientBuild.Settings.Basic

/-!
# Commands

What the command line can ask for.
-/

namespace ClientBuild.CommandLine

/-- How results are written. -/
inductive OutputFormat where
  | json
  | text
  | pretty
deriving DecidableEq, Repr, Inhabited

namespace OutputFormat

/-- The format with a name. -/
def ofName? : String → Option OutputFormat
  | "json" => some json
  | "text" => some text
  | "pretty" => some pretty
  | _ => none

end OutputFormat

/-- A thing to do. -/
inductive Command where
  | generate (overrides : Overrides)
  /-- Adapt a source file; `write` puts the result in its place. -/
  | adapt (kind : SourceKind) (file : String) (write : Bool)
  /-- Write a settings file with all defaults; `force` overwrites one. -/
  | initSettings (force : Bool)
  | showSettings
  /-- Print the commands that a shell can complete. -/
  | completions (shell : String)

/-- A command with the options that every command has. -/
structure Invocation where
  command : Command
  format : OutputFormat := .pretty
  /-- The settings file named on the command line or by the environment. -/
  settingsPath : Option String := none
  verbose : Bool := false

/-- What a list of arguments asks for. -/
inductive Request where
  | invoke (i : Invocation)
  | help
  | version
  /-- The arguments do not make sense. -/
  | invalid

end ClientBuild.CommandLine
