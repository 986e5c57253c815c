import ClientBuild.CommandLine.Arguments
import ClientBuild.CommandLine.Usage
import ClientBuild.Generation.Encode
import ClientBuild.Generation.Session
import ClientBuild.Json.Outline
import ClientBuild.Settings.File

/-!
# Executing commands

A command finds its surroundings: the files, the environment, the backend.  It ends with an exit
code, what it prints, and the files as they are then.
-/

namespace ClientBuild.CommandLine

/-- How a command ends. -/
inductive ExitCode where
  | success
  /-- Something outside did not work. -/
  | failure
  /-- The settings, the source or the arguments make no sense. -/
  | invalidInput
  /-- The generated text was not what it always has to be. -/
  | generationFailed
  /-- A limit of the program itself was passed. -/
  | aborted
deriving DecidableEq, Repr, Inhabited

namespace ExitCode

/-- The number of an exit code. -/
def code : ExitCode → Nat
  | success => 0
  | failure => 1
  | invalidInput => 2
  | generationFailed => 3
  | aborted => 101

end ExitCode

/-- What a command finds outside. -/
structure Surroundings where
  store : Store
  /-- The settings file that the environment names. -/
  settingsVariable : Option String := none
  /-- The settings file of the user. -/
  userSettings : Option String := none
  /-- The project root that the build environment names. -/
  inputDir : Option String := none
  /-- What the backend answers at an address. -/
  answer : String → Option Json := fun _ => none
  /-- The time. -/
  now : String := ""
  /-- May results be coloured? -/
  color : Bool := false

/-- How a command ended. -/
structure Finish where
  exit : ExitCode
  output : String := ""
  /-- What is said when it did not work. -/
  complaint : String := ""
  store : Store

/-- The settings file of a project. -/
def projectSettings : String := "epsgen.toml"

/-- A value in a format. -/
def OutputFormat.render (f : OutputFormat) (color : Bool) (v : Json) : String :=
  match f with
  | .json => v.indented
  | .text => v.compact
  | .pretty => v.outline color

namespace Surroundings

/-- The settings file to read: the one asked for, or the project's, or the user's. -/
def settingsSource (w : Surroundings) (wanted : Option String) : Option String :=
  match wanted with
  | some p => some p
  | none =>
    if w.store.exists? projectSettings then some projectSettings
    else w.userSettings.filter w.store.exists?

/-- The settings, which are the defaults if there is no file; or why they cannot be had. -/
def settings (w : Surroundings) (wanted : Option String) : Except String Settings :=
  match w.settingsSource wanted with
  | none => .ok {}
  | some p =>
    match w.store.read? p with
    | none => .error s!"failed to read config file {p}"
    | some text =>
      match Settings.ofToml? text.toList with
      | some s => .ok s
      | none => .error s!"failed to parse config file {p}"

/-- End without a result. -/
def fail (w : Surroundings) (exit : ExitCode) (complaint : String) : Finish :=
  { exit, complaint, store := w.store }

/-- End with a result. -/
def answerWith (w : Surroundings) (format : OutputFormat) (v : Json) (store : Store) : Finish :=
  { exit := .success, output := format.render w.color v ++ "\n", store }

/-- What is shown when no run took place. -/
def skipped (status reason : String) : Json :=
  .object [("status", .string status), ("reason", .string reason)]

/-- Generate once. -/
def generate (w : Surroundings) (settings : Settings) (format : OutputFormat) : Finish :=
  match Generator.ofSettings settings with
  | .error e => w.fail .invalidInput e.message
  | .ok generator =>
    let env : Environment := { answer := w.answer, layout := Declaration.layout }
    let start : Session := { generator, store := w.store }
    let (session, outcome) := start.generate env
    let w := { w with store := session.store }
    match outcome with
    | .ok (.completed report) => w.answerWith format (report.toJson w.now) w.store
    | .ok .disabled =>
      w.answerWith format (skipped "skipped" "eps generation is disabled") w.store
    | .ok .coalesced =>
      w.answerWith format (skipped "coalesced" "a run was already in flight") w.store
    | .error e => w.fail (if e.isInvariantViolation then .generationFailed else .failure) e.message

/-- Adapt a source file: print the result, or put it in the place of the file. -/
def adapt (w : Surroundings) (settings : Settings) (format : OutputFormat) (kind : SourceKind)
    (file : String) (write : Bool) : Finish :=
  match w.store.read? file with
  | none => w.fail .failure s!"failed to read {file}"
  | some code =>
    let id := file.toList.map fun c => if c = '\\' then '/' else c
    match adaptSource kind settings id code.toList, write with
    | .error (.tooManyPlaces n), _ => w.fail .aborted (Failure.tooManyPlaces n).message
    | .error e, _ => w.fail .invalidInput (file ++ ": " ++ e.message)
    | .ok result, false =>
      { exit := .success, output := (result.map String.ofList).getD code, store := w.store }
    | .ok result, true =>
      let told := Json.object
        [("file", .string file), ("changed", .bool result.isSome),
         ("written", .bool result.isSome)]
      match result with
      | none => w.answerWith format told w.store
      | some text =>
        match w.store.write? file (String.ofList text) with
        | some store => w.answerWith format told store
        | none => w.fail .failure s!"failed to write {file}"

/-- Write a settings file with all defaults, unless there is one that is to be kept. -/
def initSettings (w : Surroundings) (format : OutputFormat) (path : String) (force : Bool) :
    Finish :=
  let told (created : Bool) (message : String) : Json :=
    .object [("created", .bool created), ("message", .string message), ("path", .string path)]
  if w.store.exists? path && !force then
    w.answerWith format
      (told false "configuration file already exists (use --force to overwrite)") w.store
  else
    match w.store.writeDeep path Settings.initialText with
    | (store, .ok ()) =>
      w.answerWith format (told true "configuration file created with default values") store
    | (store, .error _) => { exit := .failure, complaint := s!"failed to write {path}", store }

/-- Execute a command. -/
def execute (w : Surroundings) (i : Invocation) : Finish :=
  match i.command with
  | .initSettings force => w.initSettings i.format (i.settingsPath.getD projectSettings) force
  | .completions shell =>
    { exit := .success, output := completionScript shell, store := w.store }
  | command =>
    match w.settings i.settingsPath, command with
    | .error complaint, _ => w.fail .failure complaint
    | .ok s, .generate overrides =>
      w.generate ((overrides.apply s).withInputDir w.inputDir) i.format
    | .ok s, .adapt kind file write => w.adapt s i.format kind file write
    | .ok s, _ => w.answerWith i.format (s.withInputDir w.inputDir).toJson w.store

/-- Do what a list of arguments asks for. -/
def run (w : Surroundings) (args : List String) : Finish :=
  match Request.ofArguments w.settingsVariable args with
  | .invoke i => w.execute i
  | .help => { exit := .success, output := usage, store := w.store }
  | .version => { exit := .success, output := versionLine, store := w.store }
  | .invalid => { exit := .invalidInput, complaint := usage, store := w.store }

end Surroundings

end ClientBuild.CommandLine
