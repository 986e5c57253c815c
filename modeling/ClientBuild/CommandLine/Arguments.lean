import ClientBuild.CommandLine.Command

/-!
# Reading arguments

Commands form a tree, and every argument belongs to the command that was named last: its options,
its file, or the command below it.  Options that every command has may stand anywhere; the one
that stands deepest in the tree counts.  Two dashes end the options.  The environment names a
settings file where the arguments name none.
-/

namespace ClientBuild.CommandLine

/-- A place in the tree of commands. -/
inductive Level where
  | root
  | generate
  | adapt (kind : SourceKind)
  | settings
  | initSettings
  | showSettings
  | completions
deriving DecidableEq, Repr, Inhabited

/-- An option: with a value, or a flag. -/
inductive Switch where
  | format
  | settingsPath
  | verbose
  | target
  | reqUrl
  | dist
  | api
  | write
  | force
  | help
  | version
deriving DecidableEq, Repr, Inhabited

namespace Switch

/-- Does the option take a value? -/
def takesValue : Switch → Bool
  | format | settingsPath | target | reqUrl | dist | api => true
  | _ => false

end Switch

namespace Level

/-- The command of a name below a place. -/
def below? : Level → String → Option Level
  | root, "generate" => some generate
  | root, "transform" => some (adapt .markup)
  | root, "css" => some (adapt .style)
  | root, "locale" => some (adapt .locale)
  | root, "config" => some settings
  | root, "completions" => some completions
  | settings, "init" => some initSettings
  | settings, "show" => some showSettings
  | _, _ => none

/-- Does the word ask for help on the commands below a place? -/
def asksForHelp (l : Level) (word : String) : Bool :=
  word == "help" && (l = root || l = settings)

/-- The option behind two dashes. -/
def long? : Level → String → Option Switch
  | _, "format" => some .format
  | _, "config" => some .settingsPath
  | _, "verbose" => some .verbose
  | _, "help" => some .help
  | root, "version" => some .version
  | generate, "target" => some .target
  | generate, "req-url" => some .reqUrl
  | generate, "dist" => some .dist
  | generate, "api" => some .api
  | adapt _, "write" => some .write
  | initSettings, "force" => some .force
  | _, _ => none

/-- The flag behind one dash. -/
def short? : Level → Char → Option Switch
  | _, 'v' => some .verbose
  | _, 'h' => some .help
  | root, 'V' => some .version
  | adapt _, 'w' => some .write
  | _, _ => none

end Level

/-- What has been read so far. -/
structure Draft where
  level : Level := .root
  /-- The options given since the last command. -/
  given : List Switch := []
  /-- Was a settings file named for the root and every command so far but the last one? -/
  settingsNamed : Bool := true
  /-- An option that waits for its value. -/
  pending : Option Switch := none
  /-- Options are over. -/
  onlyWords : Bool := false
  word : Option String := none
  format : OutputFormat := .pretty
  settingsPath : Option String := none
  verbose : Bool := false
  overrides : Overrides := {}
  write : Bool := false
  force : Bool := false

namespace Draft

/-- Note that an option was given; no option may be given twice for one command. -/
def note (d : Draft) (o : Switch) : Option Draft :=
  if d.given.contains o then none else some { d with given := o :: d.given, pending := none }

/-- A path, which must not be empty. -/
def path? (s : String) : Option String := if s.isEmpty then none else some s

/-- Give an option its value. -/
def withValue (d : Draft) (o : Switch) (v : String) : Option Draft := do
  let d ← d.note o
  match o with
  | .format => pure { d with format := ← OutputFormat.ofName? v }
  | .settingsPath => pure { d with settingsPath := some (← path? v) }
  | .target => pure { d with overrides := { d.overrides with target := some (← Target.ofName? v) } }
  | .reqUrl => pure { d with overrides := { d.overrides with reqUrl := some v } }
  | .dist => pure { d with overrides := { d.overrides with dist := some (← path? v) } }
  | .api => pure { d with overrides := { d.overrides with api := some v } }
  | _ => none

/-- Set a flag. -/
def withFlag (d : Draft) (o : Switch) : Option Draft := do
  let d ← d.note o
  match o with
  | .verbose => pure { d with verbose := true }
  | .write => pure { d with write := true }
  | .force => pure { d with force := true }
  | _ => none

/-- The shells that completions are known for. -/
def shells : List String := ["bash", "elvish", "fish", "powershell", "zsh"]

/-- A word that is no option: the file to adapt, or the shell. -/
def withWord (d : Draft) (w : String) : Option Draft :=
  if d.word.isSome || w.isEmpty then none
  else
    match d.level with
    | .adapt _ => some { d with word := some w }
    | .completions => if shells.contains w then some { d with word := some w } else none
    | _ => none

/-- The command behind all arguments. -/
def command? (d : Draft) : Option Command :=
  match d.level, d.word with
  | .generate, _ => some (.generate d.overrides)
  | .adapt kind, some file => some (.adapt kind file d.write)
  | .initSettings, _ => some (.initSettings d.force)
  | .showSettings, _ => some .showSettings
  | .completions, some shell => some (.completions shell)
  | _, _ => none

/-- Was a settings file named for the root and every command so far? -/
def namesSettings (d : Draft) : Bool := d.settingsNamed && d.given.contains .settingsPath

/-- Go on behind the name of a command. -/
def descend (d : Draft) (l : Level) : Draft :=
  { d with level := l, given := [], settingsNamed := d.namesSettings }

/-- The request behind all arguments; `fallback` is the settings file named by the environment.  It
stands in wherever none was named, so there it must not be empty. -/
def finish (d : Draft) (fallback : Option String) : Request :=
  if d.pending.isSome || (fallback == some "" && !d.namesSettings) then .invalid
  else
    match d.command? with
    | none => .invalid
    | some c =>
      .invoke
        { command := c, format := d.format, settingsPath := d.settingsPath.or fallback,
          verbose := d.verbose }

end Draft

/-- What an argument leads to. -/
inductive Progress where
  | next (d : Draft)
  | done (r : Request)

namespace Progress

/-- Go on if there is a draft. -/
def ofDraft? : Option Draft → Progress
  | some d => .next d
  | none => .done .invalid

end Progress

namespace Draft

/-- An option, which may have a value attached. -/
def option (d : Draft) (o : Switch) (attached : Option String) : Progress :=
  match o, attached with
  | .help, none => .done .help
  | .version, none => .done .version
  | o, some v => .ofDraft? (if o.takesValue then d.withValue o v else none)
  | o, none => if o.takesValue then .next { d with pending := some o } else .ofDraft? (d.withFlag o)

/-- An argument behind two dashes. -/
def long (d : Draft) (text : List Char) : Progress :=
  let name := String.ofList (text.takeWhile (· != '='))
  let attached := match text.dropWhile (· != '=') with
    | '=' :: v => some (String.ofList v)
    | _ => none
  match d.level.long? name with
  | some o => d.option o attached
  | none => .done .invalid

/-- An argument of flags behind one dash. -/
def shorts (d : Draft) : List Char → Progress
  | [] => .next d
  | c :: cs =>
    match d.level.short? c with
    | none => .done .invalid
    | some o =>
      match d.option o none with
      | .next d => shorts d cs
      | done => done

/-- The names behind the word `help` have to be names of commands; the last one may be `help`. -/
def helpOn (l : Level) : List String → Request
  | [] => .help
  | w :: ws =>
    match l.below? w with
    | some l => helpOn l ws
    | none => if l.asksForHelp w && ws.isEmpty then .help else .invalid

/-- A word that is not the value of an option. -/
def plain (d : Draft) (w : String) : Progress :=
  match d.level.below? w with
  | some l => .next (d.descend l)
  | none => .ofDraft? (d.withWord w)

/-- One argument. -/
def step (d : Draft) (arg : String) : Progress :=
  match d.onlyWords, d.pending, arg.toList with
  | true, _, _ => .ofDraft? (d.withWord arg)
  | false, some _, '-' :: _ :: _ => .done .invalid
  | false, some o, _ => .ofDraft? (d.withValue o arg)
  | false, none, ['-', '-'] => .next { d with onlyWords := true }
  | false, none, '-' :: '-' :: text => d.long text
  | false, none, '-' :: c :: cs => d.shorts (c :: cs)
  | false, none, _ => d.plain arg

/-- The request of the arguments from `d` on. -/
def read (fallback : Option String) (d : Draft) : List String → Request
  | [] => d.finish fallback
  | arg :: args =>
    if d.pending.isNone && !d.onlyWords && d.level.asksForHelp arg then helpOn d.level args
    else
      match d.step arg with
      | .next d => read fallback d args
      | .done r => r

end Draft

/-- What a list of arguments asks for; `fallback` is the settings file that the environment
names. -/
def Request.ofArguments (fallback : Option String) (args : List String) : Request :=
  Draft.read fallback {} args

end ClientBuild.CommandLine
