import ClientBuild.CommandLine.Clock
import ClientBuild.CommandLine.Execute
import Std.Time.DateTime

/-!
# The program

Takes the files that a command can look at into a store, lets `Surroundings.run` do the work on
it, and writes back what changed.  No backend is asked: whatever is generated comes from the
cache.
-/

namespace ClientBuild.CommandLine

/-- The starts of a path that end before a slash, and the path itself. -/
def pathStarts (p : String) : List String :=
  let pieces := Text.splitOn (· == '/') p.toList
  let starts := (List.range pieces.length).map fun n =>
    String.ofList (Text.join ['/'] (pieces.take (n + 1)))
  starts.filter fun q => !q.isEmpty

/-- Take into the store what stands at one path: a directory, or a file with its text. -/
def takeOne (s : Store) (p : String) : IO Store := do
  let here ← IO.currentDir
  if ← (here / p).isDir then
    pure (s.makeDirectories [] (FilePath.components p)).1
  else if ← (here / p).pathExists then
    try
      let text ← IO.FS.readFile (here / p)
      pure (s.writeDeep p text).1
    catch _ => pure s
  else pure s

/-- Take into the store what stands at a path and on the way there. -/
def takePath (s : Store) (p : String) : IO Store := (pathStarts p).foldlM takeOne s

/-- The files that a command looks at before it knows the settings. -/
def firstPaths (w : Surroundings) (i : Invocation) : List String :=
  let settings := [projectSettings] ++ w.userSettings.toList ++ i.settingsPath.toList
  match i.command with
  | .adapt _ file _ => file :: settings
  | _ => settings

/-- The files that a generator looks at. -/
def generatorPaths (w : Surroundings) (i : Invocation) : List String :=
  match i.command, w.settings i.settingsPath with
  | .generate overrides, .ok s =>
    let g : Generator := ⟨(overrides.apply s).withInputDir w.inputDir, {}⟩
    [g.cachePath, g.declarationPath]
  | _, _ => []

/-- Write the directories and files of a store that are new or differ. -/
def writeBack (old new : Store) : IO Unit := do
  let here ← IO.currentDir
  for l in new.directories do
    unless old.directories.contains l do
      IO.FS.createDirAll (here / Store.pathOf l)
  for (l, text) in new.files do
    unless old.fileAt? l = some text do
      IO.FS.writeFile (here / Store.pathOf l) text

/-- The settings file of the user, under the directory that the environment names. -/
def userSettingsPath : IO (Option String) := do
  match ← IO.getEnv "XDG_CONFIG_HOME", ← IO.getEnv "HOME" with
  | some dir, home =>
    if FilePath.isAbsolute dir then pure (some (FilePath.join dir "epsgen/config.toml"))
    else pure (home.map fun h => FilePath.join h ".config/epsgen/config.toml")
  | none, home => pure (home.map fun h => FilePath.join h ".config/epsgen/config.toml")

/-- The surroundings of the program, without any files. -/
def emptySurroundings : IO Surroundings := do
  let here ← IO.currentDir
  let depth := (FilePath.components here.toString).length - 1
  let now ← Std.Time.Timestamp.now
  let store : Store := { root := some (List.replicate depth "..") }
  pure
    { store
      settingsVariable := ← IO.getEnv "EPSGEN_CONFIG"
      userSettings := ← userSettingsPath
      inputDir := ← IO.getEnv "UNI_INPUT_DIR"
      now := universalTime now.toNanosecondsSinceUnixEpoch.val.toNat
      color := ← (← IO.getStdout).isTty }

/-- The surroundings of a list of arguments. -/
def surroundings (args : List String) : IO Surroundings := do
  let w ← emptySurroundings
  match Request.ofArguments w.settingsVariable args with
  | .invoke i =>
    let store ← (firstPaths w i).foldlM takePath w.store
    let w := { w with store }
    let store ← (generatorPaths w i).foldlM takePath w.store
    pure { w with store }
  | _ => pure w

end ClientBuild.CommandLine

open ClientBuild.CommandLine in
/-- Do what the arguments ask for. -/
def main (args : List String) : IO UInt32 := do
  let w ← surroundings args
  let finish := w.run args
  writeBack w.store finish.store
  IO.print finish.output
  unless finish.complaint.isEmpty do
    IO.eprintln finish.complaint
  pure finish.exit.code.toUInt32
