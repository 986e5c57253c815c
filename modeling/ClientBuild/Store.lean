import ClientBuild.Failure
import ClientBuild.FilePath

/-!
# A directory of files

A store is a working directory: the files and directories below it.  A path is resolved from
left to right, and whatever it passes through has to be a directory.  As directories lie in
directories, it is enough to look where the path goes up and at its end.  `Store.writeIfChanged`
is the only way in which the library changes a file.
-/

namespace ClientBuild

/-- A place below the working directory: the names that lead there. -/
abbrev Location := List String

/-- The files and directories of a working directory. -/
structure Store where
  files : List (Location × String) := []
  /-- The directories, of which those with a directory below them may be left out. -/
  directories : List Location := []
  /-- Where absolute paths start, if they lead into the store. -/
  root : Option Location := none
deriving DecidableEq, Repr, Inhabited

namespace Store

/-- The text of the file at a place. -/
def fileAt? (s : Store) (l : Location) : Option String :=
  (s.files.find? fun f => f.1 == l).map (·.2)

/-- Is there a directory?  Whatever a directory lies in is one; the working directory and those
above it always exist. -/
def isDirectory (s : Store) (l : Location) : Bool :=
  l.all (· == "..") || s.directories.any fun d => l.isPrefixOf d

/-- The place one level up. -/
def above (l : Location) : Location := if l.all (· == "..") then ".." :: l else l.dropLast

/-- Is the text short enough to name a file? -/
def isFileName (n : String) : Bool := n.utf8ByteSize ≤ 255

/-- Follow the components of a path.  The place found lies in a directory. -/
def resolve? (s : Store) (l : Location) : List FilePath.Component → Option Location
  | [] => if s.isDirectory l.dropLast then some l else none
  | .root :: cs => s.root.bind fun l => s.resolve? l cs
  | .here :: cs => s.resolve? l cs
  | .up :: cs => if s.isDirectory l then s.resolve? (above l) cs else none
  | .name n :: cs => if isFileName n then s.resolve? (l ++ [n]) cs else none

/-- The place that a path names. -/
def locate? (s : Store) (p : String) : Option Location :=
  if FilePath.isUsable p then s.resolve? [] (FilePath.components p) else none

/-- Does the text of a path say that it names a directory? -/
def namesDirectory (p : String) : Bool :=
  match (Text.splitOn (· == '/') p.toList).getLast? with
  | some last => last = [] || last = ['.'] || last = ['.', '.']
  | none => true

/-- The place that a path names, if the path may name a file. -/
def locateFile? (s : Store) (p : String) : Option Location :=
  if namesDirectory p then none else s.locate? p

/-- Read a file; whatever is not a readable file counts as absent. -/
def read? (s : Store) (p : String) : Option String := (s.locateFile? p).bind s.fileAt?

/-- Is there a file or a directory at a path? -/
def exists? (s : Store) (p : String) : Bool :=
  !p.isEmpty && ((s.locate? p).map s.isDirectory == some true || (s.read? p).isSome)

/-- Make a directory and those that it lies in. -/
def addDirectory (s : Store) (l : Location) : Store :=
  if s.isDirectory l then s else { s with directories := s.directories ++ [l] }

/-- Make the directories that a path passes through and ends at.  The first part is the store with
what could be made. -/
def makeDirectories (s : Store) (l : Location) :
    List FilePath.Component → Store × Option Location
  | [] => (s.addDirectory l, some l)
  | .root :: cs =>
    match s.root with
    | some l => makeDirectories s l cs
    | none => (s, none)
  | .here :: cs => makeDirectories s l cs
  | .up :: cs => makeDirectories (s.addDirectory l) (above l) cs
  | .name n :: cs =>
    let next := l ++ [n]
    if s.isDirectory next || (isFileName n && (s.fileAt? next).isNone) then
      makeDirectories s next cs
    else (s.addDirectory l, none)

/-- Make the directories that the last component of a path lies in. -/
def makeParent (s : Store) (p : String) : Store × Option Location :=
  let parent := FilePath.parent p
  if FilePath.isUsable parent then s.makeDirectories [] (FilePath.components parent)
  else (s, none)

/-- Set the text of the file at a place. -/
def setFile (s : Store) (l : Location) (text : String) : Store :=
  if (s.fileAt? l).isSome then
    { s with files := s.files.map fun f => if f.1 == l then (l, text) else f }
  else { s with files := s.files ++ [(l, text)] }

/-- Remove the file at a path, if there is one. -/
def remove (s : Store) (p : String) : Store :=
  match s.locateFile? p with
  | some l => { s with files := s.files.filter fun f => f.1 != l }
  | none => s

/-- Write a file whose directory exists already. -/
def write? (s : Store) (p : String) (text : String) : Option Store :=
  match s.locateFile? p with
  | none => none
  | some l => if s.isDirectory l then none else some (s.setFile l text)

/-- Write a file and make the directories it lies in.  The first part is the store afterwards,
also after a failure. -/
def writeDeep (s : Store) (p : String) (text : String) : Store × Except Failure Unit :=
  match s.makeParent p with
  | (s, none) => (s, .error (.io p ""))
  | (s, some _) =>
    match s.write? p text with
    | some s => (s, .ok ())
    | none => (s, .error (.io p ""))

/-- Write a file unless it holds exactly that text already; the answer says whether it was
written. -/
def writeIfChanged (s : Store) (p : String) (text : String) : Store × Except Failure Bool :=
  if s.read? p = some text then (s, .ok false)
  else
    match s.writeDeep p text with
    | (s, .ok ()) => (s, .ok true)
    | (s, .error e) => (s, .error e)

/-- The path of a place. -/
def pathOf (l : Location) : String := String.intercalate "/" l

/-- The files that differ between two states of a store: the new text, or nothing for a file that
is gone.  Files outside the working directory do not count. -/
def changes (before after : Store) : List (String × Option String) :=
  let inside (l : Location) : Bool := l.head? != some ".."
  let changed := after.files.filter fun f => inside f.1 && before.fileAt? f.1 != some f.2
  let gone := before.files.filter fun f => inside f.1 && (after.fileAt? f.1).isNone
  changed.map (fun f => (pathOf f.1, some f.2)) ++ gone.map fun f => (pathOf f.1, none)

end Store

end ClientBuild
