import ClientBuild.Text.Search

/-!
# File paths

A path is a text with slashes between its components.  Repeated slashes and single dots behind
the start do not count; `FilePath.components` is what a path names.
-/

namespace ClientBuild.FilePath

/-- A component of a path. -/
inductive Component where
  /-- The slash that an absolute path starts with. -/
  | root
  /-- A single dot at the start of a relative path. -/
  | here
  /-- Two dots. -/
  | up
  | name (n : String)
deriving DecidableEq, Repr, Inhabited

/-- Is the path absolute? -/
def isAbsolute (p : String) : Bool := Text.startsWith ['/'] p.toList

/-- The component of a piece between slashes; empty pieces and dots have none. -/
def component? (piece : List Char) : Option Component :=
  match piece with
  | [] => none
  | ['.'] => none
  | ['.', '.'] => some .up
  | n => some (.name (String.ofList n))

/-- The components of a path. -/
def components (p : String) : List Component :=
  let pieces := Text.splitOn (· == '/') p.toList
  let body := pieces.filterMap component?
  match pieces with
  | [] :: _ :: _ => .root :: body
  | ['.'] :: _ => .here :: body
  | _ => body

/-- Drop the pieces at the end that have no component. -/
def trimPieces (pieces : List (List Char)) : List (List Char) :=
  (pieces.reverse.dropWhile fun piece => (component? piece).isNone).reverse

/-- The path in front of the last component; it is empty if there is no other component. -/
def parent (p : String) : String :=
  match Text.splitOn (· == '/') p.toList with
  | [] => ""
  | first :: rest =>
    let rest := trimPieces rest
    let above := trimPieces rest.dropLast
    if rest.isEmpty then ""
    else if first.isEmpty && above.isEmpty then "/"
    else String.ofList (Text.join ['/'] (first :: above))

/-- The most bytes that the text of a path may have. -/
def maxSize : Nat := 4095

/-- Can the text be used as a path at all? -/
def isUsable (p : String) : Bool := p.utf8ByteSize ≤ maxSize && !p.toList.contains '\x00'

/-- Append a path: an absolute one replaces, and a slash is added only where it is missing. -/
def join (base tail : String) : String :=
  if isAbsolute tail then tail
  else if base.isEmpty || Text.endsWith ['/'] base.toList then base ++ tail
  else base ++ "/" ++ tail

/-- Do two texts name the same path? -/
def same (p q : String) : Bool := components p == components q

end ClientBuild.FilePath
