/-!
# Comments in JSON

A cache file may hold line comments and block comments.  They are removed outside strings;
strings stand in double or single quotes, and a backslash escapes one character in them.
-/

namespace ClientBuild.Comments

/-- Where the scan is. -/
inductive Place where
  | code
  /-- Inside a string that `quote` closes; `escaped` behind a backslash. -/
  | string (quote : Char) (escaped : Bool)
  | line
  /-- Inside a block comment; `star` behind a star that may begin its end. -/
  | block (star : Bool)
deriving DecidableEq, Repr

/-- Remove the comments of a text whose scan has reached a place. -/
def stripFrom : Place → List Char → List Char
  | _, [] => []
  | .string q escaped, c :: s =>
    if c = q ∧ ¬escaped then c :: stripFrom .code s
    else c :: stripFrom (.string q (c = '\\' && !escaped)) s
  | .line, c :: s => if c = '\n' then c :: stripFrom .code s else stripFrom .line s
  | .block star, c :: s =>
    if c = '/' ∧ star then stripFrom .code s else stripFrom (.block (c = '*')) s
  | .code, '/' :: '/' :: s => stripFrom .line s
  | .code, '/' :: '*' :: s => stripFrom (.block false) s
  | .code, c :: s =>
    if c = '"' ∨ c = '\'' then c :: stripFrom (.string c false) s else c :: stripFrom .code s

/-- Remove the comments of a text. -/
def strip (s : List Char) : List Char := stripFrom .code s

end ClientBuild.Comments
