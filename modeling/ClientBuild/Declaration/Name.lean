import ClientBuild.Text.Blank
import ClientBuild.Text.Search
import ClientBuild.Text.UpperCase

/-!
# Names of declarations

Names of entities, routes and methods become identifiers.
-/

namespace ClientBuild.Declaration

/-- A character, dashes, and the character behind them: the dashes go and the second character
becomes upper case. -/
def dashRun : Text.Pattern (List Char) := fun s =>
  match s with
  | c :: t =>
    if c = '-' then none
    else
      let dashes := t.takeWhile (· == '-')
      match t.dropWhile (· == '-') with
      | d :: _ => if dashes.isEmpty then none else some (c :: Text.upperChar d, dashes.length + 2)
      | [] => none
  | [] => none

/-- A name with its runs of dashes replaced by an upper-case letter. -/
def toCamel (s : List Char) : List Char := Text.replaceMatches dashRun s

/-- Raise the letters that begin a word; `inWord` behind a word character. -/
def raiseFrom : (inWord : Bool) → List Char → List Char
  | _, [] => []
  | inWord, c :: s =>
    let word := Text.isWordAscii c
    (if word && !inWord then c.toUpper else c) :: raiseFrom word s

/-- A name with an upper-case letter at the beginning of every word. -/
def capitalize (s : List Char) : List Char := raiseFrom false s

/-- Characters that do not go into names. -/
def isNameNoise (c : Char) : Bool :=
  c == ':' || c == ',' || c == '/' || c == '-' || Text.isBlank c

/-- A name without the characters that do not go into names. -/
def plainName (s : List Char) : List Char := s.filter fun c => !isNameNoise c

/-- Can the text be declared as a name? -/
def isLawful (s : List Char) : Bool :=
  !s.isEmpty && !s.any fun c => c == '{' || c == '}' || c == ':'

/-- The name of the interface of a key. -/
def interfaceName (key : List Char) : List Char := capitalize key ++ "Interface".toList

end ClientBuild.Declaration
