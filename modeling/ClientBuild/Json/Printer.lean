import ClientBuild.Json.Basic
import ClientBuild.Number.Shortest

/-!
# Writing JSON

`Json.compact` writes a value without any blanks.  `Json.indented` gives every item and member a
line of its own, two blanks deeper for every level.
-/

namespace ClientBuild.Json

/-- JSON numbers are positional from `1e-5` up to `1e16`, and a positive exponent has a sign. -/
def numberLayout : NumberLayout := ⟨-5, 16, true, .toEven⟩

/-- The text of a number; what is not finite has none and becomes `null`. -/
def Number.render : Number → List Char
  | .integer i => digitsOfInt i
  | .float x => if x.isFinite then numberLayout.render x else "null".toList

/-- A lower-case hexadecimal digit. -/
def hexDigit (n : Nat) : Char := if n < 10 then Char.ofNat (48 + n) else Char.ofNat (87 + n)

/-- How a character stands inside a string: quote, backslash and control characters escaped. -/
def escapeChar (c : Char) : List Char :=
  if c = '"' then ['\\', '"']
  else if c = '\\' then ['\\', '\\']
  else if c.toNat < 32 then
    match c.toNat with
    | 8 => ['\\', 'b']
    | 9 => ['\\', 't']
    | 10 => ['\\', 'n']
    | 12 => ['\\', 'f']
    | 13 => ['\\', 'r']
    | n => ['\\', 'u', '0', '0', hexDigit (n / 16), hexDigit (n % 16)]
  else [c]

/-- The characters of a string, escaped. -/
def escape : List Char → List Char
  | [] => []
  | c :: s => escapeChar c ++ escape s

/-- A string in double quotes. -/
def quote (s : String) : List Char := '"' :: escape s.toList ++ ['"']

mutual

/-- The characters of a value without blanks. -/
def render : Json → List Char
  | .null => "null".toList
  | .bool true => "true".toList
  | .bool false => "false".toList
  | .number n => n.render
  | .string s => quote s
  | .array items => '[' :: renderItems items ++ [']']
  | .object members => '\x7b' :: renderMembers members ++ ['\x7d']

/-- Items with commas between them. -/
def renderItems : List Json → List Char
  | [] => []
  | [v] => render v
  | v :: w :: vs => render v ++ ',' :: renderItems (w :: vs)

/-- Members with commas between them. -/
def renderMembers : List (String × Json) → List Char
  | [] => []
  | [(k, v)] => quote k ++ ':' :: render v
  | (k, v) :: m :: ms => quote k ++ ':' :: render v ++ ',' :: renderMembers (m :: ms)

end

/-- The text of a value without blanks. -/
def compact (v : Json) : String := String.ofList (render v)

/-- A new line, `depth` levels deep. -/
def newLine (depth : Nat) : List Char := '\n' :: List.replicate (2 * depth) ' '

mutual

/-- The characters of a value that stands `depth` levels deep. -/
def layout (depth : Nat) : Json → List Char
  | .array [] => ['[', ']']
  | .array items => '[' :: layoutItems (depth + 1) items ++ newLine depth ++ [']']
  | .object [] => ['\x7b', '\x7d']
  | .object members =>
    '\x7b' :: layoutMembers (depth + 1) members ++ newLine depth ++ ['\x7d']
  | v => render v

/-- Items, each on a line of its own. -/
def layoutItems (depth : Nat) : List Json → List Char
  | [] => []
  | [v] => newLine depth ++ layout depth v
  | v :: w :: vs => newLine depth ++ layout depth v ++ ',' :: layoutItems depth (w :: vs)

/-- Members, each on a line of its own. -/
def layoutMembers (depth : Nat) : List (String × Json) → List Char
  | [] => []
  | [(k, v)] => newLine depth ++ quote k ++ ':' :: ' ' :: layout depth v
  | (k, v) :: m :: ms =>
    newLine depth ++ quote k ++ ':' :: ' ' :: layout depth v ++ ',' :: layoutMembers depth (m :: ms)

end

/-- The text of a value, indented by two blanks for every level. -/
def indented (v : Json) : String := String.ofList (layout 0 v)

end ClientBuild.Json
