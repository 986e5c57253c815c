import ClientBuild.Markup.Attribute

/-!
# Values of properties

The value of a property reaches to the next comma, line break or closing brace that stands
outside brackets and strings.
-/

namespace ClientBuild.Markup

/-- Is the next character that is not blank a comma or a closing brace? -/
def endsValue (s : List Char) : Bool :=
  match Text.trimLeft s with
  | c :: _ => c == ',' || c == '}'
  | [] => false

/-- The characters of a value from here on; `depth` counts open brackets, `quote` is the quote of
the string being read, and `previous` the character before. -/
def takeValue (depth : Int) : (quote : Option Char) → (previous : Char) → List Char → List Char
  | _, _, [] => []
  | some q, previous, c :: s =>
    if c = q ∧ previous ≠ '\\' then
      if depth = 0 ∧ endsValue s then [c] else c :: takeValue depth none c s
    else c :: takeValue depth (some q) c s
  | none, _, c :: s =>
    if isQuote c then c :: takeValue depth (some c) c s
    else if c = '{' ∨ c = '(' ∨ c = '[' then c :: takeValue (depth + 1) none c s
    else if depth = 0 ∧ (c = '}' ∨ c = ',' ∨ c = '\n') then []
    else if c = '}' ∨ c = ')' ∨ c = ']' then c :: takeValue (depth - 1) none c s
    else c :: takeValue depth none c s

/-- The value at the start of a text, without blanks around it; `none` if there is none. -/
def complexValue? (s : List Char) : Option (List Char) :=
  match Text.trim (takeValue 0 none ' ' (Text.trimLeft s)) with
  | [] => none
  | v => some v

end ClientBuild.Markup
