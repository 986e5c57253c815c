import ClientBuild.Text.Blank
import ClientBuild.Text.Search

/-!
# Class attributes

A tag names classes in `class` and `hover-class`, in the bindings `:class` and `:hover-class`,
and in the pass-through tree `:pt`.  `classAttributes` finds their values.
-/

namespace ClientBuild.Markup

/-- How an attribute names its classes. -/
inductive AttributeKind where
  /-- A plain list of names. -/
  | static
  /-- An expression that contains names. -/
  | dynamic
  /-- A tree with expressions under the key `className`. -/
  | passThrough
deriving DecidableEq, Repr, Inhabited

/-- The value of an attribute that names classes. -/
structure ClassAttribute where
  kind : AttributeKind
  value : List Char
deriving DecidableEq, Repr, Inhabited

/-- A quote of markup expressions. -/
def isQuote (c : Char) : Bool := c == '\'' || c == '"' || c == '\x60'

/-- Is `c` the lower-case letter `l` in either case?  The long s counts as an s. -/
def isLetter (l c : Char) : Bool :=
  c.toLower == l || (l == 's' && c == 'ſ')

/-- Split a text behind a name in either case: the name as it is written and the rest. -/
def afterName? : (name s : List Char) → Option (List Char × List Char)
  | [], s => some ([], s)
  | _ :: _, [] => none
  | l :: name, c :: s =>
    if isLetter l c then (afterName? name s).map fun p => (c :: p.1, p.2) else none

/-- The attribute names that are looked for, in this order. -/
def attributeNames : List String := [":class", ":pt", ":hover-class", "class"]

/-- The kind of an attribute by its name as it is written. -/
def kindOfName (written : List Char) : AttributeKind :=
  match String.ofList (Text.lowerAscii written) with
  | "class" => .static
  | ":pt" => .passThrough
  | _ => .dynamic

/-- The beginning of an attribute up to its opening quote. -/
structure AttributeHead where
  kind : AttributeKind
  quote : Char
  length : Nat
  rest : List Char

/-- The beginning of an attribute with one of the names. -/
def headNamed? (s : List Char) (name : String) : Option AttributeHead := do
  let (written, rest) ← afterName? name.toList s
  match Text.trimLeft rest with
  | '=' :: behind =>
    match Text.trimLeft behind with
    | q :: value =>
      if isQuote q then
        let blanks := Text.blanksBefore rest + Text.blanksBefore behind
        some ⟨kindOfName written, q, written.length + blanks + 2, value⟩
      else none
    | [] => none
  | _ => none

/-- The beginning of an attribute at the start of a text. -/
def attributeHead? (s : List Char) : Option AttributeHead :=
  attributeNames.findSome? (headNamed? s)

/-- The value in front of the quote `q` that closes it.  A backslash escapes one character, and an
inner string in other quotes is passed over; `inner` is the quote of the one being read. -/
def valueBefore? (q : Char) : (inner : Option Char) → List Char → Option (List Char)
  | _, [] => none
  | some i, c :: s => (valueBefore? q (if c = i then none else some i) s).map (c :: ·)
  | none, '\\' :: c :: s => (valueBefore? q none s).map fun v => '\\' :: c :: v
  | none, c :: s =>
    if c = q then some []
    else if isQuote c then (valueBefore? q (some c) s).map (c :: ·)
    else (valueBefore? q none s).map (c :: ·)

/-- A class attribute whose value is closed. -/
def classAttribute? : Text.Pattern ClassAttribute := fun s => do
  let head ← attributeHead? s
  let value ← valueBefore? head.quote none head.rest
  pure (⟨head.kind, value⟩, head.length + value.length + 1)

/-- The class attributes of a text, in order. -/
def classAttributes (code : List Char) : List ClassAttribute := Text.findAll classAttribute? code

end ClientBuild.Markup
