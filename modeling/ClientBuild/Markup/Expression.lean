import ClientBuild.Markup.Attribute

/-!
# Class names in expressions

Expressions are not parsed.  Names are taken from the places where they usually stand: keys of
objects, elements of arrays, branches of conditionals, template literals and plain strings.
-/

namespace ClientBuild.Markup

open Text (Pattern)

/-- A single or double quote. -/
def isStringQuote (c : Char) : Bool := c == '\'' || c == '"'

/-- What stands in front of the first string quote, and its length with the quote. -/
def untilQuote? : List Char → Option (List Char × Nat)
  | [] => none
  | c :: s =>
    if isStringQuote c then some ([], 1)
    else (untilQuote? s).map fun (t, n) => (c :: t, n + 1)

/-- The length of blanks and a colon at the start of a text. -/
def colonAhead? (s : List Char) : Option Nat :=
  let blanks := s.takeWhile Text.isBlank
  match s.dropWhile Text.isBlank with
  | ':' :: _ => some (blanks.length + 1)
  | _ => none

/-- What stands in front of the first string quote with a colon behind it. -/
def untilQuotedColon? : List Char → Option (List Char × Nat)
  | [] => none
  | c :: s =>
    match (if isStringQuote c then colonAhead? s else none) with
    | some n => some ([], n + 1)
    | none => (untilQuotedColon? s).map fun (t, n) => (c :: t, n + 1)

/-- A string in quotes behind any blanks, read on by `body?` behind its opening quote. -/
def stringBehindBlanks? (body? : Pattern (List Char)) : Pattern (List Char) := fun s =>
  let blanks := s.takeWhile Text.isBlank
  match s.dropWhile Text.isBlank with
  | q :: t =>
    if isStringQuote q then (body? t).map fun (v, n) => (v, blanks.length + 1 + n) else none
  | [] => none

/-- A string behind a character that `lead` accepts and any blanks. -/
def stringBehind? (lead : Char → Bool) (body? : Pattern (List Char)) : Pattern (List Char) :=
  fun s =>
    match s with
    | c :: t => if lead c then (stringBehindBlanks? body? t).map fun (v, n) => (v, n + 1) else none
    | [] => none

/-- A string that is a key: a colon stands behind it. -/
def quotedKey? : Pattern (List Char) := fun s =>
  match s with
  | q :: t => if isStringQuote q then (untilQuotedColon? t).map fun (v, n) => (v, n + 1) else none
  | [] => none

/-- A string that is a key of an object. -/
def objectKey? : Pattern (List Char) :=
  stringBehind? (fun c => c == '{' || c == ',') untilQuotedColon?

/-- A string that is an element of an array, not at the start of the expression. -/
def arrayElement? : Pattern (List Char) :=
  stringBehind? (fun c => c == ',' || c == '[' || Text.isBlank c) untilQuote?

/-- The strings that are elements of arrays.  A string at the start counts as one. -/
def arrayElements (s : List Char) : List (List Char) :=
  match stringBehindBlanks? untilQuote? s with
  | some (v, n) => v :: Text.findAllFrom arrayElement? n s
  | none => Text.findAll arrayElement? s

/-- A string that is a branch of a conditional. -/
def branch? : Pattern (List Char) := stringBehind? (fun c => c == '?' || c == ':') untilQuote?

/-- The object that is the only argument of a call: what stands between its braces. -/
def callObject? : Pattern (List Char) := fun s =>
  let name := s.takeWhile Text.isWordAscii
  if name.isEmpty then none
  else
    let rest := s.dropWhile Text.isWordAscii
    match Text.trimLeft rest with
    | '(' :: t =>
      match Text.trimLeft t with
      | '{' :: u =>
        let inner := u.takeWhile (· != '}')
        match u.dropWhile (· != '}') with
        | _ :: v =>
          match Text.trimLeft v with
          | ')' :: _ =>
            let blanks := Text.blanksBefore rest + Text.blanksBefore t + Text.blanksBefore v
            some (inner, name.length + blanks + inner.length + 4)
          | _ => none
        | [] => none
      | _ => none
    | _ => none

/-- A template literal: what stands between its quotes. -/
def templateLiteral? : Pattern (List Char) := fun s =>
  match s with
  | '\x60' :: t =>
    let inner := t.takeWhile (· != '\x60')
    match t.dropWhile (· != '\x60') with
    | _ :: _ => some (inner, inner.length + 2)
    | [] => none
  | _ => none

/-- An expression inside a template literal. -/
def templateExpression? : Pattern (List Char) := fun s =>
  match s with
  | '$' :: '{' :: t =>
    let inner := t.takeWhile (· != '}')
    match t.dropWhile (· != '}') with
    | _ :: _ => some (inner, inner.length + 3)
    | [] => none
  | _ => none

/-- A character of the names that may follow a template literal. -/
def isTrailingChar (c : Char) : Bool := Text.isWordAscii c || c == '-' || Text.isBlank c

/-- The names that follow a template literal behind blanks. -/
def trailingNames? : Pattern (List Char) := fun s =>
  match templateLiteral? s with
  | none => none
  | some (_, n) =>
    let behind := s.drop n
    let blanks := behind.takeWhile Text.isBlank
    let names := (behind.dropWhile Text.isBlank).takeWhile isTrailingChar
    if names.isEmpty then
      -- of several blanks one may count as the names
      if 2 ≤ blanks.length then some ([], n + blanks.length) else none
    else if blanks.isEmpty then none
    else some (names, n + blanks.length + names.length)

/-- A character of a string of plain names. -/
def isPlainChar (c : Char) : Bool := isTrailingChar c || c == '!' || c == ':' || c == '/'

/-- A string of plain names. -/
def plainString? : Pattern (List Char) := fun s =>
  match s with
  | q :: t =>
    if isStringQuote q then
      let inner := t.takeWhile isPlainChar
      match t.dropWhile isPlainChar with
      | c :: _ => if isStringQuote c && !inner.isEmpty then some (inner, inner.length + 2) else none
      | [] => none
    else none
  | [] => none

/-- The first string on a line. -/
def firstString? (s : List Char) : Option (List Char) :=
  Text.find?
    (fun s =>
      match s with
      | q :: t =>
        if isStringQuote q then
          match untilQuote? t with
          | some (v, n) => if v.contains '\n' then none else some (v, n + 1)
          | none => none
        else none
      | [] => none) s

/-- A candidate, trimmed, if it may be a name: not empty, on one line, without tabs. -/
def cleanName (candidate : List Char) : List (List Char) :=
  let name := Text.trim candidate
  if name.isEmpty || name.contains '\n' || name.contains '\t' then [] else [name]

/-- The names in literals: keys, elements and branches. -/
def literalNames (value : List Char) : List (List Char) :=
  ((Text.findAll callObject? value).flatMap fun o =>
    (Text.findAll quotedKey? o).flatMap cleanName) ++
    (Text.findAll objectKey? value).flatMap cleanName ++
    (arrayElements value).flatMap cleanName ++
    (Text.findAll branch? value).flatMap cleanName

/-- The names in plain strings. -/
def plainNames (value : List Char) : List (List Char) :=
  (Text.findAll plainString? value).flatMap Text.words

/-- A text with blanks in place of the expressions of a template literal. -/
def withoutExpressions (literal : List Char) : List Char :=
  Text.replaceMatches (fun s => (templateExpression? s).map fun (_, n) => ([' '], n)) literal

/-- The names in a template literal: its words, then those in its expressions, in which no further
template literal can stand. -/
def templateNames (literal : List Char) : List (List Char) :=
  Text.words (withoutExpressions literal) ++
    (Text.findAll templateExpression? literal).flatMap fun e => literalNames e ++ plainNames e

/-- All names in an expression, in order of first appearance. -/
def dynamicNames (value : List Char) : List (List Char) :=
  Text.distinct
    (literalNames value ++
      (Text.findAll templateLiteral? value).flatMap templateNames ++
      (Text.findAll trailingNames? value).flatMap Text.words ++
      plainNames value)

end ClientBuild.Markup
