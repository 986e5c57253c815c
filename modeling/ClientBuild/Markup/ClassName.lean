import ClientBuild.Markup.ComplexValue
import ClientBuild.Markup.Expression

/-!
# Class names of a tag

All names that the class attributes of a tag mention, and the texts that mention them.
-/

namespace ClientBuild.Markup

/-- The rest of a text behind a key `className` and its colon. -/
def behindClassNameKey? : Text.Pattern (List Char) := fun s => do
  let rest ← Text.after? "className".toList s
  match Text.trimLeft rest with
  | ':' :: t =>
    let blanks := Text.blanksBefore rest + Text.blanksBefore t
    some (Text.trimLeft t, "className".length + blanks + 1)
  | _ => none

/-- The values under the keys `className` of a pass-through tree. -/
def passThroughValues (tree : List Char) : List (List Char) :=
  (Text.findAll behindClassNameKey? tree).filterMap complexValue?

/-- The names in a value of a pass-through tree. -/
def passThroughNames (value : List Char) : List (List Char) :=
  match value with
  | c :: _ =>
    if isStringQuote c then ((firstString? value).map Text.words).getD []
    else dynamicNames value
  | [] => []

/-- The names that an attribute mentions. -/
def attributeNamesOf (a : ClassAttribute) : List (List Char) :=
  let value := Text.trim a.value
  match a.kind with
  | .static => Text.words value
  | .passThrough => (passThroughValues value).flatMap passThroughNames
  | .dynamic => dynamicNames value

/-- All names that the class attributes of a text mention, in order of first appearance. -/
def classNames (code : List Char) : List (List Char) :=
  Text.distinct ((classAttributes code).flatMap attributeNamesOf)

/-- The texts that mention class names: values of attributes and of pass-through trees. -/
def classContents (code : List Char) : List (List Char) :=
  (classAttributes code).flatMap fun a =>
    match a.kind with
    | .passThrough => passThroughValues a.value
    | _ => [a.value]

end ClientBuild.Markup
