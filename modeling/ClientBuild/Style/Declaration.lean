import ClientBuild.Style.Length
import ClientBuild.Style.Scan
import ClientBuild.Text.Blank

/-!
# Declarations

The body of a style rule is a list of declarations.  A custom property whose name contains
`--tw-` is recorded and goes; a reference to one becomes the value recorded before it in the same
rule.  What the style engine cannot do goes as well.
-/

namespace ClientBuild.Style

/-- The values recorded in a rule so far, the latest first. -/
abbrev Recorded := List (List Char × List Char)

/-- The value recorded for a custom property, or `none` in words. -/
def recordedValue (rec : Recorded) (name : List Char) : List Char :=
  match rec.find? fun r => r.1 == name with
  | some (_, v) => v
  | none => "none".toList

/-- What a reference with the given argument becomes. -/
def resolveReference (rec : Recorded) (argument : List Char) : List Char :=
  let name := Text.trim (argument.takeWhile (· != ','))
  if Text.startsWith "--tw-".toList name then recordedValue rec name
  else "var(".toList ++ argument ++ [')']

/-- Resolve the references behind the next `skip` characters.  A reference that is not closed ends
the search. -/
def substituteFrom (rec : Recorded) : (skip : Nat) → List Char → List Char
  | _, [] => []
  | k + 1, _ :: s => substituteFrom rec k s
  | 0, c :: s =>
    match Text.after? "var(".toList (c :: s) with
    | none => c :: substituteFrom rec 0 s
    | some inner =>
      match takeArgument? 0 inner with
      | none => c :: s
      | some (argument, _) =>
        resolveReference rec argument ++ substituteFrom rec (argument.length + 4) s

/-- A value with its references to recorded values resolved. -/
def substitute (rec : Recorded) (value : List Char) : List Char := substituteFrom rec 0 value

/-- The pattern of a color with three channels, a slash and an opacity. -/
def slashColor : Text.Pattern (List Char) := fun s =>
  match Text.after? "rgb(".toList s with
  | none => none
  | some inner =>
    let channels := inner.takeWhile fun c => isDigit c || Text.isBlank c
    match inner.dropWhile fun c => isDigit c || Text.isBlank c with
    | '/' :: rest =>
      let blanks := rest.takeWhile Text.isBlank
      let rest := rest.dropWhile Text.isBlank
      let opacity := rest.takeWhile fun c => isDigit c || c == '.'
      match rest.dropWhile fun c => isDigit c || c == '.' with
      | ')' :: _ =>
        if channels.isEmpty || opacity.isEmpty then none
        else
          let size := 4 + channels.length + 1 + blanks.length + opacity.length + 1
          match Text.words channels with
          | [r, g, b] =>
            some ("rgba(".toList ++ Text.join ", ".toList [r, g, b, opacity] ++ [')'], size)
          | _ => some (s.take size, size)
      | _ => none
    | _ => none

/-- Colors written with a slash become colors with four arguments. -/
def commaColors (value : List Char) : List Char := Text.replaceMatches slashColor value

/-- Transforms that do nothing. -/
def emptyTransforms : List String :=
  ["translate(none, none)", "rotate(none)", "skewX(none)", "skewY(none)", "scaleX(none)",
   "scaleY(none)"]

/-- Take the first occurrence of every empty transform out of a value. -/
def dropEmptyTransforms (value : List Char) : List Char :=
  if emptyTransforms.any fun t => Text.contains t.toList value then
    let left := emptyTransforms.foldl (fun v t => Text.replaceFirst t.toList [] v) value
    match Text.join [' '] (Text.words left) with
    | [] => "none".toList
    | v => v
  else value

/-- Properties that the style engine does not know. -/
def unsupportedProperties : List String := ["filter", "vertical-align", "visibility"]

/-- Is the property one that is recorded instead of declared? -/
def isRecordedProperty (property : List Char) : Bool := Text.contains "--tw-".toList property

/-- Does a declaration go without being recorded? -/
def isDropped (selector property value : List Char) : Bool :=
  unsupportedProperties.any (fun p => p.toList == property) ||
    (selector == ".sticky".toList &&
      (property == "position".toList || value == "sticky".toList))

/-- The value of a declaration that stays, before the rules for single properties. -/
def adaptValue (st : StyleSettings) (rec : Recorded) (value : List Char) : List Char :=
  commaColors (substitute rec (convertUnits st value))

/-- A declaration that stays: its property and its value. -/
def adapt (st : StyleSettings) (rec : Recorded) (selector property value : List Char) :
    List Char × List Char :=
  let adapted := adaptValue st rec value
  let property' :=
    if property == "color".toList && Text.contains "rpx".toList adapted &&
        Text.contains "text-".toList selector then "font-size".toList
    else property
  let adapted :=
    if property' == "flex".toList && adapted.head? == some '1' then ['1'] else adapted
  (property', dropEmptyTransforms adapted)

/-- Add a trimmed declaration that is not empty. -/
def addDeclaration (text : List Char) (ds : List (List Char)) : List (List Char) :=
  match Text.trim text with
  | [] => ds
  | d => d :: ds

/-- Split a body at the semicolons outside strings and parentheses, comments left out; `current`
is the declaration being read, reversed. -/
def splitDeclarationsFrom : Place → (depth : Nat) → (current : List Char) → List Char →
    List (List Char)
  | _, _, current, [] => addDeclaration current.reverse []
  | .code, d, current, '/' :: '*' :: s => splitDeclarationsFrom (.comment false) d current s
  | .code, d, current, c :: s =>
    if isSheetQuote c then splitDeclarationsFrom (.string c false) d (c :: current) s
    else if c = '(' then splitDeclarationsFrom .code (d + 1) (c :: current) s
    else if c = ')' then splitDeclarationsFrom .code (d - 1) (c :: current) s
    else if c = ';' ∧ d = 0 then
      addDeclaration current.reverse (splitDeclarationsFrom .code d [] s)
    else splitDeclarationsFrom .code d (c :: current) s
  | .comment star, d, current, c :: s =>
    splitDeclarationsFrom ((Place.comment star).next c) d current s
  | .string q escaped, d, current, c :: s =>
    splitDeclarationsFrom ((Place.string q escaped).next c) d (c :: current) s

/-- The declarations of a body, trimmed. -/
def splitDeclarations (body : List Char) : List (List Char) := splitDeclarationsFrom .code 0 [] body

/-- The property and the value of a declaration, which a colon separates. -/
def parts? (d : List Char) : Option (List Char × List Char) :=
  (Text.breakOn? [':'] d).map fun (before, behind) => (Text.trim before, Text.trim behind)

/-- The lines of the declarations that stay, and whether anything changed. -/
def adaptAll (st : StyleSettings) (selector : List Char) (rec : Recorded) :
    List (List Char) → List (List Char) × Bool
  | [] => ([], false)
  | d :: ds =>
    match parts? d with
    | none =>
      let (lines, changed) := adaptAll st selector rec ds
      (d :: lines, changed)
    | some (property, value) =>
      if isRecordedProperty property then
        ((adaptAll st selector ((property, convertUnits st value) :: rec) ds).1, true)
      else if isDropped selector property value then
        ((adaptAll st selector rec ds).1, true)
      else
        let (property', value') := adapt st rec selector property value
        let (lines, changed) := adaptAll st selector rec ds
        ((property' ++ ": ".toList ++ value') :: lines,
          property' != property || value' != value || changed)

/-- The numbers of the lengths that are converted in the body of a rule.  Declarations that go
without being recorded are not looked at. -/
def convertedNumbers (selector body : List Char) : List (List Char) :=
  let kept := (splitDeclarations body).filterMap parts? |>.filter fun (property, value) =>
    isRecordedProperty property || !isDropped selector property value
  kept.flatMap fun (_, value) => remNumbers value

/-- The adapted body of a rule, one declaration a line, or `none` if nothing changes. -/
def adaptBody? (st : StyleSettings) (selector body : List Char) : Option (List Char) :=
  let (lines, changed) := adaptAll st selector [] (splitDeclarations body)
  if changed then some ((lines.flatMap fun l => '\n' :: '\t' :: l ++ [';']) ++ ['\n']) else none

end ClientBuild.Style
