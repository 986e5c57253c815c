import ClientBuild.Json.Printer
import ClientBuild.Text.Search

/-!
# Outlines of JSON values

An outline shows a value to a person: a line for every member and item, two blanks deeper for
every level, and colours for the kinds of values if the terminal has them.
-/

namespace ClientBuild.Json

/-- How a part of an outline stands out. -/
inductive Tint where
  | dimmed
  | yellow
  | cyan
  | green
  | boldBlue
deriving DecidableEq, Repr, Inhabited

namespace Tint

/-- The terminal's code that ends every tint. -/
def reset : List Char := "\x1b[0m".toList

/-- The terminal's code that starts a tint. -/
def start : Tint → List Char
  | dimmed => "\x1b[2m".toList
  | yellow => "\x1b[33m".toList
  | cyan => "\x1b[36m".toList
  | green => "\x1b[32m".toList
  | boldBlue => "\x1b[1;34m".toList

/-- A text in a tint, which goes on behind a reset inside the text. -/
def paint (color : Bool) (t : Tint) (text : List Char) : List Char :=
  if color then t.start ++ Text.replaceAll reset (reset ++ t.start) text ++ reset else text

end Tint

/-- The outline of a value that has no parts. -/
def outlineLeaf (color : Bool) : Json → List Char
  | .null => Tint.dimmed.paint color ['-']
  | .bool b => Tint.yellow.paint color (if b then "true".toList else "false".toList)
  | .number (.integer i) => Tint.cyan.paint color (Number.integer i).render
  | .number (.float x) =>
    if x.isFinite then Tint.cyan.paint color (Number.float x).render
    else Tint.dimmed.paint color ['-']
  | .string s => Tint.green.paint color s.toList
  | .array _ => Tint.dimmed.paint color "(none)".toList
  | .object _ => Tint.dimmed.paint color ['\x7b', '\x7d']

mutual

/-- The outline of a value that stands `depth` levels deep. -/
def outlineAt (color : Bool) (depth : Nat) : Json → List Char
  | .array (v :: vs) => outlineItems color depth (v :: vs)
  | .object ((k, v) :: ms) =>
    (if depth = 0 then [] else newLine depth) ++ Tint.boldBlue.paint color k.toList ++
      ':' :: ' ' :: outlineAt color (depth + 1) v ++ outlineMembers color depth ms
  | v => outlineLeaf color v

/-- Items, each behind a dash on a line of its own. -/
def outlineItems (color : Bool) (depth : Nat) : List Json → List Char
  | [] => []
  | v :: vs =>
    newLine depth ++ '-' :: ' ' :: outlineAt color (depth + 1) v ++ outlineItems color depth vs

/-- Members, each on a line of its own. -/
def outlineMembers (color : Bool) (depth : Nat) : List (String × Json) → List Char
  | [] => []
  | (k, v) :: ms =>
    newLine depth ++ Tint.boldBlue.paint color k.toList ++
      ':' :: ' ' :: outlineAt color (depth + 1) v ++ outlineMembers color depth ms

end

/-- The outline of a value. -/
def outline (color : Bool) (v : Json) : String := String.ofList (outlineAt color 0 v)

end ClientBuild.Json
