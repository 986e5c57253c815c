import ClientBuild.Failure
import ClientBuild.Json.Printer

/-!
# Templates

A template is text with places that values of a JSON context fill.  A value or a list that the
context does not have makes rendering fail; the condition of a branch may be missing.
-/

namespace ClientBuild.Template

/-- A value of the context: `up` levels above the innermost one, a member of it or all of it. -/
structure Path where
  up : Nat := 0
  key : Option String := none
deriving DecidableEq, Repr, Inhabited

/-- A piece of a template. -/
inductive Piece where
  | text (t : String)
  | value (path : Path)
  /-- The body once for every item of a list, with the item as the innermost level. -/
  | each (path : Path) (body : List Piece)
  /-- One of two bodies, by whether the value counts as true. -/
  | branch (path : Path) (yes no : List Piece)
deriving Repr, Inhabited

/-- A member of the innermost level. -/
def Piece.field (key : String) : Piece := .value ⟨0, some key⟩

/-- A body for every item of a member of the innermost level. -/
def Piece.forEach (key : String) (body : List Piece) : Piece := .each ⟨0, some key⟩ body

/-- A body that stands only if a member of the innermost level counts as true. -/
def Piece.whenSet (key : String) (body : List Piece) : Piece := .branch ⟨0, some key⟩ body []

/-- The value at a path; `levels` are the levels of the context, the innermost first. -/
def lookup (levels : List Json) (p : Path) : Option Json :=
  match levels[p.up]?, p.key with
  | some v, none => some v
  | some v, some k => v.member? k
  | none, _ => none

/-- Does a value count as true?  A number does if it is a normal one. -/
def isTruthy : Json → Bool
  | .null => false
  | .bool b => b
  | .number (.integer i) => i != 0
  | .number (.float x) => x.isNormal
  | .string s => !s.isEmpty
  | .array items => !items.isEmpty
  | .object members => !members.isEmpty

mutual

/-- The text that a value fills its place with. -/
def plain : Json → String
  | .null => ""
  | .bool b => if b then "true" else "false"
  | .number n => String.ofList n.render
  | .string s => s
  | .array items => "[" ++ plainItems items ++ "]"
  | .object _ => "[object]"

/-- The texts of items with commas between them. -/
def plainItems : List Json → String
  | [] => ""
  | [v] => plain v
  | v :: w :: vs => plain v ++ ", " ++ plainItems (w :: vs)

end

/-- The items of a value that a body is repeated for. -/
def items? : Json → Option (List Json)
  | .array items => some items
  | .object members => some (members.map (·.2))
  | _ => none

mutual

/-- The text of a piece in a context. -/
def renderPiece (levels : List Json) : Piece → Option String
  | .text t => some t
  | .value p => (lookup levels p).map plain
  | .each p body => do
    let items ← (lookup levels p).bind items?
    let texts ← items.mapM fun v => renderPieces (v :: levels) body
    pure (String.join texts)
  | .branch p yes no =>
    if ((lookup levels p).map isTruthy).getD false then renderPieces levels yes
    else renderPieces levels no

/-- The text of pieces in a context. -/
def renderPieces (levels : List Json) : List Piece → Option String
  | [] => some ""
  | p :: ps => do
    let t ← renderPiece levels p
    let ts ← renderPieces levels ps
    pure (t ++ ts)

end

/-- The text of a template in a context. -/
def render (template : List Piece) (context : Json) : Except Failure String :=
  match renderPieces [context] template with
  | some t => .ok t
  | none => .error (.template "a value is missing")

end ClientBuild.Template
