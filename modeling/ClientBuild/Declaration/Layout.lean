import ClientBuild.Failure
import ClientBuild.Text.Blank
import ClientBuild.Text.Search

/-!
# Layout of declarations

Every line is indented by one tab for each brace that is open in front of it.  Braces in strings
and comments do not count.  Blank lines are kept one at a time, but not behind an opening brace
nor in front of a closing one.
-/

namespace ClientBuild.Declaration

/-- What a line does to the braces: those it closes before any other code, and by how much it
opens more than it closes. -/
structure LineScan where
  leading : Nat := 0
  delta : Int := 0
  /-- Is a block comment open at the end of the line? -/
  inComment : Bool := false
deriving DecidableEq, Repr

/-- Where the scan of a line is. -/
inductive LinePlace where
  /-- In code; `seen` behind the first character that is code and no closing brace. -/
  | code (seen : Bool)
  | string (quote : Char) (escaped : Bool)
  | comment (seen : Bool)
deriving DecidableEq, Repr

/-- Scan a line from a place on. -/
def scanFrom : LinePlace → List Char → LineScan
  | .comment _, [] => { inComment := true }
  | _, [] => {}
  | .comment seen, '*' :: '/' :: s => scanFrom (.code seen) s
  | .comment seen, _ :: s => scanFrom (.comment seen) s
  | .string q escaped, c :: s =>
    if escaped then scanFrom (.string q false) s
    else if c = '\\' then scanFrom (.string q true) s
    else if c = q then scanFrom (.code true) s
    else scanFrom (.string q false) s
  | .code _, '/' :: '/' :: _ => {}
  | .code seen, '/' :: '*' :: s => scanFrom (.comment seen) s
  | .code seen, c :: s =>
    if c = '"' ∨ c = '\'' ∨ c = '\x60' then scanFrom (.string c false) s
    else if c = '{' then
      let r := scanFrom (.code true) s
      { r with delta := r.delta + 1 }
    else if c = '}' then
      let r := scanFrom (.code seen) s
      { r with delta := r.delta - 1, leading := if seen then r.leading else r.leading + 1 }
    else if c = ' ' ∨ c = '\t' then scanFrom (.code seen) s
    else scanFrom (.code true) s

/-- Scan a trimmed line; `inComment` if a block comment is open in front of it. -/
def scanLine (inComment : Bool) (line : List Char) : LineScan :=
  scanFrom (if inComment then .comment false else .code false) line

/-- What is known in front of a line. -/
structure LayoutState where
  depth : Int := 0
  inComment : Bool := false
  /-- Is there a blank line to be written in front of the next line? -/
  blankPending : Bool := false
  /-- Did the last line open more braces than it closed? -/
  afterOpen : Bool := false
  /-- Has no line been written yet? -/
  atStart : Bool := true
deriving DecidableEq, Repr

namespace LayoutState

/-- A line that is not blank, as it is written in front of the rest. -/
def lineText (st : LayoutState) (scan : LineScan) (line : List Char) : List Char :=
  (if st.blankPending && scan.leading == 0 then ['\n'] else []) ++
    List.replicate (st.depth - scan.leading).toNat '\t' ++
    (if st.inComment && line.head? == some '*' then [' '] else []) ++ line ++ ['\n']

/-- The state behind a line that is not blank. -/
def next (st : LayoutState) (scan : LineScan) : LayoutState :=
  { depth := st.depth + scan.delta, inComment := scan.inComment, blankPending := false,
    afterOpen := 0 < scan.delta, atStart := false }

/-- The state behind a blank line. -/
def blank (st : LayoutState) : LayoutState :=
  { st with blankPending := !st.atStart && !st.afterOpen }

end LayoutState

/-- Lay out the lines from the line of a number on. -/
def layoutFrom (st : LayoutState) (number : Nat) : List (List Char) → Except Failure (List Char)
  | [] =>
    if st.depth = 0 ∧ ¬st.inComment then .ok []
    else .error (.format "unclosed block at end of input")
  | raw :: lines =>
    let line := Text.trim raw
    if line.isEmpty then layoutFrom st.blank (number + 1) lines
    else
      let scan := scanLine st.inComment line
      if st.depth < scan.leading then
        .error (.format s!"unexpected '\x7d' on line {number}")
      else if st.depth + scan.delta < 0 then
        .error (.format s!"unbalanced '\x7d' on line {number}")
      else
        (layoutFrom (st.next scan) (number + 1) lines).map fun rest =>
          st.lineText scan line ++ rest

/-- Lay out a text. -/
def layout (text : List Char) : Except Failure (List Char) :=
  layoutFrom {} 1 (Text.splitOn (· == '\n') text)

end ClientBuild.Declaration
