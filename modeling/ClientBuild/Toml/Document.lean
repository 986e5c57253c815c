import ClientBuild.Toml.Basic
import ClientBuild.Toml.Scalar
import ClientBuild.Toml.Text

/-!
# TOML documents

A document is a list of lines: headers, which name the table that the next lines belong to, and
entries, which set a key of it.  `statements?` reads the lines and `Members.ofStatements?` builds
the table of the document; a key that is set twice, or a table that is opened twice, is refused.
-/

namespace ClientBuild.Toml

/-- A line of a document that is not blank. -/
inductive Statement where
  /-- A header in single brackets. -/
  | table (path : List String)
  /-- A header in double brackets. -/
  | tableItem (path : List String)
  | entry (path : List String) (value : Value)

/-! ## Building tables -/

namespace Members

/-- Change the last table of an array of tables. -/
def changeLast (f : Members → Option Members) : List Members → Option (List Members)
  | [] => none
  | [ms] => (f ms).map ([·])
  | ms :: rest => (changeLast f rest).map (ms :: ·)

/-- Change the table at the end of a path of headers; missing steps are made. -/
def within (f : Members → Option Members) : (path : List String) → Members → Option Members
  | [], ms => f ms
  | k :: rest, ms =>
    match Assoc.get? k ms with
    | none => (within f rest []).map fun inner => Assoc.insert k (.table .implied inner) ms
    | some (.table form inner) =>
      if form = .inline then none
      else (within f rest inner).map fun inner => Assoc.insert k (.table form inner) ms
    | some (.tables items) =>
      (changeLast (within f rest) items).map fun items => Assoc.insert k (.tables items) ms
    | some _ => none

/-- Open a table for a header: it must not have been opened before. -/
def openTable (key : String) (ms : Members) : Option Members :=
  match Assoc.get? key ms with
  | none => some (Assoc.insert key (.table .header []) ms)
  | some (.table .implied inner) => some (Assoc.insert key (.table .header inner) ms)
  | some _ => none

/-- Append a table to an array of tables. -/
def appendTable (key : String) (ms : Members) : Option Members :=
  match Assoc.get? key ms with
  | none => some (Assoc.insert key (.tables [[]]) ms)
  | some (.tables items) => some (Assoc.insert key (.tables (items ++ [[]])) ms)
  | some _ => none

/-- Set a dotted key.  A table that a dotted key adds to has to come from dotted keys; those on
the way to it need not. -/
def set (v : Value) : (path : List String) → Members → Option Members
  | [], _ => none
  | [k], ms => if (Assoc.get? k ms).isSome then none else some (Assoc.insert k v ms)
  | k :: rest, ms =>
    match Assoc.get? k ms with
    | none => (set v rest []).map fun inner => Assoc.insert k (.table .dotted inner) ms
    | some (.table form inner) =>
      if form = .dotted || (form = .implied && 2 ≤ rest.length) then
        (set v rest inner).map fun inner => Assoc.insert k (.table form inner) ms
      else none
    | some (.tables items) =>
      if 2 ≤ rest.length then
        (changeLast (set v rest) items).map fun items => Assoc.insert k (.tables items) ms
      else none
    | some _ => none

/-- Apply `f` to the last key of a path of headers, in the table that holds it. -/
def atLast (f : String → Members → Option Members) (path : List String) (ms : Members) :
    Option Members :=
  match path.getLast? with
  | some k => within (f k) path.dropLast ms
  | none => none

/-- Build on from `ms`, the entries belonging to the table at `current`. -/
def build? (current : List String) (ms : Members) : List Statement → Option Members
  | [] => some ms
  | .table path :: rest => (atLast openTable path ms).bind fun ms => build? path ms rest
  | .tableItem path :: rest => (atLast appendTable path ms).bind fun ms => build? path ms rest
  | .entry path v :: rest => (within (set v path) current ms).bind fun ms => build? current ms rest

/-- The table of a document. -/
def ofStatements? (ss : List Statement) : Option Members := build? [] [] ss

/-- The table of a list of entries in braces. -/
def ofEntries? (entries : List (List String × Value)) : Option Members :=
  entries.foldlM (fun ms e => set e.2 e.1 ms) []

end Members

/-! ## Reading lines -/

/-- Skip blanks, line breaks and comments; `comment` while one is being skipped. -/
def skipGap? : (comment : Bool) → List Char → Option (List Char)
  | _, [] => some []
  | _, '\n' :: s => skipGap? false s
  | _, '\r' :: '\n' :: s => skipGap? false s
  | true, c :: s => if isPlain c then skipGap? true s else none
  | false, c :: s =>
    if c = '#' then skipGap? true s
    else if isLineBlank c then skipGap? false s
    else some (c :: s)

/-- Skip blanks within a line. -/
def skipBlanks (s : List Char) : List Char := s.dropWhile isLineBlank

/-- A character of a key without quotes. -/
def isKeyChar (c : Char) : Bool := c.isAlphanum || c == '_' || c == '-'

/-- One part of a key. -/
def keyPart? : Reader String
  | [] => none
  | c :: s =>
    if c = '"' || c = '\'' then shortString? (c :: s)
    else
      let k := (c :: s).takeWhile isKeyChar
      if k.isEmpty then none else some (String.ofList k, (c :: s).dropWhile isKeyChar)

/-- A key of at most `n` parts with points between them, and the blanks behind it. -/
def keyWithin? : (n : Nat) → Reader (List String)
  | 0, _ => none
  | n + 1, s => do
    let (k, s) ← keyPart? s
    match skipBlanks s with
    | '.' :: s =>
      let (ks, s) ← keyWithin? n (skipBlanks s)
      pure (k :: ks, s)
    | s => pure ([k], s)

/-- The deepest nesting that is read: of brackets and braces, and of the tables on the way to a
key. -/
def depthLimit : Nat := 80

/-- A key and the blanks behind it. -/
def key? : Reader (List String) := keyWithin? depthLimit

/-- A key, the equals sign and a value; `skip` passes over what may stand around the equals
sign. -/
def assignment? (skip : List Char → Option (List Char)) (value : Reader Value) :
    Reader (List String × Value) := fun s => do
  let (path, s) ← key? s
  let s ← Text.after? ['='] (← skip s)
  let (v, s) ← value (← skip s)
  pure ((path, v), s)

/-- Items with commas between them, up to the character `stop`; a comma may stand behind the last
one. -/
def items? {α : Type} (item : Reader α) (stop : Char) : (fuel : Nat) → Reader (List α)
  | 0, _ => none
  | n + 1, s => do
    match ← skipGap? false s with
    | [] => none
    | c :: s =>
      if c = stop then pure ([], s)
      else
        let (a, s) ← item (c :: s)
        match ← skipGap? false s with
        | ',' :: s =>
          let (rest, s) ← items? item stop n s
          pure (a :: rest, s)
        | s => pure ([a], ← Text.after? [stop] s)

/-- Does an unquoted value end here? -/
def endsScalar (c : Char) : Bool :=
  c == ',' || c == ']' || c == '}' || c == '#' || c == '\n' || c == '\r'

/-- An unquoted value and the blanks behind it. -/
def scalarAt? : Reader Value := fun s =>
  let run := s.takeWhile fun c => !endsScalar c
  let text := (run.reverse.dropWhile isLineBlank).reverse
  (scalar? text).map fun v => (v, s.drop run.length)

/-- A value that opens at most `depth` brackets and braces within each other. -/
def value? : (depth : Nat) → Reader Value
  | _, [] => none
  | 0, c :: s =>
    if c = '[' || c = '{' then none
    else if c = '"' || c = '\'' then (string? (c :: s)).map fun p => (.string p.1, p.2)
    else scalarAt? (c :: s)
  | d + 1, c :: s =>
    if c = '[' then (items? (value? d) ']' (s.length + 1) s).map fun p => (.array p.1, p.2)
    else if c = '{' then do
      let (entries, s) ← items? (assignment? (skipGap? false) (value? d)) '}' (s.length + 1) s
      let ms ← Members.ofEntries? entries
      pure (.table .inline ms, s)
    else if c = '"' || c = '\'' then (string? (c :: s)).map fun p => (.string p.1, p.2)
    else scalarAt? (c :: s)

/-- A line that is not blank. -/
def statement? : Reader Statement
  | '[' :: '[' :: s => do
    let (path, s) ← key? (skipBlanks s)
    pure (.tableItem path, ← Text.after? [']', ']'] s)
  | '[' :: s => do
    let (path, s) ← key? (skipBlanks s)
    pure (.table path, ← Text.after? [']'] s)
  | s =>
    (assignment? (some ∘ skipBlanks) (value? depthLimit) s).map fun p => (.entry p.1.1 p.1.2, p.2)

/-- Does a line end here, comments apart? -/
def atLineEnd (s : List Char) : Bool :=
  match s with
  | [] | '#' :: _ | '\n' :: _ | '\r' :: '\n' :: _ => true
  | _ => false

/-- At most `fuel` lines that are not blank. -/
def statementsWithin? : (fuel : Nat) → List Char → Option (List Statement)
  | 0, _ => none
  | n + 1, s => do
    match ← skipGap? false s with
    | [] => pure []
    | s =>
      let (st, s) ← statement? s
      let s := skipBlanks s
      if atLineEnd s then pure (st :: (← statementsWithin? n s)) else none

/-- The lines of a document.  A byte order mark in front does not count. -/
def statements? (s : List Char) : Option (List Statement) :=
  let s := match s with
    | '\uFEFF' :: s => s
    | s => s
  statementsWithin? (s.length + 1) s

/-- Read a document as a table. -/
def parse? (s : List Char) : Option Value :=
  ((statements? s).bind Members.ofStatements?).map (.table .header)

end ClientBuild.Toml
