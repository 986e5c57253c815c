import ClientBuild.Json.Token

/-!
# Strings of a TOML document

A string stands in one or in three quotes.  Between double quotes a backslash starts an escape;
between single quotes every character stands for itself.  Only a string in three quotes runs over
several lines, and a line break right behind its opening quotes does not count.
-/

namespace ClientBuild.Toml

/-- Reads what stands at the start of a text; the answer holds the rest. -/
abbrev Reader (α : Type) := List Char → Option (α × List Char)

/-- A character that may stand in a line: no control character but the tab. -/
def isPlain (c : Char) : Bool := c = '\t' || (32 ≤ c.toNat && c.toNat ≠ 127)

/-- A blank within a line. -/
def isLineBlank (c : Char) : Bool := c = ' ' || c = '\t'

/-- The number that hexadecimal digits denote, if there are `n` of them. -/
def hexNumber? (n : Nat) (ds : List Char) : Option Nat :=
  if ds.length = n then
    ds.foldl (fun acc d => do pure ((← acc) * 16 + (← Json.hexValue? d))) (some 0)
  else none

/-- The character with a code given in `n` hexadecimal digits. -/
def codedChar? (n : Nat) (s : List Char) : Option (Char × Nat) :=
  match hexNumber? n (s.take n) with
  | some v => if v.isValidChar then some (Char.ofNat v, n + 1) else none
  | none => none

/-- The character of an escape behind its backslash, and the length of the escape. -/
def escape? : Text.Pattern Char
  | 'b' :: _ => some ('\x08', 1)
  | 't' :: _ => some ('\t', 1)
  | 'n' :: _ => some ('\n', 1)
  | 'f' :: _ => some ('\x0c', 1)
  | 'r' :: _ => some ('\r', 1)
  | 'e' :: _ => some ('\x1b', 1)
  | '"' :: _ => some ('"', 1)
  | '\\' :: _ => some ('\\', 1)
  | 'x' :: s => codedChar? 2 s
  | 'u' :: s => codedChar? 4 s
  | 'U' :: s => codedChar? 8 s
  | _ => none

/-- Put a text in front of what is read. -/
def prepend (t : List Char) (r : Option (List Char × List Char)) :
    Option (List Char × List Char) :=
  r.map fun p => (t ++ p.1, p.2)

/-- A string in double quotes from behind `skip` characters up to its closing quote. -/
def basicBody? : (skip : Nat) → Reader (List Char)
  | _, [] => none
  | k + 1, _ :: s => basicBody? k s
  | 0, c :: s =>
    if c = '"' then some ([], s)
    else if c = '\\' then
      match escape? s with
      | some (e, n) => prepend [e] (basicBody? n s)
      | none => none
    else if isPlain c then prepend [c] (basicBody? 0 s)
    else none

/-- A string in single quotes up to its closing quote. -/
def literalBody? : Reader (List Char)
  | [] => none
  | c :: s =>
    if c = '\'' then some ([], s)
    else if isPlain c then prepend [c] (literalBody? s)
    else none

/-- The end of a string in three quotes `q`: the quotes that still belong to it, at most two, and
the rest. -/
def closing? (q : Char) (s : List Char) : Option (List Char × List Char) :=
  let n := (s.takeWhile (· == q)).length
  if n < 3 then none else some (List.replicate (min n 5 - 3) q, s.drop (min n 5))

/-- A line break at the start of a text, and its length. -/
def lineBreak? : Text.Pattern (List Char)
  | '\n' :: _ => some (['\n'], 1)
  | '\r' :: '\n' :: _ => some (['\r', '\n'], 2)
  | _ => none

/-- The length of the blanks and line breaks at the start of a text. -/
def gapLength : List Char → Nat
  | [] => 0
  | '\n' :: s => gapLength s + 1
  | '\r' :: '\n' :: s => gapLength s + 2
  | c :: s => if isLineBlank c then gapLength s + 1 else 0

/-- The length of what a backslash at the end of a line hides: the line break and all blanks and
line breaks behind it. -/
def hiddenBreak? (s : List Char) : Option Nat :=
  match lineBreak? (s.dropWhile isLineBlank) with
  | none => none
  | some _ => some (gapLength s)

/-- A string in three quotes `q` from behind `skip` characters on; `escapes` tells whether
backslashes start escapes. -/
def longBody? (q : Char) (escapes : Bool) : (skip : Nat) → Reader (List Char)
  | _, [] => none
  | k + 1, _ :: s => longBody? q escapes k s
  | 0, c :: s =>
    match closing? q (c :: s), lineBreak? (c :: s) with
    | some done, _ => some done
    | none, some (b, n) => prepend b (longBody? q escapes (n - 1) s)
    | none, none =>
      if escapes && c = '\\' then
        match hiddenBreak? s, escape? s with
        | some n, _ => longBody? q escapes n s
        | none, some (e, n) => prepend [e] (longBody? q escapes n s)
        | none, none => none
      else if isPlain c then prepend [c] (longBody? q escapes 0 s)
      else none

/-- The number of characters of a line break that does not count. -/
def leadingBreak (s : List Char) : Nat :=
  match lineBreak? s with
  | some (_, n) => n
  | none => 0

/-- A string in one quote on each side. -/
def shortString? : Reader String
  | '"' :: s => (basicBody? 0 s).map fun p => (String.ofList p.1, p.2)
  | '\'' :: s => (literalBody? s).map fun p => (String.ofList p.1, p.2)
  | _ => none

/-- A string of any form. -/
def string? : Reader String
  | '"' :: '"' :: '"' :: s =>
    (longBody? '"' true (leadingBreak s) s).map fun p => (String.ofList p.1, p.2)
  | '\'' :: '\'' :: '\'' :: s =>
    (longBody? '\'' false (leadingBreak s) s).map fun p => (String.ofList p.1, p.2)
  | s => shortString? s

end ClientBuild.Toml
