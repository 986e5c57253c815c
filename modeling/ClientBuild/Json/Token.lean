import ClientBuild.Json.Number
import ClientBuild.Json.Raw
import ClientBuild.Text.Search

/-!
# The tokens of a JSON text

`Json.tokens?` cuts a text into marks, words, strings and numbers, or refuses it.
-/

namespace ClientBuild.Json

/-- A token of a JSON text. -/
inductive Token where
  | openObject
  | closeObject
  | openArray
  | closeArray
  | colon
  | comma
  | value (v : Raw)
deriving Inhabited

/-- The value of a hexadecimal digit. -/
def hexValue? (c : Char) : Option Nat :=
  if '0' ≤ c ∧ c ≤ '9' then some (c.toNat - 48)
  else if 'a' ≤ c ∧ c ≤ 'f' then some (c.toNat - 87)
  else if 'A' ≤ c ∧ c ≤ 'F' then some (c.toNat - 55)
  else none

/-- The value of four hexadecimal digits. -/
def hexUnit? (a b c d : Char) : Option Nat := do
  let a ← hexValue? a
  let b ← hexValue? b
  let c ← hexValue? c
  let d ← hexValue? d
  pure (((a * 16 + b) * 16 + c) * 16 + d)

/-- The character of an escape with one letter. -/
def simpleEscape? : Char → Option Char
  | '"' => some '"'
  | '\\' => some '\\'
  | '/' => some '/'
  | 'b' => some '\x08'
  | 'f' => some '\x0c'
  | 'n' => some '\n'
  | 'r' => some '\r'
  | 't' => some '\t'
  | _ => none

/-- A part of a string: a character, or the 16-bit unit that an escape names. -/
inductive StringUnit where
  | char (c : Char)
  | escaped (n : Nat)
deriving DecidableEq, Repr

/-- The parts of a string behind its opening quote, and the number of characters read together
with the closing quote. -/
def stringUnits? : List Char → Option (List StringUnit × Nat)
  | [] => none
  | '"' :: _ => some ([], 1)
  | '\\' :: 'u' :: a :: b :: c :: d :: s =>
    match hexUnit? a b c d with
    | none => none
    | some n => (stringUnits? s).map fun (us, k) => (.escaped n :: us, k + 6)
  | '\\' :: c :: s =>
    match simpleEscape? c with
    | none => none
    | some e => (stringUnits? s).map fun (us, k) => (.char e :: us, k + 2)
  | c :: s =>
    if c = '\\' || c.toNat < 32 then none
    else (stringUnits? s).map fun (us, k) => (.char c :: us, k + 1)

/-- A unit of a surrogate pair: its first one if `high`. -/
def isSurrogate (high : Bool) (n : Nat) : Bool :=
  if high then 0xD800 ≤ n && n < 0xDC00 else 0xDC00 ≤ n && n < 0xE000

/-- The text that the parts of a string spell.  Both units of a surrogate pair make one character;
neither means anything alone. -/
def textOfUnits? : List StringUnit → Option (List Char)
  | [] => some []
  | .char c :: us => (textOfUnits? us).map (c :: ·)
  | .escaped n :: .escaped m :: us =>
    if isSurrogate true n && isSurrogate false m then
      (textOfUnits? us).map (Char.ofNat (0x10000 + (n - 0xD800) * 0x400 + (m - 0xDC00)) :: ·)
    else if isSurrogate true n || isSurrogate false n then none
    else (textOfUnits? (.escaped m :: us)).map (Char.ofNat n :: ·)
  | .escaped n :: us =>
    if isSurrogate true n || isSurrogate false n then none
    else (textOfUnits? us).map (Char.ofNat n :: ·)

/-- A blank between tokens. -/
def isSpace (c : Char) : Bool := c = ' ' || c = '\n' || c = '\t' || c = '\r'

/-- The token at the start of a text, and its length. -/
def token? : Text.Pattern Token
  | [] => none
  | '{' :: _ => some (.openObject, 1)
  | '}' :: _ => some (.closeObject, 1)
  | '[' :: _ => some (.openArray, 1)
  | ']' :: _ => some (.closeArray, 1)
  | ':' :: _ => some (.colon, 1)
  | ',' :: _ => some (.comma, 1)
  | '"' :: s =>
    (stringUnits? s).map fun (us, k) =>
      (.value (.string ((textOfUnits? us).map String.ofList)), k + 1)
  | 'n' :: 'u' :: 'l' :: 'l' :: _ => some (.value .null, 4)
  | 't' :: 'r' :: 'u' :: 'e' :: _ => some (.value (.bool true), 4)
  | 'f' :: 'a' :: 'l' :: 's' :: 'e' :: _ => some (.value (.bool false), 5)
  | s => (number? s).map fun (n, k) => (.value (.number n), k)

/-- The tokens behind the next `skip` characters. -/
def tokensFrom? : (skip : Nat) → List Char → Option (List Token)
  | _, [] => some []
  | k + 1, _ :: s => tokensFrom? k s
  | 0, c :: s =>
    if isSpace c then tokensFrom? 0 s
    else
      match token? (c :: s) with
      | none => none
      | some (t, n) => (tokensFrom? (n - 1) s).map (t :: ·)

/-- The tokens of a text. -/
def tokens? (s : List Char) : Option (List Token) := tokensFrom? 0 s

end ClientBuild.Json
