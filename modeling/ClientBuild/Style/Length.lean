import ClientBuild.Failure
import ClientBuild.Number.Decimal
import ClientBuild.Number.Fixed
import ClientBuild.Settings.Basic

/-!
# Lengths

Lengths in rem become lengths in rpx.  The result has as many decimal places as the number has
characters behind its point, or those of the settings when it has none; zeros at the end go.  A
length that asks for more than `maxPlaces` places cannot be written.
-/

namespace ClientBuild.Style

/-- A character that separates the words of a value. -/
def isValueSeparator (c : Char) : Bool :=
  c == ' ' || c == '\t' || c == '\n' || c == '\r' || c == ',' || c == '/' || c == '(' || c == ')'

/-- The number of bytes behind the first point. -/
def fractionSize (number : List Char) : Nat :=
  match Text.breakOn? ['.'] number with
  | some (_, fraction) => Text.byteSize fraction
  | none => 0

/-- The decimal places with which the length for a number is written before zeros go. -/
def places (st : StyleSettings) (number : List Char) : Nat :=
  if 0 < fractionSize number then fractionSize number else st.remPrecision

/-- The most decimal places that a number can be written with. -/
def maxPlaces : Nat := 65535

/-- Drop the zeros at the end of a text with a point, and the point if nothing is left. -/
def dropZeros (s : List Char) : List Char :=
  if s.contains '.' then
    ((s.reverse.dropWhile (· == '0')).dropWhile (· == '.')).reverse
  else s

/-- The decimal places that any binary64 number has at most; all further ones are zero. -/
def exactPlaces : Nat := 1074

/-- The length in rpx of a number of rem; what is not a number counts as zero. -/
def remToRpx (st : StyleSettings) (number : List Char) : List Char :=
  let amount := (Binary64.ofText? number).getD (Binary64.zero false)
  let rpx := (amount.mul st.remUnit).mul st.rpxRatio
  dropZeros (rpx.fixed (min (places st number) exactPlaces)) ++ "rpx".toList

/-- Check that the lengths for some numbers can be written. -/
def checkPlaces (st : StyleSettings) (numbers : List (List Char)) : Except Failure Unit :=
  match numbers.find? fun n => maxPlaces < places st n with
  | some n => .error (.tooManyPlaces (places st n))
  | none => .ok ()

/-- The length in rpx of a number of rem, if it can be written. -/
def rpxLength (st : StyleSettings) (number : List Char) : Except Failure (List Char) :=
  (checkPlaces st [number]).map fun _ => remToRpx st number

/-- Decimal digits with at most one point, which is not alone. -/
def isPlainDecimal (s : List Char) : Bool :=
  let whole := s.takeWhile isDigit
  match s.dropWhile isDigit with
  | [] => !whole.isEmpty
  | '.' :: fraction => fraction.all isDigit && !(whole.isEmpty && fraction.isEmpty)
  | _ => false

/-- The number of a word that is a length in rem. -/
def remNumber? (word : List Char) : Option (List Char) :=
  if Text.endsWith "rem".toList word then
    let number := word.take (word.length - 3)
    let unsigned := match number with
      | '-' :: s => s
      | s => s
    if isPlainDecimal unsigned then some number else none
  else none

/-- The numbers of the lengths in rem among the words of a value. -/
def remNumbers (value : List Char) : List (List Char) :=
  (Text.splitOn isValueSeparator value).filterMap remNumber?

/-- A word of a value, a length in rem converted. -/
def convertWord (st : StyleSettings) (word : List Char) : List Char :=
  match remNumber? word with
  | some number => remToRpx st number
  | none => word

/-- Convert the words of a value; `word` is the word being read, reversed. -/
def convertUnitsFrom (st : StyleSettings) (word : List Char) : List Char → List Char
  | [] => convertWord st word.reverse
  | c :: s =>
    if isValueSeparator c then convertWord st word.reverse ++ c :: convertUnitsFrom st [] s
    else convertUnitsFrom st (c :: word) s

/-- A value with its lengths in rem converted. -/
def convertUnits (st : StyleSettings) (value : List Char) : List Char :=
  convertUnitsFrom st [] value

end ClientBuild.Style
