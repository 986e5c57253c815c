import ClientBuild.Json.Basic
import ClientBuild.Number.Digits

/-!
# Reading JSON numbers

The digits of a number are collected in a significand of 64 bits.  Digits that no longer fit are
dropped; those in front of the point still count in the exponent.  A number with neither point
nor exponent whose digits all fit is an integer, as long as a negative one stays within 64 bits;
every other number is the significand rounded to binary64 and then multiplied or divided, with
one more rounding, by a power of ten.  A number beyond the range has no value.
-/

namespace ClientBuild.Json

/-- What has been read of a number: its significand, the decimal exponent that belongs to it, and
the number of characters. -/
structure NumberScan where
  significand : Nat
  exponent : Int
  length : Nat

/-- Collect the digits in front of the point from `scan` on. -/
def NumberScan.whole (scan : NumberScan) : List Char → NumberScan × List Char
  | [] => (scan, [])
  | c :: s =>
    if isDigit c then
      let next := 10 * scan.significand + digitValue c
      if next < Nat.pow 2 64 ∧ scan.exponent = 0 then
        NumberScan.whole ⟨next, 0, scan.length + 1⟩ s
      else NumberScan.whole ⟨scan.significand, scan.exponent + 1, scan.length + 1⟩ s
    else (scan, c :: s)

/-- Collect the digits behind the point; once one does not fit, `full` is set and all others are
dropped. -/
def NumberScan.fraction (full : Bool) (scan : NumberScan) : List Char → NumberScan × List Char
  | [] => (scan, [])
  | c :: s =>
    if isDigit c then
      let next := 10 * scan.significand + digitValue c
      if !full && next < Nat.pow 2 64 then
        NumberScan.fraction false ⟨next, scan.exponent - 1, scan.length + 1⟩ s
      else NumberScan.fraction true { scan with length := scan.length + 1 } s
    else (scan, c :: s)

/-- The power `10^n` as a binary64 number. -/
def powerOfTen (n : Nat) : Binary64 := Binary64.ofRatio false (Nat.pow 10 n) 1

/-- The significand `x` scaled by `10^exponent`, in steps of at most 308 places. -/
def scaleByTen (x : Binary64) (exponent : Int) : (fuel : Nat) → Option Binary64
  | 0 => some x
  | k + 1 =>
    if exponent.natAbs ≤ 308 then
      if 0 ≤ exponent then
        let y := x.mul (powerOfTen exponent.natAbs)
        if y.isFinite then some y else none
      else some (x.div (powerOfTen exponent.natAbs))
    else if x.isZero then some x
    else if 0 ≤ exponent then none
    else scaleByTen (x.div (powerOfTen 308)) (exponent + 308) k

/-- The binary64 number of the parts of a number; `none` beyond the range. -/
def ofParts? (negative : Bool) (significand : Nat) (exponent : Int) : Option Binary64 :=
  (scaleByTen (Binary64.ofRatio false significand 1) exponent 5).map fun x =>
    if negative then x.neg else x

/-- Read the exponent behind its mark: its value and its length. -/
def exponentPart? (s : List Char) : Option (Int × Nat) :=
  let (negative, signLength, rest) := match s with
    | '-' :: t => (true, 1, t)
    | '+' :: t => (false, 1, t)
    | t => (false, 0, t)
  let ds := rest.takeWhile isDigit
  if ds.isEmpty then none
  else some (if negative then -(natOfDigits ds : Int) else natOfDigits ds, signLength + ds.length)

/-- Finish a number that is not an integer: its value, if it is in range, and its length. -/
def finishFloat? (negative : Bool) (scan : NumberScan) (s : List Char) :
    Option (Option Number × Nat) :=
  let value (e : Int) : Option Number :=
    (ofParts? negative scan.significand (scan.exponent + e)).map .float
  match s with
  | c :: t =>
    if c = 'e' || c = 'E' then
      (exponentPart? t).map fun (e, n) => (value e, scan.length + 1 + n)
    else some (value 0, scan.length)
  | [] => some (value 0, scan.length)

/-- The integer with a sign and a significand of 64 bits: negative ones below `-2^63` and the
negative zero are not integers. -/
def integer (negative : Bool) (significand : Nat) : Number :=
  if !negative then .integer significand
  else if significand = 0 then .float (Binary64.zero true)
  else if significand ≤ Nat.pow 2 63 then .integer (-(significand : Int))
  else .float (Binary64.ofRatio true significand 1)

/-- Read the number behind its sign, which took `signLength` characters. -/
def unsignedNumber? (negative : Bool) (signLength : Nat) (s : List Char) :
    Option (Option Number × Nat) :=
  match s with
  | [] => none
  | c :: t =>
    if !isDigit c then none
    else if c = '0' && (t.head?.map isDigit).getD false then none
    else
      let (scan, rest) := NumberScan.whole ⟨digitValue c, 0, signLength + 1⟩ t
      match rest with
      | '.' :: u =>
        let start := { scan with length := scan.length + 1 }
        let (scan', rest') := NumberScan.fraction false start u
        if scan'.length = start.length then none else finishFloat? negative scan' rest'
      | 'e' :: _ | 'E' :: _ => finishFloat? negative scan rest
      | _ =>
        if scan.exponent = 0 then some (integer negative scan.significand, scan.length)
        else finishFloat? negative scan rest

/-- Read a number at the start of a text: its value, if it is in range, and its length. -/
def number? : List Char → Option (Option Number × Nat)
  | '-' :: s => unsignedNumber? true 1 s
  | s => unsignedNumber? false 0 s

end ClientBuild.Json
