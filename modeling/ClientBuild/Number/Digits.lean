/-!
# Digits of naturals

Decimal digits of a natural, written and read.  `natOfDigits (digitsOf n) = n`.
-/

namespace ClientBuild

/-- The character of a digit below ten. -/
def digitChar (d : Nat) : Char := Char.ofNat (48 + d)

/-- The value of a digit character. -/
def digitValue (c : Char) : Nat := c.toNat - 48

/-- An ASCII digit. -/
def isDigit (c : Char) : Bool := c.isDigit

/-- Decimal digits of `n`, most significant first; `0` has one digit. -/
def digitsOf (n : Nat) : List Char := Nat.toDigits 10 n

/-- The natural that decimal digits denote; no digits denote `0`. -/
def natOfDigits (ds : List Char) : Nat := ds.foldl (fun n c => 10 * n + digitValue c) 0

/-- Decimal digits of an integer, with a minus sign in front of a negative one. -/
def digitsOfInt (i : Int) : List Char :=
  if i < 0 then '-' :: digitsOf i.natAbs else digitsOf i.natAbs

/-- `n` decimal digits, zeros in front filling up the width. -/
def paddedDigits (width n : Nat) : List Char :=
  let ds := digitsOf n
  List.replicate (width - ds.length) '0' ++ ds

end ClientBuild
