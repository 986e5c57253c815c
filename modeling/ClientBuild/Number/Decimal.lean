import ClientBuild.Number.Binary64
import ClientBuild.Number.Digits

/-!
# Reading decimals

`Binary64.ofDecimal` is the correctly rounded value of `digits · 10^exponent`.
`Binary64.ofText?` reads the free form of numbers: an optional sign, digits with an optional
point, an optional exponent, or one of the words `inf`, `infinity` and `nan` in any case.
-/

namespace ClientBuild.Binary64

/-- The binary64 number nearest to `digits · 10^exponent`.  Exponents far outside the range are
answered without computing the power. -/
def ofDecimal (negative : Bool) (digits : Nat) (exponent : Int) : Binary64 :=
  if digits = 0 then zero negative
  else
    -- the number lies below `10^(size + exponent)` and not below `10^(size - 1 + exponent)`
    let size : Int := (digitsOf digits).length
    if 320 < size + exponent then .infinite negative
    else if size + exponent < -340 then zero negative
    else if 0 ≤ exponent then ofRatio negative (digits * Nat.pow 10 exponent.toNat) 1
    else ofRatio negative digits (Nat.pow 10 (-exponent).toNat)

/-- The optional sign in front, and the rest. -/
def takeSign : List Char → Bool × List Char
  | '-' :: s => (true, s)
  | '+' :: s => (false, s)
  | s => (false, s)

/-- An exponent part up to the end of the text. -/
def exponent? : List Char → Option Int
  | [] => some 0
  | c :: s =>
    if c = 'e' || c = 'E' then
      let (negative, ds) := takeSign s
      if ds.isEmpty || !ds.all isDigit then none
      else some (if negative then -(natOfDigits ds : Int) else natOfDigits ds)
    else none

/-- Read a number in free form; the whole text has to be the number. -/
def ofText? (text : List Char) : Option Binary64 :=
  let (negative, s) := takeSign text
  let word := s.map Char.toLower
  if word = "inf".toList || word = "infinity".toList then some (.infinite negative)
  else if word = "nan".toList then some .nan
  else
    let whole := s.takeWhile isDigit
    let rest := s.dropWhile isDigit
    let (fraction, rest) := match rest with
      | '.' :: t => (t.takeWhile isDigit, t.dropWhile isDigit)
      | t => ([], t)
    if whole.isEmpty && fraction.isEmpty then none
    else (exponent? rest).map fun e =>
      ofDecimal negative (natOfDigits (whole ++ fraction)) (e - fraction.length)

end ClientBuild.Binary64
