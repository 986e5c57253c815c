import ClientBuild.Number.Binary64
import ClientBuild.Number.Digits

/-!
# Shortest decimal digits

The reals that round to a binary64 number form an interval around it, which contains its ends
exactly when the significand is even.  `Binary64.shortest` finds the decimal with the fewest
digits in that interval, and among those the one nearest to the number.  For 1, 2, … 17 digits
the two neighbours of the number on that decimal grid are tested in exact arithmetic.
-/

namespace ClientBuild

/-- A positive decimal: `digits · 10^exponent`. -/
structure Decimal where
  digits : Nat
  exponent : Int
deriving DecidableEq, Repr, Inhabited

/-- What to do when two decimals of the same length are equally near. -/
inductive TieRule where
  | toEven
  | up
deriving DecidableEq, Repr

namespace Decimal

/-- Multiply numerator or denominator by a power of ten. -/
def scale (num den : Nat) (e : Int) : Nat × Nat :=
  if 0 ≤ e then (num * Nat.pow 10 e.toNat, den) else (num, den * Nat.pow 10 (-e).toNat)

/-- Is `10^p ≤ num / den`? -/
def powerLe (p : Int) (num den : Nat) : Bool :=
  let (n, d) := scale num den (-p)
  d ≤ n

/-- Lower or raise the estimate `p` until `10^p ≤ num / den < 10^(p+1)`. -/
def settle (num den : Nat) : (fuel : Nat) → Int → Int
  | 0, p => p
  | k + 1, p =>
    if !powerLe p num den then settle num den k (p - 1)
    else if powerLe (p + 1) num den then settle num den k (p + 1)
    else p

/-- The exponent of the leading decimal digit of `num / den`. -/
def leading (num den : Nat) : Int :=
  settle num den 8 ((((num.log2 : Int) - den.log2) * 30103) / 100000)

/-- Remove the zeros at the end of the digits. -/
def normalizeFrom : (fuel : Nat) → Decimal → Decimal
  | 0, d => d
  | k + 1, d =>
    if d.digits ≠ 0 ∧ d.digits % 10 = 0 then normalizeFrom k ⟨d.digits / 10, d.exponent + 1⟩ else d

/-- The same decimal with digits that do not end in zero. -/
def normalize (d : Decimal) : Decimal := normalizeFrom 20 d

end Decimal

/-- An interval of positive reals `low / den … high / den` around `value / den`. -/
structure Interval where
  low : Nat
  value : Nat
  high : Nat
  den : Nat
  closed : Bool

namespace Interval

/-- Does `x / d` lie in the interval? -/
def holds (i : Interval) (x d : Nat) : Bool :=
  let y := x * i.den
  if i.closed then i.low * d ≤ y && y ≤ i.high * d else i.low * d < y && y < i.high * d

/-- The better of the two neighbours of the value on the grid of multiples of `10^e`. -/
def onGrid? (tie : TieRule) (i : Interval) (e : Int) : Option Decimal :=
  let (n, d) := Decimal.scale i.value i.den (-e)
  let q := n / d
  let r := n % d
  let inside (k : Nat) : Bool :=
    let (x, y) := Decimal.scale k 1 e
    k != 0 && i.holds x y
  let upFirst : Bool :=
    if 2 * r = d then (match tie with | .up => true | .toEven => q % 2 = 1) else d < 2 * r
  match inside q, inside (q + 1) with
  | true, true => some ⟨if upFirst then q + 1 else q, e⟩
  | true, false => some ⟨q, e⟩
  | false, true => some ⟨q + 1, e⟩
  | false, false => none

/-- The first grid with a hit, from `n` digits on. -/
def shortestFrom (tie : TieRule) (i : Interval) (lead : Int) : (fuel n : Nat) → Decimal
  | 0, _ => ⟨i.value, 0⟩
  | k + 1, n =>
    match i.onGrid? tie (lead - n + 1) with
    | some d => d
    | none => shortestFrom tie i lead k (n + 1)

end Interval

namespace Binary64

/-- The reals that round to `m · 2^e`. -/
def interval (m : Nat) (e : Int) : Interval :=
  let (v, d) := scale m 1 e
  -- quarter units, so that the narrower gap below a power of two is whole as well
  let (unit, _) := scale 1 1 e
  let below := if m = Nat.pow 2 52 ∧ -1074 < e then unit else 2 * unit
  { low := 4 * v - below, value := 4 * v, high := 4 * v + 2 * unit, den := 4 * d,
    closed := m % 2 = 0 }

/-- The shortest decimal that reads back as `m · 2^e`, nearest to it among those. -/
def shortest (tie : TieRule) (m : Nat) (e : Int) : Decimal :=
  let i := interval m e
  (i.shortestFrom tie (Decimal.leading i.value i.den) 17 1).normalize

end Binary64

/-- How a number is laid out in text. -/
structure NumberLayout where
  /-- Positional notation from `10^low` on. -/
  low : Int
  /-- Positional notation below `10^high`. -/
  high : Int
  /-- Is a positive exponent written with a sign? -/
  signedExponent : Bool
  tie : TieRule

namespace NumberLayout

/-- Digits in positional notation, with at least one digit behind the point. -/
def positional (d : Decimal) : List Char :=
  let ds := digitsOf d.digits
  if 0 ≤ d.exponent then ds ++ List.replicate d.exponent.toNat '0' ++ ['.', '0']
  else
    let places := (-d.exponent).toNat
    if ds.length ≤ places then
      '0' :: '.' :: List.replicate (places - ds.length) '0' ++ ds
    else ds.take (ds.length - places) ++ '.' :: ds.drop (ds.length - places)

/-- Digits in scientific notation: one digit in front of the point. -/
def scientific (signed : Bool) (d : Decimal) : List Char :=
  let ds := digitsOf d.digits
  let e : Int := d.exponent + ds.length - 1
  let head := match ds with
    | [] => []
    | [c] => [c]
    | c :: cs => c :: '.' :: cs
  let sign := if signed && 0 ≤ e then ['+'] else []
  head ++ 'e' :: sign ++ digitsOfInt e

/-- The text of a binary64 number in a layout. -/
def render (f : NumberLayout) : Binary64 → List Char
  | .nan => "NaN".toList
  | .infinite s => (if s then ['-'] else []) ++ "inf".toList
  | .finite s m e =>
    let sign := if s then ['-'] else []
    if m = 0 then sign ++ "0.0".toList
    else
      let d := Binary64.shortest f.tie m e
      let lead : Int := d.exponent + (digitsOf d.digits).length - 1
      sign ++ if f.low ≤ lead && lead < f.high then positional d else scientific f.signedExponent d

end NumberLayout

end ClientBuild
