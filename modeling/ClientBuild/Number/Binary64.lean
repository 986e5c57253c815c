/-!
# Binary64 numbers

A number with a 53-bit significand is kept as its sign, its significand `m` and its exponent
`e`, with the value `m · 2^e`.  All arithmetic is exact arithmetic on naturals followed by one
rounding, `Binary64.ofRatio`, to the nearest number, a tie going to the even significand.
-/

namespace ClientBuild

/-- The nearest natural to `num / den`; a tie goes to the even neighbour. -/
def divNearestEven (num den : Nat) : Nat :=
  let q := num / den
  let r := num % den
  if den < 2 * r then q + 1 else if 2 * r = den then q + q % 2 else q

/-- A binary64 number: `m · 2^e` with a sign, an infinity, or not a number. -/
inductive Binary64 where
  | finite (negative : Bool) (m : Nat) (e : Int)
  | infinite (negative : Bool)
  | nan
deriving DecidableEq, Repr, Inhabited

namespace Binary64

/-- Zero with a sign. -/
def zero (negative : Bool) : Binary64 := .finite negative 0 (-1074)

/-- Multiply numerator or denominator by the power of two that `e` asks for. -/
def scale (num den : Nat) (e : Int) : Nat × Nat :=
  if 0 ≤ e then (num * Nat.pow 2 e.toNat, den) else (num, den * Nat.pow 2 (-e).toNat)

/-- The unit exponent at which `num / den` has a significand below `2^53` and, if it is not
subnormal, of at least `2^52`. -/
def unitExponent (num den : Nat) : Int :=
  let guess := max ((num.log2 : Int) - den.log2 - 53) (-1074)
  let (n, d) := scale num den (-guess)
  if n / d < Nat.pow 2 53 then guess else guess + 1

/-- The binary64 number nearest to `num / den`, a tie going to the even significand. -/
def ofRatio (negative : Bool) (num den : Nat) : Binary64 :=
  if num = 0 then zero negative
  else
    let e := unitExponent num den
    let (n, d) := scale num den (-e)
    let m := divNearestEven n d
    let (m, e) := if m = Nat.pow 2 53 then (Nat.pow 2 52, e + 1) else (m, e)
    if 971 < e then .infinite negative else .finite negative m e

/-- The binary64 number nearest to an integer. -/
def ofInt (i : Int) : Binary64 := ofRatio (i < 0) i.natAbs 1

/-- The sign bit; not a number counts as positive. -/
def isNegative : Binary64 → Bool
  | .finite s _ _ => s
  | .infinite s => s
  | .nan => false

/-- The same number with the other sign. -/
def neg : Binary64 → Binary64
  | .finite s m e => .finite (!s) m e
  | .infinite s => .infinite (!s)
  | .nan => .nan

/-- The product, rounded. -/
def mul : Binary64 → Binary64 → Binary64
  | .finite s m e, .finite t n f =>
    let (num, den) := scale (m * n) 1 (e + f)
    ofRatio (s != t) num den
  | .infinite s, .finite t n _ => if n = 0 then .nan else .infinite (s != t)
  | .finite s m _, .infinite t => if m = 0 then .nan else .infinite (s != t)
  | .infinite s, .infinite t => .infinite (s != t)
  | _, _ => .nan

/-- The quotient, rounded. -/
def div : Binary64 → Binary64 → Binary64
  | .finite s m e, .finite t n f =>
    if n = 0 then
      if m = 0 then .nan else .infinite (s != t)
    else
      let (num, den) := scale m n (e - f)
      ofRatio (s != t) num den
  | .infinite s, .finite t _ _ => .infinite (s != t)
  | .finite s _ _, .infinite t => zero (s != t)
  | _, _ => .nan

/-- Neither an infinity nor not a number. -/
def isFinite : Binary64 → Bool
  | .finite .. => true
  | _ => false

/-- Zero of either sign. -/
def isZero : Binary64 → Bool
  | .finite _ 0 _ => true
  | _ => false

/-- A finite number that is not zero and whose significand has all of its 53 bits. -/
def isNormal : Binary64 → Bool
  | .finite _ m _ => Nat.pow 2 52 ≤ m
  | _ => false

/-- Less than or equal to zero. -/
def leZero : Binary64 → Bool
  | .finite s m _ => s || m == 0
  | .infinite s => s
  | .nan => false

end Binary64

end ClientBuild
