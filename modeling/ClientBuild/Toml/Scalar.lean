import ClientBuild.Json.Token
import ClientBuild.Number.Decimal
import ClientBuild.Text.Search
import ClientBuild.Toml.Basic

/-!
# Unquoted values of a TOML document

Truth values, integers, floats, dates and times.  Every reader here gets the whole text of a
value.
-/

namespace ClientBuild.Toml

/-- The digits of a text in which an underscore may stand between two digits. -/
def spacedDigits? (isDigitOf : Char → Bool) (s : List Char) : Option (List Char) :=
  let groups := Text.splitOn (· == '_') s
  if groups.all fun g => !g.isEmpty && g.all isDigitOf then some groups.flatten else none

/-- The sign in front, if there is one, and the rest. -/
def takeSign : List Char → List Char × List Char
  | '-' :: s => (['-'], s)
  | '+' :: s => (['+'], s)
  | s => ([], s)

/-- Decimal digits without needless zeros in front. -/
def wholeDigits? (s : List Char) : Option (List Char) :=
  match spacedDigits? isDigit s with
  | some ('0' :: _ :: _) => none
  | ds => ds

/-- The value of digits of a base. -/
def natOfBase (base : Nat) (ds : List Char) : Option Nat :=
  ds.foldl (fun acc d => do
    let v ← Json.hexValue? d
    if v < base then pure ((← acc) * base + v) else none) (some 0)

/-- An integer in another base than ten. -/
def based? (base : Nat) (s : List Char) : Option Int := do
  let ds ← spacedDigits? (fun c => (Json.hexValue? c).any (· < base)) s
  let n ← natOfBase base ds
  pure n

/-- An integer of any base. -/
def integerText? : List Char → Option Int
  | '0' :: 'x' :: s => based? 16 s
  | '0' :: 'o' :: s => based? 8 s
  | '0' :: 'b' :: s => based? 2 s
  | s => do
    let (sign, s) := takeSign s
    let n := natOfDigits (← wholeDigits? s)
    pure (if sign = ['-'] then -(n : Int) else n)

/-- The part behind the point, with the point. -/
def fractionText? : List Char → Option (List Char)
  | [] => some []
  | c :: s => if c = '.' then (spacedDigits? isDigit s).map ('.' :: ·) else none

/-- An exponent, with its letter. -/
def exponentText? : List Char → Option (List Char)
  | [] => some []
  | _ :: s =>
    let (sign, ds) := takeSign s
    (spacedDigits? isDigit ds).map fun ds => 'e' :: sign ++ ds

/-- The digits of a float, underscores left out: they need a point, an exponent or both. -/
def floatText? (s : List Char) : Option (List Char) :=
  let (sign, body) := takeSign s
  let isExponent (c : Char) : Bool := c = 'e' || c = 'E'
  let mantissa := body.takeWhile fun c => !isExponent c
  let whole := mantissa.takeWhile (· != '.')
  match wholeDigits? whole, fractionText? (mantissa.drop whole.length),
      exponentText? (body.drop mantissa.length) with
  | some w, some f, some e =>
    if f.isEmpty && e.isEmpty then none else some (sign ++ w ++ f ++ e)
  | _, _, _ => none

/-- The infinities and what is not a number, with or without a sign. -/
def specialFloat? (s : List Char) : Option Binary64 :=
  let body := (takeSign s).2
  if body = "inf".toList || body = "nan".toList then Binary64.ofText? s else none

/-- Is the text the mark of a base without any digits? -/
def isBareBase (s : List Char) : Bool := ["0x", "0o", "0b"].any fun mark => mark.toList == s

/-- A number.  An integer has at most 128 bits, and a float that is written in digits has to be
finite. -/
def number? (s : List Char) : Option Value :=
  let unreadable := Value.unreadable (String.ofList s)
  match integerText? s, floatText? s, specialFloat? s with
  | some i, _, _ =>
    some (if -(Nat.pow 2 127 : Nat) ≤ i ∧ i < (Nat.pow 2 128 : Nat) then .integer i else unreadable)
  | none, some digits, _ =>
    match (Binary64.ofText? digits).filter Binary64.isFinite with
    | some x => some (.float x)
    | none => some unreadable
  | none, none, some x => some (.float x)
  | none, none, none => if isBareBase s then some unreadable else none

/-- A number of `n` digits, and the rest. -/
def fixedNumber? (n : Nat) (s : List Char) : Option (Nat × List Char) :=
  let ds := s.take n
  if ds.length = n && ds.all isDigit then some (natOfDigits ds, s.drop n) else none

/-- The number of days of a month. -/
def daysOfMonth (year month : Nat) : Nat :=
  if month = 2 then
    if year % 4 = 0 && (year % 100 ≠ 0 || year % 400 = 0) then 29 else 28
  else if month = 4 || month = 6 || month = 9 || month = 11 then 30
  else 31

/-- The rest behind a date. -/
def afterDate? (s : List Char) : Option (List Char) := do
  let (year, s) ← fixedNumber? 4 s
  let (month, s) ← fixedNumber? 2 (← Text.after? ['-'] s)
  let (day, s) ← fixedNumber? 2 (← Text.after? ['-'] s)
  if 1 ≤ month && month ≤ 12 && 1 ≤ day && day ≤ daysOfMonth year month then pure s else none

/-- The rest behind the seconds of a time and their fraction, which may both be left out. -/
def afterSeconds? (s : List Char) : Option (List Char) := do
  match Text.after? [':'] s with
  | none => pure s
  | some s =>
    let (second, s) ← fixedNumber? 2 s
    if 60 < second then none
    else
      match s with
      | '.' :: t => if (t.takeWhile isDigit).isEmpty then none else pure (t.dropWhile isDigit)
      | s => pure s

/-- The rest behind a time. -/
def afterTime? (s : List Char) : Option (List Char) := do
  let (hour, s) ← fixedNumber? 2 s
  let (minute, s) ← fixedNumber? 2 (← Text.after? [':'] s)
  if hour < 24 && minute < 60 then afterSeconds? s else none

/-- Is the text an offset from universal time, or nothing? -/
def isOffset (s : List Char) : Bool :=
  match s with
  | [] | ['Z'] | ['z'] => true
  | c :: s =>
    match fixedNumber? 2 s with
    | some (hour, ':' :: s) =>
      match fixedNumber? 2 s with
      | some (minute, []) =>
        (c = '+' || c = '-') && hour < 24 && minute < 60
      | _ => false
    | _ => false

/-- Is the text a date, a time, or a date with a time? -/
def isMoment (s : List Char) : Bool :=
  match afterDate? s with
  | some [] => true
  | some (c :: s) => (c = 'T' || c = 't' || c = ' ') && ((afterTime? s).map isOffset).getD false
  | none => afterTime? s = some []

/-- An unquoted value. -/
def scalar? (s : List Char) : Option Value :=
  if s = "true".toList then some (.bool true)
  else if s = "false".toList then some (.bool false)
  else
    match number? s with
    | some v => some v
    | none => if isMoment s then some (.moment (String.ofList s)) else none

end ClientBuild.Toml
