import ClientBuild.Number.Digits

/-!
# Times in universal time

The text of a moment that is counted in nanoseconds from the start of 1970.
-/

namespace ClientBuild.CommandLine

/-- Year, month and day of a day counted from the start of 1970.  The count of days goes by eras
of 400 years and by years that start with March, so that a leap day comes last. -/
def dateOfDay (day : Nat) : Nat × Nat × Nat :=
  let z := day + 719468
  let inEra := z % 146097
  let year := (inEra - inEra / 1460 + inEra / 36524 - inEra / 146096) / 365
  let inYear := inEra - (365 * year + year / 4 - year / 100)
  let fromMarch := (5 * inYear + 2) / 153
  let month := if fromMarch < 10 then fromMarch + 3 else fromMarch - 9
  let year := year + 400 * (z / 146097) + (if month ≤ 2 then 1 else 0)
  (year, month, inYear - (153 * fromMarch + 2) / 5 + 1)

/-- A fraction of a second with no, three, six or nine digits, as few as show all of it. -/
def fractionText (nanoseconds : Nat) : List Char :=
  if nanoseconds = 0 then []
  else if nanoseconds % 1000000 = 0 then '.' :: paddedDigits 3 (nanoseconds / 1000000)
  else if nanoseconds % 1000 = 0 then '.' :: paddedDigits 6 (nanoseconds / 1000)
  else '.' :: paddedDigits 9 nanoseconds

/-- Date and time of a moment. -/
def universalTime (nanoseconds : Nat) : String :=
  let seconds := nanoseconds / 1000000000
  let (year, month, day) := dateOfDay (seconds / 86400)
  let inDay := seconds % 86400
  String.ofList
    (paddedDigits 4 year ++ '-' :: paddedDigits 2 month ++ '-' :: paddedDigits 2 day ++
      'T' :: paddedDigits 2 (inDay / 3600) ++ ':' :: paddedDigits 2 (inDay / 60 % 60) ++
      ':' :: paddedDigits 2 (inDay % 60) ++ fractionText (nanoseconds % 1000000000) ++ ['Z'])

end ClientBuild.CommandLine
