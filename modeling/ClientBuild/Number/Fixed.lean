import ClientBuild.Number.Binary64
import ClientBuild.Number.Digits

/-!
# Fixed decimal places

`Binary64.fixed n x` writes the exact value of `x` rounded to `n` decimal places; a tie goes to
the even neighbour.
-/

namespace ClientBuild.Binary64

/-- The text of a number with exactly `places` decimal places. -/
def fixed (places : Nat) : Binary64 → List Char
  | .nan => "NaN".toList
  | .infinite s => (if s then ['-'] else []) ++ "inf".toList
  | .finite s m e =>
    let (n, d) := scale m 1 e
    let ds := paddedDigits (places + 1) (divNearestEven (n * Nat.pow 10 places) d)
    let whole := ds.take (ds.length - places)
    let fraction := ds.drop (ds.length - places)
    (if s then ['-'] else []) ++ whole ++ if places = 0 then [] else '.' :: fraction

end ClientBuild.Binary64
