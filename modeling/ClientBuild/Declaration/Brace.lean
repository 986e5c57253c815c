import ClientBuild.Failure
import ClientBuild.Text.Search

/-!
# Matching braces

Every brace of a text counts, also one in a string or comment.
-/

namespace ClientBuild.Declaration

/-- Split around the brace that closes a block, `depth` further braces being open. -/
def takeBraced? : (depth : Nat) → List Char → Option (List Char × List Char)
  | _, [] => none
  | d, c :: s =>
    if c = '{' then (takeBraced? (d + 1) s).map fun p => (c :: p.1, p.2)
    else if c = '}' then
      match d with
      | 0 => some ([], s)
      | d + 1 => (takeBraced? d s).map fun p => (c :: p.1, p.2)
    else (takeBraced? d s).map fun p => (c :: p.1, p.2)

theorem length_takeBraced? {d : Nat} {s body rest : List Char}
    (h : takeBraced? d s = some (body, rest)) : body.length < s.length := by
  induction s generalizing d body with
  | nil => simp [takeBraced?] at h
  | cons c s ih =>
    have through {e : Nat} (h : (takeBraced? e s).map (fun p => (c :: p.1, p.2)) =
        some (body, rest)) : body.length < (c :: s).length := by
      obtain ⟨p, hp, heq⟩ := Option.map_eq_some_iff.1 h
      obtain ⟨rfl, rfl⟩ := Prod.mk.inj heq
      simpa using ih hp
    rw [takeBraced?.eq_def] at h
    dsimp only at h
    split at h
    · exact through h
    · split at h
      · cases d with
        | zero => cases h; simp
        | succ d => exact through h
      · exact through h

/-- The first character that starts at a byte offset or behind it: its offset and the text from
there on. -/
def fromByte (start : Nat) : (offset : Nat) → List Char → Nat × List Char
  | o, [] => (o, [])
  | o, c :: s => if start ≤ o then (o, c :: s) else fromByte start (o + c.utf8Size) s

/-- The byte offset of the brace that closes a block whose content starts at an offset. -/
def closingBrace (text : List Char) (start : Nat) : Except Failure Nat :=
  let (offset, rest) := fromByte start 0 text
  match takeBraced? 0 rest with
  | some (inner, _) => .ok (offset + Text.byteSize inner)
  | none => .error (.unbalancedBraces start)

end ClientBuild.Declaration
