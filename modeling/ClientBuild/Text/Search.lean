/-!
# Searching texts

A pattern is a function that looks at the text from one position on and answers what it found
there and how many characters it took.  `findAll` and `replaceMatches` scan a text from left to
right: at each position the pattern is tried, a match is taken at once, and the search goes on
behind it, so matches never overlap.  The counter of characters still to be skipped makes the
scans recursions on the text itself.
-/

namespace ClientBuild.Text

/-- What a pattern finds at the start of a text, and the number of characters it takes. -/
abbrev Pattern (α : Type) := List Char → Option (α × Nat)

/-- Scan on after `skip` more characters, collecting what the pattern finds. -/
def findAllFrom {α : Type} (m : Pattern α) : (skip : Nat) → List Char → List α
  | _, [] => []
  | k + 1, _ :: s => findAllFrom m k s
  | 0, c :: s =>
    match m (c :: s) with
    | some (a, n) => a :: findAllFrom m (n - 1) s
    | none => findAllFrom m 0 s

/-- Everything the pattern finds, from left to right, without overlap. -/
def findAll {α : Type} (m : Pattern α) (s : List Char) : List α := findAllFrom m 0 s

/-- What a scan finds, the pattern found at some position. -/
theorem exists_of_mem_findAllFrom {α : Type} {m : Pattern α} {a : α} : ∀ {k : Nat} {s : List Char},
    a ∈ findAllFrom m k s → ∃ front rest n, s = front ++ rest ∧ m rest = some (a, n)
  | _, [], h => by simp [findAllFrom] at h
  | k + 1, c :: s, h => by
    obtain ⟨front, rest, n, rfl, hrest⟩ := exists_of_mem_findAllFrom (k := k) h
    exact ⟨c :: front, rest, n, rfl, hrest⟩
  | 0, c :: s, h => by
    have later {k : Nat} (h : a ∈ findAllFrom m k s) :
        ∃ front rest n, c :: s = front ++ rest ∧ m rest = some (a, n) := by
      obtain ⟨front, rest, n, rfl, hrest⟩ := exists_of_mem_findAllFrom h
      exact ⟨c :: front, rest, n, rfl, hrest⟩
    rw [findAllFrom] at h
    split at h
    next b n hfound =>
      rcases List.mem_cons.1 h with rfl | h
      · exact ⟨[], c :: s, n, rfl, hfound⟩
      · exact later h
    next => exact later h

theorem exists_of_mem_findAll {α : Type} {m : Pattern α} {a : α} {s : List Char}
    (h : a ∈ findAll m s) : ∃ front rest n, s = front ++ rest ∧ m rest = some (a, n) :=
  exists_of_mem_findAllFrom h

/-- The first thing the pattern finds. -/
def find? {α : Type} (m : Pattern α) : List Char → Option α
  | [] => none
  | c :: s =>
    match m (c :: s) with
    | some (a, _) => some a
    | none => find? m s

/-- Scan on after `skip` more characters, replacing each match by the text found for it. -/
def replaceMatchesFrom (m : Pattern (List Char)) : (skip : Nat) → List Char → List Char
  | _, [] => []
  | k + 1, _ :: s => replaceMatchesFrom m k s
  | 0, c :: s =>
    match m (c :: s) with
    | some (t, n) => t ++ replaceMatchesFrom m (n - 1) s
    | none => c :: replaceMatchesFrom m 0 s

/-- Replace each match of the pattern by the text found for it. -/
def replaceMatches (m : Pattern (List Char)) (s : List Char) : List Char := replaceMatchesFrom m 0 s

/-- The rest of a text behind a given beginning, when it begins so. -/
def after? : (start s : List Char) → Option (List Char)
  | [], s => some s
  | _ :: _, [] => none
  | c :: p, d :: s => if c = d then after? p s else none

/-- Does the text begin with `start`? -/
def startsWith (start s : List Char) : Bool := (after? start s).isSome

/-- Does the text end with `stop`? -/
def endsWith (stop s : List Char) : Bool := startsWith stop.reverse s.reverse

/-- Split a text around the first occurrence of `p`. -/
def breakOn? (p : List Char) : List Char → Option (List Char × List Char)
  | [] => if p.isEmpty then some ([], []) else none
  | c :: s =>
    match after? p (c :: s) with
    | some rest => some ([], rest)
    | none => (breakOn? p s).map fun (before, rest) => (c :: before, rest)

/-- Does `p` occur in the text? -/
def contains (p s : List Char) : Bool := (breakOn? p s).isSome

/-- The pattern that finds exactly `p` and puts `r` in its place. -/
def literally (p r : List Char) : Pattern (List Char) := fun s =>
  if p.isEmpty then none else (after? p s).map fun _ => (r, p.length)

/-- Replace every occurrence of `p`, which is not empty, by `r`. -/
def replaceAll (p r : List Char) (s : List Char) : List Char := replaceMatches (literally p r) s

/-- Replace the first occurrence of `p` by `r`. -/
def replaceFirst (p r : List Char) (s : List Char) : List Char :=
  match breakOn? p s with
  | some (before, rest) => before ++ r ++ rest
  | none => s

/-- The pieces between the separators; `run` is the piece being read, reversed. -/
def splitOnFrom (sep : Char → Bool) (run : List Char) : List Char → List (List Char)
  | [] => [run.reverse]
  | c :: s =>
    if sep c then run.reverse :: splitOnFrom sep [] s else splitOnFrom sep (c :: run) s

/-- The pieces between the characters that `sep` accepts, empty ones included. -/
def splitOn (sep : Char → Bool) (s : List Char) : List (List Char) := splitOnFrom sep [] s

/-- Join pieces with a separator between them. -/
def join (sep : List Char) : List (List Char) → List Char
  | [] => []
  | [p] => p
  | p :: q :: ps => p ++ sep ++ join sep (q :: ps)

/-- The number of bytes of a text in UTF-8. -/
def byteSize (s : List Char) : Nat := s.foldl (fun n c => n + c.utf8Size) 0

/-- An ASCII letter in upper case becomes lower case. -/
def lowerAscii (s : List Char) : List Char := s.map Char.toLower

/-- An ASCII letter, digit or underscore. -/
def isWordAscii (c : Char) : Bool := c.isAlphanum || c == '_'

/-- Keep the first of equal elements, in order of first appearance. -/
def dedupFrom {α : Type} [BEq α] (seen : List α) : List α → List α
  | [] => []
  | a :: l => if seen.contains a then dedupFrom seen l else a :: dedupFrom (a :: seen) l

/-- The distinct elements of a list, in order of first appearance. -/
def distinct {α : Type} [BEq α] (l : List α) : List α := dedupFrom [] l

end ClientBuild.Text
