/-!
# Blank characters

Blank characters are those with the Unicode property `White_Space`.  Trimming and splitting
into words go by this class everywhere in the library, never by the ASCII blanks alone.
-/

namespace ClientBuild.Text

/-- A character with the Unicode property `White_Space`. -/
def isBlank (c : Char) : Bool :=
  let n := c.val
  (9 ≤ n && n ≤ 13) || n == 32 || n == 0x85 || n == 0xA0 || n == 0x1680 ||
    (0x2000 ≤ n && n ≤ 0x200A) || n == 0x2028 || n == 0x2029 || n == 0x202F ||
    n == 0x205F || n == 0x3000

/-- The number of blanks in front. -/
def blanksBefore (s : List Char) : Nat := (s.takeWhile isBlank).length

/-- Drop the blanks in front. -/
def trimLeft (s : List Char) : List Char := s.dropWhile isBlank

/-- Drop the blanks at the end. -/
def trimRight : List Char → List Char
  | [] => []
  | c :: s =>
    match trimRight s with
    | [] => if isBlank c then [] else [c]
    | t => c :: t

/-- Drop the blanks at both ends. -/
def trim (s : List Char) : List Char := trimRight (trimLeft s)

theorem length_trimRight_le (s : List Char) : (trimRight s).length ≤ s.length := by
  induction s with
  | nil => exact Nat.le_refl _
  | cons c s ih =>
    rw [trimRight]
    split
    next => split <;> simp
    next => simpa using ih

theorem length_trim_le (s : List Char) : (trim s).length ≤ s.length :=
  Nat.le_trans (length_trimRight_le _) (List.dropWhile_sublist _).length_le

/-- The maximal runs of characters that are not blank; `run` is the run being read, reversed. -/
def wordsFrom (run : List Char) : List Char → List (List Char)
  | [] => if run.isEmpty then [] else [run.reverse]
  | c :: s =>
    if isBlank c then
      if run.isEmpty then wordsFrom [] s else run.reverse :: wordsFrom [] s
    else wordsFrom (c :: run) s

/-- The words of a text, in order: its maximal runs without blanks. -/
def words (s : List Char) : List (List Char) := wordsFrom [] s

/-- A text of blanks only. -/
def allBlank (s : List Char) : Bool := s.all isBlank

end ClientBuild.Text
