import ClientBuild.Text.Search

/-!
# Safe names

Some characters may not stand in a class selector.  `SafeName.encode` writes a word in dashes for
each of them, in markup and stylesheet alike; `SafeName.decode` puts the characters back.  Locale
keys have a longer list.
-/

namespace ClientBuild.Style.SafeName

/-- The characters that may not stand in a selector, each with the word for it. -/
def words : List (Char × String) :=
  [('[', "-bracket-start-"), (']', "-bracket-end-"), ('(', "-paren-start-"),
   (')', "-paren-end-"), ('{', "-brace-start-"), ('}', "-brace-end-"), ('$', "-dollar-"),
   ('#', "-hash-"), ('!', "-important-"), ('/', "-slash-"), (':', "-colon-")]

/-- The characters that may not stand in a locale key besides those, in the order in which they
are replaced. -/
def localeWords : List (Char × String) :=
  words ++
  [(' ', "-space-"), ('<', "-lt-"), ('>', "-gt-"), ('&', "-amp-"), ('|', "-pipe-"),
   ('^', "-caret-"), ('~', "-tilde-"), ('\x60', "-backtick-"), ('\'', "-single-quote-"),
   ('.', "-dot-"), ('?', "-question-"), ('*', "-star-"), ('+', "-plus-"), ('-', "-dash-"),
   ('_', "-underscore-"), ('=', "-equal-"), ('%', "-percent-"), ('@', "-at-")]

/-- Operators of expressions, which are no class names. -/
def operators : List String := ["!=", "!==", "?", ":", "="]

/-- The variant that a selector for dark mode ends in. -/
def darkVariant : String := ":is(.dark *)"

/-- Replace every occurrence of a character by a word. -/
def replaceChar (c : Char) (word : List Char) (s : List Char) : List Char :=
  s.flatMap fun d => if d = c then word else [d]

/-- Replace the characters of a list by their words, one after the other. -/
def replaceAllIn (ws : List (Char × String)) (s : List Char) : List Char :=
  ws.foldl (fun s (c, w) => replaceChar c w.toList s) s

/-- Names that stay as they are: host selectors and operators. -/
def passesThrough (s : List Char) : Bool :=
  Text.contains ":host".toList s || operators.any fun o => o.toList == s

/-- The safe form of a class name or selector. -/
def encode (s : List Char) : List Char :=
  if passesThrough s then s
  else replaceAllIn words (Text.replaceAll darkVariant.toList [] (s.filter (· != '\\')))

/-- The name that a safe name stands for. -/
def decode (s : List Char) : List Char :=
  words.reverse.foldl (fun s (c, w) => Text.replaceAll w.toList [c] s) s

/-- The safe form of a locale key. -/
def encodeLocaleKey (s : List Char) : List Char := replaceAllIn localeWords s

end ClientBuild.Style.SafeName
