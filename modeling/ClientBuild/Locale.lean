import ClientBuild.Failure
import ClientBuild.Json.Printer
import ClientBuild.Json.Reader
import ClientBuild.Style.SafeName
import ClientBuild.Text.Blank

/-!
# Locale files

Keys of a locale object get safe names.  A table of key and text is packed into one string, so
that it stays small when it is compiled.
-/

namespace ClientBuild.Locale

/-- What separates a key from its text in a packed table. -/
def pairSeparator : List Char := "<__=__>".toList

/-- What separates the entries of a packed table. -/
def entrySeparator : List Char := "<__&__>".toList

/-- The text of a string, or the JSON of another value. -/
def plainText : Json → List Char
  | .string s => s.toList
  | v => v.render

/-- An entry of a packed table; what is not a list of at least two values has none. -/
def packEntry? : Json → Option (List Char)
  | .array (key :: text :: _) => some (plainText key ++ pairSeparator ++ plainText text)
  | _ => none

/-- A table packed into one string. -/
def pack (entries : List Json) : List Char :=
  Text.join entrySeparator (entries.filterMap packEntry?)

/-- The members of an object under safe keys; of keys that become equal the last value stays. -/
def renameKeys (members : List (String × Json)) : List (String × Json) :=
  Assoc.ofPairs (members.map fun (k, v) =>
    (String.ofList (Style.SafeName.encodeLocaleKey k.toList), v))

/-- A locale value in the form that is compiled; tables are packed where `packed` says so. -/
def sanitizeValue (packed : Bool) : Json → Json
  | .array entries =>
    if packed then .array [.array [.string (String.ofList (pack entries))]] else .array entries
  | v => v

/-- A locale file in the form that is compiled.  Files that are not JSON are left alone. -/
def sanitize (code id : List Char) : Except Failure (Option (List Char)) :=
  if !Text.endsWith ".json".toList id then .ok none
  else
    match Json.parse? code with
    | none => .error (.serialization "not a JSON text")
    | some (.object members) => .ok (some (Json.object (renameKeys members)).render)
    | some v => .ok (some (sanitizeValue (Text.contains "/locale/".toList id) v).render)

end ClientBuild.Locale
