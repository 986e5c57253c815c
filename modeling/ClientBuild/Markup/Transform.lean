import ClientBuild.Markup.ClassName
import ClientBuild.Markup.Page
import ClientBuild.Settings.Basic
import ClientBuild.Style.SafeName
import ClientBuild.Style.Utility

/-!
# Pages with safe class names

The tags in the template blocks of a page get safe class names.  Classes for dark mode move into
the `:class` binding, where they depend on `__isDark`, and text tags get the dark class of the
settings.
-/

namespace ClientBuild.Markup

open Style (isUtility)

/-- The import that dark mode needs. -/
def darkImport : List Char := "import \x7b isDark as __isDark \x7d from '@/cool';".toList

/-- The script block of a page that has none. -/
def scriptStub : List Char := "\n<script lang=\"ts\" setup></script>".toList

/-- A binding without entries. -/
def emptyBinding : List Char := " :class=\"\x7b\x7d\"".toList

/-- What the safe name of a class for dark mode begins with. -/
def darkStart : List Char := "dark-colon-".toList

/-- Is the tag a text tag? -/
def isTextTag (node : List Char) : Bool :=
  match Text.after? "<text".toList node with
  | some (c :: _) => Text.isBlank c || c == '>' || c == '/'
  | _ => false

/-- Split a tag behind the opening quote of its first plain class attribute; `previous` is the
character before. -/
def splitAtClassValue? (previous : Option Char) : List Char → Option (List Char × List Char)
  | [] => none
  | c :: s =>
    let here := do
      let behind ← Text.after? "class=".toList (c :: s)
      match behind with
      | q :: value =>
        if (previous.map Text.isBlank).getD false && (q == '"' || q == '\'') then
          some ("class=".toList ++ [q], value)
        else none
      | [] => none
    match here with
    | some p => some p
    | none => (splitAtClassValue? (some c) s).map fun p => (c :: p.1, p.2)

/-- A text tag with the dark class in front of its other classes. -/
def addDarkTextClass (darkClass node : List Char) : List Char :=
  match splitAtClassValue? none node with
  | some (before, value) => before ++ darkClass ++ ' ' :: value
  | none => "<text class=\"".toList ++ darkClass ++ '"' :: node.drop 5

/-- Insert a text in front of the end of a tag. -/
def insertBeforeClose (text node : List Char) : List Char :=
  if Text.endsWith ['/', '>'] node then node.take (node.length - 2) ++ text ++ ['/', '>']
  else if Text.endsWith ['>'] node then node.take (node.length - 1) ++ text ++ ['>']
  else node

/-- The utilities that a tag mentions, the longest first. -/
def utilitiesOf (node : List Char) : List (List Char) :=
  ((classNames node).filter isUtility).mergeSort fun a b =>
    Text.byteSize b ≤ Text.byteSize a

/-- Replace a class name in a tag by its safe form. -/
def replaceName (node name : List Char) : List Char :=
  let safe := Style.SafeName.encode name
  if safe = name then node else Text.replaceAll name safe node

/-- The entries of a binding that gives classes in dark mode. -/
def darkEntries (names : List (List Char)) : List Char :=
  Text.join [','] (names.map fun n => '\'' :: n ++ "': __isDark".toList)

/-- Add dark entries to the first object and to the first array that bind classes. -/
def bindDark (names node : List Char) (contents : List (List Char)) : List Char :=
  let object? := contents.find? fun c => Text.startsWith ['{'] c && Text.endsWith ['}'] c
  let array? := contents.find? fun c => Text.startsWith ['['] c && Text.endsWith [']'] c
  let node := match object? with
    | some o => Text.replaceAll o ('{' :: names ++ ',' :: o.drop 1) node
    | none => node
  match array? with
  | some a => Text.replaceAll a ('[' :: '{' :: names ++ '}' :: ',' :: a.drop 1) node
  | none => node

/-- A tag, with the dark class added to a text tag that has it in neither form. -/
def withDarkTextClass (darkClass node : List Char) : List Char :=
  if isTextTag node && !Text.contains darkClass node &&
      !Text.contains (Style.SafeName.encode darkClass) node then
    addDarkTextClass darkClass node
  else node

/-- A tag with safe class names. -/
def transformNode (darkClass node : List Char) : List Char :=
  let node := withDarkTextClass darkClass node
  let names := utilitiesOf node
  let node := names.foldl replaceName node
  let node :=
    if Text.contains ":class=".toList node then node else insertBeforeClose emptyBinding node
  let dark := (names.map Style.SafeName.encode).filter fun n => Text.startsWith darkStart n
  if dark.isEmpty then node
  else
    let node := dark.foldl (fun node n => Text.replaceAll n [] node) node
    bindDark (darkEntries dark) node (classContents node)

/-- Take empty bindings and class attributes out of a page. -/
def dropEmptyAttributes (page : List Char) : List Char :=
  let page := Text.replaceAll emptyBinding [] page
  let page := Text.replaceAll (emptyBinding.drop 1) [] page
  let page := Text.replaceAll "class=\"\"".toList [] page
  Text.replaceAll "class=\" \"".toList [] page

/-- Import what the page needs for dark mode, if it does not yet. -/
def withDarkImport (page : List Char) : List Char :=
  if Text.contains "__isDark".toList page && !Text.contains darkImport page then
    let page := if Text.contains "<script".toList page then page else page ++ scriptStub
    (addToScript? darkImport page).getD page
  else page

/-- A page with safe class names, or `none` if it has no tags in template blocks or nothing
changes. -/
def transform? (st : StyleSettings) (page : List Char) : Option (List Char) :=
  let nodes := templateNodes page
  if nodes.isEmpty then none
  else
    let tags := nodes.filter fun n => !Text.startsWith "<!--".toList n.text
    let out := dropEmptyAttributes
      (spliceFrom (transformNode st.darkTextClass.toList) tags 0 0 page)
    if out = page then none else some (withDarkImport out)

/-- Is the file a page whose class names are made safe? -/
def appliesTo (id : List Char) : Bool :=
  Text.endsWith ".uvue".toList id || Text.contains ".uvue?type=page".toList id

end ClientBuild.Markup
