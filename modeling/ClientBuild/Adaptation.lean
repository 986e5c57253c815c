import ClientBuild.Locale
import ClientBuild.Markup.Transform
import ClientBuild.Settings.Basic
import ClientBuild.Style.Sheet

/-!
# Adapting source files

The style engine of the cross-platform target takes pages, styles and locale files in its own
form.  How a file is brought into it depends on its kind, on the settings and on its path.
-/

namespace ClientBuild

/-- The kinds of source files that are adapted. -/
inductive SourceKind where
  | markup
  | style
  | locale
deriving DecidableEq, Repr, Inhabited

/-- The adapted text of a source file at the path `id`, or `none` if it stays as it is.  Markup
and styles are left alone when their adaptation is switched off. -/
def adaptSource (kind : SourceKind) (settings : Settings) (id code : List Char) :
    Except Failure (Option (List Char)) :=
  match kind with
  | .markup =>
    if settings.style.enable && Markup.appliesTo id then
      .ok (Markup.transform? settings.style code)
    else .ok none
  | .style =>
    if settings.style.enable then Style.adaptSheet? settings.style code else .ok none
  | .locale => Locale.sanitize code id

end ClientBuild
