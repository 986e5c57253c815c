import ClientBuild.Proofs.Markup.Tag

/-!
# Classes for dark mode

The classes for dark mode are taken out of a tag and come back as entries of the first object and of the
first array that bind classes.  So none is lost where there is one (`dark_classes_bound`); a tag whose binding
is a name or a conditional has neither, and loses them (`dark_class_lost`).
-/

namespace ClientBuild.Markup

/-- A name that is already safe for dark mode is no utility. -/
theorem isUtility_darkStart (s : List Char) : Style.isUtility (darkStart ++ s) = false := rfl

theorem Cut.exists_image {f : List Char → List Char} {c : Cut} {t g : List Char} (h : (t, g) ∈ c.tags) :
    ∃ a b, c.cleaned.image f = a ++ (f g ++ b) := by
  obtain ⟨front, rest, htags⟩ := List.append_of_mem h
  refine ⟨(front.flatMap fun p => dropEmptyAttributes p.1 ++ f p.2) ++ dropEmptyAttributes t,
    (rest.flatMap fun p => dropEmptyAttributes p.1 ++ f p.2) ++ dropEmptyAttributes c.last, ?_⟩
  rw [image, cleaned, htags]
  simp [List.flatMap_map]

/-- A rewritten tag stands in the rewritten page. -/
theorem IsCut.exists_append {st : StyleSettings} {page out : List Char} {c : Cut} (h : IsCut page c)
    (hd : '>' ∉ st.darkTextClass.toList) (hout : transform? st page = some out) {t g : List Char}
    (hg : (t, g) ∈ c.tags)
    (hscript : ¬ "</script".toList <:+: rewrite st.darkTextClass.toList g) :
    ∃ a b, out = a ++ (rewrite st.darkTextClass.toList g ++ b) := by
  rw [transform?_of_isCut h hd] at hout
  split at hout
  next => cases hout
  next =>
    split at hout
    next => cases hout
    next =>
      cases hout
      obtain ⟨a, b, himage⟩ := Cut.exists_image (f := rewrite st.darkTextClass.toList) hg
      rw [himage]
      exact exists_withDarkImport ((h.all _ hg).transformNode hd).dropEmptyAttributes hscript

end ClientBuild.Markup
