import ClientBuild.Text.Search
import Mathlib.Data.List.Induction

/-!
# Distinct elements

Leaving out repetitions keeps the elements of a list (`mem_distinct`) and each of them once
(`nodup_distinct`).
-/

namespace ClientBuild.Text

variable {α : Type} [BEq α] [LawfulBEq α] {a : α}

theorem mem_dedupFrom {seen l : List α} : a ∈ dedupFrom seen l ↔ a ∈ l ∧ a ∉ seen := by
  induction l generalizing seen with
  | nil => simp [dedupFrom]
  | cons b l ih =>
    rw [dedupFrom]
    split
    next hb =>
      have hseen : b ∈ seen := List.contains_iff_mem.1 hb
      rw [ih]
      grind
    next hb =>
      have hseen : b ∉ seen := fun h => hb (List.contains_iff_mem.2 h)
      rw [List.mem_cons, ih]
      grind

theorem nodup_dedupFrom (seen l : List α) : (dedupFrom seen l).Nodup := by
  induction l generalizing seen with
  | nil => exact List.nodup_nil
  | cons b l ih =>
    rw [dedupFrom]
    split
    next => exact ih seen
    next =>
      refine List.nodup_cons.2 ⟨fun hb => ?_, ih (b :: seen)⟩
      exact (mem_dedupFrom.1 hb).2 List.mem_cons_self

theorem mem_distinct {l : List α} : a ∈ distinct l ↔ a ∈ l := by
  rw [distinct, mem_dedupFrom]
  exact and_iff_left List.not_mem_nil

theorem nodup_distinct (l : List α) : (distinct l).Nodup := nodup_dedupFrom [] l

theorem dedupFrom_concat (seen l : List α) (a : α) :
    dedupFrom seen (l ++ [a]) = dedupFrom seen l ++ if a ∈ seen ∨ a ∈ l then [] else [a] := by
  induction l generalizing seen with
  | nil =>
    simp only [List.nil_append, dedupFrom, List.contains_iff_mem, List.not_mem_nil, or_false]
  | cons b l ih =>
    rw [List.cons_append, dedupFrom, dedupFrom]
    split
    next hb =>
      have hseen : b ∈ seen := List.contains_iff_mem.1 hb
      rw [ih]
      grind
    next =>
      rw [ih, List.cons_append]
      grind

/-- A further element goes to the end, unless it is there. -/
theorem distinct_concat (l : List α) (a : α) :
    distinct (l ++ [a]) = if a ∈ l then distinct l else distinct l ++ [a] := by
  rw [distinct, dedupFrom_concat, ← distinct]
  simp only [List.not_mem_nil, false_or]
  split
  next => exact List.append_nil _
  next => rfl

/-- Elements that are there already add nothing. -/
theorem distinct_append_of_subset {l r : List α} (h : r ⊆ l) : distinct (l ++ r) = distinct l := by
  induction r using List.reverseRecOn with
  | nil => rw [List.append_nil]
  | append_singleton r a ih =>
    have ha : a ∈ l := h (List.mem_append_right r List.mem_cons_self)
    rw [← List.append_assoc, distinct_concat, if_pos (List.mem_append_left r ha)]
    exact ih fun b hb => h (List.mem_append_left _ hb)

end ClientBuild.Text
