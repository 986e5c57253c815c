import ClientBuild.Proofs.Text.Apart

/-!
# Texts with separators

A text that is put together with a separator between its pieces is cut at the separators into those
pieces again (`splitAround_join`), as long as no piece has one.  The separators are several characters
long, so that one could begin in a piece and end in a separator: this cannot be where the first and the
last character of a separator stand nowhere else in it.
-/

namespace ClientBuild.Text

variable {p a b : List Char} {c : Char}

/-- The pieces of a text between the occurrences of a separator, empty ones included; each occurrence
is looked for behind the one before. -/
def splitAround (p s : List Char) : List (List Char) :=
  match _h : breakOn? p s with
  | none => [s]
  | some (before, rest) => if _hp : p = [] then [s] else before :: splitAround p rest
termination_by s.length
decreasing_by
  have hpos : 0 < p.length := List.length_pos_iff.2 ‹p ≠ []›
  rw [eq_of_breakOn? ‹breakOn? p s = some (before, rest)›, List.length_append, List.length_append]
  omega

theorem splitAround_of_not_infix (h : ¬ p <:+: a) : splitAround p a = [a] := by
  rw [splitAround]
  split
  next => rfl
  next hbreak =>
    rw [breakOn?_eq_none_iff.2 h] at hbreak
    cases hbreak

/-- The first piece of a text, when the separator behind it is the first one. -/
theorem splitAround_append (hp : p ≠ []) (h : ¬ p <:+: a ++ p.dropLast) :
    splitAround p (a ++ p ++ b) = a :: splitAround p b := by
  have hfirst := breakOn?_append b h
  rw [splitAround]
  split
  next hbreak =>
    rw [hfirst] at hbreak
    cases hbreak
  next hbreak =>
    obtain ⟨rfl, rfl⟩ := Prod.mk.inj (Option.some.inj (hbreak.symm.trans hfirst))
    rw [dif_neg hp]

/-! ## Occurrences at the seams -/

/-- An occurrence does not reach into a text that lacks its last character. -/
theorem infix_of_infix_append_of_last (hc : c ∉ b) (h : p ++ [c] <:+: a ++ b) : p ++ [c] <:+: a := by
  obtain ⟨x, y, h⟩ := h
  have h : a ++ b = (x ++ p) ++ c :: y := by simpa using h.symm
  obtain ⟨w, rfl, -⟩ := exists_of_append_eq h hc
  exact ⟨x, w, by simp⟩

/-- An occurrence does not begin in a text that lacks its first character. -/
theorem infix_of_infix_append_of_head (hc : c ∉ a) (h : c :: p <:+: a ++ b) : c :: p <:+: b := by
  obtain ⟨x, y, h⟩ := h
  have h : a ++ b = x ++ c :: (p ++ y) := by simpa using h.symm
  obtain ⟨w, rfl, rfl⟩ := exists_of_append_eq_right h hc
  exact ⟨w, y, by simp⟩

/-! ## Pieces -/

/-- **Pieces without the separator come back.** -/
theorem splitAround_join {q : List Char} (hc : c ∉ q) : ∀ {ps : List (List Char)}, ps ≠ [] →
    (∀ a ∈ ps, ¬ q ++ [c] <:+: a) → splitAround (q ++ [c]) (join (q ++ [c]) ps) = ps
  | [], hps, _ => absurd rfl hps
  | [a], _, h => splitAround_of_not_infix (h a List.mem_cons_self)
  | a :: b :: ps, _, h => by
    obtain ⟨ha, hrest⟩ := List.forall_mem_cons.1 h
    have hfirst : ¬ q ++ [c] <:+: a ++ (q ++ [c]).dropLast := by
      rw [List.dropLast_concat]
      exact fun hinside => ha (infix_of_infix_append_of_last hc hinside)
    rw [join, splitAround_append (by simp) hfirst, splitAround_join hc (List.cons_ne_nil b ps) hrest]

end ClientBuild.Text
