import ClientBuild.Proofs.Text.Replace
import ClientBuild.Style.SafeName
import ClientBuild.Style.Utility

/-!
# Safe names and utilities

A safe name has characters of the name and of the words that stand for some of them (`mem_encode`), and none
that is written out (`not_mem_encode`).  Writing out goes character by character (`replaceAllIn_append`).  A
utility begins with a letter, a digit or an exclamation mark (`exists_head_of_isUtility`).
-/

namespace ClientBuild.Style

/-- A utility is marked as important, or begins like a utility or with a state. -/
theorem marked_or_start_of_isUtility {n : List Char} (h : isUtility n = true) :
    n.head? = some '!' ∨ ∃ u ∈ utilityStarts ++ stateStarts, u.toList <+: n := by
  simp only [isUtility, Bool.or_eq_true, Bool.and_eq_true, beq_iff_eq] at h
  rcases h with (⟨hmark, -⟩ | h) | h
  · exact Or.inl hmark
  · obtain ⟨u, hu, hstart⟩ := List.any_eq_true.1 h
    obtain ⟨rest, hrest⟩ := Option.isSome_iff_exists.1 hstart
    exact Or.inr ⟨u, List.mem_append_left _ hu, rest, (Text.after?_eq_some_iff.1 hrest).symm⟩
  · obtain ⟨u, hu, hstate⟩ := List.any_eq_true.1 h
    cases hrest : Text.after? u.toList n with
    | none => rw [hrest] at hstate; cases hstate
    | some rest => exact Or.inr ⟨u, List.mem_append_right _ hu, rest, (Text.after?_eq_some_iff.1 hrest).symm⟩

/-- A utility begins with a letter, a digit or an exclamation mark. -/
theorem exists_head_of_isUtility {n : List Char} (h : isUtility n = true) :
    ∃ c s, n = c :: s ∧ (c.isAlphanum || c == '!') = true := by
  have hheads : ∀ u ∈ utilityStarts ++ stateStarts, (u.toList.head?.any Char.isAlphanum) = true := by decide
  rcases marked_or_start_of_isUtility h with hmark | ⟨u, hu, rest, rfl⟩
  · obtain ⟨s, rfl⟩ := List.head?_eq_some_iff.1 hmark
    exact ⟨'!', s, rfl, by decide⟩
  · have hhead := hheads u hu
    cases htext : u.toList with
    | nil => rw [htext] at hhead; cases hhead
    | cons c s =>
      rw [htext] at hhead
      exact ⟨c, s ++ rest, rfl, by rw [show c.isAlphanum = true from hhead, Bool.true_or]⟩

/-- A utility that begins with the letters of dark mode has its colon behind them. -/
theorem dark_prefix_of_isUtility {n : List Char} (h : isUtility n = true) (hdark : "dark".toList <+: n) :
    "dark:".toList <+: n := by
  have hstarts : ∀ u ∈ utilityStarts ++ stateStarts, Text.startsWith "dark:".toList u.toList = true ∨
      Text.startsWith u.toList "dark".toList = false ∧ Text.startsWith "dark".toList u.toList = false := by decide
  rcases marked_or_start_of_isUtility h with hmark | ⟨u, hu, hn⟩
  · obtain ⟨s, rfl⟩ := hdark
    cases hmark
  · rcases hstarts u hu with hstate | ⟨hshort, hlong⟩
    · exact (Text.startsWith_iff.1 hstate).trans hn
    · -- A beginning with other letters does not stand in front of these.
      rw [Bool.eq_false_iff, ne_eq, Text.startsWith_iff] at hshort hlong
      exact ((List.prefix_or_prefix_of_prefix hn hdark).elim hshort hlong).elim

namespace SafeName

/-- The characters of the words that stand for others. -/
def isWordChar (c : Char) : Bool := (words.flatMap fun w => w.2.toList).contains c

theorem mem_replaceChar {c d : Char} {w s : List Char} (h : d ∈ replaceChar c w s) : d ∈ s ∨ d ∈ w := by
  obtain ⟨e, he, hd⟩ := List.mem_flatMap.1 h
  split at hd
  next => exact Or.inr hd
  next => exact Or.inl (List.mem_singleton.1 hd ▸ he)

theorem mem_replaceAllIn {ws : List (Char × String)}
    (hws : ∀ w ∈ ws, ∀ c ∈ w.2.toList, isWordChar c = true) : ∀ {s : List Char} {c : Char},
      c ∈ replaceAllIn ws s → c ∈ s ∨ isWordChar c = true := by
  induction ws with
  | nil => exact fun h => Or.inl h
  | cons w ws ih =>
    intro s c h
    obtain ⟨hw, hws⟩ := List.forall_mem_cons.1 hws
    rcases ih hws (s := replaceChar w.1 w.2.toList s) h with h | h
    · exact (mem_replaceChar h).imp_right (hw c)
    · exact Or.inr h

/-- A safe name is made of characters of the name and of the words for some. -/
theorem mem_encode {s : List Char} {c : Char} (h : c ∈ encode s) : c ∈ s ∨ isWordChar c = true := by
  rw [encode] at h
  split at h
  next => exact Or.inl h
  next =>
    refine (mem_replaceAllIn (by decide) h).imp_left fun h => ?_
    have := (Text.mem_replaceAll h).resolve_right List.not_mem_nil
    exact List.mem_of_mem_filter this

theorem not_mem_replaceAllIn {ws : List (Char × String)}
    (hws : ∀ w ∈ ws, ∀ c ∈ w.2.toList, isWordChar c = true) {c : Char} (hc : isWordChar c = false) :
    ∀ {s : List Char}, (c ∈ ws.map Prod.fst ∨ c ∉ s) → c ∉ replaceAllIn ws s := by
  induction ws with
  | nil => exact fun h => h.resolve_left List.not_mem_nil
  | cons w ws ih =>
    intro s h
    obtain ⟨hw, hws⟩ := List.forall_mem_cons.1 hws
    refine ih hws (s := replaceChar w.1 w.2.toList s) ?_
    by_cases hmem : c ∈ ws.map Prod.fst
    · exact Or.inl hmem
    · refine Or.inr fun hin => ?_
      obtain ⟨e, he, hd⟩ := List.mem_flatMap.1 hin
      split at hd
      next => exact absurd (hw c hd) (by rw [hc]; decide)
      next hne =>
        rw [List.mem_singleton] at hd
        subst hd
        rcases h with h | h
        · exact (List.mem_cons.1 h).elim (fun heq => hne heq) hmem
        · exact h he

/-- A safe name that is not kept as it is has none of the characters that are written out. -/
theorem not_mem_encode {s : List Char} (h : passesThrough s = false) {c : Char}
    (hc : c ∈ words.map Prod.fst) : c ∉ encode s := by
  have hwordChar : ∀ c ∈ words.map Prod.fst, isWordChar c = false := by decide
  rw [encode, if_neg (by simp [h])]
  exact not_mem_replaceAllIn (by decide) (hwordChar c hc) (Or.inl hc)

theorem replaceAllIn_append (a b : List Char) : ∀ ws : List (Char × String),
    replaceAllIn ws (a ++ b) = replaceAllIn ws a ++ replaceAllIn ws b := by
  intro ws
  induction ws generalizing a b with
  | nil => rfl
  | cons w ws ih =>
    have hstep : replaceChar w.1 w.2.toList (a ++ b) =
        replaceChar w.1 w.2.toList a ++ replaceChar w.1 w.2.toList b := List.flatMap_append
    exact (congrArg (replaceAllIn ws) hstep).trans (ih _ _)

theorem replaceChar_of_not_mem {c : Char} (w : List Char) {s : List Char} (h : c ∉ s) :
    replaceChar c w s = s := by
  induction s with
  | nil => rfl
  | cons d s ih =>
    rw [List.mem_cons, not_or] at h
    rw [replaceChar, List.flatMap_cons, if_neg (Ne.symm h.1), ← replaceChar, ih h.2, List.singleton_append]

theorem replaceAllIn_eq_self : ∀ {ws : List (Char × String)} {s : List Char},
    (∀ c ∈ ws.map Prod.fst, c ∉ s) → replaceAllIn ws s = s
  | [], _, _ => rfl
  | w :: ws, s, h => by
    obtain ⟨hw, hws⟩ := List.forall_mem_cons.1 h
    have hstep : replaceAllIn (w :: ws) s = replaceAllIn ws (replaceChar w.1 w.2.toList s) := rfl
    rw [hstep, replaceChar_of_not_mem w.2.toList hw, replaceAllIn_eq_self hws]

theorem mem_replaceAllIn_of_mem {d : Char} : ∀ {ws : List (Char × String)} {s : List Char},
    d ∉ ws.map Prod.fst → d ∈ s → d ∈ replaceAllIn ws s
  | [], _, _, h => h
  | w :: ws, s, hd, h => by
    rw [List.map_cons, List.mem_cons, not_or] at hd
    have hstep : d ∈ replaceChar w.1 w.2.toList s :=
      List.mem_flatMap.2 ⟨d, h, by rw [if_neg hd.1]; exact List.mem_singleton.2 rfl⟩
    have hrest := mem_replaceAllIn_of_mem hd.2 hstep
    exact hrest

/-- A name that is changed has a dash afterwards. -/
theorem dash_mem_replaceAllIn : ∀ {ws : List (Char × String)} {s : List Char},
    '-' ∉ ws.map Prod.fst → (∀ w ∈ ws, '-' ∈ w.2.toList) → replaceAllIn ws s ≠ s →
      '-' ∈ replaceAllIn ws s
  | [], _, _, _, h => absurd rfl h
  | w :: ws, s, hdash, hws, h => by
    obtain ⟨hw, hws⟩ := List.forall_mem_cons.1 hws
    have hdash' : '-' ∉ ws.map Prod.fst := fun hmem => hdash (List.mem_cons_of_mem _ hmem)
    by_cases hmem : w.1 ∈ s
    · have hstep : '-' ∈ replaceChar w.1 w.2.toList s :=
        List.mem_flatMap.2 ⟨w.1, hmem, by rw [if_pos rfl]; exact hw⟩
      have hrest := mem_replaceAllIn_of_mem hdash' hstep
      exact hrest
    · have hstep : replaceAllIn (w :: ws) s = replaceAllIn ws s :=
        congrArg (replaceAllIn ws) (replaceChar_of_not_mem w.2.toList hmem)
      rw [hstep] at h ⊢
      exact dash_mem_replaceAllIn hdash' hws h

/-- A name without blanks has only its backslashes left out, and its characters written out. -/
theorem encode_of_not_blank {s : List Char} (h : passesThrough s = false) (hs : ' ' ∉ s) :
    encode s = replaceAllIn words (s.filter (· != '\\')) := by
  have hvariant : ¬ darkVariant.toList <:+: s.filter (· != '\\') := fun hinside =>
    hs (List.mem_of_mem_filter (hinside.subset (by decide)))
  rw [encode, if_neg (by simp [h]), Text.replaceAll_eq_self hvariant]

/-- A name without blanks and backslashes has its characters written out, and nothing else happens to it. -/
theorem encode_of_word {s : List Char} (h : passesThrough s = false) (hblank : ' ' ∉ s) (hbackslash : '\\' ∉ s) :
    encode s = replaceAllIn words s := by
  have hfilter : s.filter (· != '\\') = s := List.filter_eq_self.2 fun c hc => by
    rw [bne_iff_ne]
    rintro rfl
    exact hbackslash hc
  rw [encode_of_not_blank h hblank, hfilter]

end SafeName

theorem not_passesThrough_of_isUtility {n : List Char} (hn : isUtility n = true)
    (hhost : ¬ ":host".toList <:+: n) : SafeName.passesThrough n = false := by
  rw [SafeName.passesThrough, Text.contains_eq_false_iff.2 hhost, Bool.false_or,
    Bool.eq_false_iff]
  intro hany
  obtain ⟨o, ho, heq⟩ := List.any_eq_true.1 hany
  have hoperator : ∀ o ∈ SafeName.operators, isUtility o.toList = false := by decide
  rw [← beq_iff_eq.1 heq, hoperator o ho] at hn
  cases hn

end ClientBuild.Style
