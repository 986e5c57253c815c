import ClientBuild.Proofs.Markup.Attributes
import ClientBuild.Proofs.Text.Words

/-!
# Values of properties, read to their end

A value is made of characters, closed strings and groups in brackets (`IsValue`).  Quotes hide brackets and
brackets hide commas, so in a group everything is read on (`takeValue_inside`), and outside of groups nothing of a
value looks like its end.  The scan may stop behind a string already, when it sees the end behind blanks;
these are trimmed anyway, and so each value is found whole whatever follows its end (`value_read_to_end`).
-/

namespace ClientBuild.Markup

open Text (isBlank trim)

/-! ## The grammar of values -/

/-- The opening brackets of a value, each with the one that closes it. -/
def brackets : List (Char × Char) := [('\x7b', '\x7d'), ('(', ')'), ('[', ']')]

/-- A character that neither begins a string nor opens or closes a group. -/
structure IsValueChar (c : Char) : Prop where
  quote : isQuote c = false
  bracket : ∀ b ∈ brackets, c ≠ b.1 ∧ c ≠ b.2

instance (c : Char) : Decidable (IsValueChar c) :=
  decidable_of_iff (isQuote c = false ∧ ∀ b ∈ brackets, c ≠ b.1 ∧ c ≠ b.2)
    ⟨fun h => ⟨h.1, h.2⟩, fun h => ⟨h.1, h.2⟩⟩

/-- A value, or the inside of a group: only there commas and line breaks may stand. -/
inductive IsValue : (inside : Bool) → List Char → Prop where
  | nil {inside : Bool} : IsValue inside []
  | char {inside : Bool} {c : Char} {s : List Char} : IsValueChar c → (c = ',' ∨ c = '\n' → inside = true) →
      IsValue inside s → IsValue inside (c :: s)
  | string {inside : Bool} {q : Char} {t s : List Char} : isQuote q = true → (∀ c ∈ t, c ≠ q ∧ c ≠ '\\') →
      IsValue inside s → IsValue inside (q :: (t ++ q :: s))
  | group {inside : Bool} {o c : Char} {t s : List Char} : (o, c) ∈ brackets → IsValue true t →
      IsValue inside s → IsValue inside (o :: (t ++ c :: s))

variable {inside : Bool} {depth : Int} {c o q : Char} {r s t v w : List Char}

theorem mem_brackets_iff : (o, c) ∈ brackets ↔ (o = '\x7b' ∧ c = '\x7d') ∨ (o = '(' ∧ c = ')') ∨ (o = '[' ∧ c = ']') := by
  simp [brackets]

/-- What begins a string or a group is no blank and ends no value. -/
theorem starts_part (h : isQuote c = true ∨ ∃ d, (c, d) ∈ brackets) : isBlank c = false ∧ c ≠ ',' ∧ c ≠ '\x7d' := by
  rcases h with h | ⟨d, h⟩
  · rcases isQuote_iff.1 h with rfl | rfl | rfl
    all_goals decide
  · rcases mem_brackets_iff.1 h with ⟨rfl, -⟩ | ⟨rfl, -⟩ | ⟨rfl, -⟩
    all_goals decide

/-- Plain characters in front of a value belong to it. -/
theorem IsValue.append_of_forall (hs : IsValue inside s)
    (h : ∀ c ∈ t, IsValueChar c ∧ (c = ',' ∨ c = '\n' → inside = true)) : IsValue inside (t ++ s) := by
  induction t with
  | nil => exact hs
  | cons c t ih =>
    obtain ⟨⟨hplain, hend⟩, ht⟩ := List.forall_mem_cons.1 h
    exact .char hplain hend (ih ht)

theorem IsValue.trimLeft (h : IsValue inside s) : IsValue inside (Text.trimLeft s) := by
  have hkept {c : Char} {s : List Char} (hc : isBlank c = false) : Text.trimLeft (c :: s) = c :: s :=
    List.dropWhile_cons_of_neg (by simp [hc])
  induction h with
  | nil => exact .nil
  | @char _ c s hplain hend hs ih =>
    cases hc : isBlank c with
    | true =>
      have hdrop : Text.trimLeft (c :: s) = Text.trimLeft s := List.dropWhile_cons_of_pos hc
      rw [hdrop]
      exact ih
    | false =>
      rw [hkept hc]
      exact .char hplain hend hs
  | string hq ht hs _ =>
    rw [hkept (starts_part (.inl hq)).1]
    exact .string hq ht hs
  | group ho ht hs _ _ =>
    rw [hkept (starts_part (.inr ⟨_, ho⟩)).1]
    exact .group ho ht hs

/-! ## The scan -/

/-- Outside of strings the character before does not matter. -/
theorem takeValue_previous (depth : Int) (p : Char) (s : List Char) :
    takeValue depth none p s = takeValue depth none ' ' s := by
  cases s with
  | nil => rfl
  | cons c s => simp only [takeValue]

theorem takeValue_char (hc : IsValueChar c) (hend : c = ',' ∨ c = '\n' → depth ≠ 0) (p : Char) (s : List Char) :
    takeValue depth none p (c :: s) = c :: takeValue depth none ' ' s := by
  have hopen : ¬ (c = '\x7b' ∨ c = '(' ∨ c = '[') := by
    rintro (rfl | rfl | rfl)
    all_goals exact absurd hc.bracket (by decide)
  have hclose : ¬ (c = '\x7d' ∨ c = ')' ∨ c = ']') := by
    rintro (rfl | rfl | rfl)
    all_goals exact absurd hc.bracket (by decide)
  have hgoes : ¬ (depth = 0 ∧ (c = '\x7d' ∨ c = ',' ∨ c = '\n')) := by
    rintro ⟨hdepth, rfl | hstop⟩
    · exact hclose (.inl rfl)
    · exact hend hstop hdepth
  rw [takeValue, if_neg (by simp [hc.quote]), if_neg hopen, if_neg hgoes, if_neg hclose, takeValue_previous]

/-- A string is read to the quote that closes it. -/
theorem takeValue_inString (ht : ∀ c ∈ t, c ≠ q ∧ c ≠ '\\') : ∀ {p : Char}, p ≠ '\\' → ∀ s : List Char,
    takeValue depth (some q) p (t ++ q :: s) =
      t ++ q :: (if depth = 0 ∧ endsValue s then [] else takeValue depth none ' ' s) := by
  induction t with
  | nil =>
    intro p hp s
    rw [List.nil_append, List.nil_append, takeValue, if_pos ⟨rfl, hp⟩]
    split
    next => rfl
    next => rw [takeValue_previous]
  | cons c t ih =>
    intro p hp s
    obtain ⟨⟨hquote, hescape⟩, ht⟩ := List.forall_mem_cons.1 ht
    rw [List.cons_append, takeValue, if_neg (fun h => hquote h.1), ih ht hescape, List.cons_append]

theorem takeValue_string (hq : isQuote q = true) (ht : ∀ c ∈ t, c ≠ q ∧ c ≠ '\\') (p : Char) (s : List Char) :
    takeValue depth none p (q :: (t ++ q :: s)) =
      q :: (t ++ q :: (if depth = 0 ∧ endsValue s then [] else takeValue depth none ' ' s)) := by
  have hescape : q ≠ '\\' := by
    rintro rfl
    cases hq
  rw [takeValue, if_pos hq, takeValue_inString ht hescape]

theorem takeValue_open (ho : (o, c) ∈ brackets) (p : Char) (s : List Char) :
    takeValue depth none p (o :: s) = o :: takeValue (depth + 1) none ' ' s := by
  have hopen : isQuote o = false ∧ (o = '\x7b' ∨ o = '(' ∨ o = '[') := by
    rcases mem_brackets_iff.1 ho with ⟨rfl, -⟩ | ⟨rfl, -⟩ | ⟨rfl, -⟩
    all_goals decide
  rw [takeValue, if_neg (by simp [hopen.1]), if_pos hopen.2, takeValue_previous]

theorem takeValue_close (ho : (o, c) ∈ brackets) (hdepth : depth ≠ 0) (p : Char) (s : List Char) :
    takeValue depth none p (c :: s) = c :: takeValue (depth - 1) none ' ' s := by
  have hclose : isQuote c = false ∧ ¬ (c = '\x7b' ∨ c = '(' ∨ c = '[') ∧ (c = '\x7d' ∨ c = ')' ∨ c = ']') := by
    rcases mem_brackets_iff.1 ho with ⟨-, rfl⟩ | ⟨-, rfl⟩ | ⟨-, rfl⟩
    all_goals decide
  obtain ⟨hquote, hopen, hclose⟩ := hclose
  rw [takeValue, if_neg (by simp [hquote]), if_neg hopen, if_neg (fun h => hdepth h.1), if_pos hclose,
    takeValue_previous]

/-- **In a group everything is read**, and the scan goes on behind it as it began. -/
theorem takeValue_inside (h : IsValue inside t) : ∀ {depth : Int}, 0 < depth → ∀ (p : Char) (r : List Char),
    takeValue depth none p (t ++ r) = t ++ takeValue depth none ' ' r := by
  induction h with
  | nil =>
    intro depth _ p r
    exact takeValue_previous depth p r
  | char hc _ _ ih =>
    intro depth hdepth p r
    rw [List.cons_append, takeValue_char hc (fun _ => by omega), ih hdepth, List.cons_append]
  | string hq ht _ ih =>
    intro depth hdepth p r
    rw [List.cons_append, List.append_assoc, List.cons_append, takeValue_string hq ht, if_neg (by omega), ih hdepth,
      List.cons_append, List.append_assoc, List.cons_append]
  | group ho _ _ iht ihs =>
    intro depth hdepth p r
    rw [List.cons_append, List.append_assoc, List.cons_append, takeValue_open ho, iht (by omega),
      takeValue_close ho (by omega), Int.add_sub_cancel, ihs hdepth, List.cons_append, List.append_assoc,
      List.cons_append]

/-! ## Outside of groups -/

/-- Nothing, or what ends a value: a comma or a closing brace, and whatever follows. -/
def Ends (r : List Char) : Prop := ∀ c ∈ r.head?, c = ',' ∨ c = '\x7d'

theorem Ends.takeValue_eq_nil (hr : Ends r) (p : Char) : takeValue 0 none p r = [] := by
  cases r with
  | nil => rfl
  | cons c r =>
    rcases hr c rfl with rfl | rfl
    · rfl
    · rfl

/-- No part of a value looks like its end: what stands in front of the end is blank. -/
theorem IsValue.blank_of_endsValue (h : IsValue inside s) : inside = false → endsValue (s ++ r) = true →
    ∀ c ∈ s, isBlank c = true := by
  have hread {c : Char} {s : List Char} (hc : isBlank c = false) :
      endsValue (c :: s) = (c == ',' || c == '\x7d') := by
    rw [endsValue, Text.trimLeft, List.dropWhile_cons_of_neg (by simp [hc])]
  have hpart {c : Char} {s : List Char} (hc : isQuote c = true ∨ ∃ d, (c, d) ∈ brackets) :
      endsValue (c :: s) = false := by
    obtain ⟨hblank, hcomma, hbrace⟩ := starts_part hc
    rw [hread hblank, beq_false_of_ne hcomma, beq_false_of_ne hbrace, Bool.or_self]
  induction h with
  | nil =>
    intro _ _ c hc
    exact absurd hc List.not_mem_nil
  | @char inside c s hplain hend _ ih =>
    intro hinside hends
    cases hc : isBlank c with
    | true =>
      have hskip : endsValue (c :: s ++ r) = endsValue (s ++ r) := by
        rw [endsValue, endsValue, List.cons_append, Text.trimLeft, List.dropWhile_cons_of_pos hc, Text.trimLeft]
      exact List.forall_mem_cons.2 ⟨hc, ih hinside (hskip ▸ hends)⟩
    | false =>
      rw [List.cons_append, hread hc, Bool.or_eq_true, beq_iff_eq, beq_iff_eq] at hends
      rcases hends with rfl | rfl
      · rw [hend (.inl rfl)] at hinside
        cases hinside
      · exact absurd hplain (by decide)
  | string hq _ _ _ =>
    intro _ hends
    rw [List.cons_append, hpart (.inl hq)] at hends
    cases hends
  | group ho _ _ _ _ =>
    intro _ hends
    rw [List.cons_append, hpart (.inr ⟨_, ho⟩)] at hends
    cases hends

/-- A value is read up to its end, but for blanks behind a string. -/
theorem IsValue.exists_takeValue (h : IsValue inside v) (hr : Ends r) : inside = false → ∀ p : Char,
    ∃ blanks, (∀ c ∈ blanks, isBlank c = true) ∧ takeValue 0 none p (v ++ r) ++ blanks = v := by
  induction h with
  | nil =>
    intro _ p
    refine ⟨[], List.forall_mem_nil _, ?_⟩
    rw [List.nil_append, hr.takeValue_eq_nil, List.nil_append]
  | @char _ c s hplain hend _ ih =>
    intro hinside p
    have hread : takeValue 0 none p (c :: (s ++ r)) = c :: takeValue 0 none ' ' (s ++ r) := by
      refine takeValue_char hplain (fun hstop => ?_) p (s ++ r)
      rw [hend hstop] at hinside
      cases hinside
    obtain ⟨blanks, hblanks, heq⟩ := ih hinside ' '
    refine ⟨blanks, hblanks, ?_⟩
    rw [List.cons_append, hread, List.cons_append, heq]
  | @string _ q t s hq ht hs ih =>
    intro hinside p
    rw [List.cons_append, List.append_assoc, List.cons_append, takeValue_string hq ht]
    split
    next hends =>
      exact ⟨s, hs.blank_of_endsValue hinside hends.2, by simp⟩
    next =>
      obtain ⟨blanks, hblanks, heq⟩ := ih hinside ' '
      refine ⟨blanks, hblanks, ?_⟩
      rw [List.cons_append, List.append_assoc, List.cons_append, heq]
  | group ho ht _ _ ih =>
    intro hinside p
    obtain ⟨blanks, hblanks, heq⟩ := ih hinside ' '
    refine ⟨blanks, hblanks, ?_⟩
    rw [List.cons_append, List.append_assoc, List.cons_append, takeValue_open ho, takeValue_inside ht (by decide),
      takeValue_close ho (by decide), Int.add_sub_cancel, List.cons_append, List.append_assoc, List.cons_append, heq]

/-- A value between blanks and its end is found. -/
theorem IsValue.complexValue?_eq (h : IsValue false v) (hv : ¬ ∀ c ∈ v, isBlank c = true)
    (hw : ∀ c ∈ w, isBlank c = true) (hr : Ends r) : complexValue? (w ++ (v ++ r)) = some (trim v) := by
  obtain ⟨b, hb, hblank⟩ := Text.exists_trimLeft_eq (rfl : Text.trimLeft v = Text.trimLeft v)
  -- What is read is the value without the blanks in front, and maybe without some behind.
  have htext : Text.trimLeft (w ++ (v ++ r)) = Text.trimLeft v ++ r := by
    rw [Text.trimLeft_append_of_blank hw]
    cases hv' : Text.trimLeft v with
    | nil =>
      rw [hv', List.append_nil] at hb
      exact absurd (hb ▸ hblank) hv
    | cons c s => exact Text.trimLeft_append hv'
  obtain ⟨blanks, hblanks, heq⟩ := h.trimLeft.exists_takeValue hr rfl ' '
  have htrim : trim (takeValue 0 none ' ' (Text.trimLeft v ++ r)) = trim v := by
    have hsplit : v = b ++ (takeValue 0 none ' ' (Text.trimLeft v ++ r) ++ blanks) := by rw [heq, ← hb]
    conv_rhs => rw [hsplit, Text.trim_append_of_blank hblank hblanks]
  have hne : trim v ≠ [] := by
    intro hnil
    obtain ⟨l, r, hl, hr, hsplit⟩ := Text.exists_eq_append_trim v
    rw [hnil, List.append_nil] at hsplit
    exact hv (hsplit ▸ List.forall_mem_append.2 ⟨hl, hr⟩)
  rw [complexValue?, htext, htrim]
  split
  next hnil => exact absurd hnil hne
  next => rfl

/-- **A value is read to its end.**  Behind blanks, a value that is not blank is found without the blanks around
it, wherever it ends: with the text, at a comma or at a closing brace, and whatever follows. -/
theorem value_read_to_end (hv : IsValue false v) (hne : ¬ ∀ c ∈ v, isBlank c = true)
    (hw : ∀ c ∈ w, isBlank c = true) (r : List Char) :
    complexValue? (w ++ v) = some (trim v) ∧ complexValue? (w ++ (v ++ ',' :: r)) = some (trim v) ∧
      complexValue? (w ++ (v ++ '\x7d' :: r)) = some (trim v) := by
  refine ⟨?_, ?_, ?_⟩
  · have hend : Ends [] := fun c hc => by cases hc
    have hvalue := hv.complexValue?_eq hne hw hend
    rwa [List.append_nil] at hvalue
  · exact hv.complexValue?_eq hne hw fun c hc => .inl (Option.some.inj hc).symm
  · exact hv.complexValue?_eq hne hw fun c hc => .inr (Option.some.inj hc).symm

/-- A call with a group over two lines, a string that holds a brace, and another string behind it. -/
theorem value_read_to_end_call :
    let v := "f(\x7b 'a\x7d': [x,\n y] \x7d) + 'b' ".toList
    let w := "\n ".toList
    (IsValue false v ∧ (¬ ∀ c ∈ v, isBlank c = true) ∧ ∀ c ∈ w, isBlank c = true) ∧
      complexValue? (w ++ v) = some (trim v) ∧ complexValue? (w ++ (v ++ ',' :: "'c'".toList)) = some (trim v) ∧
      complexValue? (w ++ (v ++ '\x7d' :: "'c'".toList)) = some (trim v) := by
  intro v w
  have hplain {inside : Bool} {t : List Char} (h : ∀ c ∈ t, IsValueChar c ∧ (c = ',' ∨ c = '\n' → inside = true)) :
      IsValue inside t := by
    rw [← List.append_nil t]
    exact .append_of_forall .nil h
  have hlist : IsValue true ('[' :: ("x,\n y".toList ++ ']' :: [' '])) :=
    .group (by decide) (hplain (by decide)) (hplain (by decide))
  have hobject : IsValue true ('\x7b' :: (' ' :: '\'' :: ("a\x7d".toList ++ '\'' :: (": ".toList ++
      '[' :: ("x,\n y".toList ++ ']' :: [' ']))) ++ '\x7d' :: [])) :=
    .group (by decide) (.char (by decide) (by decide) (.string (by decide) (by decide)
      (hlist.append_of_forall (by decide)))) .nil
  have hstring : IsValue false (" + ".toList ++ '\'' :: ("b".toList ++ '\'' :: [' '])) :=
    .append_of_forall (.string (by decide) (by decide) (hplain (by decide))) (by decide)
  have hv : IsValue false v := .char (by decide) (by decide) (.group (o := '(') (by decide) hobject hstring)
  have hne : ¬ ∀ c ∈ v, isBlank c = true := by decide
  have hw : ∀ c ∈ w, isBlank c = true := by decide
  exact ⟨⟨hv, hne, hw⟩, value_read_to_end hv hne hw _⟩

end ClientBuild.Markup
