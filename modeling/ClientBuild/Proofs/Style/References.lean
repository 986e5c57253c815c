import ClientBuild.Proofs.Json.NumberText
import ClientBuild.Proofs.Style.Items
import ClientBuild.Proofs.Text.Words

/-!
# References to recorded values

A reference to a custom property whose name begins with `--tw-` is replaced by the value recorded for it,
or by `none`.  The recorded value is not looked at again, and neither is what stands in a reference to
another property.  Values in which neither hides a reference, and in which references are words of their
own, are resolved for good (`Resolvable.substitute`).  Lengths are converted before that, and leave such a
value as it is but for its numbers (`Resolvable.convertUnits`).
-/

namespace ClientBuild.Style

/-! ## Values -/

/-- What marks the name of a property that is recorded. -/
def mark : List Char := "--tw-".toList

/-- Does no name of a recorded property stand in the text? -/
def Unmarked (s : List Char) : Prop := ¬ mark <:+: s

/-- Does every closing parenthesis end the text or stand in front of a separator? -/
def Spaced (s : List Char) : Prop :=
  s.IsChain fun c d => c = ')' → isValueSeparator d = true

/-- Is the text empty, or does it end with a separator? -/
def EndsWord (s : List Char) : Prop := s = [] ∨ ∃ t c, s = t ++ [c] ∧ isValueSeparator c = true

/-- A text whose parentheses open and close each other. -/
inductive IsNested : List Char → Prop where
  | text {s : List Char} : '(' ∉ s → ')' ∉ s → IsNested s
  | parens {t inner s : List Char} : '(' ∉ t → ')' ∉ t → IsNested inner → IsNested s →
      IsNested (t ++ '(' :: (inner ++ ')' :: s))

/-- The argument of a reference to a recorded property. -/
def NamesRecorded (argument : List Char) : Prop :=
  ∃ blanks more, (∀ c ∈ blanks, Text.isBlank c = true ∧ isValueSeparator c = true) ∧
    argument = blanks ++ (mark ++ more)

/-- A value in which every reference is closed and a word of its own, and names of recorded properties
stand in references to them only. -/
inductive Resolvable : List Char → Prop where
  | text {s : List Char} : Unmarked s → ¬ "var(".toList <:+: s → Resolvable s
  | reference {s argument rest : List Char} : Unmarked s → ¬ "var(".toList <:+: s → EndsWord s →
      IsNested argument → NamesRecorded argument ∨ Unmarked argument → Resolvable rest →
      Resolvable (s ++ ("var(".toList ++ (argument ++ ')' :: rest)))

theorem not_separator_of_mem_mark {c : Char} (hc : isValueSeparator c = true) : c ∉ mark := by
  intro h
  have hall : ∀ d ∈ mark, isValueSeparator d = false := by decide
  rw [hall c h] at hc
  cases hc

/-- A separator keeps the texts on both sides of it apart. -/
theorem unmarked_append_cons {a b : List Char} {c : Char} (hc : isValueSeparator c = true) :
    Unmarked (a ++ c :: b) ↔ Unmarked a ∧ Unmarked b := by
  rw [Unmarked, Text.infix_append_cons_iff (not_separator_of_mem_mark hc), not_or, ← Unmarked,
    ← Unmarked]

theorem Unmarked.of_infix {s t : List Char} (ht : Unmarked t) (h : s <:+: t) : Unmarked s :=
  fun hs => ht (hs.trans h)

theorem EndsWord.unmarked_append {s t : List Char} (h : EndsWord s) (hs : Unmarked s)
    (ht : Unmarked t) : Unmarked (s ++ t) := by
  rcases h with rfl | ⟨u, c, rfl, hc⟩
  · exact ht
  · rw [List.append_assoc, List.singleton_append, unmarked_append_cons hc]
    exact ⟨hs.of_infix (List.prefix_append u [c]).isInfix, ht⟩

/-- A text behind a closing parenthesis. -/
def StartsApart (s : List Char) : Prop := ∀ c ∈ s.head?, isValueSeparator c = true

theorem StartsApart.unmarked_append {s t : List Char} (h : StartsApart t) (hs : Unmarked s)
    (ht : Unmarked t) : Unmarked (s ++ t) := by
  cases t with
  | nil => rwa [List.append_nil]
  | cons c t =>
    rw [unmarked_append_cons (h c rfl)]
    exact ⟨hs, ht.of_infix (List.suffix_cons c t).isInfix⟩

/-- A text with `w` missing has no mark. -/
theorem unmarked_of_not_mem {s : List Char} (h : 'w' ∉ s) : Unmarked s :=
  fun hs => h (hs.subset (by decide))

/-! ## Lengths in values -/

variable (st : StyleSettings)

theorem convertUnitsFrom_append {c : Char} (hc : isValueSeparator c = true) (b : List Char) :
    ∀ {a run : List Char}, convertUnitsFrom st run (a ++ c :: b) =
      convertUnitsFrom st run a ++ c :: convertUnits st b
  | [], run => by simp [convertUnitsFrom, hc, convertUnits]
  | d :: a, run => by
    rw [List.cons_append, convertUnitsFrom, convertUnitsFrom]
    split
    next => rw [convertUnitsFrom_append hc b, List.append_assoc, List.cons_append]
    next => rw [convertUnitsFrom_append hc b]

theorem convertUnits_append {c : Char} (hc : isValueSeparator c = true) (a b : List Char) :
    convertUnits st (a ++ c :: b) = convertUnits st a ++ c :: convertUnits st b :=
  convertUnitsFrom_append st hc b

theorem convertUnitsFrom_of_word : ∀ {w run : List Char}, (∀ c ∈ w, isValueSeparator c = false) →
    convertUnitsFrom st run w = convertWord st (run.reverse ++ w)
  | [], run, _ => by rw [convertUnitsFrom, List.append_nil]
  | c :: w, run, h => by
    obtain ⟨hc, hw⟩ := List.forall_mem_cons.1 h
    rw [convertUnitsFrom, if_neg (by simp [hc]), convertUnitsFrom_of_word hw]
    simp

theorem convertUnits_of_word {w : List Char} (h : ∀ c ∈ w, isValueSeparator c = false) :
    convertUnits st w = convertWord st w :=
  convertUnitsFrom_of_word st h

/-- The characters of a length in rpx. -/
def isLengthChar (c : Char) : Bool :=
  isDigit c || c == '.' || c == '-' || "rpxinfNaN".toList.contains c

theorem isLengthChar_of_mem_fixed {places : Nat} {x : Binary64} {c : Char}
    (h : c ∈ x.fixed places) : isLengthChar c = true := by
  have hdigits : ∀ {width n : Nat}, c ∈ paddedDigits width n → isLengthChar c = true := by
    intro width n h
    rcases List.mem_append.1 h with h | h
    · rw [(List.mem_replicate.1 h).2]
      decide
    · simp [isLengthChar, Json.isDigit_of_mem_digitsOf h]
  have hsign : ∀ {s : Bool}, c ∈ (if s then ['-'] else []) → isLengthChar c = true := by
    intro s h
    cases s with
    | false => cases h
    | true =>
      rw [List.mem_singleton.1 h]
      decide
  cases x with
  | nan => exact (show ∀ d ∈ "NaN".toList, isLengthChar d = true by decide) c h
  | infinite s =>
    rcases List.mem_append.1 h with h | h
    · exact hsign h
    · exact (show ∀ d ∈ "inf".toList, isLengthChar d = true by decide) c h
  | finite s m e =>
    rw [Binary64.fixed] at h
    rcases List.mem_append.1 h with h | h
    · rcases List.mem_append.1 h with h | h
      · exact hsign h
      · exact hdigits (List.mem_of_mem_take h)
    · split at h
      next => cases h
      next =>
        rcases List.mem_cons.1 h with rfl | h
        · decide
        · exact hdigits (List.mem_of_mem_drop h)

theorem dropZeros_subset (s : List Char) : dropZeros s ⊆ s := by
  rw [dropZeros]
  split
  next =>
    intro c hc
    rw [List.mem_reverse] at hc
    have := (List.dropWhile_sublist _).subset ((List.dropWhile_sublist _).subset hc)
    exact List.mem_reverse.1 this
  next => exact List.Subset.refl s

theorem isLengthChar_of_mem_remToRpx {n : List Char} {c : Char} (h : c ∈ remToRpx st n) :
    isLengthChar c = true := by
  rcases List.mem_append.1 h with h | h
  · exact isLengthChar_of_mem_fixed (dropZeros_subset _ h)
  · exact (show ∀ d ∈ "rpx".toList, isLengthChar d = true by decide) c h

theorem convertWord_cases (w : List Char) :
    convertWord st w = w ∨
      ∃ n, convertWord st w = remToRpx st n ∧ ∀ c ∈ convertWord st w, isLengthChar c = true := by
  rw [convertWord]
  split
  next n _ => exact Or.inr ⟨n, rfl, fun c hc => isLengthChar_of_mem_remToRpx st hc⟩
  next => exact Or.inl rfl

/-- A converted word has none of the characters that neither the word nor a length has. -/
theorem not_mem_convertWord {w : List Char} {c : Char} (hc : isLengthChar c = false) (hw : c ∉ w) :
    c ∉ convertWord st w := by
  rcases convertWord_cases st w with h | ⟨n, _, h⟩
  · rwa [h]
  · intro hmem
    rw [h c hmem] at hc
    cases hc

theorem unmarked_convertWord {w : List Char} (h : Unmarked w) : Unmarked (convertWord st w) := by
  rcases convertWord_cases st w with heq | ⟨n, _, hn⟩
  · rwa [heq]
  · exact unmarked_of_not_mem fun hmem => absurd (hn 'w' hmem) (by decide)

theorem unmarked_convertUnits {s : List Char} (h : Unmarked s) : Unmarked (convertUnits st s) := by
  induction s using Text.word_induction isValueSeparator with
  | word w hw =>
    rw [convertUnits_of_word st hw]
    exact unmarked_convertWord st h
  | append w c s hw hc ih =>
    obtain ⟨hleft, hright⟩ := (unmarked_append_cons hc).1 h
    rw [convertUnits_append st hc, unmarked_append_cons hc, convertUnits_of_word st hw]
    exact ⟨unmarked_convertWord st hleft, ih hright⟩

theorem not_mem_convertUnits {s : List Char} {d : Char} (hd : isLengthChar d = false) (h : d ∉ s) :
    d ∉ convertUnits st s := by
  induction s using Text.word_induction isValueSeparator with
  | word w hw =>
    rw [convertUnits_of_word st hw]
    exact not_mem_convertWord st hd h
  | append w c s hw hc ih =>
    simp only [List.mem_append, List.mem_cons, not_or] at h
    simp only [convertUnits_append st hc, convertUnits_of_word st hw, List.mem_append,
      List.mem_cons, not_or]
    exact ⟨not_mem_convertWord st hd h.1, h.2.1, ih h.2.2⟩

theorem convertUnits_cons {c : Char} (hc : isValueSeparator c = true) (s : List Char) :
    convertUnits st (c :: s) = c :: convertUnits st s :=
  convertUnits_append st hc [] s

theorem StartsApart.convertUnits {s : List Char} (h : StartsApart s) :
    StartsApart (convertUnits st s) := by
  cases s with
  | nil => exact h
  | cons c s =>
    have hc : isValueSeparator c = true := h c rfl
    rw [convertUnits_cons st hc]
    exact h

theorem spaced_append {s t : List Char} :
    Spaced (s ++ t) ↔ Spaced s ∧ Spaced t ∧ (s.getLast? = some ')' → StartsApart t) := by
  rw [Spaced, List.isChain_append]
  refine and_congr_right fun _ => and_congr_right fun _ => ?_
  constructor
  · exact fun h hlast d hd => h ')' hlast d hd rfl
  · rintro h _ hlast d hd rfl
    exact h hlast d hd

theorem spaced_of_not_mem {s : List Char} (h : ')' ∉ s) : Spaced s := by
  induction s with
  | nil => exact .nil
  | cons c s ih =>
    rw [List.mem_cons, not_or] at h
    exact List.isChain_cons.2 ⟨fun _ _ hc => absurd hc.symm h.1, ih h.2⟩

theorem spaced_cons {c : Char} {s : List Char} :
    Spaced (c :: s) ↔ (c = ')' → StartsApart s) ∧ Spaced s := by
  rw [← List.singleton_append, spaced_append]
  simp only [List.getLast?_singleton, Option.some.injEq]
  have : Spaced [c] := .singleton c
  simp only [this, true_and, and_comm]

theorem callFree_convertUnits {s : List Char} (h : ¬ "var(".toList <:+: s) :
    ¬ "var(".toList <:+: convertUnits st s := by
  have hcall : "var(".toList = "var".toList ++ ['('] := by decide
  have hword {w : List Char} (hw : ∀ c ∈ w, isValueSeparator c = false) :
      '(' ∉ convertWord st w :=
    not_mem_convertWord st (by decide) fun hmem => absurd (hw '(' hmem) (by decide)
  induction s using Text.word_induction isValueSeparator with
  | word w hw =>
    rw [convertUnits_of_word st hw]
    exact fun hinside => hword hw (hinside.subset (by decide))
  | append w c s hw hc ih =>
    have hrest : ¬ "var(".toList <:+: convertUnits st s :=
      ih fun hs => h (hs.trans ((List.suffix_cons c s).trans (List.suffix_append w _)).isInfix)
    rw [convertUnits_append st hc, convertUnits_of_word st hw]
    intro hinside
    by_cases hopen : c = '('
    · subst hopen
      rw [hcall] at hinside hrest
      rcases Text.infix_concat_append_cons (by decide) (hword hw) hinside with hend | hin
      · -- The word in front of the parenthesis is `var`, which is no length.
        rcases convertWord_cases st w with heq | ⟨n, _, hn⟩
        · rw [heq] at hend
          obtain ⟨t, rfl⟩ := hend
          exact h ⟨t, s, by rw [hcall]; simp⟩
        · exact absurd (hn 'v' (hend.subset (by decide))) (by decide)
      · exact hrest hin
    · have hc' : c ∉ "var(".toList := by
        have hall : ∀ d ∈ "var(".toList, d = '(' ∨ isValueSeparator d = false := by decide
        intro hmem
        rcases hall c hmem with heq | hsep
        · exact hopen heq
        · rw [hsep] at hc
          cases hc
      rcases (Text.infix_append_cons_iff hc').1 hinside with hin | hin
      · exact hword hw (hin.subset (by decide))
      · exact hrest hin

theorem EndsWord.convertUnits {s : List Char} (h : EndsWord s) : EndsWord (convertUnits st s) := by
  rcases h with rfl | ⟨t, c, rfl, hc⟩
  · exact Or.inl rfl
  · exact Or.inr ⟨Style.convertUnits st t, c, convertUnits_append st hc t [], hc⟩

/-- In front of a reference, lengths are converted apart from it. -/
theorem EndsWord.convertUnits_append {s : List Char} (h : EndsWord s) (inner : List Char) :
    Style.convertUnits st (s ++ ("var(".toList ++ inner)) =
      Style.convertUnits st s ++ ("var(".toList ++ Style.convertUnits st inner) := by
  have hcall : Style.convertUnits st ("var(".toList ++ inner) =
      "var(".toList ++ Style.convertUnits st inner :=
    Style.convertUnits_append st (c := '(') (by decide) "var".toList inner
  rcases h with rfl | ⟨t, c, rfl, hc⟩
  · exact hcall
  · have hfront : Style.convertUnits st (t ++ [c]) = Style.convertUnits st t ++ [c] :=
      Style.convertUnits_append st hc t []
    rw [hfront, List.append_assoc, List.singleton_append, Style.convertUnits_append st hc, hcall]
    simp

theorem IsNested.convertUnits {s : List Char} (h : IsNested s) : IsNested (convertUnits st s) := by
  have hopen : isLengthChar '(' = false := by decide
  have hclose : isLengthChar ')' = false := by decide
  induction h with
  | text ho hc =>
    exact .text (not_mem_convertUnits st hopen ho) (not_mem_convertUnits st hclose hc)
  | parens ho hc _ _ ihinner ihrest =>
    rw [convertUnits_append st (by decide), convertUnits_append st (by decide)]
    exact .parens (not_mem_convertUnits st hopen ho) (not_mem_convertUnits st hclose hc) ihinner
      ihrest

/-- The name of a recorded property is no length. -/
theorem convertWord_mark (w : List Char) : convertWord st (mark ++ w) = mark ++ w := by
  have hsize : (mark ++ w).length - 3 = w.length + 2 := by
    rw [List.length_append, show mark.length = 5 by decide]
    omega
  have hnumber : (mark ++ w).take ((mark ++ w).length - 3) =
      '-' :: '-' :: ('t' :: 'w' :: '-' :: w).take w.length := by
    rw [hsize]
    rfl
  have hdecimal (s : List Char) : isPlainDecimal ('-' :: s) = false := by
    simp [isPlainDecimal, isDigit]
  have hnone : remNumber? (mark ++ w) = none := by
    simp only [remNumber?, hnumber, hdecimal]
    simp
  rw [convertWord, hnone]

theorem NamesRecorded.convertUnits {s : List Char} (h : NamesRecorded s) :
    NamesRecorded (convertUnits st s) := by
  obtain ⟨blanks, more, hblanks, rfl⟩ := h
  have hname : ∃ more', Style.convertUnits st (mark ++ more) = mark ++ more' := by
    have hword {w : List Char} (hw : ∀ c ∈ w, isValueSeparator c = false) :
        Style.convertUnits st (mark ++ w) = mark ++ w := by
      have hmark : ∀ c ∈ mark, isValueSeparator c = false := by decide
      rw [convertUnits_of_word st (List.forall_mem_append.2 ⟨hmark, hw⟩), convertWord_mark]
    induction more using Text.word_induction isValueSeparator with
    | word w hw => exact ⟨w, hword hw⟩
    | append w c s hw hc _ =>
      exact ⟨w ++ c :: Style.convertUnits st s, by
        rw [← List.append_assoc, convertUnits_append st hc, hword hw, List.append_assoc]⟩
  obtain ⟨more', hmore⟩ := hname
  refine ⟨blanks, more', hblanks, ?_⟩
  rw [← hmore]
  induction blanks with
  | nil => rfl
  | cons c blanks ih =>
    obtain ⟨hc, hblanks⟩ := List.forall_mem_cons.1 hblanks
    rw [List.cons_append, convertUnits_cons st hc.2, ih hblanks, List.cons_append]

theorem Resolvable.convertUnits {s : List Char} (h : Resolvable s) :
    Resolvable (convertUnits st s) := by
  induction h with
  | text hmark hcall => exact .text (unmarked_convertUnits st hmark) (callFree_convertUnits st hcall)
  | @reference s argument rest hmark hcall hend hnested hname _ ih =>
    rw [hend.convertUnits_append st, convertUnits_append st (by decide)]
    exact .reference (unmarked_convertUnits st hmark) (callFree_convertUnits st hcall)
      (hend.convertUnits st) (hnested.convertUnits st)
      (hname.imp (fun h => h.convertUnits st) (unmarked_convertUnits st)) ih

/-! ## References -/

theorem takeArgument?_text : ∀ {t : List Char} (depth : Nat) (s : List Char), '(' ∉ t → ')' ∉ t →
    takeArgument? depth (t ++ s) = inFront t (takeArgument? depth s)
  | [], _, _, _, _ => by simp
  | c :: t, depth, s, hopen, hclose => by
    simp only [List.mem_cons, not_or] at hopen hclose
    have hstep : takeArgument? depth (c :: (t ++ s)) = (takeArgument? depth (t ++ s)).map (pushFront c) := by
      rw [takeArgument?.eq_def]
      split
      next heq => cases heq
      next heq =>
        cases heq
        exact absurd rfl hopen.1
      next heq =>
        cases heq
        exact absurd rfl hclose.1
      next heq =>
        cases heq
        exact absurd rfl hclose.1
      next heq =>
        cases heq
        rfl
    rw [List.cons_append, hstep, takeArgument?_text depth s hopen.2 hclose.2, map_pushFront,
      ← inFront_append, List.singleton_append]

theorem takeArgument?_nested {t : List Char} (h : IsNested t) : ∀ (depth : Nat) (s : List Char),
    takeArgument? depth (t ++ s) = inFront t (takeArgument? depth s) := by
  induction h with
  | text hopen hclose => exact fun depth s => takeArgument?_text depth s hopen hclose
  | @parens t inner u hopen hclose _ _ ihinner ihrest =>
    intro depth s
    have hsplit : t ++ '(' :: (inner ++ ')' :: u) ++ s =
        t ++ '(' :: (inner ++ ')' :: (u ++ s)) := by simp
    rw [hsplit, takeArgument?_text depth _ hopen hclose, takeArgument?, ihinner, takeArgument?,
      ihrest, map_pushFront, map_pushFront, ← inFront_append, ← inFront_append, ← inFront_append,
      ← inFront_append]
    simp

variable (rec : Recorded)

theorem substituteFrom_eq_drop : ∀ (k : Nat) (s : List Char),
    substituteFrom rec k s = substitute rec (s.drop k)
  | 0, _ => rfl
  | k + 1, [] => by simp [substituteFrom, substitute]
  | k + 1, c :: s => by
    rw [substituteFrom, List.drop_succ_cons]
    exact substituteFrom_eq_drop k s

/-- The first reference is resolved, and then those behind it. -/
theorem substitute_of_breakOn? {argument rest : List Char} : ∀ {s before : List Char},
    Text.breakOn? "var(".toList s = some (before, argument ++ ')' :: rest) →
      takeArgument? 0 (argument ++ ')' :: rest) = some (argument, rest) →
        substitute rec s = before ++ (resolveReference rec argument ++ substitute rec rest)
  | [], before, h, _ => by cases h
  | c :: s, before, h, harg => by
    rw [Text.breakOn?] at h
    rw [substitute, substituteFrom]
    cases hafter : Text.after? "var(".toList (c :: s) with
    | none =>
      rw [hafter] at h
      obtain ⟨⟨front, inner⟩, hs, heq⟩ := Option.map_eq_some_iff.1 h
      cases heq
      exact congrArg (c :: ·) (substitute_of_breakOn? hs harg)
    | some inner =>
      rw [hafter] at h
      cases h
      have hsplit := Text.after?_eq_some_iff.1 hafter
      have hdrop : s.drop (argument.length + 4) = rest := by
        have hs : s = ("ar(".toList ++ argument ++ [')']) ++ rest := by
          have hcall : "var(".toList = 'v' :: "ar(".toList := by decide
          rw [hcall, List.cons_append] at hsplit
          rw [(List.cons.inj hsplit).2, List.append_assoc, List.append_assoc, List.singleton_append]
        have hsize : ("ar(".toList ++ argument ++ [')']).length = argument.length + 4 := by
          simp only [List.length_append, List.length_singleton, show "ar(".toList.length = 3 by decide]
          omega
        rw [hs, ← hsize, List.drop_left]
      simp only [harg]
      rw [substituteFrom_eq_drop, hdrop]
      rfl

/-- A text without references stays. -/
theorem substitute_of_callFree : ∀ {s : List Char}, ¬ "var(".toList <:+: s → substitute rec s = s
  | [], _ => rfl
  | c :: s, h => by
    have hrest : ¬ "var(".toList <:+: s := fun hs => h (hs.trans (List.suffix_cons c s).isInfix)
    have hhere : Text.after? "var(".toList (c :: s) = none :=
      Text.after?_eq_none_iff.2 fun hp => h hp.isInfix
    rw [substitute, substituteFrom, hhere]
    exact congrArg (c :: ·) (substitute_of_callFree hrest)

theorem substitute_reference {s argument : List Char} (hs : ¬ "var(".toList <:+: s)
    (hargument : IsNested argument) (rest : List Char) :
    substitute rec (s ++ ("var(".toList ++ (argument ++ ')' :: rest))) =
      s ++ (resolveReference rec argument ++ substitute rec rest) := by
  have hfirst : ¬ "var(".toList <:+: s ++ "var(".toList.dropLast := by
    intro h
    have hcall : "var(".toList = "var".toList ++ ['('] := by decide
    rw [hcall] at h hs
    exact hs (Text.infix_of_infix_append (by decide) h)
  have hbreak := Text.breakOn?_append (argument ++ ')' :: rest) hfirst
  rw [← List.append_assoc]
  refine substitute_of_breakOn? rec hbreak ?_
  rw [takeArgument?_nested hargument]
  simp [takeArgument?, inFront]

theorem mark_prefix_trim {s : List Char} : ∀ {blanks : List Char},
    (∀ c ∈ blanks, Text.isBlank c = true) → mark <+: Text.trim (blanks ++ (mark ++ s)) := by
  intro blanks hblanks
  have hleft : Text.trimLeft (blanks ++ (mark ++ s)) = mark ++ s := by
    rw [Text.trimLeft_append_of_blank hblanks, Text.trimLeft]
    rfl
  obtain ⟨r, hr, hsplit⟩ := Text.exists_eq_append_trimRight (mark ++ s)
  rw [Text.trim, hleft]
  rcases List.append_eq_append_iff.1 hsplit with ⟨t, ht, _⟩ | ⟨t, ht, htail⟩
  · exact ⟨t, ht.symm⟩
  · rcases List.eq_nil_or_concat t with rfl | ⟨t, c, rfl⟩
    · rw [List.append_nil] at ht
      exact ht ▸ List.prefix_refl _
    · -- The last character of the mark would be blank.
      have hc : c ∈ mark := by rw [ht]; simp
      have hblank : Text.isBlank c = true := hr c (by rw [htail]; simp)
      have hall : ∀ d ∈ mark, Text.isBlank d = false := by decide
      rw [hall c hc] at hblank
      cases hblank

/-- A reference to a recorded property becomes its value, one to another property stays. -/
theorem resolveReference_cases {argument : List Char}
    (h : NamesRecorded argument ∨ Unmarked argument) :
    (∃ name, resolveReference rec argument = recordedValue rec name) ∨
      Unmarked argument ∧ resolveReference rec argument = "var(".toList ++ argument ++ [')'] := by
  rw [resolveReference]
  split
  next => exact Or.inl ⟨_, rfl⟩
  next hname =>
    refine Or.inr ⟨h.resolve_left fun hnames => hname ?_, rfl⟩
    obtain ⟨blanks, more, hblanks, rfl⟩ := hnames
    have hcomma : (blanks ++ (mark ++ more)).takeWhile (· != ',') =
        blanks ++ (mark ++ more.takeWhile (· != ',')) := by
      rw [List.takeWhile_append_of_pos, List.takeWhile_append_of_pos]
      · decide
      · intro c hc
        have := (hblanks c hc).1
        rw [bne_iff_ne]
        rintro rfl
        cases this
    rw [hcomma, Text.startsWith, Option.isSome_iff_ne_none, ne_eq, Text.after?_eq_none_iff,
      Classical.not_not]
    exact mark_prefix_trim fun c hc => (hblanks c hc).1

/-- The values that a rule has recorded. -/
def UnmarkedValues (rec : Recorded) : Prop := ∀ r ∈ rec, Unmarked r.2 ∧ Spaced r.2

theorem UnmarkedValues.recordedValue {rec : Recorded} (h : UnmarkedValues rec) (name : List Char) :
    Unmarked (recordedValue rec name) ∧ Spaced (recordedValue rec name) := by
  rw [Style.recordedValue]
  split
  next r hfound => exact h _ (List.mem_of_find?_eq_some hfound)
  next => exact ⟨unmarked_of_not_mem (by decide), spaced_of_not_mem (by decide)⟩

variable {rec}

/-- **No reference to a recorded property is left** where references are resolved. -/
theorem Resolvable.substitute (hrec : UnmarkedValues rec) {value : List Char}
    (h : Resolvable value) (hspaced : Spaced value) :
    Unmarked (substitute rec value) ∧ Spaced (substitute rec value) ∧
      (StartsApart value → StartsApart (substitute rec value)) := by
  induction h with
  | text hmark hcall =>
    rw [substitute_of_callFree rec hcall]
    exact ⟨hmark, hspaced, id⟩
  | @reference s argument rest hmark hcall hend hnested hname _ ih =>
    have hopen : Spaced ("var(".toList ++ (argument ++ ')' :: rest)) := (spaced_append.1 hspaced).2.1
    obtain ⟨hs, _, hjoint⟩ := spaced_append.1 hspaced
    -- The character in front of the reference is no closing parenthesis.
    have hlast : s.getLast? ≠ some ')' := fun hlast => absurd (hjoint hlast 'v' rfl) (by decide)
    have hargument : Spaced (argument ++ ')' :: rest) := (spaced_append.1 hopen).2.1
    have hclose : Spaced (')' :: rest) := (spaced_append.1 hargument).2.1
    obtain ⟨hapart, hrest⟩ := spaced_cons.1 hclose
    obtain ⟨ihmark, ihspaced, ihapart⟩ := ih hrest
    have ihapart : StartsApart (Style.substitute rec rest) := ihapart (hapart rfl)
    rw [substitute_reference rec hcall hnested]
    have hfront (t : List Char) (h : StartsApart (s ++ ("var(".toList ++ (argument ++ ')' :: rest)))) :
        StartsApart (s ++ t) := by
      cases s with
      | nil => exact absurd (h 'v' rfl) (by decide)
      | cons c s => exact h
    rcases resolveReference_cases rec hname with ⟨name, heq⟩ | ⟨hunmarked, heq⟩
    · obtain ⟨hvalue, hvalueSpaced⟩ := hrec.recordedValue name
      rw [heq]
      refine ⟨hend.unmarked_append hmark (ihapart.unmarked_append hvalue ihmark), ?_, hfront _⟩
      exact spaced_append.2 ⟨hs, spaced_append.2 ⟨hvalueSpaced, ihspaced, fun _ => ihapart⟩,
        fun h => absurd h hlast⟩
    · have hcall : "var(".toList = "var".toList ++ ['('] := by decide
      have hsplit : "var(".toList ++ argument ++ [')'] ++ Style.substitute rec rest =
          "var".toList ++ '(' :: (argument ++ ')' :: Style.substitute rec rest) := by
        rw [hcall]
        simp
      have hargumentSpaced : Spaced (argument ++ ')' :: Style.substitute rec rest) :=
        spaced_append.2 ⟨(spaced_append.1 hargument).1, spaced_cons.2 ⟨fun _ => ihapart, ihspaced⟩,
          fun _ _ hd => by cases hd; decide⟩
      rw [heq, hsplit]
      refine ⟨hend.unmarked_append hmark ?_, ?_, hfront _⟩
      · rw [unmarked_append_cons (by decide), unmarked_append_cons (by decide)]
        exact ⟨unmarked_of_not_mem (by decide), hunmarked, ihmark⟩
      · refine spaced_append.2 ⟨hs, ?_, fun h => absurd h hlast⟩
        refine spaced_append.2 ⟨spaced_of_not_mem (by decide), ?_, fun h => absurd h (by decide)⟩
        exact spaced_cons.2 ⟨fun h => absurd h (by decide), hargumentSpaced⟩

end ClientBuild.Style
