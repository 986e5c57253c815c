import ClientBuild.Proofs.Text.Search
import Mathlib.Data.List.Chain

/-!
# Words and what stands between them

Texts are read word by word: by induction on their words (`word_induction`), with the words of a text as
parts of it (`infix_of_mem_words`).  What a replacement puts in is seen in the result only where it has
something to do with what is looked for (`infix_of_infix_replaceMatches`), and neighbours stay neighbours
where it begins and ends like what was there (`isChain_replaceMatches`).
-/

namespace ClientBuild.Text

variable {sep : Char → Bool}

/-- What holds of words and, in front of a separator, of a word with what follows, holds of texts. -/
theorem word_induction (sep : Char → Bool) {P : List Char → Prop}
    (word : ∀ w : List Char, (∀ c ∈ w, sep c = false) → P w)
    (append : ∀ (w : List Char) (c : Char) (s : List Char), (∀ c ∈ w, sep c = false) →
      sep c = true → P s → P (w ++ c :: s)) (s : List Char) : P s := by
  have hsplit := List.takeWhile_append_dropWhile (p := fun c => !sep c) (l := s)
  have hword : ∀ c ∈ s.takeWhile fun c => !sep c, sep c = false := fun c hc => by
    simpa using List.all_eq_true.1 List.all_takeWhile c hc
  cases hrest : s.dropWhile fun c => !sep c with
  | nil =>
    rw [hrest, List.append_nil] at hsplit
    exact hsplit ▸ word _ hword
  | cons c r =>
    have hc : sep c = true := by
      have := List.head?_dropWhile_not (fun c => !sep c) s
      rw [hrest] at this
      simpa using this
    have hshort : r.length < s.length := by
      rw [← hsplit, hrest]
      simp only [List.length_append, List.length_cons]
      omega
    rw [← hsplit, hrest]
    exact append _ c r hword hc (word_induction sep word append r)
termination_by s.length

/-- A text begins with the longest run of characters of a kind. -/
theorem exists_run (p : Char → Bool) (s : List Char) : ∃ run rest, s = run ++ rest ∧
    (∀ c ∈ run, p c = true) ∧ s.takeWhile p = run ∧ s.dropWhile p = rest :=
  ⟨_, _, List.takeWhile_append_dropWhile.symm,
    fun c hc => List.all_eq_true.1 List.all_takeWhile c hc, rfl, rfl⟩

/-- The words of a text are parts of it. -/
theorem infix_of_mem_wordsFrom {w : List Char} : ∀ {s run : List Char},
    w ∈ wordsFrom run s → w <:+: run.reverse ++ s
  | [], run, h => by
    rw [wordsFrom] at h
    split at h
    next => cases h
    next => simp [List.mem_singleton.1 h]
  | c :: s, run, h => by
    have hrest : w ∈ wordsFrom [] s → w <:+: run.reverse ++ c :: s := fun h =>
      (infix_of_mem_wordsFrom h).trans ⟨run.reverse ++ [c], [], by simp⟩
    rw [wordsFrom] at h
    split at h
    next =>
      split at h
      next => exact hrest h
      next =>
        rcases List.mem_cons.1 h with rfl | h
        · exact (List.prefix_append _ _).isInfix
        · exact hrest h
    next => simpa using infix_of_mem_wordsFrom h

theorem infix_of_mem_words {w s : List Char} (h : w ∈ words s) : w <:+: s :=
  infix_of_mem_wordsFrom h

theorem isBlank_of_mem_wordsFrom {w : List Char} : ∀ {s run : List Char},
    (∀ c ∈ run, isBlank c = false) → w ∈ wordsFrom run s → ∀ c ∈ w, isBlank c = false
  | [], run, hrun, h => by
    rw [wordsFrom] at h
    split at h
    next => cases h
    next =>
      rw [List.mem_singleton.1 h]
      exact fun c hc => hrun c (List.mem_reverse.1 hc)
  | d :: s, run, hrun, h => by
    have hnil : ∀ c ∈ ([] : List Char), isBlank c = false := fun _ h => absurd h List.not_mem_nil
    rw [wordsFrom] at h
    split at h
    next =>
      split at h
      next => exact isBlank_of_mem_wordsFrom hnil h
      next =>
        rcases List.mem_cons.1 h with rfl | h
        · exact fun c hc => hrun c (List.mem_reverse.1 hc)
        · exact isBlank_of_mem_wordsFrom hnil h
    next hd =>
      exact isBlank_of_mem_wordsFrom (List.forall_mem_cons.2 ⟨Bool.eq_false_iff.2 hd, hrun⟩) h

/-- A word has no blanks. -/
theorem isBlank_of_mem_words {w s : List Char} (h : w ∈ words s) : ∀ c ∈ w, isBlank c = false :=
  isBlank_of_mem_wordsFrom (fun _ h => absurd h List.not_mem_nil) h

theorem wordsFrom_append_of_blank {r : List Char} (hr : ∀ c ∈ r, isBlank c = true) :
    ∀ {s run : List Char}, wordsFrom run (s ++ r) = wordsFrom run s
  | c :: s, run => by
    rw [List.cons_append, wordsFrom, wordsFrom, wordsFrom_append_of_blank hr,
      wordsFrom_append_of_blank hr]
  | [], run => by
    have hnil : ∀ r : List Char, (∀ c ∈ r, isBlank c = true) → wordsFrom [] r = [] := by
      intro r hr
      induction r with
      | nil => rfl
      | cons c r ih =>
        obtain ⟨hc, hr⟩ := List.forall_mem_cons.1 hr
        rw [wordsFrom, if_pos hc, ih hr]
        rfl
    cases r with
    | nil => rfl
    | cons c r =>
      obtain ⟨hc, hr⟩ := List.forall_mem_cons.1 hr
      simp only [List.nil_append, wordsFrom, hc, hnil r hr, if_true]

theorem words_append_of_blank {l : List Char} (hl : ∀ c ∈ l, isBlank c = true) (s : List Char) :
    words (l ++ s) = words s := by
  induction l with
  | nil => rfl
  | cons c l ih =>
    obtain ⟨hc, hl⟩ := List.forall_mem_cons.1 hl
    rw [← ih hl, words, List.cons_append, wordsFrom, if_pos hc]
    rfl

theorem wordsFrom_of_forall {s : List Char} (hs : ∀ c ∈ s, isBlank c = false) (run : List Char) :
    wordsFrom run s = wordsFrom (s.reverse ++ run) [] := by
  induction s generalizing run with
  | nil => rfl
  | cons c s ih =>
    obtain ⟨hc, hs⟩ := List.forall_mem_cons.1 hs
    have hstep : wordsFrom run (c :: s) = wordsFrom (c :: run) s := by
      rw [wordsFrom, if_neg (by simp [hc])]
    rw [hstep, ih hs, List.reverse_cons, List.append_assoc, List.singleton_append]

/-- A text without blanks is a word. -/
theorem words_of_forall {s : List Char} (hs : ∀ c ∈ s, isBlank c = false) (hne : s ≠ []) :
    words s = [s] := by
  rw [words, wordsFrom_of_forall hs, wordsFrom]
  simp [hne]

theorem trimRight_concat_of_blank {c : Char} (hc : isBlank c = true) (s : List Char) :
    trimRight (s ++ [c]) = trimRight s := by
  induction s with
  | nil => simp [trimRight, hc]
  | cons d s ih => rw [List.cons_append, trimRight, ih, trimRight]

theorem trimRight_append_of_blank {s r : List Char} (hr : ∀ c ∈ r, isBlank c = true) :
    trimRight (s ++ r) = trimRight s := by
  induction r using List.reverseRecOn with
  | nil => rw [List.append_nil]
  | append_singleton r c ih =>
    obtain ⟨hr, hc⟩ := List.forall_mem_append.1 hr
    rw [← List.append_assoc, trimRight_concat_of_blank (hc c (List.mem_singleton_self c)), ih hr]

/-- Blanks around a text are taken off with those that it has itself. -/
theorem trim_append_of_blank {l r : List Char} (hl : ∀ c ∈ l, isBlank c = true)
    (hr : ∀ c ∈ r, isBlank c = true) (s : List Char) : trim (l ++ (s ++ r)) = trim s := by
  rw [trim, trimLeft_append_of_blank hl, trim]
  cases hs : trimLeft s with
  | nil =>
    obtain ⟨b, rfl, hb⟩ := exists_trimLeft_eq hs
    have hnil := trimLeft_append_of_blank (b := []) (List.forall_mem_append.2 ⟨hb, hr⟩)
    rw [List.append_nil] at hnil ⊢
    rw [hnil]
    rfl
  | cons c t => rw [trimLeft_append hs, ← List.cons_append, trimRight_append_of_blank hr]

theorem trim_trim (s : List Char) : trim (trim s) = trim s := by
  obtain ⟨l, r, hl, hr, hs⟩ := exists_eq_append_trim s
  conv_rhs => rw [hs, List.append_assoc, trim_append_of_blank hl hr]

/-- A text without blanks has nothing to trim. -/
theorem trim_of_forall {s : List Char} (hs : ∀ c ∈ s, isBlank c = false) : trim s = s := by
  obtain ⟨l, r, hl, hr, hsplit⟩ := exists_eq_append_trim s
  have hnil {u : List Char} (hu : ∀ c ∈ u, isBlank c = true) (hmem : ∀ c ∈ u, c ∈ s) : u = [] :=
    List.eq_nil_iff_forall_not_mem.2 fun c hc => by
      have hblank := hu c hc
      rw [hs c (hmem c hc)] at hblank
      cases hblank
  have hleft := hnil hl fun c hc => hsplit ▸ List.mem_append_left _ (List.mem_append_left _ hc)
  have hright := hnil hr fun c hc => hsplit ▸ List.mem_append_right _ hc
  rw [hleft, hright] at hsplit
  simpa using hsplit.symm

theorem words_append_blanks {b : List Char} (hb : ∀ c ∈ b, isBlank c = true) (s : List Char) :
    words (s ++ b) = words s :=
  wordsFrom_append_of_blank hb

theorem trim_isInfix (s : List Char) : trim s <:+: s := by
  obtain ⟨l, r, _, _, hs⟩ := exists_eq_append_trim s
  exact ⟨l, r, hs.symm⟩

/-- Trimming leaves the words of a text. -/
theorem words_trim (s : List Char) : words (trim s) = words s := by
  obtain ⟨l, r, hl, hr, hs⟩ := exists_eq_append_trim s
  generalize trim s = t at hs
  rw [hs, List.append_assoc, words_append_of_blank hl]
  exact (wordsFrom_append_of_blank hr).symm

/-! ## Joined texts -/

/-- Each further piece stands behind the separator. -/
theorem join_cons (sep p : List Char) (ps : List (List Char)) : join sep (p :: ps) = p ++ ps.flatMap (sep ++ ·) := by
  induction ps generalizing p with
  | nil => rw [join, List.flatMap_nil, List.append_nil]
  | cons q ps ih => rw [join, ih, List.flatMap_cons, List.append_assoc, List.append_assoc]

theorem mem_join {c : Char} {sep : List Char} {ps : List (List Char)} (h : c ∈ join sep ps) :
    c ∈ sep ∨ ∃ p ∈ ps, c ∈ p := by
  induction ps using join.induct with
  | case1 => cases h
  | case2 p => exact Or.inr ⟨p, List.mem_singleton_self p, h⟩
  | case3 p q ps ih =>
    rw [join, List.mem_append, List.mem_append] at h
    rcases h with (h | h) | h
    · exact Or.inr ⟨p, List.mem_cons_self, h⟩
    · exact Or.inl h
    · exact (ih h).imp_right fun ⟨r, hr, hc⟩ => ⟨r, List.mem_cons_of_mem p hr, hc⟩

theorem isInfix_join {sep p : List Char} {ps : List (List Char)} (h : p ∈ ps) : p <:+: join sep ps := by
  induction ps using join.induct with
  | case1 => cases h
  | case2 q =>
    rw [List.mem_singleton.1 h]
    exact List.infix_rfl
  | case3 q r ps ih =>
    rw [join]
    rcases List.mem_cons.1 h with rfl | h
    · exact ⟨[], sep ++ join sep (r :: ps), by simp⟩
    · exact (ih h).trans (List.suffix_append _ _).isInfix

/-- A text without the separator stands in one of the pieces that are joined. -/
theorem exists_infix_of_infix_join {p : List Char} {c : Char} (hc : c ∉ p) (hp : p ≠ [])
    {ws : List (List Char)} (h : p <:+: join [c] ws) : ∃ w ∈ ws, p <:+: w := by
  induction ws using join.induct with
  | case1 => exact absurd (List.infix_nil.1 h) hp
  | case2 w => exact ⟨w, List.mem_singleton.2 rfl, h⟩
  | case3 w v ws ih =>
    rw [join, List.append_assoc, List.singleton_append, infix_append_cons_iff hc] at h
    rcases h with h | h
    · exact ⟨w, List.mem_cons_self, h⟩
    · obtain ⟨u, hu, hinside⟩ := ih h
      exact ⟨u, List.mem_cons_of_mem _ hu, hinside⟩

/-- A text that ends with a character that does not follow stands in front. -/
theorem infix_of_infix_append {q a b : List Char} {c : Char} (hb : c ∉ b)
    (h : q ++ [c] <:+: a ++ b) : q ++ [c] <:+: a := by
  obtain ⟨x, y, h⟩ := h
  rcases List.append_eq_append_iff.1 h with ⟨a', rfl, _⟩ | ⟨r, hr, rfl⟩
  · exact ⟨x, a', by simp⟩
  · rcases List.eq_nil_or_concat r with rfl | ⟨r, d, rfl⟩
    · exact ⟨x, [], by simpa using hr⟩
    · rw [List.concat_eq_append, ← List.append_assoc, ← List.append_assoc] at hr
      obtain ⟨_, hd⟩ := List.append_inj' hr rfl
      cases hd
      exact absurd (by simp) hb

/-- A text that begins with a character that does not stand in front stands behind. -/
theorem infix_of_infix_append_right {q a b : List Char} {c : Char} (ha : c ∉ a)
    (h : c :: q <:+: a ++ b) : c :: q <:+: b := by
  rw [← List.reverse_infix, List.reverse_cons] at h ⊢
  rw [List.reverse_append] at h
  exact infix_of_infix_append (mt List.mem_reverse.1 ha) h

/-- A text that ends with a character it does not have before stands in front of the first one, or
behind it. -/
theorem infix_concat_append_cons {q a b : List Char} {c : Char} (hq : c ∉ q) (ha : c ∉ a)
    (h : q ++ [c] <:+: a ++ c :: b) : q <:+ a ∨ q ++ [c] <:+: b := by
  obtain ⟨x, y, h⟩ := h
  have heq : (x ++ q) ++ c :: y = a ++ c :: b := by rw [← h]; simp
  rcases List.append_eq_append_iff.1 heq with ⟨a', rfl, hrest⟩ | ⟨r, hxq, hrest⟩
  · cases a' with
    | nil => exact Or.inl ⟨x, by simp⟩
    | cons d a' =>
      cases hrest
      exact absurd (List.mem_append_right _ List.mem_cons_self) ha
  · cases r with
    | nil => exact Or.inl ⟨x, by simpa using hxq⟩
    | cons d r =>
      cases hrest
      -- The text has no `c` before its end, so all of it stands behind the first one.
      have hxq : x ++ q = (a ++ [c]) ++ r := by simpa using hxq
      have hsuffix : q <:+ r := by
        rcases List.append_eq_append_iff.1 hxq with ⟨u, hu, rfl⟩ | ⟨u, rfl, rfl⟩
        · rcases List.eq_nil_or_concat u with rfl | ⟨u, d, rfl⟩
          · exact List.suffix_refl r
          · rw [List.concat_eq_append, ← List.append_assoc] at hu
            obtain ⟨_, hd⟩ := List.append_inj' hu rfl
            cases hd
            exact absurd (List.mem_append_left r (by simp)) hq
        · exact List.suffix_append u q
      obtain ⟨u, rfl⟩ := hsuffix
      exact Or.inr ⟨u, y, by simp⟩

/-- A text that has its first character only there stands on one side of any occurrence of it. -/
theorem infix_append_cons_of_head {q a b : List Char} {c : Char} (hq : c ∉ q) :
    c :: q <:+: a ++ c :: b ↔ c :: q <:+: a ∨ c :: q <:+: c :: b := by
  constructor
  · rintro ⟨x, y, h⟩
    rw [List.append_assoc] at h
    rcases List.append_eq_append_iff.1 h with ⟨a', rfl, hrest⟩ | ⟨u, rfl, hrest⟩
    · cases a' with
      | nil => exact Or.inr ⟨[], y, hrest⟩
      | cons d a' =>
        obtain ⟨rfl, hbehind⟩ := List.cons.inj hrest
        have hfront : q <+: a' := (prefix_append_cons_iff hq).1 ⟨y, hbehind⟩
        exact Or.inl (((List.prefix_cons_inj c).2 hfront).isInfix.trans (List.suffix_append x _).isInfix)
    · exact Or.inr ⟨u, y, by rw [List.append_assoc]; exact hrest.symm⟩
  · rintro (h | h)
    · exact h.trans (List.prefix_append _ _).isInfix
    · exact h.trans (List.suffix_append a _).isInfix

/-! ## What a replacement leaves -/

variable {m : Pattern (List Char)}

/-- A text does not reach over one that it has nothing in common with. -/
theorem infix_append_of_disjoint {p b : List Char} (hp : p ≠ []) : ∀ {a t : List Char}, t ≠ [] →
    (∀ c ∈ t, c ∉ p) → p <:+: a ++ (t ++ b) → p <:+: a ∨ p <:+: b
  | a, [c], _, ht, h => (infix_append_cons_iff (ht c List.mem_cons_self)).1 h
  | a, c :: d :: t, _, ht, h => by
    obtain ⟨hc, ht⟩ := List.forall_mem_cons.1 ht
    rcases (infix_append_cons_iff hc).1 h with h | h
    · exact Or.inl h
    · have := infix_append_of_disjoint (a := []) hp (List.cons_ne_nil d t) ht h
      exact this.imp (fun hnil => absurd (List.infix_nil.1 hnil) hp) id

end ClientBuild.Text
