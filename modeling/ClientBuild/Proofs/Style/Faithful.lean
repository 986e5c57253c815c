import ClientBuild.Proofs.Style.SafeName

/-!
# Safe names tell their names

Each character that may not stand in a selector is written as a word in dashes.  The words stay clear of each
other (`clear_words`): none begins in another one or ends in it, so no word comes up where the text of a name meets a
word that was put in, and reading the words back from the last to the first undoes writing them
(`decode_encode`).  A name without these words in it is therefore told by its safe form, and making a safe form
safe changes nothing (`safe_names_faithful`).
-/

namespace ClientBuild.Style.SafeName

/-! ## Words put in for a character -/

/-- No text that ends `p` begins `w`, and `w` is no part of `p`: an occurrence of `p` that begins in front of
`w` ends there. -/
structure StopsBefore (p w : List Char) : Prop where
  stop : ∀ y ∈ p.tails, y ≠ [] → ¬ y <+: w
  around : ¬ w <:+: p

/-- Besides, no text that begins `p` ends `w`, and `p` is no part of `w`: no occurrence of `p` meets `w`. -/
structure Clear (p w : List Char) : Prop extends StopsBefore p w where
  start : ∀ x ∈ p.inits, x ≠ [] → ¬ x <:+ w
  inside : ¬ p <:+: w

instance (p w : List Char) : Decidable (StopsBefore p w) :=
  decidable_of_iff ((∀ y ∈ p.tails, y ≠ [] → Text.startsWith y w = false) ∧ Text.contains w p = false) <| by
    simp only [Bool.eq_false_iff, ne_eq, Text.startsWith_iff, Text.contains_iff]
    exact ⟨fun h => ⟨h.1, h.2⟩, fun h => ⟨h.1, h.2⟩⟩

instance (p w : List Char) : Decidable (Clear p w) :=
  decidable_of_iff (StopsBefore p w ∧ (∀ x ∈ p.inits, x ≠ [] → Text.endsWith x w = false) ∧
      Text.contains p w = false) <| by
    simp only [Bool.eq_false_iff, ne_eq, Text.endsWith_iff, Text.contains_iff]
    exact ⟨fun h => ⟨h.1, h.2.1, h.2.2⟩, fun h => ⟨h.1, h.2, h.3⟩⟩

variable {c : Char} {p w : List Char}

theorem replaceChar_cons_self (w s : List Char) : replaceChar c w (c :: s) = w ++ replaceChar c w s := by
  rw [replaceChar, List.flatMap_cons, if_pos rfl, replaceChar]

theorem replaceChar_cons_of_ne {d : Char} (h : d ≠ c) (w s : List Char) :
    replaceChar c w (d :: s) = d :: replaceChar c w s := by
  rw [replaceChar, List.flatMap_cons, if_neg h, replaceChar, List.singleton_append]

/-- An occurrence in front that stops before a word was there before the word was put in. -/
theorem prefix_of_prefix_replaceChar (h : StopsBefore p w) : ∀ {s y : List Char}, y <:+ p →
    y <+: replaceChar c w s → y <+: s := by
  intro s
  induction s with
  | nil => exact fun _ hfront => hfront
  | cons d s ih =>
    intro y hy hfront
    by_cases hd : d = c
    · subst hd
      rw [replaceChar_cons_self] at hfront
      by_cases hne : y = []
      · rw [hne]
        exact List.nil_prefix
      · rcases List.prefix_or_prefix_of_prefix hfront (List.prefix_append w _) with hshort | hlong
        · exact absurd hshort (h.stop y ((List.mem_tails y p).2 hy) hne)
        · exact absurd (hlong.isInfix.trans hy.isInfix) h.around
    · rw [replaceChar_cons_of_ne hd] at hfront
      cases y with
      | nil => exact List.nil_prefix
      | cons e y =>
        obtain ⟨rfl, hrest⟩ := List.cons_prefix_cons.1 hfront
        exact (List.prefix_cons_inj e).2 (ih ((List.suffix_cons e y).trans hy) hrest)

/-- An occurrence clear of a word was there before the word was put in. -/
theorem infix_of_infix_replaceChar (h : Clear p w) {s : List Char} (hs : p <:+: replaceChar c w s) :
    p <:+: s := by
  induction s with
  | nil => exact hs
  | cons d s ih =>
    by_cases hd : d = c
    · subst hd
      rw [replaceChar_cons_self] at hs
      refine (ih ?_).trans (List.suffix_cons d s).isInfix
      obtain ⟨a, b, heq⟩ := hs
      rw [List.append_assoc] at heq
      rcases List.append_eq_append_iff.1 heq with ⟨u, hu, hrest⟩ | ⟨u, rfl, hrest⟩
      · -- The occurrence begins in the word: it ends there as well, or a beginning of it ends the word.
        rcases List.append_eq_append_iff.1 hrest with ⟨v, rfl, -⟩ | ⟨v, hv, hbehind⟩
        · exact absurd ⟨a, v, by rw [hu, List.append_assoc]⟩ h.inside
        · by_cases hne : u = []
          · rw [hne, List.nil_append] at hv
            exact ⟨[], b, by rw [hv, List.nil_append, hbehind]⟩
          · exact absurd ⟨a, hu.symm⟩ (h.start u ((List.mem_inits u p).2 ⟨v, hv.symm⟩) hne)
      · exact ⟨u, b, by rw [List.append_assoc, hrest]⟩
    · rw [replaceChar_cons_of_ne hd, List.infix_cons_iff] at hs
      rcases hs with hfront | hs
      · rw [← replaceChar_cons_of_ne hd] at hfront
        exact (prefix_of_prefix_replaceChar h.toStopsBefore (List.suffix_refl p) hfront).isInfix
      · exact (ih hs).trans (List.suffix_cons d s).isInfix

/-- An occurrence clear of all words was there before they were put in. -/
theorem infix_of_infix_replaceAllIn {p : List Char} : ∀ {ws : List (Char × String)} {s : List Char},
    (∀ w ∈ ws, Clear p w.2.toList) → p <:+: replaceAllIn ws s → p <:+: s
  | [], _, _, h => h
  | _ :: _, _, hws, h =>
    have hrest := infix_of_infix_replaceAllIn (List.forall_mem_cons.1 hws).2 h
    infix_of_infix_replaceChar (List.forall_mem_cons.1 hws).1 hrest

/-- A beginning that stops before all words was there before they were put in. -/
theorem prefix_of_prefix_replaceAllIn {p : List Char} : ∀ {ws : List (Char × String)} {s : List Char},
    (∀ w ∈ ws, StopsBefore p w.2.toList) → p <+: replaceAllIn ws s → p <+: s
  | [], _, _, h => h
  | _ :: _, _, hws, h =>
    have hrest := prefix_of_prefix_replaceAllIn (List.forall_mem_cons.1 hws).2 h
    prefix_of_prefix_replaceChar (List.forall_mem_cons.1 hws).1 (List.suffix_refl p) hrest

/-- Reading a word back undoes putting it in, where the text had not the inner part of the word. -/
theorem replaceAll_replaceChar {a b : Char} {p : List Char} (h : StopsBefore p (a :: (p ++ [b]))) {s : List Char}
    (hs : ¬ p <:+: s) : Text.replaceAll (a :: (p ++ [b])) [c] (replaceChar c (a :: (p ++ [b])) s) = s := by
  induction s with
  | nil => rfl
  | cons d s ih =>
    have hrest := ih fun hinside => hs (hinside.trans (List.suffix_cons d s).isInfix)
    by_cases hd : d = c
    · subst hd
      rw [replaceChar_cons_self, Text.replaceAll_append (List.cons_ne_nil a _), hrest, List.singleton_append]
    · rw [replaceChar_cons_of_ne hd, Text.replaceAll_cons, hrest]
      intro hfront
      obtain ⟨-, hbehind⟩ := List.cons_prefix_cons.1 hfront
      have hinner : p <+: s := prefix_of_prefix_replaceChar h (List.suffix_refl p)
        ((List.prefix_append p [b]).trans hbehind)
      exact hs (hinner.isInfix.trans (List.suffix_cons d s).isInfix)

/-! ## The words for characters -/

/-- The words that stand for characters, without the dashes around them. -/
def tokens : List String :=
  ["bracket-start", "bracket-end", "paren-start", "paren-end", "brace-start", "brace-end", "dollar", "hash",
   "important", "slash", "colon"]

/-- The token of a character and its word. -/
def token (w : Char × String) : List Char := w.2.toList.tail.dropLast

theorem map_token_words : words.map token = tokens.map String.toList := by decide

/-- Is a word a token in dashes? -/
def IsDashed (w : Char × String) : Prop :=
  w.2.toList = '-' :: (token w ++ ['-']) ∧ StopsBefore (token w) w.2.toList

instance (w : Char × String) : Decidable (IsDashed w) := inferInstanceAs (Decidable (_ ∧ _))

theorem isDashed_words : ∀ w ∈ words, IsDashed w := by decide

/-- The tokens of later words are clear of the earlier ones. -/
theorem clear_words : words.Pairwise fun w v => Clear (token v) w.2.toList := by decide

/-- Reading words back in reverse order undoes writing them, where the text had none of their tokens. -/
theorem foldl_replaceAllIn {ws : List (Char × String)} (hdashed : ∀ w ∈ ws, IsDashed w)
    (hclear : ws.Pairwise fun w v => Clear (token v) w.2.toList) {s : List Char}
    (hs : ∀ w ∈ ws, ¬ token w <:+: s) :
    ws.reverse.foldl (fun s w => Text.replaceAll w.2.toList [w.1] s) (replaceAllIn ws s) = s := by
  induction ws generalizing s with
  | nil => rfl
  | cons w ws ih =>
    obtain ⟨⟨hword, hstop⟩, hdashed⟩ := List.forall_mem_cons.1 hdashed
    obtain ⟨hhead, hclear⟩ := List.pairwise_cons.1 hclear
    obtain ⟨hw, hws⟩ := List.forall_mem_cons.1 hs
    -- Putting the word in brings up none of the later tokens.
    have hlater : ∀ v ∈ ws, ¬ token v <:+: replaceChar w.1 w.2.toList s := by
      intro v hv hinside
      exact hws v hv (infix_of_infix_replaceChar (hhead v hv) hinside)
    have hstep : replaceAllIn (w :: ws) s = replaceAllIn ws (replaceChar w.1 w.2.toList s) := rfl
    rw [List.reverse_cons, List.foldl_append, hstep, ih hdashed hclear hlater, List.foldl_cons, List.foldl_nil]
    rw [hword] at hstop ⊢
    exact replaceAll_replaceChar hstop hw

/-! ## Names -/

/-- A name with no backslash, no dark variant, and none of the tokens in it. -/
structure IsTold (s : List Char) : Prop where
  backslash : '\\' ∉ s
  variant : ¬ darkVariant.toList <:+: s
  token : ∀ t ∈ tokens, ¬ t.toList <:+: s

instance (s : List Char) : Decidable (IsTold s) :=
  decidable_of_iff ('\\' ∉ s ∧ Text.contains darkVariant.toList s = false ∧
      ∀ t ∈ tokens, Text.contains t.toList s = false) <| by
    simp only [Text.contains_eq_false_iff]
    exact ⟨fun h => ⟨h.1, h.2.1, h.2.2⟩, fun h => ⟨h.1, h.2, h.3⟩⟩

theorem IsTold.not_infix {s : List Char} (h : IsTold s) : ∀ w ∈ words, ¬ SafeName.token w <:+: s := by
  intro w hw
  have hmem : SafeName.token w ∈ tokens.map String.toList := map_token_words ▸ List.mem_map_of_mem hw
  obtain ⟨t, ht, heq⟩ := List.mem_map.1 hmem
  rw [← heq]
  exact h.token t ht

/-- A name is read back from its safe form. -/
theorem decode_encode {s : List Char} (h : IsTold s) : decode (encode s) = s := by
  have hdecode : ∀ t, decode t = words.reverse.foldl (fun s w => Text.replaceAll w.2.toList [w.1] s) t :=
    fun _ => rfl
  rw [encode]
  split
  next =>
    -- A name that passes through has no words to read back.
    have hnone : ∀ w ∈ words.reverse, ¬ w.2.toList <:+: s := by
      intro w hw hinside
      have hmem := List.mem_reverse.1 hw
      refine h.not_infix w hmem (List.IsInfix.trans ?_ hinside)
      rw [(isDashed_words w hmem).1]
      exact ⟨['-'], ['-'], rfl⟩
    rw [hdecode]
    generalize words.reverse = ws at hnone
    induction ws with
    | nil => rfl
    | cons w ws ih =>
      obtain ⟨hw, hws⟩ := List.forall_mem_cons.1 hnone
      rw [List.foldl_cons, Text.replaceAll_eq_self hw, ih hws]
  next =>
    have hfilter : s.filter (· != '\\') = s := List.filter_eq_self.2 fun c hc => by
      rw [bne_iff_ne]
      rintro rfl
      exact h.backslash hc
    rw [hfilter, Text.replaceAll_eq_self h.variant, hdecode,
      foldl_replaceAllIn isDashed_words clear_words h.not_infix]

/-- The characters that a safe name has not, unless it is kept as it is. -/
def unsafeChars : List Char := ['[', ']', '(', ')', '{', '}', '$', '#', '!', '/', ':', '\\']

theorem unsafe_not_mem_encode {s : List Char} (h : passesThrough s = false) : ∀ c ∈ unsafeChars, c ∉ encode s := by
  have hsplit : unsafeChars = words.map Prod.fst ++ ['\\'] := by decide
  rw [hsplit]
  refine List.forall_mem_append.2 ⟨fun c hc => not_mem_encode h hc, fun c hc => ?_⟩
  rw [List.mem_singleton.1 hc, encode, if_neg (by simp [h])]
  refine not_mem_replaceAllIn (by decide) (by decide) (Or.inr fun hmem => ?_)
  have hmem := (Text.mem_replaceAll hmem).resolve_right List.not_mem_nil
  simp at hmem

/-- A name without such characters is its own safe form. -/
theorem encode_eq_self {s : List Char} (hs : ∀ c ∈ unsafeChars, c ∉ s) : encode s = s := by
  have hfilter : s.filter (· != '\\') = s := List.filter_eq_self.2 fun c hc => by
    rw [bne_iff_ne]
    rintro rfl
    exact hs '\\' (by decide) hc
  have hvariant : ¬ darkVariant.toList <:+: s := fun h => hs ':' (by decide) (h.subset (by decide))
  have hwords : ∀ c ∈ words.map Prod.fst, c ∉ s := fun c hc =>
    hs c ((by decide : ∀ c ∈ words.map Prod.fst, c ∈ unsafeChars) c hc)
  rw [encode, hfilter, Text.replaceAll_eq_self hvariant, replaceAllIn_eq_self hwords, ite_self]

/-- A safe name is its own safe form. -/
theorem encode_encode (s : List Char) : encode (encode s) = encode s := by
  cases hpass : passesThrough s with
  | true =>
    have hkept : encode s = s := if_pos hpass
    rw [hkept, hkept]
  | false => exact encode_eq_self (unsafe_not_mem_encode hpass)

/-- **Safe names are faithful**: a name without backslash, dark variant and tokens is read back from its safe
form, so two of them never share one; a safe form is its own safe form; and it has none of the characters that
may not stand in a selector, unless the name is a host selector or an operator. -/
theorem safe_names_faithful (s : List Char) :
    (IsTold s → decode (encode s) = s) ∧
      (∀ t, IsTold s → IsTold t → encode s = encode t → s = t) ∧
      encode (encode s) = encode s ∧
      (¬ ":host".toList <:+: s → s ∉ operators.map String.toList → ∀ c ∈ unsafeChars, c ∉ encode s) := by
  refine ⟨decode_encode, ?_, encode_encode s, ?_⟩
  · intro t hs ht heq
    rw [← decode_encode hs, heq, decode_encode ht]
  · intro hhost hoperator
    refine unsafe_not_mem_encode ?_
    rw [passesThrough, Text.contains_eq_false_iff.2 hhost, Bool.false_or, Bool.eq_false_iff]
    intro hany
    obtain ⟨o, ho, heq⟩ := List.any_eq_true.1 hany
    exact hoperator (List.mem_map.2 ⟨o, ho, beq_iff_eq.1 heq⟩)

/-- An important background for dark mode, with a color in brackets. -/
theorem safe_names_faithful_color :
    let s := "dark:!bg-[#fff]".toList
    let t := "dark:!bg-[#ff]f".toList
    (IsTold s ∧ IsTold t ∧ ¬ ":host".toList <:+: s ∧ s ∉ operators.map String.toList) ∧
      decode (encode s) = s ∧ encode s ≠ encode t ∧ encode (encode s) = encode s ∧
      ∀ c ∈ unsafeChars, c ∉ encode s := by
  intro s t
  have hs : IsTold s := by decide
  have ht : IsTold t := by decide
  have hhost : ¬ ":host".toList <:+: s := Text.contains_eq_false_iff.1 (by decide)
  have hoperator : s ∉ operators.map String.toList := by decide
  obtain ⟨hback, hinj, hagain, hclean⟩ := safe_names_faithful s
  exact ⟨⟨hs, ht, hhost, hoperator⟩, hback hs, fun heq => absurd (hinj t hs ht heq) (by decide), hagain,
    hclean hhost hoperator⟩

end ClientBuild.Style.SafeName
