import ClientBuild.Proofs.Declaration.Name
import ClientBuild.Proofs.Text.Search

/-!
# Interfaces that become types
-/

namespace ClientBuild

namespace Text

/-! ## Scans that stop at a character -/

section stop

variable {p : Char → Bool} {c : Char} {s b : List Char}

theorem after?_append_cons {start : List Char} (hc : c ∉ start) :
    after? start (s ++ c :: b) = (after? start s).map (· ++ c :: b) := by
  cases h : after? start s with
  | some r =>
    rw [after?_eq_some_iff.1 h, List.append_assoc, after?_append]
    rfl
  | none =>
    refine after?_eq_none_iff.2 fun hp => after?_eq_none_iff.1 h ?_
    obtain ⟨r, hr⟩ := hp
    rcases List.append_eq_append_iff.1 hr with ⟨x, rfl, _⟩ | ⟨x, rfl, hx⟩
    · exact ⟨x, rfl⟩
    · cases x with
      | nil => exact ⟨[], by simp⟩
      | cons d x =>
        cases hx
        exact absurd (List.mem_append_right _ List.mem_cons_self) hc

theorem takeWhile_append_cons (hc : p c = false) :
    (s ++ c :: b).takeWhile p = s.takeWhile p := by
  induction s with
  | nil => simp [hc]
  | cons d s ih => simp only [List.cons_append, List.takeWhile_cons, ih]

theorem dropWhile_append_cons (hc : p c = false) :
    (s ++ c :: b).dropWhile p = s.dropWhile p ++ c :: b := by
  induction s with
  | nil => simp [hc]
  | cons d s ih =>
    simp only [List.cons_append, List.dropWhile_cons, ih]
    split <;> rfl

end stop

end Text

namespace Declaration

/-! ## What the pattern finds -/

/-- Can the character stand in front of the brace of an interface? -/
def IsHeadChar (c : Char) : Prop := Text.isWordAscii c = true ∨ Text.isBlank c = true

instance (c : Char) : Decidable (IsHeadChar c) := inferInstanceAs (Decidable (_ ∨ _))

/-- Does the text end in a word character? -/
def EndsInWord (s : List Char) : Prop := ∃ front c, s = front ++ [c] ∧ Text.isWordAscii c = true

theorem endsInWord_of_forall {s : List Char} (hne : s ≠ [])
    (h : ∀ c ∈ s, Text.isWordAscii c = true) : EndsInWord s :=
  ⟨s.dropLast, s.getLast hne, (List.dropLast_concat_getLast hne).symm, h _ (List.getLast_mem hne)⟩

theorem EndsInWord.append {s t : List Char} (ht : EndsInWord t) : EndsInWord (s ++ t) := by
  obtain ⟨front, c, rfl, hc⟩ := ht
  exact ⟨s ++ front, c, by simp, hc⟩

theorem isHeadChar_of_mem_takeWhile_blank {s : List Char} :
    ∀ c ∈ s.takeWhile Text.isBlank, IsHeadChar c :=
  fun _ hc => Or.inr (List.all_eq_true.1 List.all_takeWhile _ hc)

theorem isHeadChar_of_mem_takeWhile_word {s : List Char} :
    ∀ c ∈ s.takeWhile Text.isWordAscii, IsHeadChar c :=
  fun _ hc => Or.inl (List.all_eq_true.1 List.all_takeWhile _ hc)

theorem exists_of_extendsPart? {s base rest : List Char} (h : extendsPart? s = some (base, rest)) :
    s = base ++ rest ∧ (∀ c ∈ base, IsHeadChar c) ∧ EndsInWord base := by
  rw [extendsPart?] at h
  obtain ⟨behind, hbehind, h⟩ := Option.bind_eq_some_iff.1 h
  have hs : s = s.takeWhile Text.isBlank ++ ("extends".toList ++ behind) := by
    rw [← Text.after?_eq_some_iff.1 hbehind, List.takeWhile_append_dropWhile]
  dsimp only at h
  split at h
  next => cases h
  next hne =>
    cases h
    have hbase : (behind.dropWhile Text.isBlank).takeWhile Text.isWordAscii ≠ [] := by
      simp only [Bool.or_eq_true, List.isEmpty_iff, not_or] at hne
      exact hne.2
    refine ⟨?_, ?_, ?_⟩
    · rw [List.append_assoc, List.append_assoc, List.append_assoc,
        List.takeWhile_append_dropWhile, List.takeWhile_append_dropWhile]
      exact hs
    · simp only [List.mem_append]
      rintro c (((hc | hc) | hc) | hc)
      · exact isHeadChar_of_mem_takeWhile_blank c hc
      · exact Or.inl (List.all_eq_true.1 (by decide) c hc)
      · exact isHeadChar_of_mem_takeWhile_blank c hc
      · exact isHeadChar_of_mem_takeWhile_word c hc
    · exact EndsInWord.append (endsInWord_of_forall hbase (List.all_eq_true.1 List.all_takeWhile))

theorem exists_of_plainBlock? {s body : List Char} {n : Nat} (h : plainBlock? s = some (body, n)) :
    ∃ blanks rest, s = blanks ++ '{' :: (body ++ '}' :: rest) ∧
      (∀ c ∈ blanks, Text.isBlank c = true) ∧ '}' ∉ body ∧ n = blanks.length + body.length + 2 := by
  rw [plainBlock?] at h
  split at h
  next t ht =>
    dsimp only at h
    split at h
    next => cases h
    next hne =>
      cases h
      obtain ⟨c, rest, hrest⟩ := List.exists_cons_of_ne_nil fun hnil => hne (List.isEmpty_iff.2 hnil)
      have hc : c = '}' := by
        have hstop := List.head_dropWhile_not (fun d => d != '}') (l := t) (by simp [hrest])
        simpa [hrest] using hstop
      refine ⟨s.takeWhile Text.isBlank, rest, ?_, List.all_eq_true.1 List.all_takeWhile, ?_, rfl⟩
      · rw [hc] at hrest
        rw [← hrest, List.takeWhile_append_dropWhile, ← ht, Text.trimLeft,
          List.takeWhile_append_dropWhile]
      · intro hmem
        have := List.all_eq_true.1 List.all_takeWhile _ hmem
        simp at this
  next => cases h

/-- An interface at the front of a text: from its keyword to the brace, what stands between the
braces, what stands behind them, and its name with what it extends. -/
structure InterfaceAt (s t : List Char) (n : Nat) (head name body rest : List Char) : Prop where
  text : s = "interface".toList ++ head ++ '{' :: (body ++ '}' :: rest)
  length : n = ("interface".toList ++ head ++ '{' :: body).length + 1
  type : t = "type ".toList ++ name ++ " = \x7b".toList ++ body ++ ['}']
  plain : '}' ∉ body
  headChar : ∀ c ∈ head, IsHeadChar c
  named : name <:+: head
  word : EndsInWord name

theorem exists_of_interfaceNamed? {s t : List Char} {size n : Nat} (hsize : 0 < size)
    (hle : size ≤ s.length) (hword : ∀ c ∈ s.take size, Text.isWordAscii c = true)
    (h : interfaceNamed? size s = some (t, n)) :
    ∃ head name body rest, s = head ++ '{' :: (body ++ '}' :: rest) ∧
      n = head.length + body.length + 2 ∧
      t = "type ".toList ++ name ++ " = \x7b".toList ++ body ++ ['}'] ∧ '}' ∉ body ∧
      (∀ c ∈ head, IsHeadChar c) ∧ name <:+: head ∧ EndsInWord name := by
  rw [interfaceNamed?] at h
  obtain ⟨⟨base, body, m⟩, hfound, heq⟩ := Option.bind_eq_some_iff.1 h
  cases heq
  have hs : s = s.take size ++ s.drop size := (List.take_append_drop size s).symm
  have hlength : (s.take size).length = size := List.length_take_of_le hle
  have hne : s.take size ≠ [] := fun hnil => by
    rw [hnil] at hlength
    exact absurd hlength (Nat.ne_of_lt hsize)
  have hname : EndsInWord (s.take size) := endsInWord_of_forall hne hword
  rw [Option.orElse_apply, Option.orElse_eq_or, Option.or_eq_some_iff] at hfound
  rcases hfound with hbase | ⟨_, hplain⟩
  · obtain ⟨⟨base', rest'⟩, hextends, hblock⟩ := Option.bind_eq_some_iff.1 hbase
    obtain ⟨⟨body', n'⟩, hplain, heq⟩ := Option.map_eq_some_iff.1 hblock
    cases heq
    obtain ⟨hdrop, hbasechars, hbaseword⟩ := exists_of_extendsPart? hextends
    obtain ⟨blanks, rest, hrest, hblanks, hbody, rfl⟩ := exists_of_plainBlock? hplain
    refine ⟨s.take size ++ base ++ blanks, s.take size ++ base, body, rest, ?_, ?_, ?_, hbody, ?_,
      ⟨[], blanks, rfl⟩, hbaseword.append⟩
    · rw [List.append_assoc, List.append_assoc, ← hrest, ← hdrop]
      exact hs
    · simp only [List.length_append, hlength]
      omega
    · simp
    · simp only [List.mem_append]
      rintro c ((hc | hc) | hc)
      · exact Or.inl (hword c hc)
      · exact hbasechars c hc
      · exact Or.inr (hblanks c hc)
  · obtain ⟨⟨body', n'⟩, hblock, heq⟩ := Option.map_eq_some_iff.1 hplain
    cases heq
    obtain ⟨blanks, rest, hrest, hblanks, hbody, rfl⟩ := exists_of_plainBlock? hblock
    refine ⟨s.take size ++ blanks, s.take size, body, rest, ?_, ?_, ?_, hbody, ?_,
      ⟨[], blanks, rfl⟩, hname⟩
    · rw [List.append_assoc, ← hrest]
      exact hs
    · simp only [List.length_append, hlength]
      omega
    · simp
    · simp only [List.mem_append]
      rintro c (hc | hc)
      · exact Or.inl (hword c hc)
      · exact Or.inr (hblanks c hc)

theorem exists_of_plainInterface {s t : List Char} {n : Nat}
    (h : plainInterface s = some (t, n)) :
    ∃ head name body rest, InterfaceAt s t n head name body rest := by
  rw [plainInterface] at h
  obtain ⟨behind, hbehind, h⟩ := Option.bind_eq_some_iff.1 h
  have hs := Text.after?_eq_some_iff.1 hbehind
  dsimp only at h
  split at h
  next => cases h
  next hne =>
    obtain ⟨⟨t', m⟩, hfound, heq⟩ := Option.map_eq_some_iff.1 h
    cases heq
    simp only [Bool.or_eq_true, decide_eq_true_eq, List.isEmpty_iff, not_or] at hne
    have hpositive := List.length_pos_iff.2 hne.2
    have hprefix := List.takeWhile_prefix Text.isWordAscii (l := Text.trimLeft behind)
    have hchars : ∀ size ≤ ((Text.trimLeft behind).takeWhile Text.isWordAscii).length,
        ∀ c ∈ (Text.trimLeft behind).take size, Text.isWordAscii c = true := by
      intro size hsize c hc
      rw [← List.takeWhile_append_dropWhile (p := Text.isWordAscii) (l := Text.trimLeft behind),
        List.take_append_of_le_length hsize] at hc
      exact List.all_eq_true.1 List.all_takeWhile c (List.mem_of_mem_take hc)
    have hnamed : ∃ size, 0 < size ∧ size ≤ ((Text.trimLeft behind).takeWhile Text.isWordAscii).length ∧
        interfaceNamed? size (Text.trimLeft behind) = some (t', m) := by
      rw [Option.orElse_apply, Option.orElse_eq_or, Option.or_eq_some_iff] at hfound
      rcases hfound with hfound | ⟨_, hfound⟩
      · exact ⟨_, hpositive, Nat.le_refl _, hfound⟩
      · split at hfound
        next hshort => exact ⟨_, hshort, Nat.sub_le .., hfound⟩
        next => cases hfound
    obtain ⟨size, hsize, hle, hnamed⟩ := hnamed
    obtain ⟨head, name, body, rest, hat, hm, ht, hbody, hhead, hinfix, hname⟩ :=
      exists_of_interfaceNamed? hsize (Nat.le_trans hle hprefix.length_le) (hchars size hle) hnamed
    refine ⟨behind.takeWhile Text.isBlank ++ head, name, body, rest, ?_, ?_, ht, hbody, ?_, ?_, hname⟩
    · rw [hs, List.append_assoc, List.append_assoc, ← hat, Text.trimLeft,
        List.takeWhile_append_dropWhile]
    · simp only [List.length_append, List.length_cons, Text.blanksBefore, hm]
      have : "interface".toList.length = "interface".length := rfl
      omega
    · intro c hc
      rcases List.mem_append.1 hc with hc | hc
      · exact isHeadChar_of_mem_takeWhile_blank c hc
      · exact hhead c hc
    · exact hinfix.trans (List.suffix_append _ _).isInfix

/-! ## The pattern looks as far as the next closing brace -/

theorem extendsPart?_append {c : Char} (hblank : Text.isBlank c = false)
    (hword : Text.isWordAscii c = false) (s b : List Char) :
    extendsPart? (s ++ c :: b) = (extendsPart? s).map fun p => (p.1, p.2 ++ c :: b) := by
  have hkeyword : ∀ d ∈ "extends".toList, Text.isWordAscii d = true := List.all_eq_true.1 (by decide)
  have hc : c ∉ "extends".toList := fun h => Bool.noConfusion (hword.symm.trans (hkeyword c h))
  simp only [extendsPart?, Text.takeWhile_append_cons hblank, Text.dropWhile_append_cons hblank]
  rw [Text.after?_append_cons hc]
  cases Text.after? "extends".toList (s.dropWhile Text.isBlank) with
  | none => rfl
  | some behind =>
    simp only [Option.map_some, Text.takeWhile_append_cons hblank,
      Text.dropWhile_append_cons hblank, Text.takeWhile_append_cons hword,
      Text.dropWhile_append_cons hword, bind, Option.bind]
    split <;> rfl

theorem plainBlock?_append (s b : List Char) :
    plainBlock? (s ++ '}' :: b) = plainBlock? (s ++ ['}']) := by
  have hblank : Text.isBlank '}' = false := by decide
  simp only [plainBlock?, Text.trimLeft, Text.blanksBefore, Text.takeWhile_append_cons hblank,
    Text.dropWhile_append_cons hblank]
  cases s.dropWhile Text.isBlank with
  | nil => rfl
  | cons c t =>
    have htake : ∀ b, (t ++ '}' :: b).takeWhile (fun d => d != '}') =
        t.takeWhile (fun d => d != '}') := fun b => Text.takeWhile_append_cons rfl
    have hdrop : ∀ b, (t ++ '}' :: b).dropWhile (fun d => d != '}') =
        t.dropWhile (fun d => d != '}') ++ '}' :: b := fun b => Text.dropWhile_append_cons rfl
    by_cases hc : c = '{'
    · subst hc
      simp [htake, hdrop]
    · simp [hc]

theorem interfaceNamed?_append {s : List Char} {size : Nat} (hle : size ≤ s.length)
    (b : List Char) : interfaceNamed? size (s ++ '}' :: b) = interfaceNamed? size (s ++ ['}']) := by
  simp only [interfaceNamed?, List.take_append_of_le_length hle, List.drop_append_of_le_length hle,
    extendsPart?_append (c := '}') (by decide) (by decide), plainBlock?_append _ b]
  cases extendsPart? (s.drop size) with
  | none => rfl
  | some p => simp only [Option.map_some, Option.bind_some, plainBlock?_append _ b]

theorem plainInterface_append (s b : List Char) :
    plainInterface (s ++ '}' :: b) = plainInterface (s ++ ['}']) := by
  have hblank : Text.isBlank '}' = false := by decide
  have hword : Text.isWordAscii '}' = false := by decide
  simp only [plainInterface]
  rw [Text.after?_append_cons (by decide), Text.after?_append_cons (by decide)]
  cases Text.after? "interface".toList s with
  | none => rfl
  | some behind =>
    simp only [Option.map_some, bind, Option.bind_some, Text.blanksBefore, Text.trimLeft,
      Text.takeWhile_append_cons hblank, Text.dropWhile_append_cons hblank,
      Text.takeWhile_append_cons hword]
    have hlong := (List.takeWhile_prefix Text.isWordAscii (l := behind.dropWhile Text.isBlank)).length_le
    have hshort := Nat.le_trans (Nat.sub_le _ "extends".length) hlong
    rw [interfaceNamed?_append hlong, interfaceNamed?_append hshort]

/-! ## Rewriting piece by piece -/

section rewrite

variable {a b s t head name body rest : List Char} {n : Nat}

theorem InterfaceAt.split (h : InterfaceAt s t n head name body rest) :
    s = ("interface".toList ++ head ++ '{' :: body ++ ['}']) ++ rest ∧
      n = ("interface".toList ++ head ++ '{' :: body ++ ['}']).length := by
  refine ⟨by rw [h.text]; simp, ?_⟩
  rw [h.length]
  simp only [List.length_append, List.length_cons, List.length_nil]

theorem InterfaceAt.drop (h : InterfaceAt s t n head name body rest) : s.drop n = rest := by
  obtain ⟨hs, hn⟩ := h.split
  rw [hs, hn, List.drop_left]

theorem InterfaceAt.le (h : InterfaceAt s t n head name body rest) : n ≤ s.length := by
  obtain ⟨hs, hn⟩ := h.split
  have hlength := congrArg List.length hs
  rw [List.length_append, ← hn] at hlength
  omega

theorem InterfaceAt.pos (h : InterfaceAt s t n head name body rest) : 0 < n := by
  rw [h.length]
  exact Nat.succ_pos _

theorem interfacesToTypes_of_some (h : plainInterface s = some (t, n)) :
    interfacesToTypes s = t ++ interfacesToTypes (s.drop n) := by
  obtain ⟨head, name, body, rest, hat⟩ := exists_of_plainInterface h
  have hne : s ≠ [] := by
    rw [hat.text]
    simp
  obtain ⟨m, rfl⟩ := Nat.exists_eq_succ_of_ne_zero (Nat.ne_of_gt hat.pos)
  exact Text.replaceMatches_of_some h hne

/-- The keyword is found where it stands only. -/
theorem plainInterface_cons_of_ne {c : Char} (hc : c ≠ 'i') : plainInterface (c :: s) = none := by
  have hafter : Text.after? "interface".toList (c :: s) = none := by
    refine Text.after?_eq_none_iff.2 fun h => hc ?_
    obtain ⟨r, hr⟩ := h
    exact (List.cons.inj hr).1.symm
  simp only [plainInterface, hafter]
  rfl

theorem interfacesToTypes_cons_of_ne {c : Char} (hc : c ≠ 'i') :
    interfacesToTypes (c :: s) = c :: interfacesToTypes s :=
  Text.replaceMatches_cons_of_none (plainInterface_cons_of_ne hc)

/-- **A closing brace ends what a rewriting looks at.** -/
theorem interfacesToTypes_append_close (a b : List Char) :
    interfacesToTypes (a ++ '}' :: b) = interfacesToTypes (a ++ ['}']) ++ interfacesToTypes b := by
  cases a with
  | nil =>
    rw [List.nil_append, List.nil_append, interfacesToTypes_cons_of_ne (by decide),
      interfacesToTypes_cons_of_ne (by decide)]
    rfl
  | cons c a =>
    have hlocal := plainInterface_append (c :: a) b
    cases h : plainInterface (c :: a ++ ['}']) with
    | none =>
      rw [h] at hlocal
      have hleft : interfacesToTypes (c :: a ++ '}' :: b) = c :: interfacesToTypes (a ++ '}' :: b) :=
        Text.replaceMatches_cons_of_none hlocal
      have hright : interfacesToTypes (c :: a ++ ['}']) = c :: interfacesToTypes (a ++ ['}']) :=
        Text.replaceMatches_cons_of_none h
      rw [hleft, hright, interfacesToTypes_append_close a b, List.cons_append]
    | some p =>
      obtain ⟨t, n⟩ := p
      rw [h] at hlocal
      obtain ⟨head, name, body, rest, hat⟩ := exists_of_plainInterface h
      rw [interfacesToTypes_of_some hlocal, interfacesToTypes_of_some h, List.append_assoc]
      congr 1
      have hle := hat.le
      have hpos := hat.pos
      rw [List.length_append, List.length_singleton] at hle
      rcases Nat.lt_or_ge (c :: a).length n with hn | hn
      · -- The match ends with the brace itself.
        have hlength : n = (c :: a).length + 1 := by omega
        have hdrop : ∀ b, (c :: a ++ '}' :: b).drop ((c :: a).length + 1) = b := by simp
        rw [hlength, hdrop, hdrop]
        rfl
      · rw [List.drop_append_of_le_length hn, List.drop_append_of_le_length hn]
        exact interfacesToTypes_append_close _ b
termination_by a.length
decreasing_by
  · simp
  · rw [List.length_drop]
    simp only [List.length_cons] at *
    omega

/-- A closing brace at the end stays there. -/
theorem exists_interfacesToTypes_concat (a : List Char) :
    ∃ b, interfacesToTypes (a ++ ['}']) = b ++ ['}'] := by
  cases a with
  | nil => exact ⟨[], interfacesToTypes_cons_of_ne (by decide)⟩
  | cons c a =>
    cases h : plainInterface (c :: a ++ ['}']) with
    | none =>
      obtain ⟨b, hb⟩ := exists_interfacesToTypes_concat a
      have hcons : interfacesToTypes (c :: a ++ ['}']) = c :: interfacesToTypes (a ++ ['}']) :=
        Text.replaceMatches_cons_of_none h
      exact ⟨c :: b, by rw [hcons, hb, List.cons_append]⟩
    | some p =>
      obtain ⟨t, n⟩ := p
      obtain ⟨head, name, body, rest, hat⟩ := exists_of_plainInterface h
      have hpos := hat.pos
      have hle := hat.le
      rw [interfacesToTypes_of_some h]
      rcases Nat.lt_or_ge (c :: a).length n with hn | hn
      · have hlength : n = (c :: a ++ ['}']).length := by
          rw [List.length_append, List.length_singleton] at *
          omega
        rw [hlength, List.drop_length, hat.type]
        exact ⟨_, List.append_nil _⟩
      · obtain ⟨b, hb⟩ := exists_interfacesToTypes_concat ((c :: a).drop n)
        exact ⟨t ++ b, by rw [List.drop_append_of_le_length hn, hb, List.append_assoc]⟩
termination_by a.length
decreasing_by
  · simp
  · rw [List.length_drop]
    simp only [List.length_cons] at *
    omega

/-- What a text is rewritten to, from its beginning or from inside the block of a match. -/
def RewrittenTo (s y : List Char) : Prop :=
  y = interfacesToTypes s ∨ ∃ body rest, '}' ∉ body ∧ s = body ++ '}' :: rest ∧
    y = body ++ '}' :: interfacesToTypes rest

/-! ### Openings -/

/-- The first line of a declaration, to its brace, before or after the rewriting. -/
def Opens (word name opening : List Char) : Prop :=
  opening = word ++ "interface ".toList ++ name ++ " \x7b".toList ∨
    opening = word ++ "type ".toList ++ name ++ " = \x7b".toList

theorem IsName.exists_cons (h : IsName name) : ∃ c s, name = c :: s ∧ IsNameChar c := by
  obtain ⟨c, s, rfl⟩ := List.exists_cons_of_ne_nil h.1
  exact ⟨c, s, rfl, h.2 c List.mem_cons_self⟩

/-- The pattern behind its keyword and one blank. -/
theorem plainInterface_keyword {c : Char} (hc : Text.isBlank c = false) (s : List Char) :
    plainInterface ("interface".toList ++ ' ' :: c :: s) =
      let word := (c :: s).takeWhile Text.isWordAscii
      if word.isEmpty then none
      else
        ((interfaceNamed? word.length (c :: s)).or
          (if 0 < word.length - 7 then interfaceNamed? (word.length - 7) (c :: s) else none)).map
            fun (text, n) => (text, 10 + n) := by
  have hspace : Text.isBlank ' ' = true := by decide
  have hblanks : (' ' :: c :: s).takeWhile Text.isBlank = [' '] := by simp [hspace, hc]
  have htrim : (' ' :: c :: s).dropWhile Text.isBlank = c :: s := by simp [hspace, hc]
  simp only [plainInterface, Text.after?_append, bind, Option.bind_some, Text.blanksBefore,
    Text.trimLeft, hblanks, htrim, Option.orElse_apply, Option.orElse_eq_or]
  rfl

theorem extendsPart?_open (s : List Char) : extendsPart? (' ' :: '{' :: s) = none := by
  have hbehind : (' ' :: '{' :: s).dropWhile Text.isBlank = '{' :: s := by
    simp [show Text.isBlank ' ' = true by decide, show Text.isBlank '{' = false by decide]
  have hafter : Text.after? "extends".toList ('{' :: s) = none :=
    Text.after?_eq_none_iff.2 fun ⟨r, hr⟩ => absurd (List.cons.inj hr).1 (by decide)
  simp only [extendsPart?, hbehind, hafter]
  rfl

theorem plainBlock?_open (hbody : '}' ∉ body) :
    plainBlock? (' ' :: '{' :: (body ++ '}' :: rest)) = some (body, 1 + body.length + 2) := by
  have hne : ∀ d ∈ body, (d != '}') = true := fun d hd => by
    simpa using fun heq : d = '}' => hbody (heq ▸ hd)
  have htake : (body ++ '}' :: rest).takeWhile (fun d => d != '}') = body := by
    rw [List.takeWhile_append_of_pos hne]
    simp
  have hdrop : (body ++ '}' :: rest).dropWhile (fun d => d != '}') ≠ [] := by
    rw [Text.dropWhile_append_cons rfl]
    simp
  simp [plainBlock?, Text.trimLeft, Text.blanksBefore, show Text.isBlank ' ' = true by decide,
    show Text.isBlank '{' = false by decide, htake, hdrop]

/-- **An interface whose name has word characters only is found.** -/
theorem plainInterface_of_word (hname : IsName name)
    (hword : ∀ c ∈ name, Text.isWordAscii c = true) (hbody : '}' ∉ body) :
    plainInterface ("interface".toList ++ ' ' :: (name ++ ' ' :: '{' :: (body ++ '}' :: rest))) =
      some ("type ".toList ++ name ++ " = \x7b".toList ++ body ++ ['}'],
        10 + (name.length + (1 + body.length + 2))) := by
  have hnamed : interfaceNamed? name.length (name ++ ' ' :: '{' :: (body ++ '}' :: rest)) =
      some ("type ".toList ++ name ++ " = \x7b".toList ++ body ++ ['}'],
        name.length + (1 + body.length + 2)) := by
    simp only [interfaceNamed?, List.take_left, List.drop_left, extendsPart?_open,
      plainBlock?_open hbody]
    simp
  have htake : (name ++ ' ' :: '{' :: (body ++ '}' :: rest)).takeWhile Text.isWordAscii = name := by
    rw [List.takeWhile_append_of_pos hword]
    simp [show Text.isWordAscii ' ' = false by decide]
  obtain ⟨c, s, rfl, hc⟩ := hname.exists_cons
  rw [List.cons_append] at hnamed htake ⊢
  rw [plainInterface_keyword hc.isBlank, htake]
  simp only [hnamed, Option.some_or, Option.map_some, List.isEmpty_cons]
  rfl

theorem plainBlock?_cons {c : Char} (hblank : Text.isBlank c = false) (hopen : c ≠ '{')
    (s : List Char) : plainBlock? (c :: s) = none := by
  simp [plainBlock?, Text.trimLeft, hblank, hopen]

theorem interfaceNamed?_eq_none {size : Nat} (hextends : extendsPart? (s.drop size) = none)
    (hblock : plainBlock? (s.drop size) = none) : interfaceNamed? size s = none := by
  simp [interfaceNamed?, hextends, hblock]

theorem extendsPart?_cons {c : Char} (hblank : Text.isBlank c = false) (hc : c ≠ 'e')
    (s : List Char) : extendsPart? (c :: s) = none := by
  have hbehind : (c :: s).dropWhile Text.isBlank = c :: s := by simp [hblank]
  have hafter : Text.after? "extends".toList (c :: s) = none :=
    Text.after?_eq_none_iff.2 fun ⟨r, hr⟩ => hc (List.cons.inj hr).1.symm
  simp only [extendsPart?, hbehind, hafter]
  rfl

/-- No blank follows the keyword. -/
theorem extendsPart?_append_cons {w : List Char} (hlength : w.length = 7)
    (hw : ∀ c ∈ w, Text.isBlank c = false) {d : Char} (hd : Text.isBlank d = false)
    (s : List Char) : extendsPart? (w ++ d :: s) = none := by
  have hbehind : (w ++ d :: s).dropWhile Text.isBlank = w ++ d :: s := by
    cases w with
    | nil => simp [hd]
    | cons c w => simp [hw c List.mem_cons_self]
  cases hafter : Text.after? "extends".toList (w ++ d :: s) with
  | none =>
    simp only [extendsPart?, hbehind, hafter]
    rfl
  | some behind =>
    obtain ⟨_, rfl⟩ := List.append_inj (Text.after?_eq_some_iff.1 hafter) hlength
    simp only [extendsPart?, hbehind, hafter, bind, Option.bind_some, List.takeWhile_cons, hd]
    rfl

/-- **An interface with another character in its name is not found.** -/
theorem plainInterface_of_not_word (hname : IsName name)
    (hword : ∃ c ∈ name, Text.isWordAscii c = false) (s : List Char) :
    plainInterface ("interface".toList ++ ' ' :: (name ++ s)) = none := by
  obtain ⟨w, d, x, hsplit, hw, hd⟩ : ∃ w d x, name = w ++ d :: x ∧
      (∀ c ∈ w, Text.isWordAscii c = true) ∧ Text.isWordAscii d = false := by
    obtain ⟨d, hd⟩ := Option.isSome_iff_exists.1
      (List.find?_isSome (p := fun c => !Text.isWordAscii c) |>.2 (by simpa using hword))
    obtain ⟨hnot, w, x, hsplit, hw⟩ := List.find?_eq_some_iff_append.1 hd
    exact ⟨w, d, x, hsplit, by simpa using hw, by simpa using hnot⟩
  have hdname : IsNameChar d := hname.2 d (by simp [hsplit])
  have htake : (name ++ s).takeWhile Text.isWordAscii = w := by
    rw [hsplit, List.append_assoc, List.cons_append, List.takeWhile_append_of_pos hw]
    simp [hd]
  have hlong : interfaceNamed? w.length (name ++ s) = none := by
    have hdrop : (name ++ s).drop w.length = d :: (x ++ s) := by simp [hsplit]
    have hde : d ≠ 'e' := by
      rintro rfl
      exact absurd hd (by decide)
    refine interfaceNamed?_eq_none ?_ ?_
    · rw [hdrop, extendsPart?_cons hdname.isBlank hde]
    · rw [hdrop, plainBlock?_cons hdname.isBlank hdname.2.1]
  have hshort : 0 < w.length - 7 → interfaceNamed? (w.length - 7) (name ++ s) = none := by
    intro hpos
    have hdrop : (name ++ s).drop (w.length - 7) = w.drop (w.length - 7) ++ d :: (x ++ s) := by
      rw [hsplit, List.append_assoc, List.cons_append, List.drop_append_of_le_length (Nat.sub_le ..)]
    have hlength : (w.drop (w.length - 7)).length = 7 := by
      rw [List.length_drop]
      omega
    have hlast : ∀ c ∈ w.drop (w.length - 7), Text.isBlank c = false := fun c hc =>
      isBlank_of_word (hw c (List.mem_of_mem_drop hc))
    refine interfaceNamed?_eq_none ?_ ?_
    · rw [hdrop, extendsPart?_append_cons hlength hlast hdname.isBlank]
    · obtain ⟨c, w', hcons⟩ := List.exists_cons_of_length_pos (by rw [hlength]; decide)
      have hcw : c ∈ w := List.mem_of_mem_drop (by rw [hcons]; exact List.mem_cons_self)
      rw [hdrop, hcons, List.cons_append]
      exact plainBlock?_cons (isBlank_of_word (hw c hcw)) (isNameChar_of_word (hw c hcw)).2.1 _
  obtain ⟨c, n, rfl, hc⟩ := hname.exists_cons
  rw [List.cons_append] at htake hlong hshort ⊢
  rw [plainInterface_keyword hc.isBlank, htake]
  dsimp only
  rw [hlong]
  split
  next => rfl
  next =>
    split
    next hpos => rw [hshort hpos]; rfl
    next => rfl

/-- A name stays where no blank and word follow. -/
theorem interfacesToTypes_name {stop : Char} (hname : ∀ c ∈ name, IsNameChar c)
    (hstop : stop ∉ "interface".toList) (s : List Char)
    (hbehind : Text.isBlank stop = false ∨
      ((stop :: s).dropWhile Text.isBlank).takeWhile Text.isWordAscii = []) :
    interfacesToTypes (name ++ stop :: s) = name ++ interfacesToTypes (stop :: s) := by
  induction name with
  | nil => rfl
  | cons c name ih =>
    have hnone : plainInterface (c :: name ++ stop :: s) = none := by
      simp only [plainInterface]
      rw [Text.after?_append_cons hstop]
      cases hafter : Text.after? "interface".toList (c :: name) with
      | none => rfl
      | some behind =>
        simp only [Option.map_some, bind, Option.bind_some]
        cases behind with
        | nil =>
          rcases hbehind with hbehind | hbehind
          · simp [Text.blanksBefore, hbehind]
          · simp only [Text.trimLeft, List.nil_append, hbehind]
            simp
        | cons d behind =>
          have hd : IsNameChar d := hname d <| by
            rw [Text.after?_eq_some_iff.1 hafter]
            exact List.mem_append_right _ List.mem_cons_self
          simp [Text.blanksBefore, hd.isBlank]
    have hcons : interfacesToTypes (c :: name ++ stop :: s) =
        c :: interfacesToTypes (name ++ stop :: s) := Text.replaceMatches_cons_of_none hnone
    rw [hcons, ih (List.forall_mem_cons.1 hname).2, List.cons_append]

/-- A text without the first letter of the keyword stays. -/
theorem interfacesToTypes_append_of_not_mem (ha : 'i' ∉ a) (s : List Char) :
    interfacesToTypes (a ++ s) = a ++ interfacesToTypes s := by
  refine Text.replaceMatches_append_of_none s fun x c y h => plainInterface_cons_of_ne ?_
  rintro rfl
  exact ha (h ▸ List.mem_append_right _ List.mem_cons_self)

/-- An interface whose name has word characters only becomes a type, up to the first brace that closes. -/
theorem interfacesToTypes_of_word (hname : IsName name)
    (hword : ∀ c ∈ name, Text.isWordAscii c = true) (hbody : '}' ∉ body) :
    interfacesToTypes ("interface".toList ++ ' ' :: (name ++ ' ' :: '{' :: (body ++ '}' :: rest))) =
      "type ".toList ++ name ++ " = \x7b".toList ++ (body ++ '}' :: interfacesToTypes rest) := by
  have hfound := @plainInterface_of_word name body rest hname hword hbody
  have hdrop : ("interface".toList ++ ' ' :: (name ++ ' ' :: '{' :: (body ++ '}' :: rest))).drop
      (10 + (name.length + (1 + body.length + 2))) = rest := by
    have hsplit : "interface".toList ++ ' ' :: (name ++ ' ' :: '{' :: (body ++ '}' :: rest)) =
        ("interface".toList ++ ' ' :: (name ++ ' ' :: '{' :: (body ++ ['}']))) ++ rest := by simp
    have hlength : ("interface".toList ++ ' ' :: (name ++ ' ' :: '{' :: (body ++ ['}']))).length =
        10 + (name.length + (1 + body.length + 2)) := by
      simp only [List.length_append, List.length_cons, List.length_nil, String.reduceToList]
      omega
    rw [hsplit, ← hlength, List.drop_left]
  rw [interfacesToTypes_of_some hfound, hdrop]
  simp

/-- **An exported interface stays one or becomes a type**, and its block is rewritten. -/
theorem exists_opening (hname : IsName name) {s : List Char} (hclose : '}' ∈ s) :
    ∃ opening y, Opens "export ".toList name opening ∧ RewrittenTo s y ∧
      interfacesToTypes ("export interface ".toList ++ name ++ " \x7b".toList ++ s) =
        opening ++ y := by
  have hsplit : "export interface ".toList ++ name ++ " \x7b".toList ++ s =
      "export ".toList ++ ("interface".toList ++ ' ' :: (name ++ ' ' :: '{' :: s)) := by simp
  obtain ⟨body, rest, rfl, hbody⟩ := List.eq_append_cons_of_mem hclose
  rw [hsplit, interfacesToTypes_append_of_not_mem (by decide)]
  by_cases hword : ∃ c ∈ name, Text.isWordAscii c = false
  · refine ⟨_, interfacesToTypes (body ++ '}' :: rest), Or.inl rfl, Or.inl rfl, ?_⟩
    have hnone := plainInterface_of_not_word hname hword (' ' :: '{' :: (body ++ '}' :: rest))
    have hcons : interfacesToTypes
        ("interface".toList ++ ' ' :: (name ++ ' ' :: '{' :: (body ++ '}' :: rest))) =
        'i' :: interfacesToTypes
          ("nterface ".toList ++ (name ++ ' ' :: '{' :: (body ++ '}' :: rest))) :=
      Text.replaceMatches_cons_of_none hnone
    have htail : interfacesToTypes
        ("nterface ".toList ++ (name ++ ' ' :: '{' :: (body ++ '}' :: rest))) =
        "nterface ".toList ++ interfacesToTypes (name ++ ' ' :: '{' :: (body ++ '}' :: rest)) :=
      interfacesToTypes_append_of_not_mem (by decide) _
    have hword : ((' ' :: '{' :: (body ++ '}' :: rest)).dropWhile Text.isBlank).takeWhile
        Text.isWordAscii = [] := by
      simp [show Text.isBlank ' ' = true by decide, show Text.isBlank '{' = false by decide,
        show Text.isWordAscii '{' = false by decide]
    rw [hcons, htail, interfacesToTypes_name hname.2 (by decide) _ (Or.inr hword),
      interfacesToTypes_cons_of_ne (by decide), interfacesToTypes_cons_of_ne (by decide)]
    simp
  · have hall : ∀ c ∈ name, Text.isWordAscii c = true := fun c hc => by
      simpa using fun h => hword ⟨c, hc, h⟩
    refine ⟨_, body ++ '}' :: interfacesToTypes rest, Or.inr rfl,
      Or.inr ⟨body, rest, hbody, rfl, rfl⟩, ?_⟩
    rw [interfacesToTypes_of_word hname hall hbody]
    simp

/-! ### Dividers -/

theorem prefix_of_not_mem {p : List Char} {c : Char} (hc : c ∉ p) (h : p <+: a ++ c :: b) :
    p <+: a := by
  obtain ⟨r, hr⟩ := h
  rcases List.append_eq_append_iff.1 hr with ⟨x, rfl, _⟩ | ⟨x, rfl, hx⟩
  · exact ⟨x, rfl⟩
  · cases x with
    | nil => exact ⟨[], by simp⟩
    | cons d x =>
      cases hx
      exact absurd (List.mem_append_right _ List.mem_cons_self) hc

theorem eq_of_append_cons_eq {c : Char} {x y : List Char} (ha : c ∉ a) (hb : c ∉ b)
    (h : a ++ c :: x = b ++ c :: y) : a = b ∧ x = y := by
  obtain ⟨s, hs⟩ := prefix_of_not_mem ha ⟨c :: x, h⟩
  obtain ⟨t, ht⟩ := prefix_of_not_mem hb ⟨c :: y, h.symm⟩
  have hlength := congrArg List.length hs
  have hlength' := congrArg List.length ht
  rw [List.length_append] at hlength hlength'
  obtain ⟨hab, hxy⟩ := List.append_inj h (by omega)
  exact ⟨hab, (List.cons.inj hxy).2⟩

/-- A match in front of a divider is over there or has the divider in its block. -/
theorem InterfaceAt.divide {c : Char} {d : List Char} (hhead : ¬ IsHeadChar c) (hopen : c ≠ '{')
    (hclose : '}' ∉ c :: d) (hat : InterfaceAt (a ++ (c :: d ++ b)) t n head name body rest) :
    (∃ a', a = "interface".toList ++ head ++ '{' :: (body ++ '}' :: a') ∧
        rest = a' ++ (c :: d ++ b)) ∨
      ∃ a' b', a = "interface".toList ++ head ++ '{' :: a' ∧ body = a' ++ (c :: d ++ b') ∧
        b = b' ++ '}' :: rest := by
  have hkeyword : ∀ c ∈ "interface".toList, Text.isWordAscii c = true :=
    List.all_eq_true.1 (by decide)
  have hnot : c ∉ "interface".toList ++ head ++ ['{'] := by
    simp only [List.mem_append, List.mem_singleton, not_or]
    exact ⟨⟨fun h => hhead (Or.inl (hkeyword c h)), fun h => hhead (hat.headChar c h)⟩, hopen⟩
  have htext : a ++ c :: (d ++ b) =
      ("interface".toList ++ head ++ ['{']) ++ (body ++ '}' :: rest) := by
    rw [← List.cons_append, hat.text]
    simp
  obtain ⟨a', rfl⟩ := prefix_of_not_mem hnot ⟨_, htext.symm⟩
  have hrest : a' ++ (c :: d ++ b) = body ++ '}' :: rest := by
    rw [List.append_assoc] at htext
    exact List.append_cancel_left htext
  by_cases hmem : '}' ∈ a'
  · obtain ⟨body', a'', rfl, hbody'⟩ := List.eq_append_cons_of_mem hmem
    rw [List.append_assoc, List.cons_append] at hrest
    obtain ⟨rfl, rfl⟩ := eq_of_append_cons_eq hbody' hat.plain hrest
    exact Or.inl ⟨a'', by simp, rfl⟩
  · obtain ⟨b', rfl⟩ := prefix_of_not_mem (p := a' ++ c :: d) (a := body) (b := rest)
      (fun h => (List.mem_append.1 h).elim hmem hclose) ⟨b, by rw [← hrest]; simp⟩
    refine Or.inr ⟨a', b', by simp, by simp, ?_⟩
    rw [← List.append_assoc, List.append_assoc _ b'] at hrest
    exact List.append_cancel_left hrest

/-- What is written for a match has the characters of its name and block, and few others. -/
theorem mem_of_mem_type {e : Char} (hname : name ⊆ head) (hhead : e ∈ head → e ∈ a)
    (hbody : e ∈ body → e ∈ a)
    (h : e ∈ "type ".toList ++ name ++ " = \x7b".toList ++ body ++ ['}']) :
    e ∈ a ++ "type = \x7b\x7d".toList := by
  have hsubset : "type ".toList ++ " = \x7b".toList ++ ['}'] ⊆ "type = \x7b\x7d".toList := by decide
  have htype := @hsubset e
  simp only [List.mem_append] at h htype ⊢
  rcases h with (((h | h) | h) | h) | h
  · exact Or.inr (htype (Or.inl (Or.inl h)))
  · exact Or.inl (hhead (hname h))
  · exact Or.inr (htype (Or.inl (Or.inr h)))
  · exact Or.inl (hbody h)
  · exact Or.inr (htype (Or.inr h))

/-- **A text that stays by itself also stays between others**, if it begins with a character that
is in front of no brace of an interface. -/
theorem exists_of_divider {c : Char} {d : List Char} (hhead : ¬ IsHeadChar c) (hopen : c ≠ '{')
    (hclose : '}' ∉ c :: d) (hkeep : interfacesToTypes (c :: d ++ b) = c :: d ++ interfacesToTypes b)
    (a : List Char) :
    ∃ x y, interfacesToTypes (a ++ (c :: d ++ b)) = x ++ (c :: d ++ y) ∧ RewrittenTo b y ∧
      x ⊆ a ++ "type = \x7b\x7d".toList := by
  cases a with
  | nil => exact ⟨[], interfacesToTypes b, hkeep, Or.inl rfl, List.nil_subset _⟩
  | cons e a =>
    cases hfound : plainInterface (e :: a ++ (c :: d ++ b)) with
    | none =>
      obtain ⟨x, y, hxy, hy, hx⟩ := exists_of_divider hhead hopen hclose hkeep a
      refine ⟨e :: x, y, ?_, hy, List.cons_subset_cons e hx⟩
      show interfacesToTypes (e :: (a ++ (c :: d ++ b))) = e :: (x ++ (c :: d ++ y))
      rw [← hxy]
      exact Text.replaceMatches_cons_of_none hfound
    | some p =>
      obtain ⟨t, n⟩ := p
      obtain ⟨head, name, body, rest, hat⟩ := exists_of_plainInterface hfound
      have hname := hat.named.subset
      rw [interfacesToTypes_of_some hfound, hat.drop, hat.type]
      rcases hat.divide hhead hopen hclose with ⟨a', ha', rfl⟩ | ⟨a', b', ha', rfl, rfl⟩
      · have hshort : a'.length < (e :: a).length := by
          rw [ha']
          simp only [List.length_append, List.length_cons]
          omega
        obtain ⟨x, y, hxy, hy, hx⟩ := exists_of_divider hhead hopen hclose hkeep a'
        refine ⟨"type ".toList ++ name ++ " = \x7b".toList ++ body ++ ['}'] ++ x, y, ?_, hy, ?_⟩
        · rw [hxy, List.append_assoc _ x]
        · rw [ha']
          intro e' he'
          rcases List.mem_append.1 he' with he' | he'
          · exact mem_of_mem_type hname (fun h => by simp [h]) (fun h => by simp [h]) he'
          · rcases List.mem_append.1 (hx he') with he' | he'
            · exact List.mem_append_left _ (by simp [he'])
            · exact List.mem_append_right _ he'
      · refine ⟨"type ".toList ++ name ++ " = \x7b".toList ++ a', b' ++ '}' :: interfacesToTypes rest,
          by simp, Or.inr ⟨b', rest, ?_, rfl, rfl⟩, ?_⟩
        · exact fun h => hat.plain (List.mem_append_right _ (List.mem_append_right _ h))
        · rw [ha']
          intro e' he'
          have hbody : e' ∈ a' → e' ∈ "interface".toList ++ head ++ '{' :: a' := fun h => by simp [h]
          exact mem_of_mem_type hname (fun h => by simp [h]) hbody (List.mem_append_left _ he')
termination_by a.length
decreasing_by
  · simp
  · exact hshort

/-! ### Pieces -/

theorem interfacesToTypes_of_not_mem (ha : 'i' ∉ a) : interfacesToTypes a = a := by
  have := interfacesToTypes_append_of_not_mem ha []
  simpa [interfacesToTypes, Text.replaceMatches, Text.replaceMatchesFrom] using this

/-- Is the text over with a block? -/
def Closed (s : List Char) : Prop := ∃ a b, s = a ++ '}' :: b ∧ 'i' ∉ b

theorem interfacesToTypes_append (h : Closed s) (rest : List Char) :
    interfacesToTypes (s ++ rest) = interfacesToTypes s ++ interfacesToTypes rest := by
  obtain ⟨a, b, rfl, hb⟩ := h
  rw [List.append_assoc, List.cons_append, interfacesToTypes_append_close,
    interfacesToTypes_append_close a b, interfacesToTypes_append_of_not_mem hb,
    interfacesToTypes_of_not_mem hb, List.append_assoc]

/-- **Texts that end in a block are rewritten one by one.** -/
theorem interfacesToTypes_flatten : ∀ {texts : List (List Char)}, (∀ s ∈ texts, Closed s) →
    ∀ rest, interfacesToTypes (texts.flatten ++ rest) =
      (texts.map interfacesToTypes).flatten ++ interfacesToTypes rest
  | [], _, _ => rfl
  | s :: texts, h, rest => by
    obtain ⟨hs, htexts⟩ := List.forall_mem_cons.1 h
    rw [List.flatten_cons, List.append_assoc, interfacesToTypes_append hs,
      interfacesToTypes_flatten htexts, List.map_cons, List.flatten_cons, List.append_assoc]

end rewrite

end Declaration

end ClientBuild
