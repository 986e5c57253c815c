import ClientBuild.Proofs.Markup.Pieces

/-!
# Names in literals

The pattern for keys does not stop at the end of a string: behind a comma it goes on to the next string with a colon
behind it.  So the names of an expression are those of its strings if every string is arranged so that this does not
happen (`Arranged`): none of them is missed (`mem_dynamicNames`), and what is found besides them is a colon
(`eq_of_mem_dynamicNames`).
-/

namespace ClientBuild.Markup

open Text (Pattern isBlank)

variable {f : List Char → List Char} {ps : List Piece} {ss : List Shape} {x t b b' n : List Char} {c q : Char}

/-! ## Where a character stands -/

/-- An outsider stands in a string, or is the bracket at the end. -/
theorem exists_quoted {d : Char} (hd : d ∈ outsiders) (hne : d ≠ ']') : ∀ {ps : List Piece} {x t : List Char},
    (∀ p ∈ ps, p.IsSound) → textOf f ps ++ [']'] = x ++ d :: t →
      ∃ front p back y z, ps = front ++ p :: back ∧ p.quoted f = y ++ d :: z ∧
        x = textOf f front ++ (p.front ++ y) ∧ t = z ++ (p.outer ++ (textOf f back ++ [']']))
  | [], x, t, _, h => by
    cases x with
    | nil => exact absurd (List.cons.inj h).1.symm hne
    | cons e x =>
      have hlength := congrArg List.length h
      simp [textOf] at hlength
  | p :: ps, x, t, hps, h => by
    obtain ⟨hp, hrest⟩ := List.forall_mem_cons.1 hps
    rw [textOf_cons, Piece.text, List.append_assoc, List.append_assoc, List.append_assoc] at h
    obtain ⟨w, rfl, hw⟩ := Text.exists_of_append_eq_right h (hp.not_mem_front hd)
    rcases Text.append_eq_append_cons hw with ⟨v, hquoted, rfl⟩ | ⟨v, rfl, hv⟩
    · exact ⟨[], p, ps, w, v, rfl, hquoted, by simp [textOf], rfl⟩
    · obtain ⟨u, rfl, hu⟩ := Text.exists_of_append_eq_right hv (not_mem_blanks hp.outer hd)
      obtain ⟨front, p', back, y, z, rfl, hfound, rfl, rfl⟩ := exists_quoted hd hne hrest hu
      refine ⟨p :: front, p', back, y, z, rfl, hfound, ?_, rfl⟩
      simp only [textOf_cons, Piece.text, List.append_assoc]

theorem isPlainChar_of_isStringQuote (hq : isStringQuote q = true) : isPlainChar q = false := by
  rw [isStringQuote, Bool.or_eq_true, beq_iff_eq, beq_iff_eq] at hq
  rcases hq with rfl | rfl <;> decide

theorem noQuotes_of_plain {v : List Char} (hv : ∀ d ∈ v, isPlainChar d = true) : NoQuotes v := fun d hd => by
  cases hquote : isStringQuote d with
  | false => rfl
  | true =>
    have hyes := hv d hd
    rw [isPlainChar_of_isStringQuote hquote] at hyes
    cases hyes

theorem mem_outsiders_of_isStringQuote (hq : isStringQuote q = true) : q ∈ outsiders ∧ q ≠ ']' := by
  rw [isStringQuote, Bool.or_eq_true, beq_iff_eq, beq_iff_eq] at hq
  rcases hq with rfl | rfl <;> decide

theorem Piece.IsSound.isBoundName {p : Piece} (h : p.IsSound) : ∀ n ∈ p.shape.name?, IsBoundName n := by
  obtain ⟨shape, b, b'⟩ := p
  cases shape with
  | token x => exact fun n hn => by cases hn
  | string c q n =>
    intro m hm
    cases hm
    exact h.shape.2.2

theorem noQuotes_id {p : Piece} (h : p.IsSound) : ∀ n ∈ p.shape.name?, NoQuotes (id n) := fun n hn c hc =>
  ((h.isBoundName n hn).noQuotes c hc).2

/-- A quote opens or closes the string of a piece. -/
theorem exists_quote {p : Piece} {y z : List Char} (hf : ∀ n ∈ p.shape.name?, NoQuotes (f n))
    (hq : isStringQuote q = true) (h : p.quoted f = y ++ q :: z) : ∃ c n b b', p = ⟨.string c q n, b, b'⟩ ∧
      (y = [] ∧ z = f n ++ [q] ∨ y = q :: f n ∧ z = []) := by
  obtain ⟨shape, b, b'⟩ := p
  cases shape with
  | token x =>
    have hnil : y ++ q :: z = [] := h.symm
    simp at hnil
  | string c r n =>
    have h : r :: (f n ++ [r]) = y ++ q :: z := h
    cases y with
    | nil =>
      obtain ⟨rfl, rfl⟩ := List.cons.inj h
      exact ⟨c, n, b, b', rfl, Or.inl ⟨rfl, rfl⟩⟩
    | cons d y =>
      obtain ⟨rfl, hname⟩ := List.cons.inj h
      have hn : q ∉ f n := fun hmem => by
        have hnot := hf n rfl q hmem
        rw [hq] at hnot
        cases hnot
      obtain ⟨w, rfl, hw⟩ := Text.exists_of_append_eq_right hname hn
      cases w with
      | nil =>
        obtain ⟨rfl, rfl⟩ := List.cons.inj hw
        exact ⟨c, n, b, b', rfl, Or.inr ⟨by simp, rfl⟩⟩
      | cons e w => cases w <;> cases hw

/-- Another outsider stands in the name of a piece. -/
theorem exists_name {p : Piece} {d : Char} {y z : List Char} (hp : p.IsSound) (hd : isStringQuote d = false)
    (h : p.quoted f = y ++ d :: z) :
    ∃ c q n b b' u v, p = ⟨.string c q n, b, b'⟩ ∧ f n = u ++ d :: v ∧ z = v ++ [q] := by
  obtain ⟨shape, b, b'⟩ := p
  cases shape with
  | token x =>
    have hnil : y ++ d :: z = [] := h.symm
    simp at hnil
  | string c q n =>
    have hne : d ≠ q := by
      rintro rfl
      rw [hp.shape.2.1] at hd
      cases hd
    obtain ⟨w, -, hw⟩ := Text.exists_of_append_eq_right (a := [q]) h (by simpa using hne)
    obtain ⟨v, hv, hz⟩ := Text.exists_of_append_eq hw (by simpa using hne)
    exact ⟨c, q, n, b, b', w, v, rfl, hv, hz⟩

/-! ## Arrangement -/

/-- Does an element end here? -/
def Closes (ss : List Shape) : Prop := opening ss ∈ [']', ',', '}']

/-- What may stand behind a string: the end of the element, another branch, or a value. -/
def Follows (ss : List Shape) : Prop :=
  Closes ss ∨ (∃ q n ss', ss = .string ':' q n :: ss') ∨ ∃ w ss', ss = .token [':'] :: .token w :: ss' ∧ Closes ss'

/-- A colon stands in front that belongs to an entry. -/
def IsEntry (ss : List Shape) : Prop := ∃ ss', ss = .token [':'] :: ss'

/-- No string has a colon behind it. -/
def NoColon : List Shape → Prop
  | [] => True
  | .token _ :: ss => NoColon ss
  | .string _ _ _ :: ss => opening ss ≠ ':' ∧ NoColon ss

/-- What is behind a string: behind a brace it is a key, and behind a comma it is a key, or neither it nor a string
behind it has a colon behind it. -/
structure Fits (c : Char) (ss : List Shape) : Prop where
  follows : Follows ss
  key : c = '{' → IsEntry ss
  element : c = ',' → IsEntry ss ∨ opening ss ≠ ':' ∧ NoColon ss

/-- Every string fits what is behind it. -/
def Arranged : List Shape → Prop
  | [] => True
  | .token _ :: ss => Arranged ss
  | .string c _ _ :: ss => Fits c ss ∧ Arranged ss

theorem Arranged.fits : ∀ {front ss : List Shape}, Arranged (front ++ .string c q n :: ss) → Fits c ss
  | [], _, h => h.1
  | .token _ :: front, ss, h => have h : Arranged (front ++ .string c q n :: ss) := h; h.fits
  | .string _ _ _ :: _, _, h => Arranged.fits h.2

theorem NoColon.opening_ne : ∀ {front ss : List Shape}, NoColon (front ++ .string c q n :: ss) → opening ss ≠ ':'
  | [], _, h => h.1
  | .token _ :: front, ss, h => have h : NoColon (front ++ .string c q n :: ss) := h; h.opening_ne
  | .string _ _ _ :: _, _, h => NoColon.opening_ne h.2

/-! ## Plain strings

A string of plain names is read between any two quotes, so also between the end of one string and the start of the next
one.  There stands a sign, and the only sign among the plain characters is the colon.
-/

theorem textOf_append (front back : List Piece) : textOf f (front ++ back) = textOf f front ++ textOf f back :=
  List.flatMap_append

section Front

variable {front back : List Piece} {p : Piece}

/-- Where an element ends, there are not only plain characters up to a string. -/
theorem Closes.not_plain (h : Closes ((front ++ p :: back).map Piece.shape))
    (hps : ∀ r ∈ front ++ p :: back, r.IsSound) :
    ¬ ∀ c ∈ textOf f front ++ p.front, isPlainChar c = true := by
  intro hplain
  obtain ⟨d, r, hopening, htext, -⟩ := exists_textOf_eq (f := f) hps
  obtain ⟨e, u, -, hfront, -⟩ := (hps p (List.mem_append_right _ List.mem_cons_self)).exists_front
  have hsplit : textOf f (front ++ p :: back) ++ [']'] =
      (textOf f front ++ p.front) ++ (p.quoted f ++ (p.outer ++ (textOf f back ++ [']']))) := by
    simp [textOf_append, textOf_cons, Piece.text]
  have hmem : d ∈ textOf f front ++ p.front := by
    rw [hsplit] at htext
    cases hx : textOf f front ++ p.front with
    | nil =>
      rw [hfront] at hx
      simp at hx
    | cons c x =>
      rw [hx] at htext
      exact (List.cons.inj htext).1 ▸ List.mem_cons_self
  have hnot : ∀ c ∈ [']', ',', '}'], isPlainChar c = false := by decide
  have hyes := hplain d hmem
  rw [Closes, hopening] at h
  rw [hnot d h] at hyes
  cases hyes

/-- Plain characters lead from a string to another one if this is the next. -/
theorem Follows.front_eq_nil (h : Follows ((front ++ p :: back).map Piece.shape)) (hp : p.shape.name?.isSome)
    (hps : ∀ r ∈ front ++ p :: back, r.IsSound) (hplain : ∀ c ∈ textOf id front ++ p.front, isPlainChar c = true) :
    front = [] := by
  rcases h with hcloses | ⟨q, n, ss, hss⟩ | ⟨w, ss, hss, hcloses⟩
  · exact absurd hplain (hcloses.not_plain hps)
  · cases front with
    | nil => rfl
    | cons p' front =>
      obtain ⟨hp', -⟩ := hps p' List.mem_cons_self
      obtain ⟨shape, b, b'⟩ := p'
      obtain ⟨rfl, -⟩ := List.cons.inj hss
      have hyes := hplain q (by simp [textOf_cons, Piece.text, Piece.quoted])
      rw [isPlainChar_of_isStringQuote hp'.2.1] at hyes
      cases hyes
  · rcases front with _ | ⟨p', _ | ⟨p'', front⟩⟩
    · rfl
    · rw [(List.cons.inj (List.cons.inj hss).2).1] at hp
      cases hp
    · rw [← (List.cons.inj (List.cons.inj hss).2).2] at hcloses
      refine absurd (fun c hc => hplain c ?_) (hcloses.not_plain (f := id) fun r hr => hps r ?_)
      · rw [textOf_cons, textOf_cons, List.append_assoc, List.append_assoc]
        exact List.mem_append_right _ (List.mem_append_right _ hc)
      · exact List.mem_cons_of_mem _ (List.mem_cons_of_mem _ hr)

end Front

/-- Plain characters between two strings are a colon and blanks. -/
theorem eq_colon_of_plain (hps : ∀ p ∈ ps, p.IsSound) (hfollows : Follows (ps.map Piece.shape))
    (hx : ∀ c ∈ x, isPlainChar c = true) (hq : isStringQuote q = true) (ht : textOf id ps ++ [']'] = x ++ q :: t) :
    ∃ b, x = ':' :: b ∧ ∀ c ∈ b, isBlank c = true := by
  obtain ⟨hout, hne⟩ := mem_outsiders_of_isStringQuote hq
  obtain ⟨front, p, back, y, z, rfl, hquoted, rfl, -⟩ := exists_quoted hout hne hps ht
  have hp := hps p (List.mem_append_right _ List.mem_cons_self)
  obtain ⟨c, n, b, b', rfl, hy⟩ := exists_quote (noQuotes_id hp) hq hquoted
  rw [← List.append_assoc] at hx ⊢
  have hnil : y = [] := by
    rcases hy with ⟨hnil, -⟩ | ⟨rfl, -⟩
    · exact hnil
    · have hyes := hx q (List.mem_append_right _ List.mem_cons_self)
      rw [isPlainChar_of_isStringQuote hq] at hyes
      cases hyes
  rw [hnil, List.append_nil] at hx ⊢
  have hc : c = ':' := by
    have hleads : ∀ c ∈ leads, isPlainChar c = true → c = ':' := by decide
    exact hleads c hp.shape.1 (hx c (List.mem_append_right _ List.mem_cons_self))
  rw [hfollows.front_eq_nil rfl hps hx, hc]
  exact ⟨b, rfl, hp.inner⟩

theorem plainString?_eq_some {s v : List Char} {k : Nat} (h : plainString? s = some (v, k)) :
    ∃ q c u, s = q :: (v ++ c :: u) ∧ isStringQuote q = true ∧ isStringQuote c = true ∧
      ∀ d ∈ v, isPlainChar d = true := by
  simp only [plainString?] at h
  split at h
  next q t =>
    split at h
    next hq =>
      split at h
      next c u hdrop =>
        split at h
        next hc =>
          cases h
          rw [Bool.and_eq_true] at hc
          refine ⟨q, c, u, ?_, hq, hc.1, fun d hd => List.all_eq_true.1 List.all_takeWhile d hd⟩
          rw [← hdrop, List.takeWhile_append_dropWhile]
        next => cases h
      next => cases h
    next => cases h
  next => cases h

/-- What is found between two quotes is a name, or a colon where the first quote closes a string. -/
theorem mem_plainNames (hps : ∀ p ∈ ps, p.IsSound) (harranged : Arranged (ps.map Piece.shape)) {w : List Char}
    (hw : w ∈ plainNames (textOf id ps ++ [']'])) : w ∈ namesOf ps ∨ w = [':'] := by
  obtain ⟨v, hv, hword⟩ := List.mem_flatMap.1 hw
  obtain ⟨x, rest, k, htext, hrest⟩ := Text.exists_of_mem_findAll hv
  obtain ⟨q, c, u, rfl, hq, hc, hplain⟩ := plainString?_eq_some hrest
  obtain ⟨hout, hne⟩ := mem_outsiders_of_isStringQuote hq
  obtain ⟨front, p, back, y, z, rfl, hquoted, -, ht⟩ := exists_quoted hout hne hps htext
  have hp := hps p (List.mem_append_right _ List.mem_cons_self)
  obtain ⟨e, n, b, b', rfl, hy⟩ := exists_quote (noQuotes_id hp) hq hquoted
  rcases hy with ⟨-, rfl⟩ | ⟨-, rfl⟩
  · -- The first quote opens a string, so this is read.
    left
    have hname : n ++ q :: (b' ++ (textOf id back ++ [']'])) = v ++ c :: u := by simp [ht]
    have hn : NoQuotes n := noQuotes_id hp n rfl
    obtain ⟨rfl, -⟩ := hn.append_inj (noQuotes_of_plain hplain) hq hc hname
    rw [Text.words_of_forall (fun d hd => (hp.shape.2.2.noQuotes d hd).1) hp.shape.2.2.nonempty, List.mem_singleton]
      at hword
    rw [hword]
    exact List.mem_filterMap.2 ⟨_, List.mem_append_right _ List.mem_cons_self, rfl⟩
  · -- The first quote closes a string, so what stands behind it is read.
    right
    have hback : ∀ r ∈ back, r.IsSound := fun r hr => hps r (List.mem_append_right _ (List.mem_cons_of_mem _ hr))
    have hfits : Fits e (back.map Piece.shape) := by
      rw [List.map_append, List.map_cons] at harranged
      exact harranged.fits
    have ht : b' ++ (textOf id back ++ [']']) = v ++ c :: u := ht.symm
    obtain ⟨i, rfl, hi⟩ := Text.exists_of_append_eq_right ht
      (not_mem_blanks hp.outer (mem_outsiders_of_isStringQuote hc).1)
    have hrest : ∀ d ∈ i, isPlainChar d = true := fun d hd => hplain d (List.mem_append_right b' hd)
    obtain ⟨o, rfl, ho⟩ := eq_colon_of_plain hback hfits.follows hrest hc hi
    have hcolon : Text.words [':'] = [[':']] := by decide
    rw [Text.words_append_of_blank hp.outer, ← List.singleton_append, Text.words_append_blanks ho, hcolon] at hword
    exact List.mem_singleton.1 hword

/-! ## Calls and template literals -/

/-- A call has a brace behind its parenthesis. -/
theorem callObject?_eq_some {s v : List Char} {k : Nat} (h : callObject? s = some (v, k)) :
    ∃ x b u, s = x ++ '(' :: (b ++ '{' :: u) ∧ ∀ c ∈ b, isBlank c = true := by
  simp only [callObject?] at h
  split at h
  next => cases h
  next =>
    split at h
    next t ht =>
      split at h
      next u hu =>
        obtain ⟨i, hi, -⟩ := Text.exists_trimLeft_eq ht
        obtain ⟨b, hb, hblank⟩ := Text.exists_trimLeft_eq hu
        refine ⟨s.takeWhile Text.isWordAscii ++ i, b, u, ?_, hblank⟩
        rw [← hb, List.append_assoc, ← hi, List.takeWhile_append_dropWhile]
      next => cases h
    next => cases h

/-- Behind a parenthesis in a name there is no brace: the name has none there, and the quote that closes it is in the
way. -/
theorem ne_of_not_call {m r v u : List Char} (hr : ∀ c ∈ r, isBlank c = false)
    (hcall : ¬ "(\x7b".toList <:+: m ++ '(' :: r) (hq : isStringQuote q = true) (hb : ∀ c ∈ b, isBlank c = true) :
    r ++ q :: v ≠ b ++ '\x7b' :: u := by
  intro h
  have hfirst : ∃ e s, r ++ q :: v = e :: s ∧ isBlank e = false ∧ (e = '\x7b' → ['\x7b'] <+: r) := by
    cases r with
    | nil =>
      refine ⟨q, v, rfl, isBlank_quote hq, ?_⟩
      rintro rfl
      exact absurd hq (by decide)
    | cons e r =>
      refine ⟨e, r ++ q :: v, rfl, hr e List.mem_cons_self, ?_⟩
      rintro rfl
      exact List.prefix_append _ r
  obtain ⟨e, s, hs, hblank, hbrace⟩ := hfirst
  rw [hs] at h
  cases b with
  | nil =>
    obtain ⟨r', rfl⟩ := hbrace (List.cons.inj h).1
    exact hcall ⟨m, r', by simp⟩
  | cons b' b =>
    rw [(List.cons.inj h).1, hb b' List.mem_cons_self] at hblank
    cases hblank

theorem findAll_callObject? (hps : ∀ p ∈ ps, p.IsSound) : Text.findAll callObject? (textOf id ps ++ [']']) = [] := by
  refine Text.findAll_eq_nil fun x c y hsplit => Option.eq_none_iff_forall_ne_some.2 fun ⟨v, k⟩ hcall => ?_
  obtain ⟨w, b, u, hy, hb⟩ := callObject?_eq_some hcall
  rw [hy, ← List.append_assoc] at hsplit
  obtain ⟨front, p, back, i, z, rfl, hquoted, -, ht⟩ := exists_quoted (by decide) (by decide) hps hsplit
  have hp := hps p (List.mem_append_right _ List.mem_cons_self)
  obtain ⟨d, q, n, o, o', m, r, rfl, hn, rfl⟩ := exists_name hp (by decide) hquoted
  have hname : IsBoundName n := hp.shape.2.2
  have hn : n = m ++ '(' :: r := hn
  have hr : ∀ e ∈ r, isBlank e = false := fun e he =>
    (hname.plain e (hn ▸ List.mem_append_right m (List.mem_cons_of_mem _ he))).1
  rw [List.append_assoc, List.singleton_append] at ht
  exact ne_of_not_call hr (hn ▸ hname.call) hp.shape.2.1 hb ht.symm

theorem backtick_not_mem (hps : ∀ p ∈ ps, p.IsSound) : '\x60' ∉ textOf id ps ++ [']'] := by
  intro hmem
  obtain ⟨x, t, hsplit⟩ := List.append_of_mem hmem
  obtain ⟨front, p, back, y, z, rfl, hquoted, -, -⟩ := exists_quoted (by decide) (by decide) hps hsplit
  have hp := hps p (List.mem_append_right _ List.mem_cons_self)
  obtain ⟨d, q, n, b, b', u, v, rfl, hn, -⟩ := exists_name hp (by decide) hquoted
  have hname : '\x60' ∈ n := show _ ∈ id n from hn ▸ List.mem_append_right u List.mem_cons_self
  exact absurd (hp.shape.2.2.plain _ hname).2.1 (by decide)

theorem findAll_templateLiteral? {s : List Char} (hs : '\x60' ∉ s) :
    Text.findAll templateLiteral? s = [] ∧ Text.findAll trailingNames? s = [] := by
  have hnone : ∀ x c y, s = x ++ c :: y → templateLiteral? (c :: y) = none := by
    rintro x c y rfl
    rw [templateLiteral?.eq_def]
    split
    next heq =>
      cases heq
      exact absurd (List.mem_append_right x List.mem_cons_self) hs
    next => rfl
  refine ⟨Text.findAll_eq_nil hnone, Text.findAll_eq_nil fun x c y hsplit => ?_⟩
  simp only [trailingNames?, hnone x c y hsplit]

/-! ## Keys

A key is read up to the first quote with a colon behind it.  At the opening quote of a string there is none, as no name
begins with a colon, so this is the quote that closes a string, if not the one that the key begins at, then one behind
it.
-/

theorem colonAhead?_append (hb : ∀ c ∈ b, isBlank c = true) {d : Char} (hd : isBlank d = false) (s : List Char) :
    colonAhead? (b ++ d :: s) = if d = ':' then some (b.length + 1) else none := by
  have htake : (b ++ d :: s).takeWhile isBlank = b := by
    rw [List.takeWhile_append_of_pos hb, List.takeWhile_cons_of_neg (by simp [hd]), List.append_nil]
  have hdrop : (b ++ d :: s).dropWhile isBlank = d :: s := by
    rw [List.dropWhile_append_of_pos hb, List.dropWhile_cons_of_neg (by simp [hd])]
  simp only [colonAhead?, htake, hdrop]
  split
  next heq =>
    cases heq
    rfl
  next hne => rw [if_neg fun heq => hne s (by rw [heq])]

theorem colonAhead?_of_ne {d : Char} (hd : isBlank d = false) (hne : d ≠ ':') (s : List Char) :
    colonAhead? (d :: s) = none := by
  have hahead := colonAhead?_append (b := []) (fun _ h => absurd h List.not_mem_nil) hd s
  rwa [if_neg hne] at hahead

theorem untilQuotedColon?_append (hn : NoQuotes n) (hq : isStringQuote q = true) {s : List Char} {k : Nat}
    (hs : colonAhead? s = some k) : untilQuotedColon? (n ++ q :: s) = some (n, n.length + k + 1) := by
  induction n with
  | nil => simp [untilQuotedColon?, hq, hs]
  | cons c n ih =>
    obtain ⟨hc, hn⟩ := List.forall_mem_cons.1 hn
    simp [untilQuotedColon?, hc, ih hn]
    omega

theorem untilQuotedColon?_cons_of_none {s : List Char} (hc : isStringQuote c = true → colonAhead? s = none)
    (hs : untilQuotedColon? s = none) : untilQuotedColon? (c :: s) = none := by
  have hhere : (if isStringQuote c then colonAhead? s else none) = none := by
    split
    next hquote => exact hc hquote
    next => rfl
  rw [untilQuotedColon?, hhere, hs]
  rfl

theorem untilQuotedColon?_eq_none {s : List Char}
    (h : ∀ x q t, s = x ++ q :: t → isStringQuote q = true → colonAhead? t = none) : untilQuotedColon? s = none := by
  induction s with
  | nil => rfl
  | cons c s ih =>
    have hrest := ih fun x q t hs hq => h (c :: x) q t (by rw [hs, List.cons_append]) hq
    exact untilQuotedColon?_cons_of_none (h [] c s rfl) hrest

/-- A colon is seen behind a string if the next piece begins with one. -/
theorem colonAhead?_textOf (hps : ∀ p ∈ ps, p.IsSound) (hb : ∀ c ∈ b, isBlank c = true) :
    colonAhead? (b ++ (textOf f ps ++ [']'])) =
      if opening (ps.map Piece.shape) = ':' then some (b.length + 1) else none := by
  obtain ⟨d, r, hopening, htext, hblank, -⟩ := exists_textOf_eq (f := f) hps
  rw [htext, colonAhead?_append hb hblank, hopening]

/-- No key is found where no string has a colon behind it. -/
theorem untilQuotedColon?_of_noColon (hps : ∀ p ∈ (⟨.string c q n, b, b'⟩ :: ps : List Piece), p.IsSound)
    (hcolon : NoColon (.string c q n :: ps.map Piece.shape)) :
    untilQuotedColon? (n ++ q :: (b' ++ (textOf id ps ++ [']']))) = none := by
  refine untilQuotedColon?_eq_none fun x r t hsplit hr => ?_
  obtain ⟨hout, hne⟩ := mem_outsiders_of_isStringQuote hr
  have htext : textOf id (⟨.string c q n, b, b'⟩ :: ps) ++ [']'] = (c :: (b ++ q :: x)) ++ r :: t := by
    rw [textOf_string, List.cons_append, List.append_assoc, List.cons_append, ← hsplit, id]
  obtain ⟨front, p, back, y, z, hsplits, hquoted, -, rfl⟩ := exists_quoted hout hne hps htext
  rw [hsplits] at hps
  have hp := hps p (List.mem_append_right _ List.mem_cons_self)
  obtain ⟨d, m, i, o, rfl, hy⟩ := exists_quote (noQuotes_id hp) hr hquoted
  rcases hy with ⟨-, rfl⟩ | ⟨-, rfl⟩
  · have hm : IsBoundName m := hp.shape.2.2
    obtain ⟨e, m, rfl⟩ := List.exists_cons_of_ne_nil hm.nonempty
    have he : e ≠ ':' := by
      rintro rfl
      exact hm.start rfl
    exact colonAhead?_of_ne (hm.noQuotes e List.mem_cons_self).1 he _
  · have hback : ∀ p ∈ back, p.IsSound := fun p hp => hps p (List.mem_append_right _ (List.mem_cons_of_mem _ hp))
    have hshapes : .string c q n :: ps.map Piece.shape =
        front.map Piece.shape ++ .string d r m :: back.map Piece.shape := by
      have := congrArg (List.map Piece.shape) hsplits
      rwa [List.map_append] at this
    rw [hshapes] at hcolon
    rw [List.nil_append, colonAhead?_textOf hback hp.outer, if_neg hcolon.opening_ne]

/-- The strings that are keys. -/
def keysOf : List Piece → List (List Char)
  | [] => []
  | ⟨.token _, _, _⟩ :: ps => keysOf ps
  | ⟨.string c _ n, _, _⟩ :: ps =>
    (if (c = '\x7b' ∨ c = ',') ∧ opening (ps.map Piece.shape) = ':' then [n] else []) ++ keysOf ps

theorem opening_of_isEntry (h : IsEntry ss) : opening ss = ':' := by
  obtain ⟨ss, rfl⟩ := h
  rfl

/-- A string that is no key, and leads to none, is passed over. -/
theorem findAll_objectKey?_of_none (hps : ∀ p ∈ (⟨.string c q n, b, b'⟩ :: ps : List Piece), p.IsSound)
    (hnone : objectKey? (textOf id (⟨.string c q n, b, b'⟩ :: ps) ++ [']']) = none) :
    Text.findAll objectKey? (textOf id (⟨.string c q n, b, b'⟩ :: ps) ++ [']']) =
      Text.findAll objectKey? (textOf id ps ++ [']']) := by
  obtain ⟨hp, hrest⟩ := List.forall_mem_cons.1 hps
  obtain ⟨-, hq, hn⟩ := hp.shape
  have hlead {d : Char} (hd : d ∉ signs) : (d == '\x7b' || d == ',') = false := by
    rw [Bool.or_eq_false_iff, beq_eq_false_iff_ne, beq_eq_false_iff_ne]
    exact ⟨fun heq => hd (heq ▸ by decide), fun heq => hd (heq ▸ by decide)⟩
  have hapart {d : Char} (hd : isBlank d = true ∨ isStringQuote d = true) : d ∉ signs := fun hmem => by
    obtain ⟨hblank, hquote, -⟩ := apart_of_mem_signs hmem
    rw [hblank, hquote] at hd
    rcases hd with hd | hd <;> cases hd
  rw [textOf_string, id] at hnone ⊢
  have hblanks : b.any (fun d => d == '\x7b' || d == ',') = false :=
    List.any_eq_false.2 fun d hd => Bool.eq_false_iff.1 (hlead (hapart (Or.inl (hp.inner d hd))))
  rw [Text.findAll_cons_of_none hnone, objectKey?, findAll_string_of_not_lead (hlead (hapart (Or.inr hq))) hn.noQuotes
    (fun d hd => hlead (hn.stop d hd)) hblanks]
  exact findAll_of_noQuotes (begins_textOf hrest) (noQuotes_blanks hp.outer)

/-- A key is found, and the scan goes on behind its colon. -/
theorem findAll_objectKey?_cons (hc : c = '\x7b' ∨ c = ',') (hb : ∀ d ∈ b, isBlank d = true)
    (hq : isStringQuote q = true) (hn : NoQuotes n) (hb' : ∀ d ∈ b', isBlank d = true) (r : List Char) :
    Text.findAll objectKey? (c :: (b ++ q :: (n ++ q :: (b' ++ ':' :: r)))) = n :: Text.findAll objectKey? r := by
  have hahead := colonAhead?_append hb' (show isBlank ':' = false by decide) r
  rw [if_pos rfl] at hahead
  have hfound : objectKey? (c :: (b ++ q :: (n ++ q :: (b' ++ ':' :: r)))) =
      some (n, n.length + (b'.length + 1) + 1 + b.length + 2) := by
    rw [objectKey?, stringBehind?_string (by rcases hc with rfl | rfl <;> rfl) hb hq,
      untilQuotedColon?_append hn hq hahead, Option.map_some]
  have hends : c :: (b ++ q :: (n ++ q :: (b' ++ ':' :: r))) = (c :: (b ++ q :: (n ++ q :: (b' ++ [':'])))) ++ r := by
    simp
  have hsize : n.length + (b'.length + 1) + 1 + b.length + 2 =
      (c :: (b ++ q :: (n ++ q :: (b' ++ [':'])))).length := by
    simp only [List.length_cons, List.length_append, List.length_nil]
    omega
  rw [Text.findAll_of_some hfound (List.cons_ne_nil _ _), hsize, hends, List.drop_left]

theorem findAll_objectKey?_of_entry {i o : List Char} (hc : c = '\x7b' ∨ c = ',')
    (hps : ∀ p ∈ (⟨.string c q n, b, b'⟩ :: ⟨.token [':'], i, o⟩ :: ps : List Piece), p.IsSound) :
    Text.findAll objectKey? (textOf id (⟨.string c q n, b, b'⟩ :: ⟨.token [':'], i, o⟩ :: ps) ++ [']']) =
      n :: Text.findAll objectKey? (textOf id ps ++ [']']) := by
  obtain ⟨hp, hps⟩ := List.forall_mem_cons.1 hps
  obtain ⟨hcolon, hrest⟩ := List.forall_mem_cons.1 hps
  obtain ⟨-, hq, hn⟩ := hp.shape
  have hsplit : textOf id (⟨.string c q n, b, b'⟩ :: ⟨.token [':'], i, o⟩ :: ps) ++ [']'] =
      c :: (b ++ q :: (n ++ q :: (b' ++ ':' :: ((i ++ o) ++ (textOf id ps ++ [']']))))) := by
    rw [textOf_string]
    simp [textOf_cons, Piece.text, Piece.front, Piece.quoted]
  rw [hsplit, findAll_objectKey?_cons hc hp.inner hq (fun d hd => (hn.noQuotes d hd).2) hp.outer]
  exact congrArg (n :: ·) (findAll_of_noQuotes (begins_textOf hrest)
    ((noQuotes_blanks hcolon.inner).append (noQuotes_blanks hcolon.outer)))

/-- The keys are found, and nothing else. -/
theorem findAll_keys (hps : ∀ p ∈ ps, p.IsSound) (harranged : Arranged (ps.map Piece.shape)) :
    Text.findAll objectKey? (textOf id ps ++ [']']) = keysOf ps := by
  induction ps with
  | nil => rfl
  | cons p ps ih =>
    obtain ⟨hp, hrest⟩ := List.forall_mem_cons.1 hps
    obtain ⟨shape, b, b'⟩ := p
    cases shape with
    | token x => exact (findAll_token hps).trans (ih hrest harranged)
    | string c q n =>
      obtain ⟨hfits, harranged⟩ := harranged
      have ih := ih hrest harranged
      rw [keysOf]
      split
      next hkey =>
        have hentry : IsEntry (ps.map Piece.shape) := by
          rcases hkey with ⟨hbrace | hcomma, hcolon⟩
          · exact hfits.key hbrace
          · exact (hfits.element hcomma).resolve_right fun h => h.1 hcolon
        obtain ⟨ss, hss⟩ := hentry
        obtain ⟨⟨shape, i, o⟩, ps, rfl, rfl, -⟩ := List.map_eq_cons_iff.1 hss
        rw [findAll_objectKey?_of_entry hkey.1 hps, ← ih]
        exact congrArg (n :: ·) (findAll_token hrest).symm
      next hkey =>
        have hnone : objectKey? (textOf id (⟨.string c q n, b, b'⟩ :: ps) ++ [']']) = none := by
          rw [textOf_string, id]
          by_cases hc : c = '\x7b' ∨ c = ','
          · have hcolon : opening (ps.map Piece.shape) ≠ ':' := fun hcolon => hkey ⟨hc, hcolon⟩
            have hcomma : c = ',' := hc.resolve_left fun hbrace => hcolon (opening_of_isEntry (hfits.key hbrace))
            have hfree := (hfits.element hcomma).resolve_left fun hentry => hcolon (opening_of_isEntry hentry)
            rw [objectKey?, stringBehind?_string (by simp [hcomma]) hp.inner hp.shape.2.1,
              untilQuotedColon?_of_noColon hps hfree, Option.map_none]
          · exact stringBehind?_of_not_lead (by simpa using hc) _
        rw [findAll_objectKey?_of_none hps hnone, ih, List.nil_append]

/-! ## All names -/

theorem cleanName_of_forall (hne : n ≠ []) (hblank : ∀ c ∈ n, isBlank c = false) : cleanName n = [n] := by
  have hnot {d : Char} (hd : isBlank d = true) : n.contains d = false := by
    rw [Bool.eq_false_iff, ne_eq, List.contains_iff_mem]
    intro hmem
    rw [hblank d hmem] at hd
    cases hd
  simp only [cleanName, Text.trim_of_forall hblank, hnot (show isBlank '\n' = true by decide),
    hnot (show isBlank '\t' = true by decide), Bool.or_false, List.isEmpty_iff, if_neg hne]

/-- Names without blanks are clean. -/
theorem flatMap_cleanName {vs : List (List Char)} (h : ∀ v ∈ vs, v ≠ [] ∧ ∀ c ∈ v, isBlank c = false) :
    vs.flatMap cleanName = vs := by
  rw [List.flatMap_congr fun v hv => cleanName_of_forall (h v hv).1 (h v hv).2]
  exact List.flatMap_singleton' vs

theorem mem_namesOf {w : List Char} : w ∈ namesOf ps ↔ ∃ p ∈ ps, p.shape.name? = some w := List.mem_filterMap

theorem isBoundName_of_mem_namesOf (hps : ∀ p ∈ ps, p.IsSound) {w : List Char} (hw : w ∈ namesOf ps) :
    IsBoundName w := by
  obtain ⟨p, hp, hname⟩ := mem_namesOf.1 hw
  exact (hps p hp).isBoundName w hname

theorem keysOf_subset : ∀ ps : List Piece, keysOf ps ⊆ namesOf ps
  | [] => List.Subset.refl _
  | ⟨.token _, _, _⟩ :: ps => keysOf_subset ps
  | ⟨.string _ _ n, _, _⟩ :: ps => by
    rw [keysOf]
    refine List.append_subset.2 ⟨?_, fun w hw => List.mem_cons_of_mem n (keysOf_subset ps hw)⟩
    split
    next => exact List.cons_subset.2 ⟨List.mem_cons_self, List.nil_subset _⟩
    next => exact List.nil_subset _

/-- A string behind a brace is a key. -/
theorem mem_keysOf : ∀ (front back : List Piece),
    Arranged ((front ++ ⟨.string '\x7b' q n, b, b'⟩ :: back).map Piece.shape) →
      n ∈ keysOf (front ++ ⟨.string '\x7b' q n, b, b'⟩ :: back)
  | [], back, h => by
    rw [List.nil_append, keysOf, if_pos ⟨Or.inl rfl, opening_of_isEntry (h.1.key rfl)⟩]
    exact List.mem_append_left _ List.mem_cons_self
  | ⟨.token _, _, _⟩ :: front, back, h => mem_keysOf front back h
  | ⟨.string _ _ _, _, _⟩ :: front, back, h => List.mem_append_right _ (mem_keysOf front back h.2)

theorem found_subset (lead : Char → Bool) (ps : List Piece) : ps.flatMap (Piece.found lead) ⊆ namesOf ps := by
  intro w hw
  obtain ⟨⟨shape, b, b'⟩, hp, hw⟩ := List.mem_flatMap.1 hw
  cases shape with
  | token x => cases hw
  | string c q n =>
    rw [Piece.found] at hw
    split at hw
    next => exact mem_namesOf.2 ⟨_, hp, (List.mem_singleton.1 hw) ▸ rfl⟩
    next => cases hw

theorem arrayElements_textOf (hps : ∀ p ∈ ps, p.IsSound) :
    arrayElements (textOf id ps ++ [']']) =
      ps.flatMap (Piece.found fun c => c == ',' || c == '[' || isBlank c) := by
  have hfirst : stringBehindBlanks? untilQuote? (textOf id ps ++ [']']) = none :=
    stringBehindBlanks?_of_begins (begins_textOf hps) (x := []) fun _ h => absurd h List.not_mem_nil
  rw [arrayElements, hfirst]
  refine findAll_pieces (fun c hc => ?_) hps
  rw [Bool.or_eq_true, Bool.or_eq_true, beq_iff_eq, beq_iff_eq] at hc
  rcases hc with (rfl | rfl) | hc
  · exact Or.inr (by decide)
  · exact Or.inr (by decide)
  · exact Or.inl hc

theorem findAll_branches (hps : ∀ p ∈ ps, p.IsSound) :
    Text.findAll branch? (textOf id ps ++ [']']) = ps.flatMap (Piece.found fun c => c == '?' || c == ':') := by
  refine findAll_pieces (fun c hc => Or.inr ?_) hps
  rw [Bool.or_eq_true, beq_iff_eq, beq_iff_eq] at hc
  rcases hc with rfl | rfl <;> decide

theorem literalNames_textOf (hps : ∀ p ∈ ps, p.IsSound) (harranged : Arranged (ps.map Piece.shape)) :
    literalNames (textOf id ps ++ [']']) = keysOf ps ++
      ps.flatMap (Piece.found fun c => c == ',' || c == '[' || isBlank c) ++
      ps.flatMap (Piece.found fun c => c == '?' || c == ':') := by
  have hclean {vs : List (List Char)} (hvs : vs ⊆ namesOf ps) : vs.flatMap cleanName = vs :=
    flatMap_cleanName fun v hv =>
      have hname := isBoundName_of_mem_namesOf hps (hvs hv)
      ⟨hname.nonempty, fun c hc => (hname.plain c hc).1⟩
  rw [literalNames, findAll_callObject? hps, findAll_keys hps harranged, arrayElements_textOf hps, findAll_branches hps,
    List.flatMap_nil, List.nil_append, hclean (keysOf_subset ps), hclean (found_subset _ ps),
    hclean (found_subset _ ps)]

/-- Without template literals there are the names in literals and in plain strings. -/
theorem dynamicNames_of_not_mem {s : List Char} (hs : '\x60' ∉ s) :
    dynamicNames s = Text.distinct (literalNames s ++ plainNames s) := by
  obtain ⟨hliterals, htrailing⟩ := findAll_templateLiteral? hs
  rw [dynamicNames, hliterals, htrailing, List.flatMap_nil, List.flatMap_nil, List.append_nil, List.append_nil]

theorem mem_dynamicNames_iff (hps : ∀ p ∈ ps, p.IsSound) {w : List Char} :
    w ∈ dynamicNames (textOf id ps ++ [']']) ↔
      w ∈ literalNames (textOf id ps ++ [']']) ∨ w ∈ plainNames (textOf id ps ++ [']']) := by
  rw [dynamicNames_of_not_mem (backtick_not_mem hps), Text.mem_distinct, List.mem_append]

/-- **Nothing but the names of the strings is found**, and colons. -/
theorem eq_of_mem_dynamicNames (hps : ∀ p ∈ ps, p.IsSound) (harranged : Arranged (ps.map Piece.shape)) {w : List Char}
    (hw : w ∈ dynamicNames (textOf id ps ++ [']'])) : w ∈ namesOf ps ∨ w = [':'] := by
  rcases (mem_dynamicNames_iff hps).1 hw with hw | hw
  · rw [literalNames_textOf hps harranged] at hw
    refine Or.inl ?_
    rcases List.mem_append.1 hw with hw | hw
    · exact (List.mem_append.1 hw).elim (fun h => keysOf_subset ps h) fun h => found_subset _ ps h
    · exact found_subset _ ps hw
  · exact mem_plainNames hps harranged hw

/-- **Every name is found.** -/
theorem mem_dynamicNames (hps : ∀ p ∈ ps, p.IsSound) (harranged : Arranged (ps.map Piece.shape)) {w : List Char}
    (hw : w ∈ namesOf ps) : w ∈ dynamicNames (textOf id ps ++ [']']) := by
  rw [mem_dynamicNames_iff hps, literalNames_textOf hps harranged]
  obtain ⟨p, hp, hname⟩ := mem_namesOf.1 hw
  obtain ⟨shape, b, b'⟩ := p
  cases shape with
  | token x => cases hname
  | string c q n =>
    obtain rfl : n = w := Option.some.inj hname
    have hfound {lead : Char → Bool} (hc : lead c = true) : n ∈ ps.flatMap (Piece.found lead) :=
      List.mem_flatMap.2 ⟨_, hp, by rw [Piece.found, hc, Bool.true_or, if_pos rfl]; exact List.mem_cons_self⟩
    have hlead : c ∈ leads := (hps _ hp).shape.1
    refine Or.inl ?_
    simp only [leads, List.mem_cons, List.not_mem_nil, or_false] at hlead
    rcases hlead with rfl | rfl | rfl | rfl | rfl
    · exact List.mem_append_left _ (List.mem_append_right _ (hfound rfl))
    · obtain ⟨front, back, rfl⟩ := List.append_of_mem hp
      exact List.mem_append_left _ (List.mem_append_left _ (mem_keysOf front back harranged))
    · exact List.mem_append_left _ (List.mem_append_right _ (hfound rfl))
    · exact List.mem_append_right _ (hfound rfl)
    · exact List.mem_append_right _ (hfound rfl)

end ClientBuild.Markup
