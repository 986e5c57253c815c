import ClientBuild.Proofs.Markup.Literals

/-!
# Literals in rows

The strings of an object, of an array and of a chain of conditionals stand in a row: each behind a sign and blanks, and
behind what belongs to the one in front of it (`IsRow`).  A string may be any literal (`IsLiteral`), so it may have
brackets, commas and braces in it, and end with what other strings stand behind.  The patterns for elements and branches
stay in step all the same, as they read a string with its quotes, and the others find no place to begin, so the names of
such an expression are its literals (`dynamicNames_literals`).
-/

namespace ClientBuild.Markup

open Text (Pattern isBlank)

variable {x y z s t v b n : List Char} {c q : Char} {ns : List (List Char)}

/-! ## Texts of literals -/

/-- A class name as a literal: it is not empty, has no blanks, quotes and escapes, calls nothing with an object, and
neither begins nor ends with a sign of conditionals. -/
structure IsLiteral (n : List Char) : Prop where
  nonempty : n ≠ []
  plain : ∀ c ∈ n, isBlank c = false ∧ isQuote c = false ∧ c ≠ '\\'
  call : ¬ "(\x7b".toList <:+: n
  start : ∀ c ∈ n.head?, c ∉ [':', '?']
  stop : ∀ c ∈ n.getLast?, c ∉ [':', '?']

instance (n : List Char) : Decidable (IsLiteral n) :=
  letI : Decidable (∀ c ∈ n, isBlank c = false ∧ isQuote c = false ∧ c ≠ '\\') := List.decidableBAll _ n
  letI : Decidable (∀ c ∈ n.head?, c ∉ [':', '?']) := Option.decidableForallMem n.head?
  letI : Decidable (∀ c ∈ n.getLast?, c ∉ [':', '?']) := Option.decidableForallMem n.getLast?
  decidable_of_iff (n ≠ [] ∧ (∀ c ∈ n, isBlank c = false ∧ isQuote c = false ∧ c ≠ '\\') ∧ ¬ "(\x7b".toList <:+: n ∧
      (∀ c ∈ n.head?, c ∉ [':', '?']) ∧ ∀ c ∈ n.getLast?, c ∉ [':', '?'])
    ⟨fun ⟨h1, h2, h3, h4, h5⟩ => ⟨h1, h2, h3, h4, h5⟩, fun h => ⟨h.1, h.2, h.3, h.4, h.5⟩⟩

/-- An identifier in ASCII: letters, digits, underscores and dollars, and no digit in front. -/
def IsAsciiIdentifier (w : List Char) : Prop :=
  w ≠ [] ∧ (∀ c ∈ w, Text.isWordAscii c = true ∨ c = '$') ∧ ∀ c ∈ w.head?, c.isDigit = false

instance (w : List Char) : Decidable (IsAsciiIdentifier w) :=
  letI : Decidable (∀ c ∈ w, Text.isWordAscii c = true ∨ c = '$') := List.decidableBAll _ w
  letI : Decidable (∀ c ∈ w.head?, c.isDigit = false) := Option.decidableForallMem w.head?
  inferInstanceAs (Decidable (_ ∧ _))

/-- A name in single quotes. -/
def inQuotes (n : List Char) : List Char := '\'' :: (n ++ ['\''])

/-- An object with literals as keys and identifiers as values. -/
def objectText (es : List (List Char × List Char)) : List Char :=
  ['\x7b', ' '] ++ Text.join [',', ' '] (es.map fun e => inQuotes e.1 ++ ([':', ' '] ++ e.2)) ++ [' ', '\x7d']

/-- An array of literals. -/
def arrayText (ns : List (List Char)) : List Char := ['['] ++ Text.join [',', ' '] (ns.map inQuotes) ++ [']']

/-- A chain of conditionals: each literal behind the identifier that is asked for it, and the last one without. -/
def chainText : List (List Char × List Char) → List Char
  | [] => []
  | [(n, _)] => inQuotes n
  | (n, i) :: e :: es => i ++ [' ', '?', ' '] ++ inQuotes n ++ [' ', ':', ' '] ++ chainText (e :: es)

/-! ## Rows -/

/-- Has a text no quotes and no opening parentheses? -/
def IsGap (x : List Char) : Prop := ∀ c ∈ x, isQuote c = false ∧ c ≠ '('

instance (x : List Char) : Decidable (IsGap x) := List.decidableBAll _ x

/-- A text is a row with these names: they are the strings in it, each behind a gap and one of `fronts`, which is a sign
and blanks, and there is a gap at the end. -/
inductive IsRow (fronts : List (List Char)) : List Char → List (List Char) → Prop where
  | stop {z : List Char} (gap : IsGap z) : IsRow fronts z []
  | string {y b n s : List Char} {c : Char} {ns : List (List Char)} (gap : IsGap y) (sign : c ∈ leads)
      (blanks : ∀ d ∈ b, isBlank d = true) (front : c :: b ∈ fronts) (literal : IsLiteral n)
      (rest : IsRow fronts s ns) :
      IsRow fronts (y ++ c :: (b ++ '\'' :: (n ++ '\'' :: s))) (n :: ns)

theorem IsGap.append (hx : IsGap x) (hy : IsGap y) : IsGap (x ++ y) := fun c hc =>
  (List.mem_append.1 hc).elim (hx c) (hy c)

theorem IsGap.noQuotes (h : IsGap x) : NoQuotes x := fun c hc => isStringQuote_of_isQuote (h c hc).1

theorem isGap_blanks (hb : ∀ c ∈ b, isBlank c = true) : IsGap b := fun c hc => by
  have hout : c ∉ outsiders := fun hmem => not_mem_blanks hb hmem hc
  refine ⟨?_, fun heq => hout (heq ▸ by decide)⟩
  rw [isQuote, Bool.or_eq_false_iff, beq_eq_false_iff_ne]
  exact ⟨isStringQuote_of_not_mem hout, fun heq => hout (heq ▸ by decide)⟩

theorem isGap_front (hc : c ∈ leads) (hb : ∀ d ∈ b, isBlank d = true) : IsGap (c :: b) := by
  have hleads : ∀ c ∈ leads, isQuote c = false ∧ c ≠ '(' := by decide
  exact List.forall_mem_cons.2 ⟨hleads c hc, isGap_blanks hb⟩

theorem IsAsciiIdentifier.isGap (h : IsAsciiIdentifier x) : IsGap x := by
  have hword {c d : Char} (hc : Text.isWordAscii c = true ∨ c = '$') (hd : Text.isWordAscii d = false ∧ d ≠ '$') :
      c ≠ d := by
    rintro rfl
    rcases hc with hc | hc
    · rw [hd.1] at hc
      cases hc
    · exact hd.2 hc
  intro c hc
  have hc := h.2.1 c hc
  refine ⟨?_, hword hc (by decide)⟩
  simp only [isQuote, Bool.or_eq_false_iff, beq_eq_false_iff_ne]
  exact ⟨⟨hword hc (by decide), hword hc (by decide)⟩, hword hc (by decide)⟩

theorem IsLiteral.noQuotes (h : IsLiteral n) : NoQuotes n := fun c hc => isStringQuote_of_isQuote (h.plain c hc).2.1

theorem begins_of_mem_leads (hc : c ∈ leads) (s : List Char) : Begins (c :: s) := by
  intro d hd
  cases hd
  obtain ⟨hblank, hquote, -⟩ := apart_of_mem_signs (List.mem_cons_of_mem _ hc)
  exact ⟨hblank, hquote⟩

namespace IsRow

variable {fronts : List (List Char)} {lead : Char → Bool}

theorem literals (h : IsRow fronts s ns) : ∀ n ∈ ns, IsLiteral n := by
  induction h with
  | stop => exact List.forall_mem_nil _
  | string _ _ _ _ literal _ ih => exact List.forall_mem_cons.2 ⟨literal, ih⟩

theorem flatMap_cleanName (h : IsRow fronts s ns) : ns.flatMap cleanName = ns :=
  Markup.flatMap_cleanName fun n hn =>
    have hliteral := h.literals n hn
    ⟨hliteral.nonempty, fun c hc => (hliteral.plain c hc).1⟩

/-! ## Elements and branches -/

/-- A scan for strings finds those of a row if it looks for something in front of each. -/
theorem findAll_of_lead (h : IsRow fronts s ns) (hlead : ∀ f ∈ fronts, f.any lead = true) :
    Text.findAll (stringBehind? lead untilQuote?) s = ns := by
  induction h with
  | stop gap => exact findAll_eq_nil_of_noQuotes gap.noQuotes
  | string gap sign blanks front literal _ ih =>
    rw [findAll_of_noQuotes (begins_of_mem_leads sign _) gap.noQuotes,
      findAll_string_of_lead (by decide) literal.noQuotes blanks (hlead _ front), ih]

/-- No branch is found in a row if no sign in it is one of conditionals. -/
theorem findAll_branch? (h : IsRow fronts s ns)
    (hfronts : ∀ f ∈ fronts, f.any (fun c => c == '?' || c == ':') = false) : Text.findAll branch? s = [] := by
  induction h with
  | stop gap => exact findAll_eq_nil_of_noQuotes gap.noQuotes
  | @string y b n s c ns gap sign blanks front literal _ ih =>
    have hname : ∀ c ∈ n, isBlank c = false ∧ isStringQuote c = false := fun c hc =>
      ⟨(literal.plain c hc).1, literal.noQuotes c hc⟩
    have hlast : ∀ c ∈ n.getLast?, (c == '?' || c == ':') = false := fun c hc => by
      have hc := literal.stop c hc
      simp only [List.mem_cons, List.not_mem_nil, or_false, not_or] at hc
      simp [hc]
    rw [branch?, findAll_of_noQuotes (begins_of_mem_leads sign _) gap.noQuotes, ← List.cons_append,
      findAll_string_of_not_lead (by decide) hname hlast (hfronts _ front)]
    exact ih

/-! ## Calls and template literals -/

theorem backtick_not_mem (h : IsRow fronts s ns) : '\x60' ∉ s := by
  have hgap {x : List Char} (hx : IsGap x) : '\x60' ∉ x := fun hmem => absurd (hx _ hmem).1 (by decide)
  induction h with
  | stop gap => exact hgap gap
  | @string y b n s c ns gap sign blanks _ literal _ ih =>
    have hname : '\x60' ∉ n := fun hmem => absurd (literal.plain _ hmem).2.1 (by decide)
    have hfront := hgap (isGap_front sign blanks)
    simp only [List.mem_append, List.mem_cons, not_or] at hfront ⊢
    exact ⟨hgap gap, hfront.1, hfront.2, by decide, hname, by decide, ih⟩

/-- No parenthesis has a brace behind it. -/
theorem ne_call (h : IsRow fronts s ns) (hb : ∀ c ∈ b, isBlank c = true) : s ≠ x ++ '(' :: (b ++ '\x7b' :: t) := by
  have hgap {x : List Char} (hx : IsGap x) : '(' ∉ x := fun hmem => (hx _ hmem).2 rfl
  induction h generalizing x with
  | stop gap =>
    rintro rfl
    exact hgap gap (List.mem_append_right x List.mem_cons_self)
  | @string y b' n s c ns gap sign blanks _ literal _ ih =>
    intro hsplit
    have hfront : '(' ∉ y ++ (c :: b') ++ ['\''] :=
      List.not_mem_append (List.not_mem_append (hgap gap) (hgap (isGap_front sign blanks))) (by decide)
    have hassoc : y ++ c :: (b' ++ '\'' :: (n ++ '\'' :: s)) = (y ++ (c :: b') ++ ['\'']) ++ (n ++ '\'' :: s) := by simp
    rw [hassoc] at hsplit
    obtain ⟨w, rfl, hw⟩ := Text.exists_of_append_eq_right hsplit hfront
    rcases Text.append_eq_append_cons hw with ⟨r, rfl, hr⟩ | ⟨w, rfl, hrest⟩
    · have hblank : ∀ e ∈ r, isBlank e = false := fun e he =>
        (literal.plain e (List.mem_append_right _ (List.mem_cons_of_mem _ he))).1
      exact ne_of_not_call hblank literal.call (by decide) hb hr.symm
    · obtain ⟨w, rfl, hs⟩ := Text.exists_of_append_eq_right (a := ['\'']) hrest (by decide)
      exact ih hs

theorem findAll_callObject? (h : IsRow fronts s ns) : Text.findAll callObject? s = [] := by
  refine Text.findAll_eq_nil fun x c y hsplit => Option.eq_none_iff_forall_ne_some.2 fun ⟨v, k⟩ hcall => ?_
  obtain ⟨w, b, u, hy, hb⟩ := callObject?_eq_some hcall
  rw [hy, ← List.append_assoc] at hsplit
  exact h.ne_call hb hsplit

/-! ## Plain strings -/

/-- What stands in front of a string is not plain. -/
theorem not_plain (h : IsRow fronts s ns) (hfronts : ∀ f ∈ fronts, f.all isPlainChar = false)
    (hv : ∀ d ∈ v, isPlainChar d = true) (hq : isStringQuote q = true) : s ≠ v ++ q :: t := by
  cases h with
  | stop gap =>
    rintro rfl
    exact gap.noQuotes.not_mem hq (List.mem_append_right v List.mem_cons_self)
  | @string y b n s c ns gap sign blanks front _ _ =>
    intro hsplit
    have hgap : IsGap (y ++ (c :: b)) := gap.append (isGap_front sign blanks)
    have hassoc : y ++ c :: (b ++ '\'' :: (n ++ '\'' :: s)) = (y ++ (c :: b)) ++ '\'' :: (n ++ '\'' :: s) := by simp
    rw [hassoc] at hsplit
    obtain ⟨rfl, -⟩ := hgap.noQuotes.append_inj (noQuotes_of_plain hv) (by decide) hq hsplit
    have hall : (c :: b).all isPlainChar = true := List.all_eq_true.2 fun d hd => hv d (List.mem_append_right y hd)
    rw [hfronts _ front] at hall
    cases hall

/-- A plain text between two quotes is a name. -/
theorem mem_of_plain (h : IsRow fronts s ns) (hfronts : ∀ f ∈ fronts, f.all isPlainChar = false)
    (hv : ∀ d ∈ v, isPlainChar d = true) (hq : isStringQuote q = true) (hc : isStringQuote c = true) :
    s = x ++ q :: (v ++ c :: t) → v ∈ ns := by
  induction h generalizing x with
  | stop gap =>
    rintro rfl
    exact absurd (List.mem_append_right x List.mem_cons_self) (gap.noQuotes.not_mem hq)
  | @string y b n s e ns gap sign blanks front literal rest ih =>
    intro hsplit
    have hgap : IsGap (y ++ (e :: b)) := gap.append (isGap_front sign blanks)
    have hassoc : y ++ e :: (b ++ '\'' :: (n ++ '\'' :: s)) = (y ++ (e :: b)) ++ '\'' :: (n ++ '\'' :: s) := by simp
    rw [hassoc] at hsplit
    obtain ⟨w, rfl, hw⟩ := Text.exists_of_append_eq_right hsplit (hgap.noQuotes.not_mem hq)
    cases w with
    | nil =>
      -- The first quote opens a string, so this is read.
      obtain ⟨rfl, hname⟩ := List.cons.inj hw
      obtain ⟨rfl, -⟩ := literal.noQuotes.append_inj (noQuotes_of_plain hv) hq hc hname
      exact List.mem_cons_self
    | cons d w =>
      obtain ⟨rfl, hname⟩ := List.cons.inj hw
      obtain ⟨i, rfl, hi⟩ := Text.exists_of_append_eq_right hname (literal.noQuotes.not_mem hq)
      cases i with
      | nil =>
        -- The first quote closes a string, so what stands behind it is read.
        exact absurd (List.cons.inj hi).2 (rest.not_plain hfronts hv hc)
      | cons d i => exact List.mem_cons_of_mem n (ih (List.cons.inj hi).2)

theorem plainNames_subset (h : IsRow fronts s ns) (hfronts : ∀ f ∈ fronts, f.all isPlainChar = false) :
    plainNames s ⊆ ns := by
  intro w hw
  obtain ⟨v, hv, hword⟩ := List.mem_flatMap.1 hw
  obtain ⟨x, rest, k, hsplit, hrest⟩ := Text.exists_of_mem_findAll hv
  obtain ⟨q, c, u, rfl, hq, hc, hplain⟩ := plainString?_eq_some hrest
  have hmem := h.mem_of_plain hfronts hplain hq hc hsplit
  have hliteral := h.literals v hmem
  rw [Text.words_of_forall (fun d hd => (hliteral.plain d hd).1) hliteral.nonempty] at hword
  exact List.mem_singleton.1 hword ▸ hmem

end IsRow

/-! ## Keys -/

theorem untilQuotedColon?_append_of_none (hx : NoQuotes x) (hs : untilQuotedColon? s = none) :
    untilQuotedColon? (x ++ s) = none := by
  induction x with
  | nil => exact hs
  | cons c x ih =>
    obtain ⟨hc, hx⟩ := List.forall_mem_cons.1 hx
    refine untilQuotedColon?_cons_of_none (fun hquote => ?_) (ih hx)
    rw [hc] at hquote
    cases hquote

/-- A literal without a colon behind it is no key: it has none in front either, behind the quote that opens it. -/
theorem untilQuotedColon?_literal (hn : IsLiteral n) (hahead : colonAhead? s = none) (hs : untilQuotedColon? s = none) :
    untilQuotedColon? ('\'' :: (n ++ '\'' :: s)) = none := by
  have hclose : untilQuotedColon? ('\'' :: s) = none := untilQuotedColon?_cons_of_none (fun _ => hahead) hs
  refine untilQuotedColon?_cons_of_none (fun _ => ?_) (untilQuotedColon?_append_of_none hn.noQuotes hclose)
  obtain ⟨c, n, rfl⟩ := List.exists_cons_of_ne_nil hn.nonempty
  refine colonAhead?_of_ne (hn.plain c List.mem_cons_self).1 ?_ _
  rintro rfl
  exact hn.start ':' rfl (by decide)

theorem untilQuotedColon?_of_append (h : untilQuotedColon? (x ++ s) = none) : untilQuotedColon? s = none := by
  induction x with
  | nil => exact h
  | cons c x ih =>
    rw [List.cons_append, untilQuotedColon?] at h
    split at h
    next => cases h
    next => exact ih (Option.map_eq_none_iff.1 h)

/-- Where no string has a colon behind it, no key is found. -/
theorem findAll_objectKey?_eq_nil (h : untilQuotedColon? s = none) : Text.findAll objectKey? s = [] := by
  refine Text.findAll_eq_nil fun x c t hs => ?_
  have hbody : stringBehindBlanks? untilQuotedColon? t = none := by
    rw [stringBehindBlanks?]
    split
    next q u hdrop =>
      have ht : t = t.takeWhile isBlank ++ q :: u := by rw [← hdrop, List.takeWhile_append_dropWhile]
      have hsplit : s = (x ++ c :: (t.takeWhile isBlank ++ [q])) ++ u := by
        rw [List.append_assoc, List.cons_append, List.append_assoc, List.singleton_append, ← ht, hs]
      rw [untilQuotedColon?_of_append (hsplit ▸ h), Option.map_none, ite_self]
    next => rfl
  rw [objectKey?, stringBehind?, hbody, Option.map_none, ite_self]

/-! ## All names -/

/-- What stands in front of the strings of objects and arrays. -/
def elementFronts : List (List Char) := [['\x7b', ' '], ['['], [',', ' ']]

/-- What stands in front of the branches of a conditional. -/
def branchFronts : List (List Char) := [['?', ' '], [':', ' ']]

/-- The names of a row of elements are found, and nothing else, if the keys are its names or there are none. -/
theorem IsRow.dynamicNames_eq (h : IsRow elementFronts s ns) (hs : Begins s)
    (hkeys : Text.findAll objectKey? s = ns ∨ Text.findAll objectKey? s = []) : dynamicNames s = Text.distinct ns := by
  have hstart : stringBehindBlanks? untilQuote? s = none :=
    stringBehindBlanks?_of_begins hs (x := []) fun _ h => absurd h List.not_mem_nil
  have helements : arrayElements s = ns := by
    rw [arrayElements, hstart]
    exact h.findAll_of_lead (by decide)
  have hplain : plainNames s ⊆ ns := h.plainNames_subset (by decide)
  rw [dynamicNames_of_not_mem h.backtick_not_mem, literalNames, h.findAll_callObject?, helements,
    h.findAll_branch? (by decide), List.flatMap_nil, List.flatMap_nil, List.nil_append, List.append_nil,
    h.flatMap_cleanName]
  rcases hkeys with hkeys | hkeys
  · rw [hkeys, h.flatMap_cleanName, List.append_assoc, Text.distinct_append_of_subset]
    exact List.append_subset.2 ⟨List.Subset.refl ns, hplain⟩
  · rw [hkeys, List.flatMap_nil, List.nil_append, Text.distinct_append_of_subset hplain]

/-! ## Objects, arrays and chains -/

section Texts

variable {es : List (List Char × List Char)}

/-- Literals behind commas are a row, whatever gap stands behind each. -/
theorem isRow_elements (hes : ∀ e ∈ es, IsLiteral e.1 ∧ IsGap e.2) (hy : IsGap y) (hz : IsGap z) :
    IsRow elementFronts (y ++ ((es.flatMap fun e => ',' :: ' ' :: '\'' :: (e.1 ++ '\'' :: e.2)) ++ z))
      (es.map Prod.fst) := by
  induction es generalizing y with
  | nil => exact .stop (hy.append hz)
  | cons e es ih =>
    obtain ⟨⟨hliteral, hgap⟩, hes⟩ := List.forall_mem_cons.1 hes
    have hfront : [',', ' '] ∈ elementFronts := by decide
    have hrow := IsRow.string hy (c := ',') (b := [' ']) (by decide) (by decide) hfront hliteral (ih hes hgap)
    simpa using hrow

theorem objectText_cons (n i : List Char) (es : List (List Char × List Char)) :
    objectText ((n, i) :: es) = '\x7b' :: ' ' :: '\'' :: (n ++ '\'' :: (':' :: ' ' :: i ++
      ((es.flatMap fun e => ',' :: ' ' :: '\'' :: (e.1 ++ '\'' :: ':' :: ' ' :: e.2)) ++ [' ', '\x7d']))) := by
  simp [objectText, inQuotes, Text.join_cons, List.flatMap_map]

theorem arrayText_cons (n : List Char) (ns : List (List Char)) :
    arrayText (n :: ns) =
      '[' :: '\'' :: (n ++ '\'' :: ((ns.flatMap fun n => ',' :: ' ' :: '\'' :: (n ++ ['\''])) ++ [']'])) := by
  simp [arrayText, inQuotes, Text.join_cons, List.flatMap_map]

theorem isGap_value {i : List Char} (hi : IsAsciiIdentifier i) : IsGap (':' :: ' ' :: i) :=
  IsGap.append (x := [':', ' ']) (by decide) hi.isGap

theorem isRow_objectText (hne : es ≠ []) (hes : ∀ e ∈ es, IsLiteral e.1 ∧ IsAsciiIdentifier e.2) :
    IsRow elementFronts (objectText es) (es.map Prod.fst) := by
  obtain ⟨⟨n, i⟩, es, rfl⟩ := List.exists_cons_of_ne_nil hne
  obtain ⟨⟨hn, hi⟩, hes⟩ := List.forall_mem_cons.1 hes
  have hvalues : ∀ e ∈ es.map fun e => (e.1, ':' :: ' ' :: e.2), IsLiteral e.1 ∧ IsGap e.2 :=
    List.forall_mem_map.2 fun e he => ⟨(hes e he).1, isGap_value (hes e he).2⟩
  have hrest := isRow_elements (z := [' ', '\x7d']) hvalues (isGap_value hi) (by decide)
  rw [List.flatMap_map, List.map_map] at hrest
  rw [objectText_cons]
  exact IsRow.string (y := []) (b := [' ']) (List.forall_mem_nil _) (by decide) (by decide) (by decide) hn hrest

theorem isRow_arrayText (hne : ns ≠ []) (hns : ∀ n ∈ ns, IsLiteral n) : IsRow elementFronts (arrayText ns) ns := by
  obtain ⟨n, ns, rfl⟩ := List.exists_cons_of_ne_nil hne
  obtain ⟨hn, hns⟩ := List.forall_mem_cons.1 hns
  have hnil : IsGap [] := List.forall_mem_nil _
  have helements : ∀ e ∈ ns.map fun n => (n, []), IsLiteral e.1 ∧ IsGap e.2 :=
    List.forall_mem_map.2 fun n hn => ⟨hns n hn, hnil⟩
  have hrest := isRow_elements (z := [']']) helements hnil (by decide)
  rw [List.flatMap_map, List.map_map, List.nil_append] at hrest
  rw [arrayText_cons]
  have hfront : ['['] ∈ elementFronts := by decide
  have hrow := IsRow.string (y := []) (b := []) (c := '[') hnil (by decide) (List.forall_mem_nil _) hfront hn hrest
  simpa [Function.comp_def] using hrow

theorem findAll_objectKey?_entry (hc : c = '\x7b' ∨ c = ',') (hn : IsLiteral n) (r : List Char) :
    Text.findAll objectKey? (c :: ' ' :: '\'' :: (n ++ '\'' :: ':' :: r)) = n :: Text.findAll objectKey? r :=
  have hnil : ∀ d ∈ [], isBlank d = true := List.forall_mem_nil _
  findAll_objectKey?_cons (b := [' ']) hc (by decide) (by decide) hn.noQuotes hnil r

/-- The keys behind commas are found. -/
theorem findAll_objectKey?_entries (hes : ∀ e ∈ es, IsLiteral e.1 ∧ IsAsciiIdentifier e.2) (hy : NoQuotes y) :
    Text.findAll objectKey?
      (y ++ ((es.flatMap fun e => ',' :: ' ' :: '\'' :: (e.1 ++ '\'' :: ':' :: ' ' :: e.2)) ++ [' ', '\x7d'])) =
      es.map Prod.fst := by
  induction es generalizing y with
  | nil =>
    have hend : NoQuotes [' ', '\x7d'] := by decide
    exact findAll_eq_nil_of_noQuotes (hy.append hend)
  | cons e es ih =>
    obtain ⟨⟨hn, hi⟩, hes⟩ := List.forall_mem_cons.1 hes
    have hvalue : NoQuotes (' ' :: e.2) := fun c hc => (isGap_value hi).noQuotes c (List.mem_cons_of_mem _ hc)
    have hrest := ih hes hvalue
    rw [List.flatMap_cons, List.cons_append, List.cons_append, objectKey?,
      findAll_of_noQuotes (begins_of_mem_leads (by decide) _) hy, ← objectKey?]
    simp only [List.cons_append, List.append_assoc]
    rw [findAll_objectKey?_entry (Or.inr rfl) hn]
    exact congrArg (e.1 :: ·) hrest

theorem findAll_objectKey?_objectText (hne : es ≠ []) (hes : ∀ e ∈ es, IsLiteral e.1 ∧ IsAsciiIdentifier e.2) :
    Text.findAll objectKey? (objectText es) = es.map Prod.fst := by
  obtain ⟨⟨n, i⟩, es, rfl⟩ := List.exists_cons_of_ne_nil hne
  obtain ⟨⟨hn, hi⟩, hes⟩ := List.forall_mem_cons.1 hes
  have hvalue : NoQuotes (' ' :: i) := fun c hc => (isGap_value hi).noQuotes c (List.mem_cons_of_mem _ hc)
  rw [objectText_cons, List.cons_append, findAll_objectKey?_entry (Or.inl rfl) hn]
  exact congrArg (n :: ·) (findAll_objectKey?_entries hes hvalue)

/-- No string of an array has a colon behind it. -/
theorem untilQuotedColon?_elements (hns : ∀ n ∈ ns, IsLiteral n) :
    let rest := (ns.flatMap fun n => ',' :: ' ' :: '\'' :: (n ++ ['\''])) ++ [']']
    colonAhead? rest = none ∧ untilQuotedColon? rest = none := by
  induction ns with
  | nil => exact ⟨rfl, rfl⟩
  | cons n ns ih =>
    obtain ⟨hn, hns⟩ := List.forall_mem_cons.1 hns
    obtain ⟨hahead, hrest⟩ := ih hns
    have hstring := untilQuotedColon?_append_of_none (x := [',', ' ']) (by decide)
      (untilQuotedColon?_literal hn hahead hrest)
    exact ⟨colonAhead?_of_ne (by decide) (by decide) _, by simpa using hstring⟩

theorem findAll_objectKey?_arrayText (hne : ns ≠ []) (hns : ∀ n ∈ ns, IsLiteral n) :
    Text.findAll objectKey? (arrayText ns) = [] := by
  obtain ⟨n, ns, rfl⟩ := List.exists_cons_of_ne_nil hne
  obtain ⟨hn, hns⟩ := List.forall_mem_cons.1 hns
  obtain ⟨hahead, hrest⟩ := untilQuotedColon?_elements hns
  have hstring := untilQuotedColon?_append_of_none (x := ['[']) (by decide)
    (untilQuotedColon?_literal hn hahead hrest)
  refine findAll_objectKey?_eq_nil ?_
  rw [arrayText_cons]
  exact hstring

theorem isRow_branch (hy : IsGap y) (hn : IsLiteral n) (hs : IsRow branchFronts s ns) :
    IsRow branchFronts (y ++ [' ', '?', ' '] ++ inQuotes n ++ s) (n :: ns) := by
  have hrow := IsRow.string (c := '?') (b := [' ']) (hy.append (y := [' ']) (by decide)) (by decide)
    (by decide) (by decide) hn hs
  simpa [inQuotes] using hrow

/-- Behind a colon, a chain of conditionals is a row of branches. -/
theorem isRow_chainText_behind (hne : es ≠ []) (hes : ∀ e ∈ es, IsLiteral e.1 ∧ IsAsciiIdentifier e.2) (hy : IsGap y) :
    IsRow branchFronts (y ++ [':', ' '] ++ chainText es) (es.map Prod.fst) := by
  induction es using chainText.induct generalizing y with
  | case1 => exact absurd rfl hne
  | case2 n i =>
    have hn : IsLiteral n := (hes _ List.mem_cons_self).1
    have hstop : IsRow branchFronts [] [] := .stop (List.forall_mem_nil _)
    have hrow := IsRow.string (c := ':') (b := [' ']) hy (by decide) (by decide) (by decide) hn hstop
    simpa [chainText, inQuotes] using hrow
  | case3 n i e es ih =>
    obtain ⟨⟨hn, hi⟩, hes⟩ := List.forall_mem_cons.1 hes
    have hcolon : IsGap [':', ' '] := by decide
    have hblank : IsGap [' '] := by decide
    have hrow := isRow_branch ((hy.append hcolon).append hi.isGap) hn (ih (List.cons_ne_nil e es) hes hblank)
    simpa [chainText] using hrow

theorem isRow_chainText (hlength : 2 ≤ es.length) (hes : ∀ e ∈ es, IsLiteral e.1 ∧ IsAsciiIdentifier e.2) :
    IsRow branchFronts (chainText es) (es.map Prod.fst) := by
  obtain _ | ⟨⟨n, i⟩, _ | ⟨e, es⟩⟩ := es
  · cases hlength
  · exact absurd hlength (by simp)
  · obtain ⟨⟨hn, hi⟩, hes⟩ := List.forall_mem_cons.1 hes
    have hblank : IsGap [' '] := by decide
    have hrow := isRow_branch hi.isGap hn (isRow_chainText_behind (List.cons_ne_nil e es) hes hblank)
    simpa [chainText] using hrow

/-- **Literals are found**: the names of an object and of an array are its literals, each once in order of first
appearance, and those of a chain of conditionals have all its literals among them. -/
theorem dynamicNames_literals (hne : es ≠ []) (hes : ∀ e ∈ es, IsLiteral e.1 ∧ IsAsciiIdentifier e.2) :
    dynamicNames (objectText es) = Text.distinct (es.map Prod.fst) ∧
      dynamicNames (arrayText (es.map Prod.fst)) = Text.distinct (es.map Prod.fst) ∧
      (2 ≤ es.length → ∀ n ∈ es.map Prod.fst, n ∈ dynamicNames (chainText es)) := by
  have hnames : es.map Prod.fst ≠ [] := mt List.map_eq_nil_iff.1 hne
  have hliterals : ∀ n ∈ es.map Prod.fst, IsLiteral n := List.forall_mem_map.2 fun e he => (hes e he).1
  refine ⟨?_, ?_, fun hlength n hn => ?_⟩
  · have hbegins : Begins (objectText es) := by
      obtain ⟨⟨n, i⟩, es, rfl⟩ := List.exists_cons_of_ne_nil hne
      rw [objectText_cons]
      exact begins_of_mem_leads (by decide) _
    exact (isRow_objectText hne hes).dynamicNames_eq hbegins (Or.inl (findAll_objectKey?_objectText hne hes))
  · exact (isRow_arrayText hnames hliterals).dynamicNames_eq (begins_of_mem_leads (by decide) _)
      (Or.inr (findAll_objectKey?_arrayText hnames hliterals))
  · have hrow := isRow_chainText hlength hes
    have hbranches : Text.findAll branch? (chainText es) = es.map Prod.fst := hrow.findAll_of_lead (by decide)
    rw [dynamicNames_of_not_mem hrow.backtick_not_mem, Text.mem_distinct, literalNames, hbranches,
      hrow.flatMap_cleanName]
    exact List.mem_append_left _ (List.mem_append_right _ hn)

/-- Literals that end with what other literals stand behind, and one of them twice. -/
theorem dynamicNames_literals_odd :
    let es := [("w-[calc(1px,2px)]".toList, "wide".toList), ("p-1/2,".toList, "$p".toList),
      ("a:b[\x7b".toList, "_x1".toList), ("p-1/2,".toList, "y".toList)]
    es ≠ [] ∧ (∀ e ∈ es, IsLiteral e.1 ∧ IsAsciiIdentifier e.2) ∧
      objectText es = "\x7b 'w-[calc(1px,2px)]': wide, 'p-1/2,': $p, 'a:b[\x7b': _x1, 'p-1/2,': y \x7d".toList ∧
      arrayText (es.map Prod.fst) = "['w-[calc(1px,2px)]', 'p-1/2,', 'a:b[\x7b', 'p-1/2,']".toList ∧
      chainText es = "wide ? 'w-[calc(1px,2px)]' : $p ? 'p-1/2,' : _x1 ? 'a:b[\x7b' : 'p-1/2,'".toList ∧
      Text.distinct (es.map Prod.fst) = ["w-[calc(1px,2px)]".toList, "p-1/2,".toList, "a:b[\x7b".toList] ∧
      dynamicNames (objectText es) = Text.distinct (es.map Prod.fst) ∧
      dynamicNames (arrayText (es.map Prod.fst)) = Text.distinct (es.map Prod.fst) ∧
      ∀ n ∈ es.map Prod.fst, n ∈ dynamicNames (chainText es) := by
  intro es
  have hes : ∀ e ∈ es, IsLiteral e.1 ∧ IsAsciiIdentifier e.2 := by decide
  have hne : es ≠ [] := by decide
  obtain ⟨hobject, harray, hchain⟩ := dynamicNames_literals hne hes
  exact ⟨hne, hes, by decide, by decide, by decide, by decide, hobject, harray, hchain (by decide)⟩

end Texts

end ClientBuild.Markup
