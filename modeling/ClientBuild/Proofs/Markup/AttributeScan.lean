import ClientBuild.Proofs.Markup.Attributes
import ClientBuild.Proofs.Text.Offsets

/-!
# Class attributes by offsets

The scan for class attributes with the offsets that it goes by.  The quote that closes a value is searched byte by byte,
and a backslash takes the byte behind it along, whatever character that belongs to.  The search gets to the end of that
character before it finds anything (`closingQuote?_inside`), so values are cut out between characters and the scan finds
what `classAttributes` finds (`attributes?_eq`).
-/

namespace ClientBuild.Markup

open Text (Round StandsAt AsciiAlike loop offsetOf? slice? from? byteAt?)

/-! ## The closing quote -/

variable {code rest t : List Char} {q c d : Char} {i j : Nat}

/-- A round of the search for the quote `q` that closes a value.  An inner string in other quotes is passed over. -/
def closingRound (code : List Char) (q : Char) (i : Nat) : Option (Round Nat (Option Nat)) :=
  match byteAt? code i with
  | none => some (.done none)
  | some b =>
    if b = q then some (.done (some i))
    else if b = '\\' then some (.next (i + 2))
    else if isQuote b then do
      match ← offsetOf? [b] code (i + 1) with
      | none => some (.done none)
      | some close => some (.next (close + 1))
    else some (.next (i + 1))

/-- Every round of the search for a closing quote moves on, wherever it is. -/
theorem advances_closingRound (code : List Char) (q : Char) : Text.Advances code id (closingRound code q) := by
  intro i j h
  rw [closingRound] at h
  split at h
  next => cases h
  next b hbyte =>
    refine ⟨Text.lt_byteSize_of_byteAt? hbyte, ?_⟩
    split at h
    next => cases h
    next =>
      split at h
      next =>
        cases h
        exact Nat.lt_succ_of_lt (Nat.lt_succ_self i)
      next =>
        split at h
        next =>
          obtain ⟨close?, hclose, h⟩ := Option.bind_eq_some_iff.1 h
          cases close? with
          | none => cases h
          | some close =>
            cases h
            exact Nat.lt_succ_of_lt (Text.standsAt_of_offsetOf? hclose).1
        next =>
          cases h
          exact Nat.lt_succ_self i

/-- Where the quote stands that closes a value. -/
def closingQuote? (code : List Char) (q : Char) (start : Nat) : Option (Option Nat) :=
  loop (advances_closingRound code q) start

theorem toNat_of_isQuote (hq : isQuote q = true) : q.toNat < 128 := by
  rcases isQuote_iff.1 hq with rfl | rfl | rfl <;> decide

theorem isQuote_eq_of_asciiAlike (h : AsciiAlike d c) : isQuote d = isQuote c := by
  rw [Bool.eq_iff_iff, isQuote_iff, isQuote_iff, h '\'' (by decide), h '"' (by decide), h '\x60' (by decide)]

/-- A byte that is no quote and no backslash is passed. -/
theorem closingRound_next (hbyte : byteAt? code i = some d) (hquote : d ≠ q) (hescape : d ≠ '\\')
    (hinner : isQuote d = false) : closingRound code q i = some (.next (i + 1)) := by
  simp only [closingRound, hbyte, if_neg hquote, if_neg hescape, hinner]
  rfl

theorem closingRound_of_large (hq : isQuote q = true) (hbyte : byteAt? code i = some d) (hd : 128 ≤ d.toNat) :
    closingRound code q i = some (.next (i + 1)) := by
  have hinner : isQuote d = false := Bool.eq_false_iff.2 fun h => Text.ne_of_large hd (toNat_of_isQuote h) rfl
  exact closingRound_next hbyte (Text.ne_of_large hd (toNat_of_isQuote hq)) (Text.ne_of_large hd (by decide)) hinner

theorem closingQuote?_end (h : StandsAt code i []) (hj : i ≤ j) : closingQuote? code q j = some none :=
  Text.loop_of_done (by rw [closingRound, h.byteAt?_end hj])

/-- From within a character the search gets to the next one. -/
theorem closingQuote?_inside (hq : isQuote q = true) (h : StandsAt code i (c :: rest)) (hi : i < j)
    (hj : j ≤ i + c.utf8Size) : closingQuote? code q j = closingQuote? code q (i + c.utf8Size) :=
  h.loop_inside id (fun _ _ hbyte hlarge => closingRound_of_large hq hbyte hlarge) hi hj

theorem closingQuote?_quote (hq : isQuote q = true) (h : StandsAt code i (q :: rest)) :
    closingQuote? code q i = some (some i) :=
  Text.loop_of_done (by simp only [closingRound, h.byteAt?_ascii (toNat_of_isQuote hq), if_true])

/-- A backslash takes the byte behind it along. -/
theorem closingQuote?_backslash (hq : isQuote q = true) (h : StandsAt code i ('\\' :: rest)) :
    closingQuote? code q i = closingQuote? code q (i + 2) :=
  Text.loop_of_next (by
    simp only [closingRound, h.byteAt?_ascii (by decide), if_neg (ne_backslash_of_isQuote hq).symm, if_true])

/-- Of the character behind a backslash nothing is looked at. -/
theorem closingQuote?_escape (hq : isQuote q = true) (h : StandsAt code i ('\\' :: c :: rest)) :
    closingQuote? code q i = closingQuote? code q (i + Text.byteSize ['\\', c]) := by
  have hbehind := h.cons_ascii (by decide)
  rw [closingQuote?_backslash hq h, Text.byteSize_cons, Text.byteSize_singleton, ← Nat.add_assoc]
  exact closingQuote?_inside hq hbehind (Nat.lt_succ_self _) (Nat.add_le_add_left c.utf8Size_pos _)

/-- A string in other quotes is passed. -/
theorem closingQuote?_inner (hc : isQuote c = true) (hne : c ≠ q) (ht : c ∉ t)
    (h : StandsAt code i (c :: (t ++ c :: rest))) :
    closingQuote? code q i = closingQuote? code q (i + Text.byteSize (c :: (t ++ [c]))) := by
  have hbehind := h.cons_ascii (toNat_of_isQuote hc)
  have hclose : offsetOf? [c] code (i + 1) = some (some (i + 1 + Text.byteSize t)) := by
    rw [hbehind.offsetOf?, Text.breakOn?_singleton ht]
    rfl
  have hsize : i + 1 + Text.byteSize t + 1 = i + Text.byteSize (c :: (t ++ [c])) := by
    simp only [Text.byteSize_cons, Text.byteSize_append, Text.utf8Size_of_ascii (toNat_of_isQuote hc), Nat.add_assoc]
    rfl
  refine Text.loop_of_next ?_
  simp only [closingRound, h.byteAt?_ascii (toNat_of_isQuote hc), if_neg hne, if_neg (ne_backslash_of_isQuote hc),
    if_pos hc, hclose, Option.bind_eq_bind, Option.bind_some, hsize]

/-- In a string in other quotes that is not closed there is no closing quote. -/
theorem closingQuote?_unclosed (hc : isQuote c = true) (hne : c ≠ q) (hs : c ∉ rest)
    (h : StandsAt code i (c :: rest)) : closingQuote? code q i = some none := by
  have hbehind := h.cons_ascii (toNat_of_isQuote hc)
  have hnone : Text.breakOn? [c] rest = none :=
    Text.breakOn?_eq_none_iff.2 fun hinside => hs (hinside.subset List.mem_cons_self)
  refine Text.loop_of_done ?_
  simp only [closingRound, h.byteAt?_ascii (toNat_of_isQuote hc), if_neg hne, if_neg (ne_backslash_of_isQuote hc),
    if_pos hc, hbehind.offsetOf?, hnone, Option.bind_eq_bind, Option.bind_some, Option.map_none]

/-- Any other character is passed. -/
theorem closingQuote?_other (hq : isQuote q = true) (hne : c ≠ q) (hescape : c ≠ '\\') (hinner : isQuote c = false)
    (h : StandsAt code i (c :: rest)) : closingQuote? code q i = closingQuote? code q (i + Text.byteSize [c]) := by
  obtain ⟨d, hbyte, halike⟩ := h.exists_byteAt?
  have hround : closingRound code q i = some (.next (i + 1)) :=
    closingRound_next hbyte ((halike q (toNat_of_isQuote hq)).not.2 hne) ((halike '\\' (by decide)).not.2 hescape)
      ((isQuote_eq_of_asciiAlike halike).trans hinner)
  rw [Text.byteSize_singleton, ← closingQuote?_inside hq h (Nat.lt_succ_self i) (Nat.add_le_add_left c.utf8Size_pos i)]
  exact Text.loop_of_next hround

/-- The texts that a value is read from, by what is looked at first. -/
@[elab_as_elim]
theorem value_induction {P : List Char → Prop} (nil : P []) (quote : ∀ s, P (q :: s)) (backslash : P ['\\'])
    (escape : ∀ c s, P s → P ('\\' :: c :: s))
    (unclosed : ∀ c s, isQuote c = true → c ≠ q → c ∉ s → P (c :: s))
    (inner : ∀ c t s, isQuote c = true → c ≠ q → c ∉ t → P s → P (c :: (t ++ c :: s)))
    (other : ∀ c s, c ≠ q → c ≠ '\\' → isQuote c = false → P s → P (c :: s)) (s : List Char) : P s := by
  induction hn : s.length using Nat.strong_induction_on generalizing s with | _ n ih
  subst hn
  cases s with
  | nil => exact nil
  | cons c s =>
    by_cases hescape : c = '\\'
    · subst hescape
      cases s with
      | nil => exact backslash
      | cons e s => exact escape e s (ih _ (Nat.lt_succ_of_lt (Nat.lt_succ_self _)) s rfl)
    · by_cases hquote : c = q
      · exact hquote ▸ quote s
      · by_cases hinner : isQuote c = true
        · by_cases hclosed : c ∈ s
          · obtain ⟨t, r, rfl, ht⟩ := List.eq_append_cons_of_mem hclosed
            refine inner c t r hinner hquote ht (ih _ ?_ r rfl)
            rw [List.length_cons, List.length_append, List.length_cons]
            omega
          · exact unclosed c s hinner hquote hclosed
        · exact other c s hquote hescape (Bool.eq_false_iff.2 hinner) (ih _ (Nat.lt_succ_self _) s rfl)

theorem valueBefore?_unclosed (hs : c ∉ rest) (q : Char) : valueBefore? q (some c) rest = none := by
  induction rest with
  | nil => rfl
  | cons d s ih =>
    obtain ⟨hd, hs⟩ := List.ne_and_not_mem_of_not_mem_cons hs
    rw [valueBefore?, if_neg hd.symm, ih hs]
    rfl

theorem exists_of_valueBefore? {v : List Char} (h : valueBefore? q none rest = some v) : ∃ r, rest = v ++ q :: r := by
  obtain ⟨r, hr⟩ := valueBefore?_isPrefix h
  exact ⟨r, by rw [← hr, List.append_assoc, List.singleton_append]⟩

/-- **The search for the closing quote finds the one that the value is read up to**, from any place between
characters. -/
theorem closingQuote?_eq (hq : isQuote q = true) (h : StandsAt code i rest) :
    closingQuote? code q i = some ((valueBefore? q none rest).map fun v => i + Text.byteSize v) := by
  -- What is passed belongs to the value.
  have hpassed (t : List Char) (v? : Option (List Char)) (i : Nat) :
      (v?.map (t ++ ·)).map (fun v => i + Text.byteSize v) = v?.map fun v => i + Text.byteSize t + Text.byteSize v := by
    simp only [Option.map_map, Function.comp_def, Text.byteSize_append, Nat.add_assoc]
  induction rest using value_induction generalizing i with
  | nil => exact closingQuote?_end h (Nat.le_refl i)
  | quote s =>
    rw [closingQuote?_quote hq h, valueBefore?_char (ne_backslash_of_isQuote hq), if_pos rfl]
    rfl
  | backslash =>
    have hend : closingQuote? code q (i + 2) = some none :=
      closingQuote?_end (h.cons_ascii (by decide)) (Nat.le_succ (i + 1))
    rw [closingQuote?_backslash hq h, hend]
    simp only [valueBefore?, if_neg (ne_backslash_of_isQuote hq).symm, if_neg (show ¬ isQuote '\\' by decide)]
    rfl
  | escape c s ih =>
    rw [closingQuote?_escape hq h, ih (StandsAt.append h), valueBefore?, ← hpassed]
    rfl
  | unclosed c s hc hne hs =>
    rw [closingQuote?_unclosed hc hne hs h, valueBefore?_char (ne_backslash_of_isQuote hc), if_neg hne, if_pos hc,
      valueBefore?_unclosed hs]
    rfl
  | inner c t s hc hne ht ih =>
    have hbehind : StandsAt code i ((c :: (t ++ [c])) ++ s) := by simpa using h
    rw [closingQuote?_inner hc hne ht h, ih hbehind.append, valueBefore?_char (ne_backslash_of_isQuote hc),
      if_neg hne, if_pos hc, valueBefore?_inner ht, ← hpassed]
    simp only [Option.map_map, Function.comp_def, List.cons_append, List.append_assoc, List.nil_append]
  | other c s hne hescape hinner ih =>
    rw [closingQuote?_other hq hne hescape hinner h, ih (StandsAt.append h), valueBefore?_char hescape, if_neg hne,
      if_neg (Bool.eq_false_iff.1 hinner), ← hpassed]
    rfl

/-- The closing quote that is found is a character of its own, and so is what stands behind it. -/
theorem isBoundary_of_closingQuote? (hq : isQuote q = true) (h : Text.IsBoundary code i)
    (hclose : closingQuote? code q i = some (some j)) :
    i ≤ j ∧ Text.IsBoundary code j ∧ Text.IsBoundary code (j + 1) := by
  obtain ⟨rest, hplace⟩ := h
  rw [closingQuote?_eq hq hplace] at hclose
  obtain ⟨v, hvalue, rfl⟩ := Option.map_eq_some_iff.1 (Option.some.inj hclose)
  obtain ⟨r, rfl⟩ := exists_of_valueBefore? hvalue
  exact ⟨Nat.le_add_right _ _, hplace.append.isBoundary, (hplace.append.cons_ascii (toNat_of_isQuote hq)).isBoundary⟩

/-! ## Beginnings of attributes -/

/-- The beginning of an attribute in a text: where it starts, and where its value does. -/
structure HeadPlace where
  kind : AttributeKind
  quote : Char
  start : Nat
  stop : Nat

/-- The first beginning of an attribute in a text that stands at an offset. -/
def headFrom? : (offset : Nat) → List Char → Option HeadPlace
  | _, [] => none
  | o, c :: s =>
    match attributeHead? (c :: s) with
    | some head => some ⟨head.kind, head.quote, o, o + Text.byteSize ((c :: s).take head.length)⟩
    | none => headFrom? (o + c.utf8Size) s

variable {head : AttributeHead} {p : HeadPlace}

/-- The beginning of an attribute stands in front of its value. -/
theorem exists_of_attributeHead? (h : attributeHead? rest = some head) :
    isQuote head.quote = true ∧ ∃ front, rest = front ++ head.rest ∧ front.length = head.length := by
  obtain ⟨name, -, h⟩ := List.exists_of_findSome?_eq_some h
  refine ⟨(headNamed?_suffix h).2, ?_⟩
  obtain ⟨⟨written, behind⟩, hname, h⟩ := Option.bind_eq_some_iff.1 h
  have hrest := afterName?_eq_append hname
  simp only at h
  split at h
  next lead hlead =>
    split at h
    next q value hvalue =>
      split at h
      next =>
        cases h
        have hbehind : behind = behind.takeWhile Text.isBlank ++ '=' :: lead := by
          rw [← hlead]
          exact List.takeWhile_append_dropWhile.symm
        have hlead' : lead = lead.takeWhile Text.isBlank ++ q :: value := by
          rw [← hvalue]
          exact List.takeWhile_append_dropWhile.symm
        refine ⟨written ++ (behind.takeWhile Text.isBlank ++ '=' :: (lead.takeWhile Text.isBlank ++ [q])), ?_, ?_⟩
        · simp only [List.append_assoc, List.cons_append, List.nil_append]
          rw [← hlead', ← hbehind]
          exact hrest
        · simp only [List.length_append, List.length_cons, List.length_nil, Text.blanksBefore]
          omega
      next => cases h
    next => cases h
  next => cases h

theorem toNat_of_isLetter {l : Char} (hl : l ∈ [':', 'c']) (h : isLetter l c = true) : c.toNat < 128 := by
  have hlower : c.toLower = l := by
    rw [isLetter, Bool.or_eq_true, beq_iff_eq] at h
    refine h.resolve_right fun hlong => ?_
    rw [Bool.and_eq_true, beq_iff_eq] at hlong
    exact absurd hl (hlong.1 ▸ by decide)
  have hsmall : c.toLower.toNat < 128 := by
    have hall : ∀ l ∈ [':', 'c'], l.toNat < 128 := by decide
    exact hlower ▸ hall l hl
  by_cases hupper : c.val ≥ 'A'.val ∧ c.val ≤ 'Z'.val
  · have hle : c.val.toNat ≤ 90 := UInt32.le_iff_toNat_le.1 hupper.2
    exact Nat.lt_of_le_of_lt hle (by decide)
  · have hsame : c.toLower = c := dif_neg hupper
    rwa [hsame] at hsmall

/-- An attribute begins with a character of ASCII. -/
theorem toNat_of_attributeHead? {s : List Char} (h : attributeHead? (c :: s) = some head) : c.toNat < 128 := by
  by_cases hcolon : isLetter ':' c = true
  · exact toNat_of_isLetter (by decide) hcolon
  · by_cases hletter : isLetter 'c' c = true
    · exact toNat_of_isLetter (by decide) hletter
    · rw [attributeHead?_of_head ⟨Bool.eq_false_iff.2 hcolon, Bool.eq_false_iff.2 hletter⟩] at h
      cases h

theorem classAttribute?_of_no_head {s : List Char} (h : attributeHead? s = none) : classAttribute? s = none := by
  rw [classAttribute?, h]
  rfl

theorem attributeHead?_of_headFrom?_none (h : headFrom? i rest = none) :
    ∀ x c y, rest = x ++ c :: y → attributeHead? (c :: y) = none := by
  induction rest generalizing i with
  | nil => exact fun x c y hrest => absurd hrest (by simp)
  | cons d s ih =>
    rw [headFrom?] at h
    split at h
    next => cases h
    next hnone =>
      intro x c y hrest
      cases x with
      | nil =>
        cases hrest
        exact hnone
      | cons e x =>
        cases hrest
        exact ih h x c y rfl

/-- The first beginning of an attribute: none begins in front of it, and its value stands behind it. -/
theorem exists_of_headFrom?_some (h : headFrom? i rest = some p) :
    ∃ x c y front head, rest = x ++ c :: y ∧ (∀ u d v, x = u ++ d :: v → attributeHead? (d :: v ++ c :: y) = none) ∧
      attributeHead? (c :: y) = some head ∧ c :: y = front ++ head.rest ∧ front.length = head.length ∧
      p = ⟨head.kind, head.quote, i + Text.byteSize x, i + Text.byteSize x + Text.byteSize front⟩ := by
  induction rest generalizing i with
  | nil => cases h
  | cons d s ih =>
    rw [headFrom?] at h
    split at h
    next head hhead =>
      cases h
      obtain ⟨-, front, hfront, hlength⟩ := exists_of_attributeHead? hhead
      refine ⟨[], d, s, front, head, rfl, fun u e v hu => absurd hu (by simp), hhead, hfront, hlength, ?_⟩
      rw [hfront, ← hlength, List.take_left]
      rfl
    next hnone =>
      obtain ⟨x, c, y, front, head, rfl, hfirst, hhead, hfront, hlength, rfl⟩ := ih h
      refine ⟨d :: x, c, y, front, head, rfl, fun u e v hu => ?_, hhead, hfront, hlength, ?_⟩
      · cases u with
        | nil =>
          cases hu
          exact hnone
        | cons f u =>
          cases hu
          exact hfirst u e v rfl
      · simp only [Text.byteSize_cons, Nat.add_assoc]

/-- Behind the beginning of a value that is not closed the scan goes on with the next character. -/
theorem classAttributes_unclosed {s : List Char} (hhead : attributeHead? (c :: s) = some head)
    (hvalue : valueBefore? head.quote none head.rest = none) : classAttributes (c :: s) = classAttributes s := by
  have hnone : classAttribute? (c :: s) = none := by
    rw [classAttribute?, hhead, Option.bind_eq_bind, Option.bind_some, hvalue]
    rfl
  rw [classAttributes, classAttributes, Text.findAll_cons_of_none hnone]

/-- Behind a value the scan goes on behind its closing quote. -/
theorem classAttributes_closed {s front value r : List Char} (hhead : attributeHead? (c :: s) = some head)
    (hvalue : valueBefore? head.quote none head.rest = some value) (hlength : front.length = head.length)
    (hsplit : c :: s = front ++ (value ++ head.quote :: r)) :
    classAttributes (c :: s) = ⟨head.kind, value⟩ :: classAttributes r := by
  have hsome : classAttribute? (c :: s) = some (⟨head.kind, value⟩, head.length + value.length + 1) := by
    rw [classAttribute?, hhead, Option.bind_eq_bind, Option.bind_some, hvalue]
    rfl
  have hdrop : (c :: s).drop (head.length + value.length + 1) = r := by
    rw [hsplit, ← List.append_assoc, List.append_cons]
    exact List.drop_left' (by simp [hlength, Nat.add_assoc])
  rw [classAttributes, classAttributes, Text.findAll_of_some hsome (List.cons_ne_nil c s), hdrop]

/-! ## All attributes -/

/-- A round of the scan for attributes, which goes on behind the closing quote, or behind the first byte of a beginning
whose value is not closed. -/
def attributesRound (code : List Char) (t : Nat × List ClassAttribute) :
    Option (Round (Nat × List ClassAttribute) (List ClassAttribute)) := do
  match headFrom? t.1 (← from? code t.1) with
  | none => some (.done t.2)
  | some head =>
    match ← closingQuote? code head.quote head.stop with
    | none => some (.next (head.start + 1, t.2))
    | some close =>
      let value ← slice? code head.stop close
      some (.next (close + 1, t.2 ++ [⟨head.kind, value⟩]))

/-- Every round of the scan for attributes moves on, wherever it is. -/
theorem advances_attributesRound (code : List Char) : Text.Advances code Prod.fst (attributesRound code) := by
  intro t u h
  obtain ⟨behind, hbehind, h⟩ := Option.bind_eq_some_iff.1 h
  cases hfound : headFrom? t.1 behind with
  | none =>
    rw [hfound] at h
    cases h
  | some p =>
    rw [hfound] at h
    obtain ⟨x, c, y, front, head, rfl, -, hhead, hfront, -, rfl⟩ := exists_of_headFrom?_some hfound
    have hplace := (Text.from?_eq_some_iff.1 hbehind).append
    have hinside : t.1 < Text.byteSize code := Nat.lt_of_le_of_lt (Nat.le_add_right _ _) hplace.lt_byteSize
    have hstop := (hfront ▸ hplace).append
    have hclose := closingQuote?_eq (exists_of_attributeHead? hhead).1 hstop
    obtain ⟨close?, hclose', h⟩ := Option.bind_eq_some_iff.1 h
    obtain rfl := Option.some.inj (hclose.symm.trans hclose')
    cases hvalue : valueBefore? head.quote none head.rest with
    | none =>
      rw [hvalue] at h
      cases h
      refine ⟨hinside, ?_⟩
      dsimp only
      omega
    | some value =>
      rw [hvalue, Option.map_some] at h
      obtain ⟨cut, -, h⟩ := Option.bind_eq_some_iff.1 h
      cases h
      refine ⟨hinside, ?_⟩
      dsimp only
      omega

/-- The class attributes of a text, their values cut out of it. -/
def attributes? (code : List Char) : Option (List ClassAttribute) := loop (advances_attributesRound code) (0, [])

/-- The scan for attributes from an offset on comes to an end, with the attributes that stand behind it. -/
theorem loop_attributesRound (h : StandsAt code i rest) (before : List ClassAttribute) :
    loop (advances_attributesRound code) (i, before) = some (before ++ classAttributes rest) := by
  induction hn : rest.length using Nat.strong_induction_on generalizing rest i before with | _ n ih
  cases hfound : headFrom? i rest with
  | none =>
    have hround : attributesRound code (i, before) = some (.done before) := by
      simp only [attributesRound, h.from?, Option.bind_eq_bind, Option.bind_some, hfound]
    have hnone : classAttributes rest = [] := Text.findAll_eq_nil fun x c y hrest =>
      classAttribute?_of_no_head (attributeHead?_of_headFrom?_none hfound x c y hrest)
    rw [Text.loop_of_done hround, hnone, List.append_nil]
  | some p =>
    obtain ⟨x, c, y, front, head, rfl, hfirst, hhead, hfront, hlength, rfl⟩ := exists_of_headFrom?_some hfound
    have hplace := h.append
    have hstop := (hfront ▸ hplace).append
    have hclose := closingQuote?_eq (exists_of_attributeHead? hhead).1 hstop
    have hscan : classAttributes (x ++ c :: y) = classAttributes (c :: y) :=
      Text.findAll_append_of_none _ fun u d v hu => classAttribute?_of_no_head (hfirst u d v hu)
    rw [hscan]
    cases hvalue : valueBefore? head.quote none head.rest with
    | none =>
      rw [hvalue] at hclose
      have hround : attributesRound code (i, before) = some (.next (i + Text.byteSize x + 1, before)) := by
        simp only [attributesRound, h.from?, Option.bind_eq_bind, Option.bind_some, hfound, hclose, Option.map_none]
      have hshort : y.length < n := by
        rw [← hn, List.length_append, List.length_cons]
        omega
      rw [Text.loop_of_next hround, ih _ hshort (hplace.cons_ascii (toNat_of_attributeHead? hhead)) before rfl,
        classAttributes_unclosed hhead hvalue]
    | some value =>
      rw [hvalue] at hclose
      obtain ⟨r, hr⟩ := exists_of_valueBefore? hvalue
      rw [hr] at hstop
      have hround : attributesRound code (i, before) =
          some (.next (i + Text.byteSize x + Text.byteSize front + Text.byteSize value + 1,
            before ++ [⟨head.kind, value⟩])) := by
        simp only [attributesRound, h.from?, Option.bind_eq_bind, Option.bind_some, hfound, hclose, Option.map_some,
          hstop.slice?]
      have hsplit : c :: y = front ++ (value ++ head.quote :: r) := hr ▸ hfront
      have hshort : r.length < n := by
        rw [← hn, hsplit]
        simp only [List.length_append, List.length_cons]
        omega
      have hbehind := hstop.append.cons_ascii (toNat_of_isQuote (exists_of_attributeHead? hhead).1)
      rw [Text.loop_of_next hround, ih _ hshort hbehind _ rfl, classAttributes_closed hhead hvalue hlength hsplit,
        List.append_assoc, List.singleton_append]

theorem attributes?_eq (code : List Char) : attributes? code = some (classAttributes code) :=
  loop_attributesRound (StandsAt.start code) []

end ClientBuild.Markup
