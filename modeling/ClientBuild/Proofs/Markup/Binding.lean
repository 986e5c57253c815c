import ClientBuild.Proofs.Markup.Element
import ClientBuild.Proofs.Markup.Literals
import ClientBuild.Proofs.Markup.Renaming

/-!
# Bindings of arrays

A tag that binds an array of names, objects and conditionals keeps the array and everything around it, and each utility
that is a string of the array becomes its safe name (`array_binding_renamed`).  A name behind a comma must not stand in
front of a string that has a colon behind it, or the pattern for keys runs from the one to the other and what it finds
may be taken for a utility (`array_binding_broken`).
-/

namespace ClientBuild.Markup

open Style (isUtility)
open Style.SafeName (encode)
open Text (isBlank)

/-! ## Arrays -/

/-- A branch of a conditional: a class name in quotes, or an identifier. -/
inductive Branch where
  | name (quote : Char) (name : List Char)
  | value (identifier : List Char)
deriving DecidableEq

/-- An entry of an object: a class name in quotes and the identifier that it depends on. -/
structure Entry where
  quote : Char
  name : List Char
  value : List Char
deriving DecidableEq

/-- An element of an array that binds classes. -/
inductive Element where
  | name (quote : Char) (name : List Char)
  | object (entries : List Entry)
  | choice (condition : List Char) (yes no : Branch)
deriving DecidableEq

/-- The parts of a series: a sign in front of each item, which is a comma from the second one on. -/
def series {α : Type} (shapes : Char → α → List Shape) (lead : Char) : List α → List Shape
  | [] => [.token [lead]]
  | a :: as => shapes lead a ++ as.flatMap (shapes ',')

/-- The parts of a branch. -/
def Branch.shapes (lead : Char) : Branch → List Shape
  | .name q n => [.string lead q n]
  | .value w => [.token [lead], .token w]

/-- The parts of an entry. -/
def Entry.shapes (lead : Char) (e : Entry) : List Shape :=
  [.string lead e.quote e.name, .token [':'], .token e.value]

/-- The parts of an element. -/
def Element.shapes (lead : Char) : Element → List Shape
  | .name q n => [.string lead q n]
  | .object es => .token [lead] :: (series Entry.shapes '\x7b' es ++ [.token ['\x7d']])
  | .choice c yes no => .token [lead] :: .token c :: (yes.shapes '?' ++ no.shapes ':')

/-- The parts of an array, in front of the bracket that ends it. -/
def arrayShapes (es : List Element) : List Shape := series Element.shapes '[' es

/-- Is the element a class name? -/
def Element.IsName : Element → Prop
  | .name _ _ => True
  | _ => False

/-- Has no string of the element a colon behind it? -/
def Element.IsColonless : Element → Prop
  | .name _ _ => True
  | .object es => es = []
  | .choice _ (.name _ _) _ => False
  | .choice _ (.value _) _ => True

instance : (e : Element) → Decidable e.IsName
  | .name _ _ => isTrue trivial
  | .object _ => isFalse id
  | .choice _ _ _ => isFalse id

instance : (e : Element) → Decidable e.IsColonless
  | .name _ _ => isTrue trivial
  | .object es => inferInstanceAs (Decidable (es = []))
  | .choice _ (.name _ _) _ => isFalse id
  | .choice _ (.value _) _ => isTrue trivial

/-- Does no name behind a comma stand in front of a string with a colon behind it? -/
def IsOrdered (es : List Element) : Prop := (es.drop 1).Pairwise fun e e' => e.IsName → e'.IsColonless

instance (es : List Element) : Decidable (IsOrdered es) :=
  inferInstanceAs (Decidable ((es.drop 1).Pairwise fun e e' => e.IsName → e'.IsColonless))

variable {ss : List Shape} {c : Char}

theorem opening_series {α : Type} {shapes : Char → α → List Shape} (hshapes : ∀ c a ss, opening (shapes c a ++ ss) = c)
    (as : List α) (ss : List Shape) : opening (series shapes c as ++ ss) = c := by
  cases as with
  | nil => rfl
  | cons a as => rw [series, List.append_assoc, hshapes]

theorem Element.opening_shapes (e : Element) (ss : List Shape) : opening (e.shapes c ++ ss) = c := by
  cases e <;> rfl

theorem closes_flatMap (es : List Element) : Closes (es.flatMap (Element.shapes ',')) := by
  cases es with
  | nil => exact List.mem_cons_self
  | cons e es =>
    rw [List.flatMap_cons, Closes, e.opening_shapes]
    decide

theorem Closes.opening_ne (h : Closes ss) : opening ss ≠ ':' := by
  intro hcolon
  rw [Closes, hcolon] at h
  exact absurd h (by decide)

/-! ## Their strings are arranged -/

theorem Entry.arranged (e : Entry) (hcloses : Closes ss) (hss : Arranged ss) : Arranged (e.shapes c ++ ss) :=
  ⟨⟨Or.inr (Or.inr ⟨_, _, rfl, hcloses⟩), fun _ => ⟨_, rfl⟩, fun _ => Or.inl ⟨_, rfl⟩⟩, hss⟩

theorem arranged_entries (hcloses : Closes ss) (hss : Arranged ss) (es : List Entry) :
    Closes (es.flatMap (Entry.shapes ',') ++ ss) ∧ Arranged (es.flatMap (Entry.shapes ',') ++ ss) := by
  induction es with
  | nil => exact ⟨hcloses, hss⟩
  | cons e es ih =>
    rw [List.flatMap_cons, List.append_assoc]
    exact ⟨List.mem_cons_of_mem _ List.mem_cons_self, e.arranged ih.1 ih.2⟩

theorem arranged_object (es : List Entry) (hss : Arranged ss) :
    Arranged (series Entry.shapes '\x7b' es ++ .token ['\x7d'] :: ss) := by
  have hend : Closes (.token ['\x7d'] :: ss) := List.mem_cons_of_mem _ (List.mem_cons_of_mem _ List.mem_cons_self)
  cases es with
  | nil => exact hss
  | cons e es =>
    obtain ⟨hcloses, harranged⟩ := arranged_entries hend hss es
    rw [series, List.append_assoc]
    exact e.arranged hcloses harranged

theorem Branch.arranged_no (b : Branch) (hcloses : Closes ss) (hss : Arranged ss) : Arranged (b.shapes ':' ++ ss) := by
  cases b with
  | name q n => exact ⟨⟨Or.inl hcloses, fun h => absurd h (by decide), fun h => absurd h (by decide)⟩, hss⟩
  | value w => exact hss

/-- The other branch stands behind the first one. -/
theorem Branch.arranged_yes (yes no : Branch) (hcloses : Closes ss) (hss : Arranged ss) :
    Arranged (yes.shapes '?' ++ (no.shapes ':' ++ ss)) := by
  have hno := no.arranged_no hcloses hss
  cases yes with
  | name q n =>
    refine ⟨⟨Or.inr ?_, fun h => absurd h (by decide), fun h => absurd h (by decide)⟩, hno⟩
    cases no with
    | name q' n' => exact Or.inl ⟨q', n', ss, rfl⟩
    | value w => exact Or.inr ⟨w, ss, rfl, hcloses⟩
  | value w => exact hno

theorem Element.arranged (e : Element) (hc : c ≠ '\x7b') (hname : e.IsName → c = ',' → NoColon ss)
    (hcloses : Closes ss) (hss : Arranged ss) : Arranged (e.shapes c ++ ss) := by
  cases e with
  | name q n =>
    refine ⟨⟨Or.inl hcloses, fun hbrace => absurd hbrace hc, fun hcomma => Or.inr ?_⟩, hss⟩
    exact ⟨hcloses.opening_ne, hname trivial hcomma⟩
  | object es =>
    have := arranged_object es hss
    simpa [Element.shapes, Arranged] using this
  | choice w yes no =>
    have := Branch.arranged_yes yes no hcloses hss
    simpa [Element.shapes, Arranged] using this

theorem Element.noColon (e : Element) (he : e.IsColonless) (hcloses : Closes ss) (hss : NoColon ss) :
    NoColon (e.shapes c ++ ss) := by
  cases e with
  | name q n => exact ⟨hcloses.opening_ne, hss⟩
  | object es =>
    have hnil : es = [] := he
    subst hnil
    exact hss
  | choice w yes no =>
    cases yes with
    | name q n => exact absurd he id
    | value v =>
      cases no with
      | name q n => exact ⟨hcloses.opening_ne, hss⟩
      | value u => exact hss

theorem noColon_flatMap {es : List Element} (hes : ∀ e ∈ es, e.IsColonless) :
    NoColon (es.flatMap (Element.shapes ',')) := by
  induction es with
  | nil => trivial
  | cons e es ih =>
    obtain ⟨he, hes⟩ := List.forall_mem_cons.1 hes
    exact e.noColon he (closes_flatMap es) (ih hes)

theorem arranged_flatMap {es : List Element} (hes : es.Pairwise fun e e' => e.IsName → e'.IsColonless) :
    Arranged (es.flatMap (Element.shapes ',')) := by
  induction es with
  | nil => trivial
  | cons e es ih =>
    obtain ⟨he, hes⟩ := List.pairwise_cons.1 hes
    have hcolon : e.IsName → NoColon (es.flatMap (Element.shapes ',')) := fun hname =>
      noColon_flatMap fun e' he' => he e' he' hname
    exact e.arranged (by decide) (fun hname _ => hcolon hname) (closes_flatMap es) (ih hes)

/-- The strings of an ordered array are arranged. -/
theorem arranged_arrayShapes {es : List Element} (hes : IsOrdered es) : Arranged (arrayShapes es) := by
  cases es with
  | nil => trivial
  | cons e es =>
    have hfirst : e.IsName → '[' = ',' → NoColon (es.flatMap (Element.shapes ',')) := fun _ hcomma =>
      absurd hcomma (by decide)
    exact e.arranged (by decide) hfirst (closes_flatMap es) (arranged_flatMap hes)

/-! ## Tags that bind an array -/

/-- The safe form of a utility; other names stay. -/
def safeName (n : List Char) : List Char := if isUtility n then encode n else n

/-- What is left of a name if utilities are left out whose safe form differs. -/
def keptName (n : List Char) : List Char := if safeName n = n then n else []

/-- A tag with an array in it, in pieces. -/
structure ArrayTag where
  front : List Char
  elements : List Element
  pieces : List Piece
  back : List Char
  sound : ∀ p ∈ pieces, p.IsSound
  shapes : pieces.map Piece.shape = arrayShapes elements

/-- The text of the tag with the names of the array replaced. -/
def ArrayTag.text (f : List Char → List Char) (g : ArrayTag) : List Char :=
  g.front ++ (textOf f g.pieces ++ ']' :: g.back)

/-- The tag as it is written. -/
def ArrayTag.source (g : ArrayTag) : List Char := g.text id

/-- A tag whose only class attribute binds its array.  No name is for dark mode, the array is ordered, and no name whose
safe form differs stands anywhere else in the tag. -/
structure ArrayTag.IsBinding (g : ArrayTag) : Prop where
  binding : ∃ l r, (∀ c ∈ l, isBlank c = true) ∧ (∀ c ∈ r, isBlank c = true) ∧
    classAttributes g.source = [⟨.dynamic, l ++ ((textOf id g.pieces ++ [']']) ++ r)⟩]
  filled : IsClean g.source
  light : ∀ n ∈ namesOf g.pieces, ¬ "dark:".toList <+: n
  ordered : IsOrdered g.elements
  free : ∀ n ∈ namesOf g.pieces, safeName n ≠ n → ¬ n <:+: g.text keptName

variable {g : ArrayTag} {ps : List Piece} {x z : List Char}

theorem safeName_ne {n : List Char} (h : safeName n ≠ n) :
    isUtility n = true ∧ encode n ≠ n ∧ Style.SafeName.passesThrough n = false := by
  rw [safeName] at h
  split at h
  next hutility =>
    refine ⟨hutility, h, Bool.eq_false_iff.2 fun hpass => h ?_⟩
    rw [encode, if_pos hpass]
  next => exact absurd rfl h

/-- The names of an array are replaced one by one, if nothing is replaced in the rest of the text. -/
theorem replaceEach_textOf {rs : List (List Char × List Char)}
    (hquote : ∀ r ∈ rs, ∀ c, isStringQuote c = true → c ∉ r.1) (hps : ∀ p ∈ ps, p.IsSound) (hnames : ∀ n ∈ namesOf ps, safeName n ≠ n → Text.replaceEach rs n = safeName n)
    (hfree : ∀ r ∈ rs, ¬ r.1 <:+: x ++ (textOf keptName ps ++ z)) :
    Text.replaceEach rs (x ++ (textOf id ps ++ z)) = x ++ (textOf safeName ps ++ z) := by
  induction ps generalizing x with
  | nil => exact Text.replaceEach_of_not_infix hfree
  | cons p ps ih =>
    obtain ⟨hp, hrest⟩ := List.forall_mem_cons.1 hps
    obtain ⟨shape, b, b'⟩ := p
    cases shape with
    | token w =>
      have hsplit (f : List Char → List Char) : x ++ (textOf f (⟨.token w, b, b'⟩ :: ps) ++ z) =
          (x ++ (w ++ b ++ b')) ++ (textOf f ps ++ z) := by
        simp [textOf_cons, Piece.text, Piece.front, Piece.quoted]
      rw [hsplit] at hfree ⊢
      rw [hsplit]
      exact ih hrest hnames hfree
    | string c q n =>
      have hsplit (f : List Char → List Char) : x ++ (textOf f (⟨.string c q n, b, b'⟩ :: ps) ++ z) =
          (x ++ c :: b) ++ q :: (f n ++ q :: (b' ++ (textOf f ps ++ z))) := by
        rw [textOf_string]
        simp
      rw [hsplit] at hfree ⊢
      have hq : ∀ r ∈ rs, q ∉ r.1 := fun r hr => hquote r hr q hp.shape.2.1
      have hparts : ∀ r ∈ rs, ¬ r.1 <:+: x ++ c :: b ∧ ¬ r.1 <:+: keptName n ∧
          ¬ r.1 <:+: b' ++ (textOf keptName ps ++ z) := fun r hr => by
        have := hfree r hr
        rwa [Text.infix_append_cons_iff (hq r hr), Text.infix_append_cons_iff (hq r hr), not_or, not_or] at this
      have hname : Text.replaceEach rs n = safeName n := by
        by_cases hkept : safeName n = n
        · have hstay : keptName n = n := if_pos hkept
          rw [Text.replaceEach_of_not_infix fun r hr => hstay ▸ (hparts r hr).2.1, hkept]
        · exact hnames n List.mem_cons_self hkept
      have hback := ih hrest (fun m hm => hnames m (List.mem_cons_of_mem n hm)) fun r hr => (hparts r hr).2.2
      rw [hsplit, Text.replaceEach_append_cons hq, Text.replaceEach_append_cons hq, hback, id, hname,
        Text.replaceEach_of_not_infix fun r hr => (hparts r hr).1]

/-- The utilities of the tag are those among the names of the array. -/
theorem ArrayTag.IsBinding.mem_utilitiesOf_iff (h : g.IsBinding) {n : List Char} :
    n ∈ utilitiesOf g.source ↔ n ∈ namesOf g.pieces ∧ isUtility n = true := by
  have harranged : Arranged (g.pieces.map Piece.shape) := g.shapes ▸ arranged_arrayShapes h.ordered
  obtain ⟨l, r, hl, hr, hbinding⟩ := h.binding
  have htrim : Text.trim (l ++ ((textOf id g.pieces ++ [']']) ++ r)) = textOf id g.pieces ++ [']'] := by
    obtain ⟨d, u, -, htext, hblank, -⟩ := exists_textOf_eq (f := id) g.sound
    refine (Text.trim_append_of_blank hl hr _).trans ?_
    rw [htext]
    exact Text.trim_eq_self hblank (show isBlank ']' = false by decide) htext.symm
  have hnames : classNames g.source = Text.distinct (dynamicNames (textOf id g.pieces ++ [']'])) := by
    rw [classNames, hbinding, List.flatMap_singleton, attributeNamesOf]
    simp only [htrim]
  rw [Markup.mem_utilitiesOf, hnames, Text.mem_distinct]
  constructor
  · rintro ⟨hmem, hutility⟩
    refine ⟨(eq_of_mem_dynamicNames g.sound harranged hmem).resolve_right ?_, hutility⟩
    rintro rfl
    exact absurd hutility (by decide)
  · rintro ⟨hmem, hutility⟩
    exact ⟨mem_dynamicNames g.sound harranged hmem, hutility⟩

theorem ArrayTag.IsBinding.renamed_eq (h : g.IsBinding) : renamed g.source = g.text safeName := by
  have hmem {r : List Char × List Char} (hr : r ∈ renamingsOf (utilitiesOf g.source)) :
      r.1 ∈ namesOf g.pieces ∧ safeName r.1 ≠ r.1 := by
    obtain ⟨hname, hutility⟩ := h.mem_utilitiesOf_iff.1 (mem_renamingsOf hr).1
    refine ⟨hname, ?_⟩
    rw [safeName, if_pos hutility]
    exact (mem_renamingsOf hr).2
  rw [Markup.renamed_eq, renamings_eq, ArrayTag.source, ArrayTag.text, ArrayTag.text]
  refine replaceEach_textOf (fun r hr c hc hin => ?_) g.sound (fun n hn hne => ?_) fun r hr =>
    h.free r.1 (hmem hr).1 (hmem hr).2
  · rw [((isBoundName_of_mem_namesOf g.sound (hmem hr).1).noQuotes c hin).2] at hc
    cases hc
  · obtain ⟨hutility, -, hpass⟩ := safeName_ne hne
    rw [safeName, if_pos hutility]
    exact replaceEach_name hpass (isBoundName_of_mem_namesOf g.sound hn).nonempty (pairwise_utilitiesOf _)
      (h.mem_utilitiesOf_iff.2 ⟨hn, hutility⟩)

theorem ArrayTag.IsBinding.darkNames_eq (h : g.IsBinding) : darkNames g.source = [] := by
  refine darkNames_eq_nil fun n hn => ?_
  have hname := (h.mem_utilitiesOf_iff.1 hn).1
  have hplain := (isBoundName_of_mem_namesOf g.sound hname).plain
  exact ⟨fun hmem => absurd (hplain _ hmem).1 (by decide), fun hmem => (hplain _ hmem).2.2 rfl, h.light n hname⟩

/-! ## Nothing to clean -/

theorem noQuotes_safeName {n : List Char} (h : IsBoundName n) : NoQuotes (safeName n) := by
  intro c hc
  rw [safeName] at hc
  split at hc
  next =>
    rcases Style.SafeName.mem_encode hc with hmem | hword
    · exact (h.noQuotes c hmem).2
    · cases hquote : isStringQuote c with
      | false => rfl
      | true =>
        rw [isStringQuote, Bool.or_eq_true, beq_iff_eq, beq_iff_eq] at hquote
        rcases hquote with rfl | rfl <;> exact absurd hword (by decide)
  next => exact (h.noQuotes c hc).2

/-- No empty attribute stands in an array: what is between two quotes has a sign in front of the second one. -/
theorem isClean_textOf {f : List Char → List Char} (hps : ∀ p ∈ ps, p.IsSound)
    (hf : ∀ n, IsBoundName n → NoQuotes (f n)) : IsClean (textOf f ps ++ [']']) := by
  rintro e he ⟨x, y, h⟩
  obtain ⟨u, m, rfl, -, ⟨u, rfl⟩, hm⟩ := exists_eq_quoted he
  have hsplit : textOf f ps ++ [']'] = (x ++ (u ++ "class=".toList) ++ '"' :: m) ++ '"' :: y := by
    rw [← h]
    simp [quoted]
  obtain ⟨front, p, back, i, j, rfl, hquoted, hx, -⟩ := exists_quoted (by decide) (by decide) hps hsplit
  have hp := hps p (List.mem_append_right _ List.mem_cons_self)
  have hfront {d : Char} (hd : d ∈ outsiders) : d ∉ p.front := hp.not_mem_front hd
  have hname : ∀ n ∈ p.shape.name?, NoQuotes (f n) := fun n hn => hf n (hp.isBoundName n hn)
  obtain ⟨c, n, b, b', rfl, ⟨rfl, -⟩ | ⟨rfl, -⟩⟩ := exists_quote hname (by decide) hquoted
  · -- The second quote opens a string, so the first one stands in front of its sign.
    rw [List.append_nil] at hx
    rcases Text.append_eq_append_cons hx.symm with ⟨w, -, hw⟩ | ⟨w, -, hw⟩
    · have hw : m = w ++ c :: b := hw
      have hsign : ∀ m ∈ emptyValues, ∀ c ∈ leads, c ∈ m → m = "\x7b\x7d".toList := by decide
      rw [hsign m hm c hp.shape.1 (hw ▸ List.mem_append_right w List.mem_cons_self)] at hw
      rcases w with _ | ⟨d, _ | ⟨e, w⟩⟩
      · have hblank := hp.inner '\x7d' (show '\x7d' ∈ b from (List.cons.inj hw).2 ▸ List.mem_cons_self)
        exact absurd hblank (by decide)
      · have hlead := hp.shape.1
        rw [← (List.cons.inj (List.cons.inj hw).2).1] at hlead
        exact absurd hlead (by decide)
      · have hlength := congrArg List.length hw
        simp at hlength
    · exact hfront (by decide) (hw ▸ List.mem_append_right w List.mem_cons_self)
  · -- The second quote closes a string, so the first one opens it, and the equals sign is in front of it.
    have hempty : ∀ m ∈ emptyValues, '"' ∉ m := by decide
    have hn : '"' ∉ f n := fun hmem => absurd (hname n rfl _ hmem) (by decide)
    rw [← List.append_assoc (textOf f front)] at hx
    obtain ⟨hopen, -⟩ := Text.append_cons_inj_right (hempty m hm) hn hx
    have hequal : '=' ∉ Piece.front ⟨.string c '"' n, b, b'⟩ := hfront (by decide)
    have hlast : (x ++ (u ++ "class".toList)) ++ ['='] = textOf f front ++ Piece.front ⟨.string c '"' n, b, b'⟩ := by
      rw [← hopen, List.append_assoc, List.append_assoc]
      rfl
    obtain ⟨v, -, hv⟩ := Text.exists_of_append_eq hlast.symm hequal
    exact absurd (List.append_eq_nil_iff.1 hv.symm).2 (List.cons_ne_nil c b)

theorem IsClean.of_infix {s t : List Char} (ht : IsClean t) (h : s <:+: t) : IsClean s := fun p hp hinside =>
  ht p hp (hinside.trans h)

theorem ArrayTag.exists_pieces (g : ArrayTag) (f : List Char → List Char) : ∃ r, textOf f g.pieces = '[' :: r := by
  obtain ⟨d, r, hopening, htext, -⟩ := exists_textOf_eq (f := f) g.sound
  rw [g.shapes, ← List.append_nil (arrayShapes g.elements), arrayShapes,
    opening_series fun _ e ss => e.opening_shapes ss] at hopening
  subst hopening
  cases hpieces : textOf f g.pieces with
  | nil =>
    rw [hpieces] at htext
    exact absurd (List.cons.inj htext).1 (by decide)
  | cons c r =>
    rw [hpieces] at htext
    exact ⟨r, by rw [(List.cons.inj htext).1]⟩

theorem ArrayTag.isClean_text {f : List Char → List Char} (hf : ∀ n, IsBoundName n → NoQuotes (f n))
    (h : IsClean g.source) : IsClean (g.text f) := by
  obtain ⟨r, hr⟩ := g.exists_pieces f
  have harray : IsClean (textOf f g.pieces ++ [']']) := isClean_textOf g.sound hf
  have hinner : IsClean r := harray.of_infix ⟨['['], [']'], by rw [hr]; rfl⟩
  have hfront : IsClean g.front := h.of_infix (List.prefix_append _ _).isInfix
  have hback : IsClean g.back := h.of_infix ⟨g.front ++ (textOf id g.pieces ++ [']']), [], by
    simp [ArrayTag.source, ArrayTag.text]⟩
  rw [ArrayTag.text, hr, List.cons_append]
  exact hfront.append_cons (by decide) (hinner.append_cons (by decide) hback)

/-! ## Rewritten arrays -/

/-- What rewriting a tag that binds an array leaves: the tag with safe names. -/
theorem ArrayTag.IsBinding.rewrite_eq {d : List Char} (h : g.IsBinding) (htag : IsTag g.source)
    (htext : withDarkTextClass d g.source = g.source) : rewrite d g.source = g.text safeName := by
  have hrenamed : IsTag (g.text safeName) := h.renamed_eq ▸ htag.renamed
  rw [rewrite, transformNode_of_light htext h.darkNames_eq, h.renamed_eq, dropEmptyAttributes_withBinding hrenamed
    (ArrayTag.isClean_text (fun _ => noQuotes_safeName) h.filled)]

/-- **An array keeps its structure**: in the rewritten page, a tag whose only class attribute binds an array of names,
objects and conditionals is the same tag with the safe name of each utility that is a string of the array. -/
theorem array_binding_renamed (st : StyleSettings) {page : List Char} {c : Cut} (hcut : IsCut page c)
    (hdark : '>' ∉ st.darkTextClass.toList) {t : List Char} (hg : (t, g.source) ∈ c.tags) (h : g.IsBinding)
    (htext : withDarkTextClass st.darkTextClass.toList g.source = g.source)
    (hscript : ¬ "</script".toList <:+: g.text safeName) :
    rewrite st.darkTextClass.toList g.source = g.text safeName ∧
      ∃ x y, (transform? st page).getD page = x ++ (g.text safeName ++ y) := by
  have hrewrite := h.rewrite_eq (hcut.all _ hg) htext
  refine ⟨hrewrite, ?_⟩
  cases hout : transform? st page with
  | some out =>
    obtain ⟨x, y, rfl⟩ := hcut.exists_append hdark hout hg (hrewrite.symm ▸ hscript)
    exact ⟨x, y, by rw [Option.getD_some, hrewrite]⟩
  | none =>
    rw [transform?_of_isCut hcut hdark, hcut.isEmpty_nodes (List.ne_nil_of_mem hg), if_neg (by decide)] at hout
    split at hout
    next hsame =>
      obtain ⟨x, y, himage⟩ := Cut.exists_image (f := rewrite st.darkTextClass.toList) hg
      exact ⟨x, y, by rw [Option.getD_none, ← hsame, himage, hrewrite]⟩
    next => cases hout

/-- A row that binds an array of names, a conditional and an object. -/
def rowTag : ArrayTag where
  front := "<view :class=\"".toList
  elements := [.name '\'' "card".toList, .choice ['c'] (.name '\'' "w-1/2".toList) (.name '\'' "p-[2]".toList),
    .object [⟨'\'', "md:flex".toList, ['f']⟩, ⟨'\'', "plain".toList, ['g']⟩], .name '\'' "hover:p-1".toList]
  pieces := [⟨.string '[' '\'' "card".toList, [], []⟩, ⟨.token [','], [' '], []⟩, ⟨.token ['c'], [' '], []⟩,
    ⟨.string '?' '\'' "w-1/2".toList, [' '], [' ']⟩, ⟨.string ':' '\'' "p-[2]".toList, [' '], []⟩,
    ⟨.token [','], [' '], []⟩, ⟨.string '\x7b' '\'' "md:flex".toList, [], []⟩, ⟨.token [':'], [' '], []⟩,
    ⟨.token ['f'], [], []⟩, ⟨.string ',' '\'' "plain".toList, [' '], []⟩, ⟨.token [':'], [' '], []⟩,
    ⟨.token ['g'], [], []⟩, ⟨.token ['\x7d'], [], []⟩, ⟨.string ',' '\'' "hover:p-1".toList, [' '], []⟩]
  back := "\">".toList
  sound := by decide +kernel
  shapes := by decide +kernel

/-- Each utility of the row gets its safe name, wherever it stands in the array. -/
theorem array_binding_renamed_row :
    let page := ("<template><view :class=\"['card', c ? 'w-1/2' : 'p-[2]', \x7b'md:flex': f, 'plain': g\x7d, " ++
      "'hover:p-1']\"></view></template>").toList
    let renamed := ("<view :class=\"['card', c ? 'w-1-slash-2' : 'p--bracket-start-2-bracket-end-', " ++
      "\x7b'md-colon-flex': f, 'plain': g\x7d, 'hover-colon-p-1']\">").toList
    let dark := StyleSettings.darkTextClass {} |>.toList
    let c : Cut := ⟨[("<template>".toList, rowTag.source)], "</view></template>".toList⟩
    (IsCut page c ∧ '>' ∉ dark ∧ ("<template>".toList, rowTag.source) ∈ c.tags ∧ rowTag.IsBinding ∧
      withDarkTextClass dark rowTag.source = rowTag.source ∧ ¬ "</script".toList <:+: rowTag.text safeName) ∧
    rowTag.text safeName = renamed ∧ rewrite dark rowTag.source = rowTag.text safeName ∧
      ∃ x y, (transform? {} page).getD page = x ++ (rowTag.text safeName ++ y) := by
  intro page renamed dark c
  have hcut : IsCut page c := by
    refine ⟨by decide +kernel, fun p hp => ?_, by decide +kernel⟩
    rw [List.mem_singleton.1 hp]
    exact ⟨(rowTag.source.drop 1).dropLast, by decide +kernel, by decide +kernel⟩
  have hdark : '>' ∉ dark := by decide
  have hmem : ("<template>".toList, rowTag.source) ∈ c.tags := List.mem_singleton.2 rfl
  have hbinding : rowTag.IsBinding := by
    refine ⟨⟨[], [], by decide, by decide, by decide +kernel⟩, by decide +kernel, by decide +kernel, by decide +kernel, ?_⟩
    decide +kernel
  have htext : withDarkTextClass dark rowTag.source = rowTag.source := by decide +kernel
  have hscript : ¬ "</script".toList <:+: rowTag.text safeName := by decide +kernel
  have hrenamed : rowTag.text safeName = renamed := by decide +kernel
  exact ⟨⟨hcut, hdark, hmem, hbinding, htext, hscript⟩, hrenamed,
    array_binding_renamed {} hcut hdark hmem hbinding htext hscript⟩

/-- A name behind a comma leads to a key behind it, and what stands between them is written out. -/
theorem array_binding_broken :
    transform? {} "<template><view :class=\"['a', 'p-2', \x7b'w-1': x\x7d]\"></view></template>".toList =
      some "<template><view :class=\"['a', 'p-2', -brace-start-'w-1': x\x7d]\"></view></template>".toList := by
  let view := "<view :class=\"['a', 'p-2', \x7b'w-1': x\x7d]\">".toList
  let c : Cut := ⟨[("<template>".toList, view)], "</view></template>".toList⟩
  have hcut : IsCut "<template><view :class=\"['a', 'p-2', \x7b'w-1': x\x7d]\"></view></template>".toList c := by
    refine ⟨by decide +kernel, fun p hp => ?_, by decide +kernel⟩
    rw [List.mem_singleton.1 hp]
    exact ⟨(view.drop 1).dropLast, by decide +kernel, by decide +kernel⟩
  have hutilities : utilitiesOf view = ["p-2', \x7b'w-1".toList, "p-2".toList, "w-1".toList] := by
    have hfound : (classNames view).filter isUtility = ["p-2', \x7b'w-1".toList, "p-2".toList, "w-1".toList] := by
      decide +kernel
    rw [utilitiesOf, hfound]
    exact List.mergeSort_of_pairwise (by decide)
  have htext : withDarkTextClass (StyleSettings.darkTextClass {}).toList view = view := by decide +kernel
  have hlight : darkNames view = [] := by
    rw [darkNames, hutilities]
    decide +kernel
  have hrewrite : rewrite (StyleSettings.darkTextClass {}).toList view =
      "<view :class=\"['a', 'p-2', -brace-start-'w-1': x\x7d]\">".toList := by
    rw [rewrite, transformNode_of_light htext hlight, renamed, hutilities]
    decide +kernel
  have himage : c.cleaned.image (rewrite (StyleSettings.darkTextClass {}).toList) =
      "<template><view :class=\"['a', 'p-2', -brace-start-'w-1': x\x7d]\"></view></template>".toList := by
    simp only [c, Cut.cleaned, Cut.image, List.map_cons, List.map_nil, List.flatMap_cons, List.flatMap_nil, hrewrite]
    decide +kernel
  rw [transform?_of_isCut hcut (by decide), hcut.isEmpty_nodes (List.cons_ne_nil _ _), if_neg (by decide), himage]
  decide +kernel

end ClientBuild.Markup
