import ClientBuild.Proofs.Markup.Element
import ClientBuild.Style.Sheet

/-!
# Selectors and class names agree

A selector and a class attribute name a class in two spellings: the selector has backslashes in front of
special characters.  Where the class is a utility, both get the same safe name (`selector_agrees`).  The
selector of a class that is no utility is renamed all the same, and then nothing has its name
(`selector_disagrees`).
-/

namespace ClientBuild.Style

/-- A character that a selector may escape. -/
def isSpecial (c : Char) : Bool := !(Text.isWordAscii c || c == '-')

/-- A class name and its spelling in a selector: some of its special characters are escaped. -/
inductive Spells : List Char → List Char → Prop where
  | nil : Spells [] []
  | plain (c : Char) {n s : List Char} : Spells n s → Spells (c :: n) (c :: s)
  | escaped {c : Char} {n s : List Char} : isSpecial c = true → Spells n s →
      Spells (c :: n) ('\\' :: c :: s)

theorem Spells.filter {n s : List Char} (h : Spells n s) :
    s.filter (· != '\\') = n.filter (· != '\\') := by
  induction h with
  | nil => rfl
  | plain c _ ih => rw [List.filter_cons, List.filter_cons, ih]
  | escaped hc _ ih =>
    rw [List.filter_cons_of_neg (by decide), List.filter_cons, List.filter_cons, ih]

/-- Characters that are not special are spelled as they are. -/
theorem Spells.prefix_of_word {w : List Char} : ∀ {n s : List Char}, (∀ c ∈ w, isSpecial c = false) →
    Spells n s → w <+: n → w <+: s := by
  induction w with
  | nil => exact fun _ _ _ => List.nil_prefix
  | cons c w ih =>
    intro n s hw h hfront
    obtain ⟨hc, hw⟩ := List.forall_mem_cons.1 hw
    obtain ⟨t, rfl⟩ := hfront
    cases h with
    | plain _ h => exact (List.prefix_cons_inj c).2 (ih hw h (List.prefix_append w t))
    | escaped hspecial _ =>
      rw [hspecial] at hc
      cases hc

theorem Spells.host_infix {n s : List Char} (h : Spells n s) (hn : ":host".toList <:+: n) :
    ":host".toList <:+: s := by
  have hword : ∀ c ∈ "host".toList, isSpecial c = false := by decide
  induction h with
  | nil => exact hn
  | plain c h ih =>
    rcases List.infix_cons_iff.1 hn with ⟨t, ht⟩ | hn
    · obtain ⟨rfl, rfl⟩ := List.cons.inj ht
      exact ((List.prefix_cons_inj ':').2 (h.prefix_of_word hword (List.prefix_append _ t))).isInfix
    · exact (ih hn).trans (List.suffix_cons c _).isInfix
  | escaped hc h ih =>
    rcases List.infix_cons_iff.1 hn with ⟨t, ht⟩ | hn
    · obtain ⟨rfl, rfl⟩ := List.cons.inj ht
      have := (List.prefix_cons_inj ':').2 (h.prefix_of_word hword (List.prefix_append _ t))
      exact this.isInfix.trans (List.suffix_cons '\\' _).isInfix
    · exact (ih hn).trans ((List.suffix_cons _ _).trans (List.suffix_cons '\\' _)).isInfix

/-- A class name as it may stand between the quotes of an attribute. -/
def IsPlainName (n : List Char) : Prop :=
  ∀ c ∈ n, Text.isBlank c = false ∧ Markup.isQuote c = false ∧ c ≠ '\\' ∧ c ≠ '<' ∧ c ≠ '>'

instance (n : List Char) : Decidable (IsPlainName n) :=
  inferInstanceAs (Decidable (∀ c ∈ n, _))

/-- A selector that is renamed names the class by the safe form of its name. -/
theorem encode_of_safeSelector {n s m : List Char} (hn : isUtility n = true) (hplain : IsPlainName n)
    (hspell : Spells n s) (hsafe : safeSelector ('.' :: s) = '.' :: m) (hchanged : m ≠ s) :
    SafeName.encode n = m := by
  have hblank : ' ' ∉ n := fun hmem => absurd (hplain _ hmem).1 (by decide)
  have hbackslash : n.filter (· != '\\') = n := List.filter_eq_self.2 fun c hc => by
    simpa using (hplain c hc).2.2.1
  have hkept (h : '.' :: s = '.' :: m) : False := hchanged (List.cons.inj h).2.symm
  rw [safeSelector] at hsafe
  split at hsafe
  next => exact (hkept hsafe).elim
  next =>
    by_cases hpass : SafeName.passesThrough ('.' :: s) = true
    · rw [SafeName.encode, if_pos hpass] at hsafe
      exact (hkept hsafe).elim
    · have hhost : ¬ ":host".toList <:+: n := fun h => by
        have := (hspell.host_infix h).trans (List.suffix_cons '.' s).isInfix
        rw [SafeName.passesThrough, Text.contains_iff.2 this, Bool.true_or] at hpass
        exact hpass rfl
      have hvariant : ¬ SafeName.darkVariant.toList <:+: '.' :: n := fun h =>
        hblank ((List.mem_cons.1 (h.subset (by decide : ' ' ∈ _))).resolve_left (by decide))
      have hfilter : ('.' :: s).filter (· != '\\') = '.' :: n := by
        rw [List.filter_cons_of_pos (by decide), hspell.filter, hbackslash]
      rw [SafeName.encode, if_neg hpass, hfilter, Text.replaceAll_eq_self hvariant,
        ← List.singleton_append, SafeName.replaceAllIn_append] at hsafe
      have hdot : SafeName.replaceAllIn SafeName.words ['.'] = ['.'] := by decide
      rw [hdot, List.singleton_append, List.cons.injEq] at hsafe
      rw [SafeName.encode_of_not_blank (not_passesThrough_of_isUtility hn hhost) hblank, hbackslash]
      exact hsafe.2

end ClientBuild.Style

namespace ClientBuild.Markup

open Style (isUtility IsPlainName Spells)

/-! ## The tag of a class -/

/-- A view up to the value of its class attribute. -/
def viewStart : List Char := "<view class=".toList

/-- A view with one class. -/
def viewOf (n : List Char) : List Char := viewStart ++ '"' :: (n ++ '"' :: ['>'])

/-- What stands behind the name of a class in the binding of a view. -/
def boundEnd : List Char := ": __isDark,\x7d\">".toList

/-- What stands in front of the name of a class in the binding of a view. -/
def boundStart : List Char := "<view  :class=\"\x7b".toList

/-- A view with a class for dark mode in its binding. -/
def boundView (m : List Char) : List Char := boundStart ++ '\'' :: (m ++ '\'' :: boundEnd)

/-- The only class attribute of the view. -/
theorem classAttributes_viewOf {n : List Char} (hn : IsPlainName n) : classAttributes (viewOf n) = [⟨.static, n⟩] :=
  classAttributes_classTag (n := "view".toList) ⟨by decide, by decide, by decide, by decide⟩ fun c hc =>
    ⟨(hn c hc).2.1, (hn c hc).2.2.1⟩

theorem classNames_viewOf {n : List Char} (hn : IsPlainName n) (hne : n ≠ []) :
    classNames (viewOf n) = [n] := by
  have hwords : Text.words n = [n] := Text.words_of_forall (fun c hc => (hn c hc).1) hne
  rw [classNames, classAttributes_viewOf hn, List.flatMap_singleton, attributeNamesOf]
  simp only [Text.words_trim, hwords]
  rfl

theorem utilitiesOf_viewOf {n : List Char} (hn : IsPlainName n) (hutility : isUtility n = true) :
    utilitiesOf (viewOf n) = [n] := by
  have hne : n ≠ [] := by
    obtain ⟨c, s, rfl, -⟩ := Style.exists_head_of_isUtility hutility
    exact List.cons_ne_nil c s
  rw [utilitiesOf, classNames_viewOf hn hne, List.filter_cons_of_pos hutility, List.filter_nil,
    List.mergeSort_singleton]

/-- The texts around the class of a view have no utility in them. -/
theorem not_infix_of_isUtility {n s : List Char} (hs : ∀ w ∈ s.tails.flatMap List.inits, isUtility w = false)
    (hn : isUtility n = true) : ¬ n <:+: s := by
  rintro ⟨a, b, rfl⟩
  have hmem : n ∈ (a ++ n ++ b).tails.flatMap List.inits :=
    List.mem_flatMap.2 ⟨n ++ b, (List.mem_tails _ _).2 ⟨a, by simp⟩, (List.mem_inits _ _).2 ⟨b, rfl⟩⟩
  rw [hs n hmem] at hn
  cases hn

theorem renamed_viewOf {n m : List Char} (hn : IsPlainName n) (hutility : isUtility n = true)
    (hm : Style.SafeName.encode n = m) (hne : m ≠ n) : renamed (viewOf n) = viewOf m := by
  have hquote : '"' ∉ n := fun hmem => absurd (hn _ hmem).2.1 (by decide)
  have hnil : n ≠ [] := by
    rintro rfl
    cases hutility
  have hopen : ¬ n <:+: viewStart := not_infix_of_isUtility (by decide +kernel) hutility
  have hclose : ¬ n <:+: ['>'] := not_infix_of_isUtility (by decide +kernel) hutility
  have hreplaced : replaceName (viewOf n) n = Text.replaceAll n m (viewOf n) := by
    rw [replaceName, hm, if_neg hne]
  rw [renamed, utilitiesOf_viewOf hn hutility, List.foldl_cons, List.foldl_nil, hreplaced, viewOf,
    Text.replaceAll_append_cons hquote, Text.replaceAll_append_cons hquote, Text.replaceAll_self hnil,
    Text.replaceAll_eq_self hopen, Text.replaceAll_eq_self hclose, viewOf]

/-- What a safe name that differs from the name is made of. -/
theorem isPlainName_encode {n m : List Char} (hn : IsPlainName n) (hm : Style.SafeName.encode n = m)
    (hne : m ≠ n) : IsPlainName m ∧ ':' ∉ m ∧ '-' ∈ m := by
  have hpass : Style.SafeName.passesThrough n = false := by
    rw [Bool.eq_false_iff]
    intro hpass
    rw [Style.SafeName.encode, if_pos hpass] at hm
    exact hne hm.symm
  have hword : ∀ c, Style.SafeName.isWordChar c = true → Text.isBlank c = false ∧ isQuote c = false ∧
      c ≠ '\\' ∧ c ≠ '<' ∧ c ≠ '>' := by
    have hall : ∀ c ∈ Style.SafeName.words.flatMap fun w => w.2.toList, Text.isBlank c = false ∧
        isQuote c = false ∧ c ≠ '\\' ∧ c ≠ '<' ∧ c ≠ '>' := by decide +kernel
    exact fun c hc => hall c (List.contains_iff_mem.1 hc)
  refine ⟨fun c hc => ?_, hm ▸ Style.SafeName.not_mem_encode hpass (by decide), ?_⟩
  · rw [← hm] at hc
    exact (Style.SafeName.mem_encode hc).elim (hn c) (hword c)
  · have hblank : ' ' ∉ n := fun hmem => absurd (hn _ hmem).1 (by decide)
    rw [Style.SafeName.encode_of_word hpass hblank fun hmem => (hn _ hmem).2.2.1 rfl] at hm
    rw [← hm]
    exact Style.SafeName.dash_mem_replaceAllIn (by decide) (by decide) (hm.trans_ne hne)

/-- The view with an empty binding. -/
def openView (m : List Char) : List Char := viewStart ++ '"' :: (m ++ '"' :: (emptyBinding ++ ['>']))

theorem withBinding_viewOf {m : List Char} (hm : ':' ∉ m) : withBinding (viewOf m) = openView m := by
  have hnone : Text.contains ":class=".toList (viewOf m) = false := by
    rw [Text.contains_eq_false_iff, viewOf, Text.infix_append_cons_iff (by decide),
      Text.infix_append_cons_iff (by decide)]
    rintro (h | h | h)
    · exact absurd h (Text.contains_eq_false_iff.1 (by decide))
    · exact hm (h.subset (by decide))
    · exact absurd h (Text.contains_eq_false_iff.1 (by decide))
  have hsplit : viewOf m = (viewStart ++ '"' :: (m ++ ['"'])) ++ ['>'] := by simp [viewOf]
  have hslash : Text.endsWith ['/', '>'] (viewOf m) = false := by
    rw [Bool.eq_false_iff, ne_eq, Text.endsWith_iff]
    rintro ⟨t, ht⟩
    have hlast : (t ++ ['/']) ++ ['>'] = (viewStart ++ '"' :: m ++ ['"']) ++ ['>'] := by
      rw [List.append_assoc]
      exact ht.trans (hsplit.trans (by simp))
    obtain ⟨-, hquote⟩ := List.append_inj' (List.append_cancel_right hlast) rfl
    cases hquote
  have hend : Text.endsWith ['>'] (viewOf m) = true := Text.endsWith_iff.2 ⟨_, hsplit.symm⟩
  rw [withBinding, hnone, insertBeforeClose, hslash, hend, hsplit, List.length_append,
    List.length_singleton, Nat.add_sub_cancel, List.take_left]
  simp [openView]

/-- A view without classes up to the value of its binding. -/
def bindingStart : List Char := "<view class=\"\" :class=\"".toList

theorem quote_not_mem {m : List Char} (hm : IsPlainName m) : '"' ∉ m := fun hmem =>
  absurd (hm _ hmem).2.1 (by decide)

/-- The empty binding of the view goes. -/
theorem dropEmptyAttributes_openView {m : List Char} (hm : IsPlainName m) (hdash : '-' ∈ m) :
    dropEmptyAttributes (openView m) = viewOf m := by
  obtain ⟨a, b, rfl⟩ := List.append_of_mem hdash
  have hquote := quote_not_mem hm
  rw [List.mem_append, List.mem_cons, not_or, not_or] at hquote
  have hsplit : openView (a ++ '-' :: b) =
      (viewStart ++ '"' :: a) ++ '-' :: ((b ++ ['"']) ++ (emptyBinding ++ ['>'])) := by
    simp [openView]
  have hfront : (viewStart ++ '"' :: a).count '"' ≤ 1 := by
    rw [List.count_append, List.count_cons_self, List.count_eq_zero_of_not_mem hquote.1,
      show viewStart.count '"' = 0 by decide]
  have hbehind : (b ++ ['"'] ++ ['>']).count '"' ≤ 1 := by
    rw [List.count_append, List.count_append, List.count_eq_zero_of_not_mem hquote.2.2]
    decide
  rw [hsplit, dropEmptyAttributes_append_cons (by decide), dropEmptyAttributes_of_count hfront,
    dropEmptyAttributes_emptyBinding (not_infix_of_count hbehind)]
  simp [viewOf]

/-- The class for dark mode is taken out of the view. -/
theorem replaceAll_openView {m : List Char} (hquote : '"' ∉ m) (hdash : '-' ∈ m) :
    Text.replaceAll m [] (openView m) = openView [] := by
  have hstart : ¬ m <:+: viewStart := fun h => absurd (h.subset hdash) (by decide)
  have hend : ¬ m <:+: emptyBinding ++ ['>'] := fun h => absurd (h.subset hdash) (by decide)
  rw [openView, Text.replaceAll_append_cons hquote, Text.replaceAll_append_cons hquote,
    Text.replaceAll_self (List.ne_nil_of_mem hdash), Text.replaceAll_eq_self hstart, Text.replaceAll_eq_self hend, openView]

/-- The empty binding of the view takes entries. -/
theorem bindDark_openView (entries : List Char) :
    bindDark entries (openView []) (classContents (openView [])) =
      (bindingStart ++ ['{']) ++ (entries ++ [',', '}', '"', '>']) := by
  have hcontents : classContents (openView []) = [[], ['{', '}']] := by decide +kernel
  have hobject : bindDark entries (openView []) [[], ['{', '}']] =
      Text.replaceAll ['{', '}'] ('{' :: entries ++ ',' :: ['}']) (openView []) := rfl
  have hsplit : openView [] = bindingStart ++ (['{', '}'] ++ ['"', '>']) := by decide
  have hbrace : '{' ∉ bindingStart := by decide
  have hend : Text.replaceAll ['{', '}'] ('{' :: entries ++ ',' :: ['}']) ['"', '>'] = ['"', '>'] := rfl
  rw [hcontents, hobject, hsplit, Text.replaceAll_append_of_not_start, Text.replaceAll_append (by decide),
    hend]
  · simp
  · intro y t hy hsuffix hfront
    obtain ⟨c, y, rfl⟩ := List.exists_cons_of_ne_nil hy
    obtain ⟨u, hu⟩ := hfront
    have hc : '{' = c := (List.cons.inj hu).1
    exact hbrace (hsuffix.subset (hc ▸ List.mem_cons_self))

theorem darkEntries_singleton (m : List Char) :
    darkEntries [m] ++ [',', '}', '"', '>'] = '\'' :: (m ++ '\'' :: boundEnd) := by
  have htail : "': __isDark".toList ++ [',', '}', '"', '>'] = '\'' :: boundEnd := by decide
  exact congrArg ('\'' :: ·) ((List.append_assoc m _ _).trans (congrArg (m ++ ·) htail))

/-- The empty class attribute in front of the binding goes. -/
theorem dropEmptyAttributes_bound {m : List Char} (hquote : '"' ∉ m) :
    dropEmptyAttributes ((bindingStart ++ ['{']) ++ '\'' :: (m ++ '\'' :: boundEnd)) = boundView m := by
  have hname : dropEmptyAttributes m = m :=
    dropEmptyAttributes_of_count (by rw [List.count_eq_zero_of_not_mem hquote]; decide)
  have hstart : dropEmptyAttributes (bindingStart ++ ['{']) = boundStart := by decide +kernel
  have hend : dropEmptyAttributes boundEnd = boundEnd := by decide +kernel
  rw [dropEmptyAttributes_append_cons (by decide) (bindingStart ++ ['{']),
    dropEmptyAttributes_append_cons (by decide) m, hname, hstart, hend, boundView]

/-- The view with a class whose safe name differs. -/
theorem rewrite_viewOf {n m d : List Char} (hn : IsPlainName n) (hutility : isUtility n = true)
    (hm : Style.SafeName.encode n = m) (hne : m ≠ n) :
    rewrite d (viewOf n) = viewOf m ∨ rewrite d (viewOf n) = boundView m := by
  have htext : withDarkTextClass d (viewOf n) = viewOf n := by
    have hview : isTextTag (viewOf n) = false := rfl
    rw [withDarkTextClass, hview, Bool.false_and, Bool.false_and, if_neg (by decide)]
  obtain ⟨hplain, hcolon, hdash⟩ := isPlainName_encode hn hm hne
  have hopen : withBinding (renamed (viewOf n)) = openView m := by
    rw [renamed_viewOf hn hutility hm hne, withBinding_viewOf hcolon]
  have hnames : darkNames (viewOf n) = [m].filter fun n => Text.startsWith darkStart n := by
    rw [darkNames, utilitiesOf_viewOf hn hutility, List.map_singleton, hm]
  rw [rewrite]
  by_cases hstart : Text.startsWith darkStart m = true
  · rw [List.filter_cons_of_pos hstart, List.filter_nil] at hnames
    have hquote := quote_not_mem hplain
    rw [transformNode_eq, htext, hnames, if_neg (by simp), unbound, hnames, List.foldl_cons, List.foldl_nil, hopen,
      replaceAll_openView hquote hdash, bindDark_openView, darkEntries_singleton]
    exact Or.inr (dropEmptyAttributes_bound hquote)
  · rw [List.filter_cons_of_neg hstart, List.filter_nil] at hnames
    rw [transformNode_of_light htext hnames, hopen]
    exact Or.inl (dropEmptyAttributes_openView hplain hdash)

/-! ## Pages -/

/-- A tag that names a class: in its class attribute, or in an entry for dark mode. -/
def CarriesClass (m g : List Char) : Prop := g = viewOf m ∨ g = boundView m

theorem CarriesClass.exists_eq {m g : List Char} (h : CarriesClass m g) (hm : IsPlainName m) :
    ∃ x, g = '<' :: 'v' :: x ∧ '<' ∉ 'v' :: x := by
  have hopen : '<' ∉ m := fun hmem => (hm _ hmem).2.2.2.1 rfl
  have hmem (front : List Char) {behind : List Char} {q q' : Char} (hfront : '<' ∉ front) (hq : '<' ≠ q) (hq' : '<' ≠ q')
      (hbehind : '<' ∉ behind) : '<' ∉ front ++ q :: (m ++ q' :: behind) := by
    simp only [List.mem_append, List.mem_cons, not_or]
    exact ⟨hfront, hq, hopen, hq', hbehind⟩
  rcases h with rfl | rfl
  · exact ⟨"iew class=".toList ++ '"' :: (m ++ '"' :: ['>']), rfl,
      hmem "view class=".toList (by decide) (by decide) (by decide) (by decide)⟩
  · exact ⟨"iew  :class=\"\x7b".toList ++ '\'' :: (m ++ '\'' :: boundEnd), rfl,
      hmem "view  :class=\"\x7b".toList (by decide) (by decide) (by decide) (by decide)⟩

theorem CarriesClass.not_script {m g : List Char} (h : CarriesClass m g) (hm : IsPlainName m) :
    ¬ "</script".toList <:+: g := by
  obtain ⟨x, rfl, hx⟩ := h.exists_eq hm
  intro hscript
  rcases List.infix_cons_iff.1 hscript with ⟨t, ht⟩ | hrest
  · exact absurd (List.cons.inj (List.cons.inj ht).2).1 (by decide)
  · exact hx (hrest.subset (by decide))

/-- A tag with another class is another text, behind whatever stands in front of it. -/
theorem CarriesClass.append_ne {m n g t u : List Char} (h : CarriesClass m g) (hm : IsPlainName m)
    (hn : IsPlainName n) (hne : m ≠ n) : t ++ g ≠ u ++ viewOf n := by
  intro heq
  obtain ⟨x, hx, hxmem⟩ := h.exists_eq hm
  obtain ⟨y, hy, hymem⟩ := CarriesClass.exists_eq (Or.inl rfl : CarriesClass n (viewOf n)) hn
  rw [hx, hy] at heq
  have htag : g = viewOf n := by
    rw [hx, hy, (Text.append_cons_inj_right hxmem hymem heq).2]
  rcases h with rfl | rfl
  · have hname : m ++ '"' :: ['>'] = n ++ '"' :: ['>'] :=
      (List.cons.inj (List.append_cancel_left htag)).2
    exact hne (List.append_cancel_right hname)
  · -- behind the name of the tag and a blank stands a blank, not the name of the attribute
    have hsix : (boundView m)[6]? = (viewOf n)[6]? := congrArg (·[6]?) htag
    exact absurd hsix (by decide : some ' ' ≠ some 'c')

/-- **A utility whose selector is renamed is renamed in the markup too**, to the same name: the page is
rewritten, and where the view with the class was stands a view that carries the new name. -/
theorem selector_agrees (st : StyleSettings) {page : List Char} {c : Cut} {n s m t : List Char}
    (hutility : isUtility n = true) (hplain : IsPlainName n) (hspell : Spells n s)
    (hsafe : Style.safeSelector ('.' :: s) = '.' :: m) (hchanged : m ≠ s) (hne : m ≠ n)
    (h : IsCut page c) (hd : '>' ∉ st.darkTextClass.toList) (hg : (t, viewOf n) ∈ c.tags) :
    ∃ out, transform? st page = some out ∧ ∃ a g b, out = a ++ (g ++ b) ∧ CarriesClass m g := by
  have hm : Style.SafeName.encode n = m := Style.encode_of_safeSelector hutility hplain hspell hsafe hchanged
  have hmplain : IsPlainName m := (isPlainName_encode hplain hm hne).1
  have hcarries : CarriesClass m (rewrite st.darkTextClass.toList (viewOf n)) :=
    rewrite_viewOf hplain hutility hm hne
  have hnodes : (templateNodes page).isEmpty = false := by
    rw [Bool.eq_false_iff, ne_eq, List.isEmpty_iff]
    intro hnil
    have hcut := h.nodes
    obtain ⟨ps, last⟩ := c
    cases ps with
    | nil => exact List.not_mem_nil hg
    | cons p ps =>
      rw [hnil] at hcut
      cases hcut
  have hdiffers : c.cleaned.image (rewrite st.darkTextClass.toList) ≠ page := fun heq =>
    hcarries.append_ne hmplain hplain hne
      (Cut.eq_of_image_eq h.all (fun p hp => ((h.all p hp).transformNode hd).dropEmptyAttributes)
        (heq.trans h.source.symm) hg)
  have hout := transform?_of_isCut h hd
  rw [hnodes, if_neg (by decide), if_neg hdiffers] at hout
  obtain ⟨a, b, hsplit⟩ := h.exists_append hd hout hg (hcarries.not_script hmplain)
  exact ⟨_, hout, a, _, b, hsplit, hcarries⟩

/-- A width of a half, which both sides write without a slash. -/
theorem selector_agrees_half :
    let n := "w-1/2".toList
    let s := "w-1\\/2".toList
    let m := "w-1-slash-2".toList
    let page := "<template><view class=\"w-1/2\"></view></template>".toList
    let c : Cut := ⟨[("<template>".toList, viewOf n)], "</view></template>".toList⟩
    (isUtility n = true ∧ IsPlainName n ∧ Spells n s ∧ Style.safeSelector ('.' :: s) = '.' :: m ∧
      m ≠ s ∧ m ≠ n ∧ IsCut page c ∧ '>' ∉ (StyleSettings.darkTextClass {}).toList ∧
      ("<template>".toList, viewOf n) ∈ c.tags) ∧
    ∃ out, transform? {} page = some out ∧ ∃ a g b, out = a ++ (g ++ b) ∧ CarriesClass m g := by
  intro n s m page c
  have hutility : isUtility n = true := by decide
  have hplain : IsPlainName n := by decide
  have hspell : Spells n s :=
    .plain 'w' (.plain '-' (.plain '1' (.escaped (by decide) (.plain '2' .nil))))
  have hsafe : Style.safeSelector ('.' :: s) = '.' :: m := by decide +kernel
  have hchanged : m ≠ s := by decide
  have hne : m ≠ n := by decide
  have hcut : IsCut page c := by
    refine ⟨by decide, fun p hp => ?_, by decide +kernel⟩
    rw [List.mem_singleton.1 hp]
    exact ⟨"view class=\"w-1/2\"".toList, by decide, by decide⟩
  have hdark : '>' ∉ (StyleSettings.darkTextClass {}).toList := by decide
  have hmem : ("<template>".toList, viewOf n) ∈ c.tags := List.mem_singleton.2 rfl
  exact ⟨⟨hutility, hplain, hspell, hsafe, hchanged, hne, hcut, hdark, hmem⟩,
    selector_agrees {} hutility hplain hspell hsafe hchanged hne hcut hdark hmem⟩

/-- A negative margin is renamed in the selector only: the markup takes it for no utility. -/
theorem selector_disagrees :
    Style.safeSelector ".-mt-1\\/2".toList = ".-mt-1-slash-2".toList ∧
      transform? {} "<template><view class=\"-mt-1/2\"></view></template>".toList = none := by
  decide +kernel

end ClientBuild.Markup
