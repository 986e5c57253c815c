import ClientBuild.Proofs.Markup.Cleaning
import ClientBuild.Proofs.Markup.Names
import ClientBuild.Proofs.Markup.Scan
import ClientBuild.Proofs.Style.SafeName

/-!
# Rewritten tags

Rewriting a tag gives a tag (`IsTag.transformNode`): no name that is replaced has its brackets, and neither
has what is put in.  So a rewritten page is its cut with each tag rewritten and cleaned, and the texts
between them cleaned (`transform?_of_isCut`).
-/

namespace ClientBuild.Markup

/-! ## Replacing in tags -/

theorem isTag_cons {x : List Char} (h : '>' ∉ x) : IsTag ('<' :: (x ++ ['>'])) := ⟨x, rfl, h⟩

/-- Replacing a text that has no brackets by one that has none keeps a tag. -/
theorem IsTag.replaceAll {g p r : List Char} (h : IsTag g) (hp : '>' ∉ p) (hstart : p.head? ≠ some '<')
    (hr : '>' ∉ r) : IsTag (Text.replaceAll p r g) := by
  obtain ⟨x, rfl, hx⟩ := h
  by_cases hnil : p = []
  · rw [hnil, Text.replaceAll_nil]
    exact isTag_cons hx
  have hfront : ¬ p <+: '<' :: (x ++ ['>']) := by
    rintro ⟨t, ht⟩
    obtain ⟨c, p, rfl⟩ := List.exists_cons_of_ne_nil hnil
    exact hstart (congrArg some (List.cons.inj ht).1)
  rw [Text.replaceAll_cons hfront, Text.replaceAll_append_cons hp]
  exact isTag_cons fun hmem => (Text.mem_replaceAll hmem).elim hx hr

theorem IsTag.replaceName {g n : List Char} (h : IsTag g) (hn : Style.isUtility n = true)
    (hmem : '>' ∉ n) : IsTag (replaceName g n) := by
  rw [Markup.replaceName]
  split
  next => exact h
  next =>
    refine h.replaceAll hmem ?_ fun hsafe => ?_
    · obtain ⟨c, s, rfl, hc⟩ := Style.exists_head_of_isUtility hn
      intro heq
      cases heq
      cases hc
    · exact (Style.SafeName.mem_encode hsafe).elim hmem (by decide)

/-- A text is inserted in front of the bracket, and of a slash in front of it. -/
theorem exists_insertBeforeClose (t x : List Char) :
    ∃ a b, x = a ++ b ∧ (b = [] ∨ b = ['/']) ∧
      insertBeforeClose t ('<' :: (x ++ ['>'])) = '<' :: (a ++ t ++ b ++ ['>']) := by
  rw [insertBeforeClose]
  split
  next hslash =>
    rw [Text.endsWith_iff] at hslash
    have hx : ∃ a, x = a ++ ['/'] := by
      obtain ⟨u, hu⟩ := hslash
      have hsplit : (u ++ ['/']) ++ ['>'] = ('<' :: x) ++ ['>'] := by rw [List.append_assoc]; exact hu
      have hx := List.append_cancel_right hsplit
      cases u with
      | nil => exact absurd (List.cons.inj hx).1 (by decide)
      | cons c u => exact ⟨u, (List.cons.inj hx).2.symm⟩
    obtain ⟨a, rfl⟩ := hx
    refine ⟨a, ['/'], rfl, Or.inr rfl, ?_⟩
    have hsplit : '<' :: (a ++ ['/'] ++ ['>']) = ('<' :: a) ++ ['/', '>'] := by simp
    have hsize : (('<' :: a) ++ ['/', '>']).length - 2 = ('<' :: a).length := by simp
    rw [hsplit, hsize, List.take_left]
    simp
  next =>
    have hends : Text.endsWith ['>'] ('<' :: (x ++ ['>'])) = true :=
      Text.endsWith_iff.2 ⟨'<' :: x, by simp⟩
    have hsplit : '<' :: (x ++ ['>']) = ('<' :: x) ++ ['>'] := by simp
    have hsize : (('<' :: x) ++ ['>']).length - 1 = ('<' :: x).length := by simp
    rw [if_pos hends, hsplit, hsize, List.take_left]
    exact ⟨x, [], (List.append_nil x).symm, Or.inl rfl, by simp⟩

theorem IsTag.insertBeforeClose {g t : List Char} (h : IsTag g) (ht : '>' ∉ t) :
    IsTag (insertBeforeClose t g) := by
  obtain ⟨x, rfl, hx⟩ := h
  obtain ⟨a, b, rfl, -, hinsert⟩ := exists_insertBeforeClose t x
  rw [hinsert]
  refine isTag_cons fun hmem => ?_
  simp only [List.mem_append, not_or] at hmem hx
  rcases hmem with (hmem | hmem) | hmem
  · exact hx.1 hmem
  · exact ht hmem
  · exact hx.2 hmem

/-- A tag is split behind a quote. -/
theorem eq_of_splitAtClassValue? : ∀ {s before value : List Char} {previous : Option Char},
    splitAtClassValue? previous s = some (before, value) →
      ∃ front q, before = front ++ ("class=".toList ++ [q]) ∧ s = before ++ value ∧ (q = '"' ∨ q = '\'')
  | [], _, _, _, h => by cases h
  | c :: s, before, value, previous, h => by
    rw [splitAtClassValue?] at h
    split at h
    next p hhere =>
      cases h
      obtain ⟨behind, hbehind, hhere⟩ := Option.bind_eq_some_iff.1 hhere
      split at hhere
      next q value' =>
        split at hhere
        next hq =>
          cases hhere
          refine ⟨[], q, rfl, ?_, ?_⟩
          · rw [Text.after?_eq_some_iff.1 hbehind]
            simp
          · simp only [Bool.and_eq_true, Bool.or_eq_true, beq_iff_eq] at hq
            exact hq.2
        next => cases hhere
      next => cases hhere
    next =>
      obtain ⟨⟨before', value'⟩, hrest, heq⟩ := Option.map_eq_some_iff.1 h
      cases heq
      obtain ⟨front, q, hfront, rfl, hq⟩ := eq_of_splitAtClassValue? hrest
      exact ⟨c :: front, q, by rw [hfront]; rfl, rfl, hq⟩

theorem isTextTag_eq {g : List Char} (h : isTextTag g = true) :
    ∃ s, g = "<text".toList ++ s ∧ s ≠ [] := by
  simp only [isTextTag] at h
  split at h
  next c s hafter => exact ⟨c :: s, Text.after?_eq_some_iff.1 hafter, List.cons_ne_nil c s⟩
  next => cases h

/-- A class is added in front of the others, or in an attribute of its own. -/
theorem exists_addDarkTextClass {x : List Char} (d : List Char)
    (htext : isTextTag ('<' :: (x ++ ['>'])) = true) :
    ∃ a b added, x = a ++ b ∧ addDarkTextClass d ('<' :: (x ++ ['>'])) = '<' :: (a ++ added ++ b ++ ['>']) ∧
      (added = d ++ [' '] ∨ added = " class=\"".toList ++ (d ++ ['"'])) := by
  rw [addDarkTextClass]
  split
  next before value hsplit =>
    obtain ⟨front, q, rfl, hs, hq⟩ := eq_of_splitAtClassValue? hsplit
    rcases List.eq_nil_or_concat value with rfl | ⟨v, c, rfl⟩
    · -- The tag would end with a quote.
      have hlast : ('<' :: x) ++ ['>'] = (front ++ "class=".toList) ++ [q] := by
        rw [List.append_nil] at hs
        rw [List.append_assoc]
        exact hs
      obtain ⟨-, hc⟩ := List.append_inj' hlast rfl
      cases hc
      rcases hq with hq | hq <;> exact absurd hq (by decide)
    · rw [List.concat_eq_append] at hs ⊢
      have hlast : ('<' :: x) ++ ['>'] = (front ++ ("class=".toList ++ [q]) ++ v) ++ [c] := by
        rw [List.append_assoc _ v]
        exact hs
      obtain ⟨hx, hc⟩ := List.append_inj' hlast rfl
      cases hc
      cases front with
      | nil =>
        have hclass : "class=".toList = 'c' :: "lass=".toList := by decide
        rw [hclass] at hx
        exact absurd (List.cons.inj hx).1 (by decide)
      | cons e front =>
        obtain ⟨he, hinner⟩ := List.cons.inj hx
        rw [← he]
        exact ⟨front ++ ("class=".toList ++ [q]), v, d ++ [' '], hinner, by simp, Or.inl rfl⟩
  next =>
    obtain ⟨s, hs, hne⟩ := isTextTag_eq htext
    have htag : "<text".toList = '<' :: "text".toList := by decide
    rcases List.eq_nil_or_concat s with rfl | ⟨s, c, rfl⟩
    · exact absurd rfl hne
    · rw [List.concat_eq_append] at hs
      have hlast : ('<' :: x) ++ ['>'] = ('<' :: ("text".toList ++ s)) ++ [c] := by
        rw [htag] at hs
        simpa using hs
      obtain ⟨hx, hc⟩ := List.append_inj' hlast rfl
      cases hc
      obtain ⟨-, rfl⟩ := List.cons.inj hx
      refine ⟨"text".toList, s, _, rfl, ?_, Or.inr rfl⟩
      have hdrop : ('<' :: ("text".toList ++ s ++ ['>'])).drop 5 = s ++ ['>'] := by
        have hsplit : '<' :: ("text".toList ++ s ++ ['>']) = "<text".toList ++ (s ++ ['>']) := by
          rw [htag]; simp
        rw [hsplit, show 5 = "<text".toList.length by decide, List.drop_left]
      have hopen : "<text class=\"".toList = '<' :: ("text".toList ++ " class=\"".toList) := by decide
      rw [hdrop, hopen]
      simp

theorem IsTag.addDarkTextClass {g d : List Char} (h : IsTag g) (htext : isTextTag g = true)
    (hd : '>' ∉ d) : IsTag (addDarkTextClass d g) := by
  obtain ⟨x, rfl, hx⟩ := h
  obtain ⟨a, b, added, rfl, heq, hadded⟩ := exists_addDarkTextClass d htext
  rw [heq]
  have hadded' : '>' ∉ added := by
    rcases hadded with rfl | rfl
    · simp [hd]
    · rw [List.mem_append, List.mem_append, not_or, not_or]
      exact ⟨by decide, hd, by decide⟩
  refine isTag_cons fun hmem => ?_
  simp only [List.mem_append, not_or] at hmem hx
  exact hmem.elim (fun h => h.elim hx.1 hadded') hx.2

theorem IsTag.withDarkTextClass {g d : List Char} (h : IsTag g) (hd : '>' ∉ d) :
    IsTag (withDarkTextClass d g) := by
  rw [Markup.withDarkTextClass]
  split
  next htext =>
    simp only [Bool.and_eq_true] at htext
    exact h.addDarkTextClass htext.1.1 hd
  next => exact h

/-- The entries of a binding have the characters of the names and few others. -/
theorem not_mem_darkEntries {c : Char} (hc : c ∉ "',: __isDark".toList) {names : List (List Char)}
    (h : ∀ n ∈ names, c ∉ n) : c ∉ darkEntries names := by
  have htail : "': __isDark".toList ⊆ "',: __isDark".toList := by decide
  intro hmem
  rcases Text.mem_join hmem with hmem | ⟨p, hp, hmem⟩
  · rw [List.mem_singleton.1 hmem] at hc
    exact hc (by decide)
  · obtain ⟨n, hn, rfl⟩ := List.mem_map.1 hp
    rw [List.mem_append, List.mem_cons] at hmem
    rcases hmem with (rfl | hmem) | hmem
    · exact hc (by decide)
    · exact h n hn hmem
    · exact hc (htail hmem)

theorem IsTag.bindDark {g entries : List Char} (h : IsTag g) (hentries : '>' ∉ entries)
    {contents : List (List Char)} (hcontents : ∀ c ∈ contents, '>' ∉ c) :
    IsTag (bindDark entries g contents) := by
  have hbind {g o r : List Char} {b : Char} (hg : IsTag g) (ho : '>' ∉ o)
      (hopen : Text.startsWith [b] o = true) (hb : b ≠ '<') (hr : '>' ∉ r) :
      IsTag (Text.replaceAll o r g) := by
    refine hg.replaceAll ho ?_ hr
    obtain ⟨t, rfl⟩ := Text.startsWith_iff.1 hopen
    intro heq
    exact hb (Option.some.inj heq)
  have hdrop {o : List Char} (ho : '>' ∉ o) : '>' ∉ o.drop 1 := fun hmem => ho (List.mem_of_mem_drop hmem)
  have hobject {o : List Char}
      (ho : contents.find? (fun c => Text.startsWith ['{'] c && Text.endsWith ['}'] c) = some o) :
      IsTag (Text.replaceAll o ('{' :: entries ++ ',' :: o.drop 1) g) := by
    have hmem := hcontents o (List.mem_of_find?_eq_some ho)
    have hshape := List.find?_some ho
    rw [Bool.and_eq_true] at hshape
    refine hbind h hmem hshape.1 (by decide) ?_
    simp only [List.cons_append, List.mem_cons, List.mem_append, not_or]
    exact ⟨by decide, hentries, by decide, hdrop hmem⟩
  have harray {g a : List Char} (hg : IsTag g)
      (ha : contents.find? (fun c => Text.startsWith ['['] c && Text.endsWith [']'] c) = some a) :
      IsTag (Text.replaceAll a ('[' :: '{' :: entries ++ '}' :: ',' :: a.drop 1) g) := by
    have hmem := hcontents a (List.mem_of_find?_eq_some ha)
    have hshape := List.find?_some ha
    rw [Bool.and_eq_true] at hshape
    refine hbind hg hmem hshape.1 (by decide) ?_
    simp only [List.cons_append, List.mem_cons, List.mem_append, not_or]
    exact ⟨by decide, by decide, hentries, by decide, by decide, hdrop hmem⟩
  rw [Markup.bindDark]
  cases ho : contents.find? fun c => Text.startsWith ['{'] c && Text.endsWith ['}'] c with
  | none =>
    cases ha : contents.find? fun c => Text.startsWith ['['] c && Text.endsWith [']'] c with
    | none => exact h
    | some a => exact harray h ha
  | some o =>
    cases ha : contents.find? fun c => Text.startsWith ['['] c && Text.endsWith [']'] c with
    | none => exact hobject ho
    | some a => exact harray (hobject ho) ha

/-! ## The steps of rewriting -/

/-- A tag with its utilities renamed. -/
def renamed (g : List Char) : List Char := (utilitiesOf g).foldl replaceName g

/-- A tag with a binding. -/
def withBinding (g : List Char) : List Char :=
  if Text.contains ":class=".toList g then g else insertBeforeClose emptyBinding g

/-- The safe names of the classes for dark mode that a tag mentions. -/
def darkNames (g : List Char) : List (List Char) :=
  ((utilitiesOf g).map Style.SafeName.encode).filter fun n => Text.startsWith darkStart n

/-- A tag with safe names, from which the classes for dark mode are taken out. -/
def unbound (g : List Char) : List Char :=
  (darkNames g).foldl (fun node n => Text.replaceAll n [] node) (withBinding (renamed g))

theorem transformNode_eq (d g : List Char) :
    transformNode d g =
      if (darkNames (withDarkTextClass d g)).isEmpty then unbound (withDarkTextClass d g)
      else bindDark (darkEntries (darkNames (withDarkTextClass d g))) (unbound (withDarkTextClass d g))
        (classContents (unbound (withDarkTextClass d g))) := by
  generalize hg : withDarkTextClass d g = g'
  have hsteps : transformNode d g =
      if (darkNames g').isEmpty then withBinding (renamed g')
      else bindDark (darkEntries (darkNames g')) (unbound g') (classContents (unbound g')) := by
    rw [transformNode, hg]
    rfl
  rw [hsteps]
  split
  next hempty => rw [unbound, List.isEmpty_iff.1 hempty, List.foldl_nil]
  next => rfl

/-- A tag without classes for dark mode gets safe names and a binding. -/
theorem transformNode_of_light {d g : List Char} (htext : withDarkTextClass d g = g) (hlight : darkNames g = []) :
    transformNode d g = withBinding (renamed g) := by
  rw [transformNode_eq, htext, hlight, if_pos List.isEmpty_nil, unbound, hlight, List.foldl_nil]

theorem isUtility_of_mem_utilitiesOf {g n : List Char} (h : n ∈ utilitiesOf g) :
    Style.isUtility n = true ∧ n ∈ classNames g := by
  have := List.mem_mergeSort.1 h
  rw [List.mem_filter] at this
  exact this.symm

theorem IsTag.not_mem_darkNames {g n : List Char} (h : IsTag g) (hn : n ∈ darkNames g) : '>' ∉ n := by
  obtain ⟨m, hm, rfl⟩ := List.mem_map.1 (List.mem_of_mem_filter hn)
  exact fun hmem => (Style.SafeName.mem_encode hmem).elim
    (h.not_mem_of_mem_classNames (isUtility_of_mem_utilitiesOf hm).2) (by decide)

theorem IsTag.renamed {g : List Char} (h : IsTag g) : IsTag (renamed g) := by
  have hfold : ∀ (ns : List (List Char)), (∀ n ∈ ns, Style.isUtility n = true ∧ '>' ∉ n) →
      ∀ {g : List Char}, IsTag g → IsTag (ns.foldl Markup.replaceName g) := by
    intro ns
    induction ns with
    | nil => exact fun _ _ h => h
    | cons n ns ih =>
      intro hns g hg
      obtain ⟨⟨hn, hmem⟩, hns⟩ := List.forall_mem_cons.1 hns
      exact ih hns (hg.replaceName hn hmem)
  refine hfold _ (fun n hn => ?_) h
  obtain ⟨hutility, hname⟩ := isUtility_of_mem_utilitiesOf hn
  exact ⟨hutility, h.not_mem_of_mem_classNames hname⟩

theorem IsTag.withBinding {g : List Char} (h : IsTag g) : IsTag (withBinding g) := by
  rw [Markup.withBinding]
  split
  next => exact h
  next => exact h.insertBeforeClose (by decide)

theorem head?_of_mem_darkNames {g n : List Char} (h : n ∈ darkNames g) : n.head? = some 'd' := by
  obtain ⟨-, hstart⟩ := List.mem_filter.1 h
  obtain ⟨t, rfl⟩ := Text.startsWith_iff.1 hstart
  rfl

theorem IsTag.unbound {g : List Char} (h : IsTag g) : IsTag (unbound g) := by
  have hfold : ∀ (ns : List (List Char)), (∀ n ∈ ns, n ∈ darkNames g) →
      ∀ {g' : List Char}, IsTag g' → IsTag (ns.foldl (fun node n => Text.replaceAll n [] node) g') := by
    intro ns
    induction ns with
    | nil => exact fun _ _ h => h
    | cons n ns ih =>
      intro hns g' hg'
      obtain ⟨hn, hns⟩ := List.forall_mem_cons.1 hns
      refine ih hns (hg'.replaceAll (h.not_mem_darkNames hn) ?_ List.not_mem_nil)
      rw [head?_of_mem_darkNames hn]
      decide
  exact hfold _ (fun _ hn => hn) h.renamed.withBinding

/-- Rewriting a tag gives a tag. -/
theorem IsTag.transformNode {g d : List Char} (h : IsTag g) (hd : '>' ∉ d) : IsTag (transformNode d g) := by
  have hg := h.withDarkTextClass hd
  rw [transformNode_eq]
  split
  next => exact hg.unbound
  next =>
    refine hg.unbound.bindDark (not_mem_darkEntries (by decide) fun n hn => hg.not_mem_darkNames hn) fun c hc => ?_
    obtain ⟨a, ha, hinside⟩ := infix_of_mem_classContents hc
    exact fun hmem => hg.unbound.not_mem_value ha (hinside.subset hmem)

/-! ## Rewritten pages -/

/-- A tag rewritten and cleaned. -/
def rewrite (d g : List Char) : List Char := dropEmptyAttributes (transformNode d g)

/-- A page rewritten is its cut with the tags rewritten and the texts between them cleaned. -/
theorem transform?_of_all {st : StyleSettings} {page : List Char} {c : Cut} (h : IsCut page c)
    (hall : c.All fun g => IsTag (transformNode st.darkTextClass.toList g)) :
    transform? st page =
      if (templateNodes page).isEmpty then none
      else if c.cleaned.image (rewrite st.darkTextClass.toList) = page then none
      else some (withDarkImport (c.cleaned.image (rewrite st.darkTextClass.toList))) := by
  have himage := dropEmptyAttributes_image (f := transformNode st.darkTextClass.toList) (c := c) hall
  rw [transform?]
  simp only [h.splice, himage]
  rfl

theorem transform?_of_isCut {st : StyleSettings} {page : List Char} {c : Cut} (h : IsCut page c)
    (hd : '>' ∉ st.darkTextClass.toList) :
    transform? st page =
      if (templateNodes page).isEmpty then none
      else if c.cleaned.image (rewrite st.darkTextClass.toList) = page then none
      else some (withDarkImport (c.cleaned.image (rewrite st.darkTextClass.toList))) :=
  transform?_of_all h fun p hp => (h.all p hp).transformNode hd

end ClientBuild.Markup
