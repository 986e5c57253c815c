import ClientBuild.Proofs.Markup.Cut
import ClientBuild.Proofs.Text.Distinct

/-!
# Where class names come from

Whatever is taken for a class name is made of characters of the value of an attribute
(`subset_of_mem_attributeNamesOf`), and a value is closed by a quote, so no name has a closing angle bracket
in a tag (`IsTag.not_mem_of_mem_classNames`).
-/

namespace ClientBuild.Text

theorem dropWhile_subset (p : Char → Bool) (s : List Char) : s.dropWhile p ⊆ s :=
  (List.dropWhile_sublist p).subset

theorem takeWhile_subset (p : Char → Bool) (s : List Char) : s.takeWhile p ⊆ s :=
  (List.takeWhile_sublist p).subset

theorem trimLeft_subset (s : List Char) : trimLeft s ⊆ s := dropWhile_subset _ s

theorem subset_of_mem_words {w s : List Char} (h : w ∈ words s) : w ⊆ s :=
  (infix_of_mem_words h).subset

end ClientBuild.Text

namespace ClientBuild.Markup

open Text (Pattern)

/-! ## Strings in expressions -/

/-- A pattern that finds texts made of characters of what it reads. -/
def TakesFrom (m : Pattern (List Char)) : Prop := ∀ s v n, m s = some (v, n) → v ⊆ s

theorem TakesFrom.mem_findAll {m : Pattern (List Char)} (hm : TakesFrom m) {s v : List Char}
    (h : v ∈ Text.findAll m s) : v ⊆ s := by
  obtain ⟨front, rest, n, rfl, hrest⟩ := Text.exists_of_mem_findAll h
  exact fun _ hc => List.mem_append_right front (hm _ _ _ hrest hc)

theorem TakesFrom.mem_findAllFrom {m : Pattern (List Char)} (hm : TakesFrom m) {k : Nat}
    {s v : List Char} (h : v ∈ Text.findAllFrom m k s) : v ⊆ s := by
  obtain ⟨front, rest, n, rfl, hrest⟩ := Text.exists_of_mem_findAllFrom h
  exact fun _ hc => List.mem_append_right front (hm _ _ _ hrest hc)

theorem TakesFrom.find? {m : Pattern (List Char)} (hm : TakesFrom m) : ∀ {s v : List Char},
    Text.find? m s = some v → v ⊆ s
  | [], _, h => by cases h
  | c :: s, v, h => by
    rw [Text.find?] at h
    split at h
    next w n hfound =>
      cases h
      exact hm _ _ _ hfound
    next => exact fun d hd => List.mem_cons_of_mem c (hm.find? h hd)

theorem takesFrom_untilQuote? : TakesFrom untilQuote? := by
  intro s
  induction s with
  | nil => exact fun _ _ h => by cases h
  | cons c s ih =>
    intro v n h
    rw [untilQuote?] at h
    split at h
    next => cases h; exact List.nil_subset _
    next =>
      obtain ⟨⟨t, k⟩, ht, heq⟩ := Option.map_eq_some_iff.1 h
      cases heq
      exact List.cons_subset_cons c (ih _ _ ht)

theorem takesFrom_untilQuotedColon? : TakesFrom untilQuotedColon? := by
  intro s
  induction s with
  | nil => exact fun _ _ h => by cases h
  | cons c s ih =>
    intro v n h
    rw [untilQuotedColon?] at h
    split at h
    next => cases h; exact List.nil_subset _
    next =>
      obtain ⟨⟨t, k⟩, ht, heq⟩ := Option.map_eq_some_iff.1 h
      cases heq
      exact List.cons_subset_cons c (ih _ _ ht)

theorem takesFrom_stringBehindBlanks? {body? : Pattern (List Char)} (hbody : TakesFrom body?) :
    TakesFrom (stringBehindBlanks? body?) := by
  intro s v n h
  simp only [stringBehindBlanks?] at h
  split at h
  next q t hdrop =>
    split at h
    next =>
      obtain ⟨⟨u, k⟩, hu, heq⟩ := Option.map_eq_some_iff.1 h
      cases heq
      intro c hc
      refine Text.dropWhile_subset Text.isBlank s ?_
      rw [hdrop]
      exact List.mem_cons_of_mem q (hbody _ _ _ hu hc)
    next => cases h
  next => cases h

theorem takesFrom_stringBehind? {lead : Char → Bool} {body? : Pattern (List Char)}
    (hbody : TakesFrom body?) : TakesFrom (stringBehind? lead body?) := by
  intro s v n h
  simp only [stringBehind?] at h
  split at h
  next d t =>
    split at h
    next =>
      obtain ⟨⟨u, k⟩, hu, heq⟩ := Option.map_eq_some_iff.1 h
      cases heq
      exact fun c hc => List.mem_cons_of_mem d (takesFrom_stringBehindBlanks? hbody _ _ _ hu hc)
    next => cases h
  next => cases h

theorem takesFrom_quotedKey? : TakesFrom quotedKey? := by
  intro s v n h
  simp only [quotedKey?] at h
  split at h
  next q t =>
    split at h
    next =>
      obtain ⟨⟨u, k⟩, hu, heq⟩ := Option.map_eq_some_iff.1 h
      cases heq
      exact fun c hc => List.mem_cons_of_mem q (takesFrom_untilQuotedColon? _ _ _ hu hc)
    next => cases h
  next => cases h

theorem takesFrom_callObject? : TakesFrom callObject? := by
  intro s v n h
  simp only [callObject?] at h
  split at h
  next => cases h
  next =>
    split at h
    next t ht =>
      split at h
      next u hu =>
        split at h
        next =>
          split at h
          next =>
            cases h
            intro c hc
            have hu' : c ∈ Text.trimLeft t := by
              rw [hu]
              exact List.mem_cons_of_mem _ (Text.takeWhile_subset _ u hc)
            have ht' : c ∈ Text.trimLeft (s.dropWhile Text.isWordAscii) := by
              rw [ht]
              exact List.mem_cons_of_mem _ (Text.trimLeft_subset t hu')
            exact Text.dropWhile_subset _ s (Text.trimLeft_subset _ ht')
          next => cases h
        next => cases h
      next => cases h
    next => cases h

theorem takesFrom_templateLiteral? : TakesFrom templateLiteral? := by
  intro s v n h
  simp only [templateLiteral?] at h
  split at h
  next t =>
    split at h
    next =>
      cases h
      exact fun c hc => List.mem_cons_of_mem _ (Text.takeWhile_subset _ t hc)
    next => cases h
  next => cases h

theorem takesFrom_templateExpression? : TakesFrom templateExpression? := by
  intro s v n h
  simp only [templateExpression?] at h
  split at h
  next t =>
    split at h
    next =>
      cases h
      exact fun c hc =>
        List.mem_cons_of_mem _ (List.mem_cons_of_mem _ (Text.takeWhile_subset _ t hc))
    next => cases h
  next => cases h

theorem takesFrom_trailingNames? : TakesFrom trailingNames? := by
  intro s v n h
  simp only [trailingNames?] at h
  split at h
  next => cases h
  next k _ =>
    split at h
    next =>
      split at h
      next => cases h; exact List.nil_subset _
      next => cases h
    next =>
      split at h
      next => cases h
      next =>
        cases h
        exact fun c hc => (List.drop_sublist k s).subset
          (Text.dropWhile_subset _ _ (Text.takeWhile_subset _ _ hc))

theorem takesFrom_plainString? : TakesFrom plainString? := by
  intro s v n h
  simp only [plainString?] at h
  split at h
  next q t =>
    split at h
    next =>
      split at h
      next =>
        split at h
        next =>
          cases h
          exact fun c hc => List.mem_cons_of_mem _ (Text.takeWhile_subset _ t hc)
        next => cases h
      next => cases h
    next => cases h
  next => cases h

theorem subset_of_mem_cleanName {v n : List Char} (h : n ∈ cleanName v) : n ⊆ v := by
  simp only [cleanName] at h
  split at h
  next => cases h
  next =>
    rw [List.mem_singleton.1 h]
    exact (Text.trim_isInfix v).subset

theorem subset_of_mem_arrayElements {s v : List Char} (h : v ∈ arrayElements s) : v ⊆ s := by
  have helement : TakesFrom arrayElement? := takesFrom_stringBehind? takesFrom_untilQuote?
  rw [arrayElements] at h
  split at h
  next w n hfirst =>
    rcases List.mem_cons.1 h with rfl | h
    · exact takesFrom_stringBehindBlanks? takesFrom_untilQuote? _ _ _ hfirst
    · exact helement.mem_findAllFrom h
  next => exact helement.mem_findAll h

theorem subset_of_mem_literalNames {s n : List Char} (h : n ∈ literalNames s) : n ⊆ s := by
  have hclean {v : List Char} (hv : v ⊆ s) (hn : n ∈ cleanName v) : n ⊆ s :=
    List.Subset.trans (subset_of_mem_cleanName hn) hv
  simp only [literalNames, List.mem_append, List.mem_flatMap] at h
  rcases h with ((⟨o, ho, v, hv, hn⟩ | ⟨v, hv, hn⟩) | ⟨v, hv, hn⟩) | ⟨v, hv, hn⟩
  · exact hclean (List.Subset.trans (takesFrom_quotedKey?.mem_findAll hv)
      (takesFrom_callObject?.mem_findAll ho)) hn
  · exact hclean ((takesFrom_stringBehind? takesFrom_untilQuotedColon?).mem_findAll hv) hn
  · exact hclean (subset_of_mem_arrayElements hv) hn
  · exact hclean ((takesFrom_stringBehind? takesFrom_untilQuote?).mem_findAll hv) hn

theorem subset_of_mem_plainNames {s n : List Char} (h : n ∈ plainNames s) : n ⊆ s := by
  obtain ⟨v, hv, hn⟩ := List.mem_flatMap.1 h
  exact List.Subset.trans (Text.subset_of_mem_words hn) (takesFrom_plainString?.mem_findAll hv)

/-- A name of a template literal has no blank, so it has none of those that stand for expressions. -/
theorem subset_of_mem_templateNames {s n : List Char} (h : n ∈ templateNames s) : n ⊆ s := by
  rcases List.mem_append.1 h with h | h
  · have hchars : ∀ c ∈ withoutExpressions s, c ∈ s ∨ c = ' ' := by
      refine Text.mem_replaceMatchesFrom (P := fun c => c ∈ s ∨ c = ' ') 0 s (fun r t k _ hr => ?_)
        fun c r hr _ => Or.inl (hr.subset List.mem_cons_self)
      obtain ⟨⟨v, k'⟩, -, heq⟩ := Option.map_eq_some_iff.1 hr
      cases heq
      exact fun c hc => Or.inr (List.mem_singleton.1 hc)
    intro c hc
    refine (hchars c (Text.subset_of_mem_words h hc)).resolve_right ?_
    rintro rfl
    exact absurd (Text.isBlank_of_mem_words h _ hc) (by decide)
  · obtain ⟨e, he, hn⟩ := List.mem_flatMap.1 h
    refine List.Subset.trans ?_ (takesFrom_templateExpression?.mem_findAll he)
    exact (List.mem_append.1 hn).elim subset_of_mem_literalNames subset_of_mem_plainNames

theorem subset_of_mem_dynamicNames {s n : List Char} (h : n ∈ dynamicNames s) : n ⊆ s := by
  have h := Text.mem_distinct.1 h
  simp only [List.mem_append, List.mem_flatMap] at h
  rcases h with ((h | ⟨v, hv, hn⟩) | ⟨v, hv, hn⟩) | h
  · exact subset_of_mem_literalNames h
  · exact List.Subset.trans (subset_of_mem_templateNames hn) (takesFrom_templateLiteral?.mem_findAll hv)
  · exact List.Subset.trans (Text.subset_of_mem_words hn) (takesFrom_trailingNames?.mem_findAll hv)
  · exact subset_of_mem_plainNames h

/-! ## Values of attributes -/

theorem afterName?_eq_append : ∀ {name s written rest : List Char},
    afterName? name s = some (written, rest) → s = written ++ rest
  | [], _, _, _, h => by cases h; rfl
  | _ :: _, [], _, _, h => by cases h
  | l :: name, c :: s, _, _, h => by
    rw [afterName?] at h
    split at h
    next =>
      obtain ⟨⟨w, r⟩, hr, heq⟩ := Option.map_eq_some_iff.1 h
      cases heq
      exact congrArg (c :: ·) (afterName?_eq_append hr)
    next => cases h

/-- A name is read letter by letter. -/
theorem isLetter_of_afterName? : ∀ {name s written rest : List Char},
    afterName? name s = some (written, rest) → ∀ c ∈ written, ∃ l ∈ name, isLetter l c = true
  | [], _, _, _, h => by
    cases h
    exact fun _ hc => absurd hc List.not_mem_nil
  | _ :: _, [], _, _, h => by cases h
  | l :: name, d :: s, _, _, h => by
    rw [afterName?] at h
    split at h
    next hd =>
      obtain ⟨⟨w, r⟩, hr, heq⟩ := Option.map_eq_some_iff.1 h
      cases heq
      refine List.forall_mem_cons.2 ⟨⟨l, List.mem_cons_self, hd⟩, fun c hc => ?_⟩
      obtain ⟨k, hk, hletter⟩ := isLetter_of_afterName? hr c hc
      exact ⟨k, List.mem_cons_of_mem l hk, hletter⟩
    next => cases h

theorem headNamed?_suffix {s : List Char} {name : String} {head : AttributeHead}
    (h : headNamed? s name = some head) : head.rest <:+ s ∧ isQuote head.quote = true := by
  obtain ⟨⟨written, rest⟩, hname, h⟩ := Option.bind_eq_some_iff.1 h
  have hs := afterName?_eq_append hname
  simp only at h
  split at h
  next behind hbehind =>
    split at h
    next q value hvalue =>
      split at h
      next hq =>
        cases h
        refine ⟨?_, hq⟩
        have h1 : value <:+ behind :=
          (List.suffix_cons q value).trans (hvalue ▸ List.dropWhile_suffix _)
        have h2 : behind <:+ rest :=
          (List.suffix_cons '=' behind).trans (hbehind ▸ List.dropWhile_suffix _)
        exact (h1.trans h2).trans ⟨written, hs.symm⟩
      next => cases h
    next => cases h
  next => cases h

/-- A value stands in front of the quote that closes it. -/
theorem valueBefore?_isPrefix {q : Char} {s v : List Char} {inner : Option Char}
    (h : valueBefore? q inner s = some v) : v ++ [q] <+: s := by
  fun_induction valueBefore? q inner s generalizing v with
  | case1 => cases h
  | case2 i c s ih =>
    obtain ⟨u, hu, rfl⟩ := Option.map_eq_some_iff.1 h
    exact (List.prefix_cons_inj c).2 (ih hu)
  | case3 c s ih =>
    obtain ⟨u, hu, rfl⟩ := Option.map_eq_some_iff.1 h
    exact (List.prefix_cons_inj _).2 ((List.prefix_cons_inj c).2 (ih hu))
  | case4 =>
    cases h
    exact List.prefix_append [q] _
  | case5 c s _ _ _ ih =>
    obtain ⟨u, hu, rfl⟩ := Option.map_eq_some_iff.1 h
    exact (List.prefix_cons_inj c).2 (ih hu)
  | case6 c s _ _ _ ih =>
    obtain ⟨u, hu, rfl⟩ := Option.map_eq_some_iff.1 h
    exact (List.prefix_cons_inj c).2 (ih hu)

/-- The value of an attribute stands in the text in front of a quote. -/
theorem exists_infix_of_mem_classAttributes {a : ClassAttribute} {code : List Char}
    (h : a ∈ classAttributes code) : ∃ q, isQuote q = true ∧ a.value ++ [q] <:+: code := by
  obtain ⟨front, rest, n, rfl, hrest⟩ := Text.exists_of_mem_findAll h
  obtain ⟨head, hhead, hrest⟩ := Option.bind_eq_some_iff.1 hrest
  obtain ⟨value, hvalue, hrest⟩ := Option.bind_eq_some_iff.1 hrest
  cases hrest
  obtain ⟨name, -, hname⟩ := List.exists_of_findSome?_eq_some hhead
  obtain ⟨hsuffix, hquote⟩ := headNamed?_suffix hname
  refine ⟨head.quote, hquote, ?_⟩
  exact (valueBefore?_isPrefix hvalue).isInfix.trans
    (hsuffix.isInfix.trans (List.suffix_append front rest).isInfix)

theorem takeValue_isPrefix (depth : Int) (quote : Option Char) (previous : Char) (s : List Char) :
    takeValue depth quote previous s <+: s := by
  fun_induction takeValue depth quote previous s <;>
    simp_all [List.nil_prefix]

/-- The values of a pass-through tree stand in it. -/
theorem infix_of_mem_passThroughValues {v tree : List Char} (h : v ∈ passThroughValues tree) :
    v <:+: tree := by
  obtain ⟨s, hs, hv⟩ := List.mem_filterMap.1 h
  obtain ⟨front, rest, n, rfl, hrest⟩ := Text.exists_of_mem_findAll hs
  have hsuffix : s <:+ rest := by
    obtain ⟨t, ht, hrest⟩ := Option.bind_eq_some_iff.1 hrest
    simp only at hrest
    split at hrest
    next u hu =>
      cases hrest
      have h1 : Text.trimLeft u <:+ t :=
        ((List.dropWhile_suffix _).trans (List.suffix_cons ':' u)).trans (hu ▸ List.dropWhile_suffix _)
      exact h1.trans ⟨_, (Text.after?_eq_some_iff.1 ht).symm⟩
    next => cases hrest
  have hvalue : v <:+: s := by
    rw [complexValue?] at hv
    split at hv
    next => cases hv
    next =>
      cases hv
      exact ((Text.trim_isInfix _).trans (takeValue_isPrefix _ _ _ _).isInfix).trans
        (List.dropWhile_suffix _).isInfix
  exact hvalue.trans (hsuffix.trans (List.suffix_append front rest)).isInfix

theorem subset_of_mem_passThroughNames {v n : List Char} (h : n ∈ passThroughNames v) : n ⊆ v := by
  have hfirst {v t : List Char} (ht : firstString? v = some t) : t ⊆ v := by
    refine TakesFrom.find? (fun s u k h => ?_) ht
    split at h
    next q r =>
      split at h
      next =>
        split at h
        next w k hw =>
          split at h
          next => cases h
          next =>
            cases h
            exact fun c hc => List.mem_cons_of_mem q (takesFrom_untilQuote? _ _ _ hw hc)
        next => cases h
      next => cases h
    next => cases h
  rw [passThroughNames.eq_def] at h
  split at h
  next c s =>
    split at h
    next =>
      cases ht : firstString? (c :: s) with
      | none => rw [ht] at h; cases h
      | some t =>
        rw [ht] at h
        exact List.Subset.trans (Text.subset_of_mem_words h) (hfirst ht)
    next => exact subset_of_mem_dynamicNames h
  next => cases h

theorem subset_of_mem_attributeNamesOf {a : ClassAttribute} {n : List Char}
    (h : n ∈ attributeNamesOf a) : n ⊆ a.value := by
  refine List.Subset.trans ?_ (Text.trim_isInfix a.value).subset
  simp only [attributeNamesOf] at h
  split at h
  next => exact Text.subset_of_mem_words h
  next =>
    obtain ⟨v, hv, hn⟩ := List.mem_flatMap.1 h
    exact List.Subset.trans (subset_of_mem_passThroughNames hn)
      (infix_of_mem_passThroughValues hv).subset
  next => exact subset_of_mem_dynamicNames h

theorem infix_of_mem_classContents {v code : List Char} (h : v ∈ classContents code) :
    ∃ a ∈ classAttributes code, v <:+: a.value := by
  obtain ⟨a, ha, hv⟩ := List.mem_flatMap.1 h
  refine ⟨a, ha, ?_⟩
  split at hv
  next => exact infix_of_mem_passThroughValues hv
  next =>
    obtain rfl := List.mem_singleton.1 hv
    exact List.infix_rfl

/-- The end of a tag is no part of a value. -/
theorem IsTag.not_mem_value {g : List Char} (hg : IsTag g) {a : ClassAttribute}
    (h : a ∈ classAttributes g) : '>' ∉ a.value := by
  obtain ⟨x, rfl, hx⟩ := hg
  obtain ⟨q, hq, hinside⟩ := exists_infix_of_mem_classAttributes h
  have hlast : q ∉ ['>'] := by
    intro hmem
    rw [List.mem_singleton.1 hmem] at hq
    cases hq
  have hx : '>' ∉ '<' :: x := List.not_mem_cons_of_ne_of_not_mem (by decide) hx
  have := Text.infix_of_infix_append hlast (a := '<' :: x) (by simpa using hinside)
  exact fun hmem => hx (this.subset (List.mem_append_left [q] hmem))

/-- No class name of a tag has its end in it. -/
theorem IsTag.not_mem_of_mem_classNames {g n : List Char} (hg : IsTag g) (h : n ∈ classNames g) :
    '>' ∉ n := by
  obtain ⟨a, ha, hn⟩ := List.mem_flatMap.1 (Text.mem_distinct.1 h)
  exact fun hmem => hg.not_mem_value ha (subset_of_mem_attributeNamesOf hn hmem)

end ClientBuild.Markup
