import ClientBuild.Proofs.Markup.Agreement
import ClientBuild.Proofs.Markup.Renaming

/-!
# Lists of utilities

A page with one element, whose class attribute is a list of utilities, keeps everything but their names, and each of
them becomes its safe name (`class_list_renamed`), however they contain each other.  The binding that is put into the
tag for dark mode is empty and is taken out again.
-/

namespace ClientBuild.Text

/-- The words of joined names are the names. -/
theorem words_join {ts : List (List Char)} (hts : ∀ t ∈ ts, t ≠ [] ∧ ∀ c ∈ t, isBlank c = false) :
    words (join [' '] ts) = ts := by
  induction ts using join.induct with
  | case1 => rfl
  | case2 t =>
    obtain ⟨hne, ht⟩ := hts t List.mem_cons_self
    exact words_of_forall ht hne
  | case3 t u ts ih =>
    obtain ⟨⟨hne, ht⟩, hts⟩ := List.forall_mem_cons.1 hts
    rw [join, List.append_assoc, List.singleton_append, words_append_cons (by decide), words_of_forall ht hne, ih hts,
      List.singleton_append]

end ClientBuild.Text

namespace ClientBuild.Markup

open Style (isUtility IsPlainName)
open Style.SafeName (encode passesThrough words)
open Text (join)

/-! ## Names of a list -/

/-- A class name of a list: a utility that may stand between quotes, and has nothing to do with dark mode or with a
host selector. -/
structure IsListName (t : List Char) : Prop where
  utility : isUtility t = true
  plain : IsPlainName t
  host : ¬ ":host".toList <:+: t
  unmarked : ¬ "__isDark".toList <:+: t
  light : ¬ "dark:".toList <+: t

namespace IsListName

variable {t : List Char}

theorem ne_nil (h : IsListName t) : t ≠ [] := by
  obtain ⟨c, s, rfl, -⟩ := Style.exists_head_of_isUtility h.utility
  exact List.cons_ne_nil c s

theorem not_passesThrough (h : IsListName t) : passesThrough t = false :=
  Style.not_passesThrough_of_isUtility h.utility h.host

theorem encode_eq (h : IsListName t) : encode t = Style.SafeName.replaceAllIn words t :=
  Style.SafeName.encode_of_word h.not_passesThrough (fun hmem => absurd (h.plain _ hmem).1 (by decide))
    fun hmem => (h.plain _ hmem).2.2.1 rfl

/-- No mark of dark mode comes up in a safe name. -/
theorem not_infix_encode (h : IsListName t) : ¬ "__isDark".toList <:+: encode t := by
  rw [h.encode_eq]
  exact fun hmark => h.unmarked (Style.SafeName.infix_of_infix_replaceAllIn (by decide) hmark)

theorem plain_encode (h : IsListName t) : IsPlainName (encode t) := by
  by_cases hsafe : encode t = t
  · exact hsafe.symm ▸ h.plain
  · exact (isPlainName_encode h.plain rfl hsafe).1

theorem encode_ne_nil (h : IsListName t) : encode t ≠ [] := by
  by_cases hsafe : encode t = t
  · exact hsafe.symm ▸ h.ne_nil
  · exact List.ne_nil_of_mem (isPlainName_encode h.plain rfl hsafe).2.2

end IsListName

/-! ## Lists of names -/

variable {n v : List Char} {ts : List (List Char)}

/-- A list of plain names delimits nothing. -/
theorem not_mem_list (hts : ∀ t ∈ ts, IsPlainName t) {c : Char} (hc : c ∈ ['"', '<', '>']) : c ∉ join [' '] ts := by
  have hdelimiters : ∀ c ∈ ['"', '<', '>'], c ≠ ' ' ∧ (isQuote c = true ∨ c = '<' ∨ c = '>') := by decide
  obtain ⟨hblank, hdelimiter⟩ := hdelimiters c hc
  intro hmem
  rcases Text.mem_join hmem with hmem | ⟨t, ht, hmem⟩
  · exact hblank (List.mem_singleton.1 hmem)
  · obtain ⟨-, hquote, -, hopen, hclose⟩ := hts t ht c hmem
    rcases hdelimiter with hyes | hyes | hyes
    · rw [hquote] at hyes
      cases hyes
    · exact hopen hyes
    · exact hclose hyes

theorem mem_utilitiesOf_classTag (hn : IsElementName n) (hts : ∀ t ∈ ts, IsListName t) {w : List Char} :
    w ∈ utilitiesOf (classTag n (join [' '] ts)) ↔ w ∈ ts := by
  have hvalue : ∀ c ∈ join [' '] ts, isQuote c = false ∧ c ≠ '\\' := by
    intro c hc
    rcases Text.mem_join hc with hblank | ⟨t, ht, hmem⟩
    · rw [List.mem_singleton.1 hblank]
      decide
    · exact ⟨((hts t ht).plain c hmem).2.1, ((hts t ht).plain c hmem).2.2.1⟩
  have hwords : Text.words (join [' '] ts) = ts :=
    Text.words_join fun t ht => ⟨(hts t ht).ne_nil, fun c hc => ((hts t ht).plain c hc).1⟩
  have hnames : attributeNamesOf ⟨.static, join [' '] ts⟩ = ts := by
    rw [attributeNamesOf]
    simp only [Text.words_trim, hwords]
  rw [mem_utilitiesOf, classNames, classAttributes_classTag hn hvalue, List.flatMap_singleton, hnames,
    Text.mem_distinct]
  exact and_iff_left_of_imp fun hw => (hts w hw).utility

/-- Each name of the list gets its safe form, and everything else stays. -/
theorem renamed_classTag (hn : IsElementName n) (hne : ts ≠ []) (hts : ∀ t ∈ ts, IsListName t) :
    renamed (classTag n (join [' '] ts)) = classTag n (join [' '] (ts.map encode)) := by
  have hmem {w : List Char} (hw : w ∈ utilitiesOf (classTag n (join [' '] ts))) : IsListName w :=
    hts w ((mem_utilitiesOf_classTag hn hts).1 hw)
  rw [renamed_eq, renamings_eq]
  have hlist : ∀ t ∈ ts, Text.replaceEach (renamingsOf (utilitiesOf (classTag n (join [' '] ts)))) t = encode t :=
    fun t ht => replaceEach_name (hts t ht).not_passesThrough (hts t ht).ne_nil (pairwise_utilitiesOf _)
      ((mem_utilitiesOf_classTag hn hts).2 ht)
  have hfree {c : Char} (hc : ∀ t, IsListName t → c ∉ t) :
      ∀ p ∈ renamingsOf (utilitiesOf (classTag n (join [' '] ts))), c ∉ p.1 := fun p hp =>
    hc p.1 (hmem (mem_renamingsOf hp).1)
  have hquote := hfree (c := '"') fun t ht => quote_not_mem ht.plain
  have hblank := hfree (c := ' ') fun t ht hmem => absurd (ht.plain _ hmem).1 (by decide)
  generalize utilitiesOf (classTag n (join [' '] ts)) = us at hlist hquote hblank
  have hstart : ∀ c ∈ Style.SafeName.unsafeChars, c ∉ classStart n := by
    intro c hc
    have hletters : ∀ c ∈ Style.SafeName.unsafeChars, c ∉ '<' :: " class=".toList ∧
        c ∈ '_' :: '=' :: (delimiters ++ Style.SafeName.unsafeChars) := by decide
    have hout := (hletters c hc).1
    rw [List.mem_cons, not_or] at hout
    rw [classStart, List.mem_cons, List.mem_append, not_or, not_or]
    exact ⟨hout.1, hn.not_mem (hletters c hc).2, hout.2⟩
  obtain ⟨t, rest, rfl⟩ := List.exists_cons_of_ne_nil hne
  have hmap : (t :: rest).map (Text.replaceEach (renamingsOf us)) = (t :: rest).map encode := List.map_congr_left hlist
  rw [classTag, Text.replaceEach_append_cons hquote, Text.replaceEach_append_cons hquote, Text.replaceEach_join hblank,
    hmap, replaceEach_of_safe hstart, replaceEach_of_safe (s := ['>']) (by decide), ← classTag]

theorem darkNames_classTag (hn : IsElementName n) (hts : ∀ t ∈ ts, IsListName t) :
    darkNames (classTag n (join [' '] ts)) = [] := by
  refine darkNames_eq_nil fun t ht => ?_
  have hname := hts t ((mem_utilitiesOf_classTag hn hts).1 ht)
  exact ⟨fun hmem => absurd (hname.plain _ hmem).1 (by decide), fun hmem => (hname.plain _ hmem).2.2.1 rfl, hname.light⟩

/-- What rewriting the tag leaves, before it is cleaned and afterwards: its list is renamed, and the binding that is put
in is taken out again. -/
theorem rewrite_classTag (d : List Char) (hn : IsElementName n) (hne : ts ≠ []) (hts : ∀ t ∈ ts, IsListName t) :
    IsTag (transformNode d (classTag n (join [' '] ts))) ∧
      rewrite d (classTag n (join [' '] ts)) = classTag n (join [' '] (ts.map encode)) := by
  have htext : withDarkTextClass d (classTag n (join [' '] ts)) = classTag n (join [' '] ts) := by
    rw [withDarkTextClass, isTextTag_classTag hn, Bool.false_and, Bool.false_and, if_neg (by decide)]
  have hstep : transformNode d (classTag n (join [' '] ts)) =
      withBinding (classTag n (join [' '] (ts.map encode))) := by
    rw [transformNode_of_light htext (darkNames_classTag hn hts), renamed_classTag hn hne hts]
  have hplain : ∀ m ∈ ts.map encode, IsPlainName m := fun m hm => by
    obtain ⟨t, ht, rfl⟩ := List.mem_map.1 hm
    exact (hts t ht).plain_encode
  have hvalue : join [' '] (ts.map encode) ∉ emptyValues := by
    have hchars : ∀ m ∈ emptyValues, ∀ c ∈ m, Text.isBlank c = true ∨ c ∈ words.map Prod.fst := by decide
    intro hempty
    obtain ⟨t, ht⟩ := List.exists_mem_of_ne_nil ts hne
    obtain ⟨c, hc⟩ := List.exists_mem_of_ne_nil _ (hts t ht).encode_ne_nil
    rcases hchars _ hempty c ((Text.isInfix_join (List.mem_map_of_mem ht)).subset hc) with hblank | hword
    · rw [((hts t ht).plain_encode c hc).1] at hblank
      cases hblank
    · exact Style.SafeName.not_mem_encode (hts t ht).not_passesThrough hword hc
  have htag := isTag_classTag hn (not_mem_list hplain (by decide))
  refine ⟨hstep ▸ htag.withBinding, ?_⟩
  rw [rewrite, hstep, dropEmptyAttributes_withBinding htag
    (isClean_classTag hn (not_mem_list hplain List.mem_cons_self) hvalue)]

/-! ## The page of a list -/

/-- A page up to its element. -/
def pageStart : List Char := "<template>".toList

/-- What stands behind the tag of the element of a page. -/
def pageEnd (n : List Char) : List Char := "</".toList ++ (n ++ ">".toList) ++ templateClose

/-- A page with one element, which has a class attribute only. -/
def classPage (n v : List Char) : List Char := pageStart ++ (classTag n v ++ pageEnd n)

/-- The page cut at its tag. -/
def classCut (n v : List Char) : Cut := ⟨[(pageStart, classTag n v)], pageEnd n⟩

theorem apart_class : ∃ c ∈ " class=".toList.head?, Text.isBlank c = true := ⟨' ', rfl, rfl⟩

theorem plain_class : ∀ c ∈ " class=".toList, c ∉ delimiters := by decide

theorem doubleQuote_mem : '"' ∈ ['"', '\''] := List.mem_cons_self

theorem IsElementName.tagWord (hn : IsElementName n) : ∀ c ∈ n, c ∉ '/' :: delimiters ∧ Text.isBlank c = false := by
  have hspecial : '/' :: delimiters ⊆ '_' :: '=' :: (delimiters ++ Style.SafeName.unsafeChars) := by decide
  exact fun c hc => ⟨fun hmem => (hn.word c hc).2 (hspecial hmem), (hn.word c hc).1⟩

theorem apart_nil : ∀ c ∈ ([] : List Char).head?, c = '/' ∨ Text.isBlank c = true := fun _ hc => by cases hc

theorem plain_nil : ∀ c ∈ ([] : List Char), c ∉ delimiters := fun _ hc => by cases hc

/-- The tag of an element with a class attribute. -/
def elementTag (hn : IsElementName n) (hv : '"' ∉ v) : Tag where
  name := n
  quoted := [⟨" class=".toList, '"', v, apart_class, plain_class, doubleQuote_mem, hv⟩]
  tail := []
  named := hn.nonempty
  word := hn.tagWord
  apart := apart_nil
  plain := plain_nil

theorem source_elementTag (hn : IsElementName n) (hv : '"' ∉ v) : (elementTag hn hv).source = classTag n v := by
  simp [elementTag, Tag.source, Tag.inner, Tag.attributes, QuotedAttribute.source, classTag, classStart]

theorem IsElementName.ne_templateName (hn : IsElementName n) : n ≠ templateName := fun heq =>
  hn.outside ⟨[], by rw [heq, List.append_nil]⟩

theorem template_ne_nil : "template".toList ≠ [] := by decide

theorem template_word : ∀ c ∈ "template".toList, c ∉ '/' :: delimiters ∧ Text.isBlank c = false := by decide

/-- The tag of a template block without attributes. -/
def blockTag : Tag := tagOf "template" [] template_ne_nil template_word

theorem opens_blockTag : blockTag.OpensBlock := by decide

theorem IsElementName.not_opens (hn : IsElementName n) (hv : '"' ∉ v) : ¬ (elementTag hn hv).OpensBlock := fun hopens =>
  hn.ne_templateName hopens.1

theorem IsElementName.endWord (hn : IsElementName n) : '<' ∉ n ∧ '>' ∉ n :=
  ⟨hn.not_mem (by decide), hn.not_mem (by decide)⟩

theorem templateOpen_not_infix_nil : ¬ templateOpen <:+: [] := by decide

/-- The block of the page. -/
def elementBlock (hn : IsElementName n) (hv : '"' ∉ v) : Block where
  front := []
  opening := blockTag
  content := .tag (elementTag hn hv) (hn.not_opens hv) (.close n hn.endWord hn.ne_templateName .nil)
  free := templateOpen_not_infix_nil
  opens := opens_blockTag

theorem source_blockTag : blockTag.source = pageStart := by decide

theorem source_elementBlock (hn : IsElementName n) (hv : '"' ∉ v) : (elementBlock hn hv).source = classPage n v := by
  have hend : endTag n = "</".toList ++ (n ++ ">".toList) := rfl
  have hcontent : (elementBlock hn hv).content.source = classTag n v ++ endTag n := by
    rw [elementBlock, Content.source, Content.source, Content.source, List.append_nil, source_elementTag]
  rw [Block.source, hcontent, hend, classPage, pageEnd, ← source_blockTag, List.append_assoc]
  rfl

theorem isReadable_elementBlock (hn : IsElementName n) (hv : '"' ∉ v) (hopen : '<' ∉ v) (hclose : '>' ∉ v) :
    ∀ g ∈ (elementBlock hn hv).tags, g.IsReadable := by
  have htags : (elementBlock hn hv).tags = [blockTag, elementTag hn hv] := rfl
  have hopening : blockTag.IsReadable := by decide
  rw [htags, List.forall_mem_cons, List.forall_mem_singleton]
  refine ⟨hopening, List.forall_mem_singleton.2 ⟨hclose, ?_⟩, fun hfront => absurd hfront hn.outside⟩
  exact fun hblock => hopen (hblock.subset (by decide))

theorem nodes_elementBlock (hn : IsElementName n) (hv : '"' ∉ v) :
    (elementBlock hn hv).nodes 0 = (classCut n v).nodes 0 := by
  have hname : (elementTag hn hv).name ≠ templateName := hn.ne_templateName
  simp only [elementBlock, Block.nodes, Content.nodes, Tag.nodes, if_neg hname, source_elementTag, source_blockTag,
    List.nil_append, List.append_nil, classCut, Cut.nodes, Cut.locate]

/-- The page is cut at the tag of its element. -/
theorem isCut_classPage (hn : IsElementName n) (hv : ∀ c ∈ ['"', '<', '>'], c ∉ v) :
    IsCut (classPage n v) (classCut n v) := by
  have hquote := hv '"' (by decide)
  have hread := isReadable_elementBlock hn hquote (hv '<' (by decide)) (hv '>' (by decide))
  have hcomment : Text.startsWith "<!--".toList (classTag n v) = false := by
    rw [Bool.eq_false_iff, ne_eq, Text.startsWith_iff]
    obtain ⟨c, r, rfl⟩ := List.exists_cons_of_ne_nil hn.nonempty
    rintro ⟨t, ht⟩
    have hc : '!' = c := (List.cons.inj (List.cons.inj ht).2).1
    exact hn.not_mem (c := '!') (by decide) (hc ▸ List.mem_cons_self)
  refine ⟨by simp [classCut, classPage, Cut.source, Cut.image], ?_, ?_⟩
  · exact fun p hp => List.mem_singleton.1 hp ▸ isTag_classTag hn (hv '>' (by decide))
  · rw [← source_elementBlock hn hquote, Block.templateNodes_eq hread, nodes_elementBlock, classCut, Cut.nodes,
      Cut.locate, Cut.locate, List.filter_cons_of_pos (by rw [hcomment]; rfl), List.filter_nil]

/-- The texts around the tag stay. -/
theorem cleaned_classCut (hn : IsElementName n) : (classCut n v).cleaned = classCut n v := by
  have hend : '"' ∉ pageEnd n := by
    rw [pageEnd]
    refine List.not_mem_append (List.not_mem_append (by decide) (List.not_mem_append ?_ (by decide))) (by decide)
    exact hn.not_mem (by decide)
  have hstay {s : List Char} (hs : '"' ∉ s) : dropEmptyAttributes s = s :=
    dropEmptyAttributes_of_count (by rw [List.count_eq_zero_of_not_mem hs]; decide)
  have hstart : dropEmptyAttributes pageStart = pageStart := hstay (by decide)
  rw [classCut, Cut.cleaned, hstay hend, List.map_singleton, hstart]

/-- No page of the kind has the mark of dark mode, if its list has none. -/
theorem not_infix_classPage (hn : IsElementName n) (hv : ¬ "__isDark".toList <:+: v) :
    ¬ "__isDark".toList <:+: classPage n v := by
  have hsplit : classPage n v = (pageStart ++ classStart n) ++ '"' :: (v ++ '"' :: '>' :: pageEnd n) := by
    simp [classPage, classTag]
  have hname : '_' ∉ n := hn.not_mem (by decide)
  have hfront : '_' ∉ pageStart ++ classStart n :=
    List.not_mem_append (by decide)
      (List.not_mem_cons_of_ne_of_not_mem (by decide) (List.not_mem_append hname (by decide)))
  have hend : '_' ∉ '>' :: pageEnd n := by
    rw [pageEnd]
    exact List.not_mem_cons_of_ne_of_not_mem (by decide)
      (List.not_mem_append (List.not_mem_append (by decide) (List.not_mem_append hname (by decide))) (by decide))
  have hmark {s : List Char} (hs : '_' ∉ s) : ¬ "__isDark".toList <:+: s := fun h => hs (h.subset (by decide))
  rw [hsplit, Text.infix_append_cons_iff (by decide), Text.infix_append_cons_iff (by decide)]
  exact fun h => h.elim (hmark hfront) fun h => h.elim hv (hmark hend)

/-- **A list of utilities is renamed one by one**: rewriting a page with one element, whose class attribute lists
utilities, gives the page with the safe name of each of them, or none where these are the names that it has.  The names
may stand in each other in any way. -/
theorem class_list_renamed (st : StyleSettings) (hn : IsElementName n) (hne : ts ≠ [])
    (hts : ∀ t ∈ ts, IsListName t) :
    transform? st (classPage n (join [' '] ts)) =
      if classPage n (join [' '] (ts.map encode)) = classPage n (join [' '] ts) then none
      else some (classPage n (join [' '] (ts.map encode))) := by
  obtain ⟨htag, hrewrite⟩ := rewrite_classTag st.darkTextClass.toList hn hne hts
  have hplain : ∀ c ∈ ['"', '<', '>'], c ∉ join [' '] ts := fun c hc =>
    not_mem_list (fun t ht => (hts t ht).plain) hc
  have hcut := isCut_classPage hn hplain
  have himage : (classCut n (join [' '] ts)).image (rewrite st.darkTextClass.toList) =
      classPage n (join [' '] (ts.map encode)) := by
    simp [classCut, Cut.image, hrewrite, classPage]
  have hmark : ¬ "__isDark".toList <:+: classPage n (join [' '] (ts.map encode)) := by
    refine not_infix_classPage hn fun hmark => ?_
    obtain ⟨m, hm, hinside⟩ := Text.exists_infix_of_infix_join (by decide) (by decide) hmark
    obtain ⟨t, ht, rfl⟩ := List.mem_map.1 hm
    exact (hts t ht).not_infix_encode hinside
  have himport : withDarkImport (classPage n (join [' '] (ts.map encode))) =
      classPage n (join [' '] (ts.map encode)) := by
    rw [withDarkImport, Text.contains_eq_false_iff.2 hmark, Bool.false_and, if_neg (by decide)]
  rw [transform?_of_all hcut (fun p hp => List.mem_singleton.1 hp ▸ htag), hcut.isEmpty_nodes (List.cons_ne_nil _ _),
    if_neg (by decide), cleaned_classCut hn, himage, himport]

/-- Widths that stand in each other, behind a state and behind the mark of importance. -/
theorem class_list_renamed_widths :
    let n := "my-view".toList
    let ts := ["w-1/2".toList, "!w-1/2".toList, "md:w-1/2".toList]
    let page := "<template><my-view class=\"w-1/2 !w-1/2 md:w-1/2\"></my-view></template>".toList
    let out := "<template><my-view class=\"w-1-slash-2 -important-w-1-slash-2 md-colon-w-1-slash-2\">".toList ++
      "</my-view></template>".toList
    (IsElementName n ∧ ts ≠ [] ∧ (∀ t ∈ ts, IsListName t) ∧ classPage n (join [' '] ts) = page) ∧
      transform? {} page = some out := by
  intro n ts page out
  have hn : IsElementName n := ⟨by decide, by decide, by decide, by decide⟩
  have hts : ∀ t ∈ ts, IsListName t := by
    have hall : ∀ t ∈ ts, isUtility t = true ∧ IsPlainName t ∧ Text.contains ":host".toList t = false ∧
        Text.contains "__isDark".toList t = false ∧ Text.startsWith "dark:".toList t = false := by decide +kernel
    refine fun t ht => ⟨(hall t ht).1, (hall t ht).2.1, ?_, ?_, ?_⟩
    · exact Text.contains_eq_false_iff.1 (hall t ht).2.2.1
    · exact Text.contains_eq_false_iff.1 (hall t ht).2.2.2.1
    · rw [← Text.startsWith_iff, (hall t ht).2.2.2.2]
      decide
  have hpage : classPage n (join [' '] ts) = page := by decide +kernel
  have hout : classPage n (join [' '] (ts.map encode)) = out := by decide +kernel
  have hdiffers : out ≠ page := by decide +kernel
  have hrenamed := class_list_renamed {} hn (List.cons_ne_nil _ _) hts
  rw [hpage, hout, if_neg hdiffers] at hrenamed
  exact ⟨⟨hn, List.cons_ne_nil _ _, hts, hpage⟩, hrenamed⟩

end ClientBuild.Markup
