import ClientBuild.Proofs.Markup.Cleaning
import ClientBuild.Proofs.Markup.Layout

/-!
# The import around the template blocks

The import for dark mode is put into the first script block, or into one at the end of the page.  On a page whose
script blocks stand around its template blocks, that changes one of the texts around them, and neither the cleaning
of the page nor the scan for its blocks sees it (`Layout.exists_withDarkImport`).
-/

namespace ClientBuild.Markup

/-! ## Texts without empty attributes -/

/-- Has a text no empty attribute? -/
def IsClean (t : List Char) : Prop := ∀ p ∈ emptyAttributes, ¬ p <:+: t

instance (t : List Char) : Decidable (IsClean t) :=
  decidable_of_iff (∀ p ∈ emptyAttributes, Text.contains p t = false)
    (forall₂_congr fun _ _ => Text.contains_eq_false_iff)

theorem IsClean.append_cons {c : Char} (hc : c ∉ emptyBinding) {s t : List Char} (hs : IsClean s) (ht : IsClean t) :
    IsClean (s ++ c :: t) := by
  have hchars : ∀ p ∈ emptyAttributes, ∀ d ∈ p, d ∈ emptyBinding := by decide
  intro p hp hinside
  exact ((Text.infix_append_cons_iff fun hmem => hc (hchars p hp c hmem)).1 hinside).elim (hs p hp) (ht p hp)

namespace Cut

/-- The texts between the tags of a cut. -/
def texts (c : Cut) : List (List Char) := c.tags.map Prod.fst ++ [c.last]

/-- Have the texts between the tags no empty attribute? -/
def IsClean (c : Cut) : Prop := ∀ t ∈ c.texts, Markup.IsClean t

instance (c : Cut) : Decidable c.IsClean := List.decidableBAll Markup.IsClean c.texts

theorem IsClean.cleaned {c : Cut} (h : c.IsClean) : c.cleaned = c := by
  obtain ⟨ps, last⟩ := c
  obtain ⟨htags, hlast⟩ := List.forall_mem_append.1 h
  have htexts : ps.map (fun p => (dropEmptyAttributes p.1, p.2)) = ps.map id :=
    List.map_congr_left fun p hp => by
      rw [dropEmptyAttributes_eq_self (htags p.1 (List.mem_map_of_mem hp))]
      rfl
  rw [Cut.cleaned, htexts, List.map_id, dropEmptyAttributes_eq_self (hlast last List.mem_cons_self)]

theorem texts_mapTags (f : List Char → List Char) (c : Cut) : (c.mapTags f).texts = c.texts := by
  simp [texts, mapTags]

/-- A text in front of a cut joins the first one. -/
theorem IsClean.behind {c : Cut} (h : c.IsClean) {t : List Char}
    (ht : ∀ u, Markup.IsClean u → Markup.IsClean (t ++ u)) : (c.behind t).IsClean := by
  obtain ⟨_ | ⟨⟨u, g⟩, ps⟩, last⟩ := c
  · obtain ⟨hlast, hnil⟩ := List.forall_mem_cons.1 h
    exact List.forall_mem_cons.2 ⟨ht last hlast, hnil⟩
  · obtain ⟨hu, hrest⟩ := List.forall_mem_cons.1 h
    exact List.forall_mem_cons.2 ⟨ht u hu, hrest⟩

theorem IsClean.append {a b : Cut} (ha : a.IsClean) (hb : (b.behind a.last).IsClean) : (a.append b).IsClean := by
  obtain ⟨htags, -⟩ := List.forall_mem_append.1 ha
  intro t ht
  simp only [texts, Cut.append, List.map_append, List.append_assoc, List.mem_append] at ht
  rcases ht with ht | ht
  · exact htags t ht
  · exact hb t (List.mem_append.2 ht)

end Cut

/-- No empty attribute stands around the tags of a block. -/
structure TemplateBlock.IsClean (b : TemplateBlock) : Prop where
  front : Markup.IsClean b.front
  tag : Markup.IsClean b.tag
  inside : b.inside.IsClean

namespace TemplateBlock

end TemplateBlock

/-- No empty attribute stands around the tags of a page. -/
structure Layout.IsClean (l : Layout) : Prop where
  blocks : ∀ b ∈ l.blocks, b.IsClean
  last : Markup.IsClean l.last

theorem TemplateBlock.IsClean.mapTags {b : TemplateBlock} (h : b.IsClean) {f : List Char → List Char}
    (hf : b.inside.All fun g => IsBare g ∧ IsBare (f g)) : (b.mapTags f hf).IsClean where
  front := h.front
  tag := h.tag
  inside := fun t ht => h.inside t (Cut.texts_mapTags f b.inside ▸ ht)

/-! ## The import around the template blocks -/

/-- Has a text no part that is scanned for or cleaned? -/
def IsQuiet (t : List Char) : Prop := ∀ p ∈ templateOpen :: emptyAttributes, ¬ p <:+: t

theorem isQuiet_iff {t : List Char} : IsQuiet t ↔ ¬ templateOpen <:+: t ∧ IsClean t := List.forall_mem_cons

instance (t : List Char) : Decidable (IsQuiet t) := decidable_of_iff _ isQuiet_iff.symm

theorem IsQuiet.mono {s t : List Char} (h : IsQuiet t) (hs : s <:+: t) : IsQuiet s :=
  fun p hp hinside => h p hp (hinside.trans hs)

/-- A line break keeps quiet texts apart. -/
theorem IsQuiet.append_newline {s t : List Char} (hs : IsQuiet s) (ht : IsQuiet t) : IsQuiet (s ++ '\n' :: t) := by
  have hbreak : ∀ p ∈ templateOpen :: emptyAttributes, '\n' ∉ p := by decide
  intro p hp hinside
  exact ((Text.infix_append_cons_iff (hbreak p hp)).1 hinside).elim (hs p hp) (ht p hp)

/-- An opening bracket keeps quiet texts apart. -/
theorem IsQuiet.append_open {s t : List Char} (hs : IsQuiet s) (ht : IsQuiet ('<' :: t)) :
    IsQuiet (s ++ '<' :: t) := by
  have hshape : ∀ p ∈ templateOpen :: emptyAttributes, '<' ∉ p ∨ p.head? = some '<' ∧ '<' ∉ p.tail := by decide
  intro p hp hinside
  rcases hshape p hp with hnone | ⟨hhead, htail⟩
  · rcases (Text.infix_append_cons_iff hnone).1 hinside with hleft | hright
    · exact hs p hp hleft
    · exact ht p hp (hright.trans (List.suffix_cons '<' t).isInfix)
  · obtain ⟨q, rfl⟩ : ∃ q, p = '<' :: q := by
      cases p with
      | nil => cases hhead
      | cons c q =>
        cases hhead
        exact ⟨q, rfl⟩
    exact ((Text.infix_append_cons_of_head htail).1 hinside).elim (hs _ hp) (ht _ hp)

/-- The import leaves a text quiet. -/
theorem IsQuiet.addToScript? {s out : List Char} (h : IsQuiet s) (hout : addToScript? darkImport s = some out) :
    IsQuiet out := by
  obtain ⟨front, content, rest, rfl, rfl⟩ := addToScript?_eq_some hout
  have himport : IsQuiet darkImport := by decide
  have hfront : IsQuiet (front ++ ['>']) := h.mono (List.prefix_append _ _).isInfix
  have hbehind := h.mono (List.suffix_append (front ++ ['>']) _).isInfix
  have hcontent : IsQuiet (Text.trim content) :=
    hbehind.mono ((Text.trim_isInfix content).trans (List.prefix_append _ _).isInfix)
  have hrest : IsQuiet ('<' :: ("/script>".toList ++ rest)) :=
    hbehind.mono (List.suffix_append content _).isInfix
  have hsplit : (front ++ ['>']) ++ ('\n' :: darkImport ++ ['\n'] ++
        (Text.trim content ++ ("</script>".toList ++ rest))) =
      (front ++ ['>']) ++ '\n' :: (darkImport ++ '\n' ::
        (Text.trim content ++ '<' :: ("/script>".toList ++ rest))) := by
    simp
  rw [hsplit]
  exact hfront.append_newline (himport.append_newline (hcontent.append_open hrest))

/-! ## Script blocks -/

/-- A script block: its tag is over at the first bracket, and the block at the first end behind that. -/
theorem scriptAt?_eq_some_iff {s head content rest : List Char} : scriptAt? s = some (head, content, rest) ↔
    s = head ++ (content ++ rest) ∧ (∃ a, head = "<script".toList ++ a ++ ['>'] ∧ '>' ∉ a ∧
      ((a ++ ['>']).head?.map Text.isWordChar).getD false = false) ∧
    "</script>".toList <+: rest ∧ ¬ "</script>".toList <:+: content ++ "</script>".toList.dropLast := by
  have hhead (a r : List Char) : (a ++ ['>'] ++ r).head? = (a ++ ['>']).head? := by
    cases a <;> rfl
  constructor
  · intro h
    simp only [scriptAt?, Option.bind_eq_bind, Option.pure_def, Option.bind_eq_some_iff] at h
    obtain ⟨behind, hbehind, h⟩ := h
    split at h
    next => cases h
    next hword =>
      obtain ⟨⟨a, inner⟩, htag, h⟩ := Option.bind_eq_some_iff.1 h
      obtain ⟨⟨content, behind'⟩, hclose, h⟩ := Option.bind_eq_some_iff.1 h
      cases h
      obtain ⟨rfl, ha⟩ := (Text.breakOn?_eq_some_iff (by decide)).1 htag
      obtain ⟨hinner, hcontent⟩ := (Text.breakOn?_eq_some_iff (by decide)).1 hclose
      simp only at hinner
      have hdrop : inner.drop content.length = "</script>".toList ++ behind' := by
        rw [hinner, List.append_assoc, List.drop_left]
      refine ⟨?_, ⟨a, rfl, fun hmem => ha ?_, ?_⟩, ⟨behind', hdrop.symm⟩, hcontent⟩
      · rw [Text.after?_eq_some_iff.1 hbehind, hdrop, hinner]
        simp
      · exact ((List.singleton_infix_iff _ _).2 hmem).trans (List.prefix_append _ _).isInfix
      · rwa [hhead, Bool.not_eq_true] at hword
  · rintro ⟨rfl, ⟨a, rfl, ha, hword⟩, ⟨behind, rfl⟩, hcontent⟩
    have hafter : Text.after? "<script".toList
        ("<script".toList ++ a ++ ['>'] ++ (content ++ ("</script>".toList ++ behind))) =
          some (a ++ ['>'] ++ (content ++ ("</script>".toList ++ behind))) := by
      rw [List.append_assoc, List.append_assoc, Text.after?_append, List.append_assoc]
    have htag : Text.breakOn? ['>'] (a ++ ['>'] ++ (content ++ ("</script>".toList ++ behind))) =
        some (a, content ++ ("</script>".toList ++ behind)) :=
      (Text.breakOn?_eq_some_iff (by decide)).2 ⟨rfl, fun h => ha (by simpa using h.subset List.mem_cons_self)⟩
    have hclose : Text.breakOn? "</script>".toList (content ++ ("</script>".toList ++ behind)) =
        some (content, behind) :=
      (Text.breakOn?_eq_some_iff (by decide)).2 ⟨by rw [List.append_assoc], hcontent⟩
    simp only [scriptAt?, hafter, hhead, hword, htag, hclose, Option.bind_eq_bind, Option.bind_some, Option.pure_def,
      List.drop_left]
    rfl

/-- A script block stays where it is when more follows. -/
theorem scriptAt?_append {s head content rest : List Char} (h : scriptAt? s = some (head, content, rest))
    (t : List Char) : scriptAt? (s ++ t) = some (head, content, rest ++ t) := by
  obtain ⟨rfl, hhead, hclose, hcontent⟩ := scriptAt?_eq_some_iff.1 h
  refine scriptAt?_eq_some_iff.2 ⟨by simp only [List.append_assoc], hhead, hclose.trans ?_, hcontent⟩
  exact List.prefix_append rest t

/-- No script block begins in front of a closed one when more follows, if none does without. -/
theorem scriptAt?_append_eq_none {c : Char} {x front content rest : List Char} (h : scriptAt? (c :: x) = none)
    (hx : x = (front ++ ['>']) ++ (content ++ ("</script>".toList ++ rest))) (t : List Char) :
    scriptAt? (c :: (x ++ t)) = none := by
  rw [Option.eq_none_iff_forall_ne_some]
  rintro ⟨head, content', rest'⟩ hsome
  obtain ⟨hsplit, ⟨a, rfl, ha, hword⟩, -⟩ := scriptAt?_eq_some_iff.1 hsome
  -- The tag is over at the first bracket, and the end of the closed block stands behind that.
  have hbracket : '>' ∈ x := by simp [hx]
  obtain ⟨b, r, hb, hmem⟩ := List.eq_append_cons_of_mem hbracket
  have hend : "</script>".toList <:+: r := by
    have hinside : '>' :: (content ++ "</script>".toList) <:+: b ++ '>' :: r := by
      rw [← hb, hx]
      exact ⟨front, rest, by simp⟩
    obtain ⟨u, v, huv⟩ := Text.infix_of_infix_append_right hmem hinside
    cases u with
    | nil => exact ⟨content, v, by simpa using (List.cons.inj huv).2⟩
    | cons e u => exact ⟨u ++ '>' :: content, v, by simpa using (List.cons.inj huv).2⟩
  have hbreak : Text.breakOn? "</script>".toList r ≠ none := mt Text.breakOn?_eq_none_iff.1 (not_not_intro hend)
  obtain ⟨⟨u, v⟩, huv⟩ := Option.ne_none_iff_exists'.1 hbreak
  obtain ⟨rfl, hfirst⟩ := (Text.breakOn?_eq_some_iff (by decide)).1 huv
  have htag : c :: b = "<script".toList ++ a := by
    have hc : c = '<' := (List.cons.inj hsplit).1
    have hmem' : '>' ∉ c :: b := List.not_mem_cons_of_ne_of_not_mem (by rw [hc]; decide) hmem
    have ha' : '>' ∉ "<script".toList ++ a := fun hmem => (List.mem_append.1 hmem).elim (by decide) ha
    have heq : (c :: b) ++ '>' :: (u ++ "</script>".toList ++ v ++ t) =
        ("<script".toList ++ a) ++ '>' :: (content' ++ rest') := by
      rw [hb] at hsplit
      simpa using hsplit
    exact (Text.append_cons_inj hmem' ha' heq).1
  have hfound : scriptAt? (c :: x) = some ("<script".toList ++ a ++ ['>'], u, "</script>".toList ++ v) := by
    refine scriptAt?_eq_some_iff.2 ⟨?_, ⟨a, rfl, ha, hword⟩, List.prefix_append _ _, hfirst⟩
    rw [hb, ← List.cons_append, htag]
    simp
  rw [h] at hfound
  cases hfound

/-- A script block that is closed is found where it is when more follows. -/
theorem addToScript?_append_of_some {line : List Char} (t : List Char) : ∀ {x out : List Char},
    addToScript? line x = some out → addToScript? line (x ++ t) = some (out ++ t)
  | [], _, h => by cases h
  | c :: x, out, h => by
    rw [addToScript?] at h
    rw [List.cons_append, addToScript?]
    split at h
    next head content rest hscript =>
      cases h
      rw [← List.cons_append, scriptAt?_append hscript]
      simp
    next hnone =>
      obtain ⟨out, hrest, rfl⟩ := Option.map_eq_some_iff.1 h
      obtain ⟨front, content, rest, hx, -⟩ := addToScript?_eq_some hrest
      rw [scriptAt?_append_eq_none hnone hx, addToScript?_append_of_some t hrest]
      rfl

/-- A script block behind a closed text is found there. -/
theorem addToScript?_append {line body : List Char} (hbody : IsClosed body)
    (hscript : ¬ "<script".toList <:+: body) (tail : List Char) :
    addToScript? line (body ++ tail) = (addToScript? line tail).map (body ++ ·) := by
  induction body with
  | nil => simp
  | cons c s ih =>
    have hnone : scriptAt? (c :: (s ++ tail)) = none := by
      have hafter : Text.after? "<script".toList (c :: (s ++ tail)) = none := by
        refine Text.after?_eq_none_iff.2 fun hfront => hscript ?_
        exact ((hbody.prefix_iff (List.cons_ne_nil c s) (by simp [scanned])).1 hfront).isInfix
      rw [scriptAt?, hafter]
      rfl
    have hrest := ih (hbody.of_append (a := [c])) fun h => hscript (h.trans (List.suffix_cons c s).isInfix)
    rw [List.cons_append, Markup.addToScript?, hnone]
    simp only [hrest, Option.map_map]
    rfl

/-- No script block begins in a template block, and one that begins in front of it ends there. -/
structure TemplateBlock.IsApart (b : TemplateBlock) : Prop where
  front : "<script".toList <:+: b.front → (addToScript? darkImport b.front).isSome = true
  inside : ¬ "<script".toList <:+: b.tag ++ '>' :: b.inside.source

theorem TemplateBlock.IsApart.mapTags {b : TemplateBlock} (h : b.IsApart) {f : List Char → List Char}
    (hf : b.inside.All fun g => IsBare g ∧ IsBare (f g)) : (b.mapTags f hf).IsApart where
  front := h.front
  inside := by
    have halike : Alike b.inside.source (b.inside.image f) := Cut.alike_image fun p hp => by
      simpa using Alike.tag (hf p hp).1 (hf p hp).2 Alike.nil
    have hwhole := (Alike.refl b.tag).append (Alike.char '>' halike)
    have hsource : (b.mapTags f hf).inside.source = b.inside.image f := Cut.source_mapTags f b.inside
    rw [hsource]
    exact mt (hwhole.infix_iff (by simp [scanned])).2 h.inside

theorem TemplateBlock.isClosed_source (b : TemplateBlock) : IsClosed b.cut.source := by
  have hclose : templateClose = "</template".toList ++ ['>'] := by decide
  refine Or.inr ⟨b.front ++ (b.tag ++ '>' :: (b.inside.source ++ "</template".toList)), ?_⟩
  rw [b.source_cut, hclose]
  simp only [List.append_assoc, List.cons_append]

/-- Where no script block begins in front of a block, none does in the whole. -/
theorem TemplateBlock.IsApart.not_script {b : TemplateBlock} (h : b.IsApart)
    (hfront : ¬ "<script".toList <:+: b.front) : ¬ "<script".toList <:+: b.cut.source := by
  have hword : "<script".toList = '<' :: "script".toList := by decide
  obtain ⟨t, ht⟩ := b.opens
  have htag : b.tag = '<' :: (templateName ++ t) := ht.symm
  have hsplit : b.cut.source = b.front ++ '<' :: ((templateName ++ t ++ '>' :: b.inside.source) ++ templateClose) := by
    rw [b.source_cut, htag]
    simp
  have hinside : '<' :: (templateName ++ t ++ '>' :: b.inside.source) = b.tag ++ '>' :: b.inside.source := by
    rw [htag, List.cons_append]
  rw [hsplit, hword, Text.infix_append_cons_of_head (by decide), ← List.cons_append, hinside, templateClose_eq,
    Text.infix_append_cons_of_head (by decide), ← hword]
  rintro (hleft | hmiddle | hright)
  · exact hfront hleft
  · exact h.inside hmiddle
  · exact absurd hright (Text.contains_eq_false_iff.1 (by decide))

namespace Layout

theorem source_cutOf_append (last t : List Char) (bs : List TemplateBlock) :
    (cutOf (last ++ t) bs).source = (cutOf last bs).source ++ t := by
  induction bs with
  | nil => rfl
  | cons b bs ih => rw [cutOf_cons, cutOf_cons, Cut.source_append, Cut.source_append, ih, List.append_assoc]

/-- A line in a script block changes a text around the template blocks, and keeps what stands in them. -/
theorem exists_addToScript {bs : List TemplateBlock} {last : List Char} (hlast : IsQuiet last)
    (hclean : ∀ b ∈ bs, b.IsClean) (hapart : ∀ b ∈ bs, b.IsApart) {out : List Char}
    (hout : addToScript? darkImport (cutOf last bs).source = some out) :
    ∃ l : Layout, l.source = out ∧ l.IsClean ∧ ∀ b' ∈ l.blocks, ∃ b ∈ bs, b'.inside = b.inside := by
  induction bs generalizing out with
  | nil =>
    obtain ⟨hfree, hout⟩ := isQuiet_iff.1 (hlast.addToScript? hout)
    have hnone {P : TemplateBlock → Prop} : ∀ b ∈ [], P b := fun _ hb => absurd hb List.not_mem_nil
    exact ⟨⟨[], out, hfree⟩, rfl, ⟨hnone, hout⟩, hnone⟩
  | cons b bs ih =>
    obtain ⟨hb, hbs⟩ := List.forall_mem_cons.1 hclean
    obtain ⟨hscript, hscripts⟩ := List.forall_mem_cons.1 hapart
    rw [cutOf_cons, Cut.source_append] at hout
    by_cases hfront : "<script".toList <:+: b.front
    · obtain ⟨front, hadd⟩ := Option.isSome_iff_exists.1 (hscript.front hfront)
      have hquiet : IsQuiet b.front := isQuiet_iff.2 ⟨b.free, hb.front⟩
      obtain ⟨hfree, hfrontclean⟩ := isQuiet_iff.1 (hquiet.addToScript? hadd)
      rw [b.source_cut, List.append_assoc, addToScript?_append_of_some _ hadd] at hout
      refine ⟨⟨b.withFront front hfree :: bs, last, (isQuiet_iff.1 hlast).1⟩, ?_, ⟨?_, (isQuiet_iff.1 hlast).2⟩, ?_⟩
      · cases hout
        rw [source, cut, cutOf_cons, Cut.source_append, TemplateBlock.source_cut, List.append_assoc]
        rfl
      · exact List.forall_mem_cons.2 ⟨⟨hfrontclean, hb.tag, hb.inside⟩, hbs⟩
      · exact List.forall_mem_cons.2 ⟨⟨b, List.mem_cons_self, rfl⟩,
          fun b' hb' => ⟨b', List.mem_cons_of_mem b hb', rfl⟩⟩
    · rw [addToScript?_append b.isClosed_source (hscript.not_script hfront)] at hout
      obtain ⟨out, hrest, rfl⟩ := Option.map_eq_some_iff.1 hout
      obtain ⟨l, rfl, hl, hkept⟩ := ih hbs hscripts hrest
      refine ⟨⟨b :: l.blocks, l.last, l.free⟩, Cut.source_append _ _, ⟨?_, hl.last⟩, ?_⟩
      · exact List.forall_mem_cons.2 ⟨hb, hl.blocks⟩
      · refine List.forall_mem_cons.2 ⟨⟨b, List.mem_cons_self, rfl⟩, fun b' hb' => ?_⟩
        obtain ⟨b'', hmem, heq⟩ := hkept b' hb'
        exact ⟨b'', List.mem_cons_of_mem b hmem, heq⟩

/-- **The import changes a text around the template blocks only**: the page with the import has blocks with the
same contents, and no empty attribute around their tags. -/
theorem exists_withDarkImport {l : Layout} (hclean : l.IsClean) (hapart : ∀ b ∈ l.blocks, b.IsApart) :
    ∃ l' : Layout, l'.source = withDarkImport l.source ∧ l'.IsClean ∧
      ∀ b' ∈ l'.blocks, ∃ b ∈ l.blocks, b'.inside = b.inside := by
  obtain ⟨bs, last, hfree⟩ := l
  obtain ⟨hbs, hlast⟩ := hclean
  have hkept {last : List Char} (hquiet : IsQuiet last) : ∃ l' : Layout,
      l'.source = (addToScript? darkImport (cutOf last bs).source).getD (cutOf last bs).source ∧ l'.IsClean ∧
        ∀ b' ∈ l'.blocks, ∃ b ∈ bs, b'.inside = b.inside := by
    cases hout : addToScript? darkImport (cutOf last bs).source with
    | none =>
      obtain ⟨hfree, hlast⟩ := isQuiet_iff.1 hquiet
      exact ⟨⟨bs, last, hfree⟩, rfl, ⟨hbs, hlast⟩, fun b hb => ⟨b, hb, rfl⟩⟩
    | some out => exact exists_addToScript hquiet hbs hapart hout
  have hquiet : IsQuiet last := isQuiet_iff.2 ⟨hfree, hlast⟩
  rw [withDarkImport]
  split
  next =>
    simp only
    split
    next => exact hkept hquiet
    next =>
      have hstub : IsQuiet (last ++ scriptStub) := hquiet.append_newline (by decide)
      have := hkept hstub
      rwa [source_cutOf_append] at this
  next => exact ⟨⟨bs, last, hfree⟩, rfl, ⟨hbs, hlast⟩, fun b hb => ⟨b, hb, rfl⟩⟩

end Layout

end ClientBuild.Markup
