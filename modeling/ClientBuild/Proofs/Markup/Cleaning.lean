import ClientBuild.Proofs.Markup.Cut
import ClientBuild.Proofs.Text.Replace

/-!
# Empty attributes and the import

Taking empty attributes out of a page takes them out of each of its tags and out of each text between them
(`dropEmptyAttributes_image`), since no angle bracket stands in what is taken out.  The import that dark mode
needs is put behind a tag, so every tag is kept by it (`exists_withDarkImport`).
-/

namespace ClientBuild.Markup

/-- The texts that are taken out of a page, in order. -/
def emptyAttributes : List (List Char) :=
  [emptyBinding, emptyBinding.drop 1, "class=\"\"".toList, "class=\" \"".toList]

theorem dropEmptyAttributes_eq (page : List Char) :
    dropEmptyAttributes page = emptyAttributes.foldl (fun s p => Text.replaceAll p [] s) page := rfl

/-- The texts on both sides of a character that no empty attribute has are cleaned apart. -/
theorem dropEmptyAttributes_append_cons {c : Char} (hc : c ∉ emptyBinding) (a b : List Char) :
    dropEmptyAttributes (a ++ c :: b) = dropEmptyAttributes a ++ c :: dropEmptyAttributes b := by
  have hchars : ∀ p ∈ emptyAttributes, ∀ d ∈ p, d ∈ emptyBinding := by decide
  simp only [dropEmptyAttributes_eq]
  generalize emptyAttributes = ps at hchars
  induction ps generalizing a b with
  | nil => rfl
  | cons p ps ih =>
    obtain ⟨hp, hps⟩ := List.forall_mem_cons.1 hchars
    rw [List.foldl_cons, List.foldl_cons, List.foldl_cons,
      Text.replaceAll_append_cons fun hmem => hc (hp c hmem), ih _ _ hps]

/-- A text stays in which no empty attribute stands. -/
theorem dropEmptyAttributes_eq_self {s : List Char} (h : ∀ p ∈ emptyAttributes, ¬ p <:+: s) :
    dropEmptyAttributes s = s := by
  rw [dropEmptyAttributes_eq]
  generalize emptyAttributes = ps at h
  induction ps with
  | nil => rfl
  | cons p ps ih =>
    obtain ⟨hp, hps⟩ := List.forall_mem_cons.1 h
    rw [List.foldl_cons, Text.replaceAll_eq_self hp, ih hps]

/-- An empty attribute has two quotes. -/
theorem not_infix_of_count {s : List Char} (h : s.count '"' ≤ 1) : ∀ p ∈ emptyAttributes, ¬ p <:+: s := by
  have hquotes : ∀ p ∈ emptyAttributes, p.count '"' = 2 := by decide
  intro p hp hinside
  have := hinside.sublist.count_le '"'
  rw [hquotes p hp] at this
  omega

theorem dropEmptyAttributes_of_count {s : List Char} (h : s.count '"' ≤ 1) : dropEmptyAttributes s = s :=
  dropEmptyAttributes_eq_self (not_infix_of_count h)

/-- A binding without entries goes, where no other empty attribute stands. -/
theorem dropEmptyAttributes_emptyBinding {a b : List Char} (h : ∀ p ∈ emptyAttributes, ¬ p <:+: a ++ b) :
    dropEmptyAttributes (a ++ (emptyBinding ++ b)) = a ++ b := by
  have hnone : ¬ emptyBinding <:+: a ++ b := h _ List.mem_cons_self
  have hfirst : Text.replaceAll emptyBinding [] (a ++ (emptyBinding ++ b)) = a ++ b := by
    rw [Text.replaceAll_append_of_not_across (by decide), Text.replaceAll_append (by decide), List.nil_append,
      Text.replaceAll_eq_self fun ha => hnone (ha.trans (List.prefix_append a b).isInfix),
      Text.replaceAll_eq_self fun hb => hnone (hb.trans (List.suffix_append a b).isInfix)]
    -- A binding begins with its only blank in front of the colon, so it does not overlap another one.
    rintro x y hxy hx hy - hfront
    have hblank : ' ' ∉ emptyBinding.tail := by decide
    obtain ⟨c, x, rfl⟩ := List.exists_cons_of_ne_nil hx
    obtain ⟨d, y, rfl⟩ := List.exists_cons_of_ne_nil hy
    obtain ⟨t, ht⟩ := hfront
    have hd : d = ' ' := (List.cons.inj ht).1
    rw [hxy, hd] at hblank
    exact hblank (List.mem_append_right x List.mem_cons_self)
  have hkeep := dropEmptyAttributes_eq_self h
  rw [dropEmptyAttributes, Text.replaceAll_eq_self hnone] at hkeep
  rw [dropEmptyAttributes, hfirst]
  exact hkeep

theorem mem_dropEmptyAttributes {c : Char} {s : List Char} (h : c ∈ dropEmptyAttributes s) : c ∈ s := by
  rw [dropEmptyAttributes_eq] at h
  generalize emptyAttributes = ps at h
  induction ps generalizing s with
  | nil => exact h
  | cons p ps ih => exact (Text.mem_replaceAll (ih h)).resolve_right List.not_mem_nil

/-- Cleaning takes out no closing bracket. -/
theorem count_dropEmptyAttributes (s : List Char) : (dropEmptyAttributes s).count '>' = s.count '>' := by
  have hchars : ∀ p ∈ emptyAttributes, '>' ∉ p := by decide
  rw [dropEmptyAttributes_eq]
  generalize emptyAttributes = ps at hchars
  induction ps generalizing s with
  | nil => rfl
  | cons p ps ih =>
    obtain ⟨hp, hps⟩ := List.forall_mem_cons.1 hchars
    rw [List.foldl_cons, ih _ hps, Text.count_replaceAll hp List.not_mem_nil]

theorem dropEmptyAttributes_tag (x s : List Char) :
    dropEmptyAttributes ('<' :: (x ++ '>' :: s)) =
      '<' :: (dropEmptyAttributes x ++ '>' :: dropEmptyAttributes s) := by
  rw [← List.nil_append ('<' :: _), dropEmptyAttributes_append_cons (by decide),
    dropEmptyAttributes_append_cons (by decide)]
  rfl

theorem IsTag.dropEmptyAttributes {g : List Char} (h : IsTag g) : IsTag (dropEmptyAttributes g) := by
  obtain ⟨x, rfl, hx⟩ := h
  exact ⟨Markup.dropEmptyAttributes x, dropEmptyAttributes_tag x [], fun hmem =>
    hx (mem_dropEmptyAttributes hmem)⟩

theorem IsTag.dropEmptyAttributes_append {g : List Char} (h : IsTag g) (t s : List Char) :
    Markup.dropEmptyAttributes (t ++ (g ++ s)) =
      Markup.dropEmptyAttributes t ++ (Markup.dropEmptyAttributes g ++ Markup.dropEmptyAttributes s) := by
  obtain ⟨x, rfl, hx⟩ := h
  have hsplit : '<' :: (x ++ ['>']) ++ s = '<' :: (x ++ '>' :: s) := by simp
  have htag := dropEmptyAttributes_tag x []
  have hnil : Markup.dropEmptyAttributes [] = [] := rfl
  rw [hsplit, dropEmptyAttributes_append_cons (by decide), dropEmptyAttributes_append_cons (by decide),
    htag, hnil]
  simp

/-- A cut cleaned: its texts, and its tags behind what replaces them. -/
def Cut.cleaned (c : Cut) : Cut :=
  ⟨c.tags.map fun p => (dropEmptyAttributes p.1, p.2), dropEmptyAttributes c.last⟩

/-- Tags and the texts between them are cleaned apart. -/
theorem dropEmptyAttributes_image {f : List Char → List Char} {c : Cut}
    (hf : ∀ p ∈ c.tags, IsTag (f p.2)) :
    dropEmptyAttributes (c.image f) = c.cleaned.image fun g => dropEmptyAttributes (f g) := by
  obtain ⟨ps, last⟩ := c
  induction ps with
  | nil => rfl
  | cons p ps ih =>
    obtain ⟨t, g⟩ := p
    obtain ⟨hg, hps⟩ := List.forall_mem_cons.1 hf
    have himage : Cut.image f ⟨(t, g) :: ps, last⟩ = t ++ (f g ++ Cut.image f ⟨ps, last⟩) := by
      simp [Cut.image]
    rw [himage, hg.dropEmptyAttributes_append, ih hps]
    simp [Cut.image, Cut.cleaned]

/-- A page that stays has every tag behind its text stay: closing brackets count the tags. -/
theorem Cut.eq_of_image_eq {f : List Char → List Char} {c : Cut} (hc : c.All IsTag)
    (hf : ∀ p ∈ c.tags, IsTag (f p.2)) (h : c.cleaned.image f = c.source) {t g : List Char}
    (hg : (t, g) ∈ c.tags) : Markup.dropEmptyAttributes t ++ f g = t ++ g := by
  obtain ⟨ps, last⟩ := c
  induction ps with
  | nil => exact absurd hg List.not_mem_nil
  | cons p ps ih =>
    obtain ⟨u, k⟩ := p
    obtain ⟨⟨x, hx, hxmem⟩, hc⟩ := List.forall_mem_cons.1 hc
    obtain ⟨⟨y, hy, hymem⟩, hf⟩ := List.forall_mem_cons.1 hf
    simp only at hx hy
    have hsplit : (Markup.dropEmptyAttributes u ++ '<' :: y) ++ '>' :: (cleaned ⟨ps, last⟩).image f =
        (u ++ '<' :: x) ++ '>' :: source ⟨ps, last⟩ := by
      have hleft : (cleaned ⟨(u, k) :: ps, last⟩).image f =
          Markup.dropEmptyAttributes u ++ (f k ++ (cleaned ⟨ps, last⟩).image f) := by
        simp [cleaned, image]
      have hright : source ⟨(u, k) :: ps, last⟩ = u ++ (k ++ source ⟨ps, last⟩) := by
        simp [source, image]
      rw [hleft, hright, hy, hx] at h
      simpa using h
    have hcount : (Markup.dropEmptyAttributes u ++ '<' :: y).count '>' = (u ++ '<' :: x).count '>' := by
      rw [List.count_append, List.count_append, count_dropEmptyAttributes, List.count_cons_of_ne (by decide),
        List.count_cons_of_ne (by decide), List.count_eq_zero_of_not_mem hxmem,
        List.count_eq_zero_of_not_mem hymem]
    obtain ⟨hfront, hrest⟩ := Text.append_cons_inj_of_count hcount hsplit
    rcases List.mem_cons.1 hg with heq | hg
    · cases heq
      rw [hy, hx, ← List.cons_append, ← List.cons_append, ← List.append_assoc, ← List.append_assoc, hfront]
    · exact ih hc hf hrest hg

/-! ## The import -/

/-- Where the import is put: behind the tag of the first script block, whose content is trimmed. -/
theorem addToScript?_eq_some {line : List Char} : ∀ {page out : List Char},
    addToScript? line page = some out →
      ∃ front content rest, page = (front ++ ['>']) ++ (content ++ ("</script>".toList ++ rest)) ∧
        out = (front ++ ['>']) ++ ('\n' :: line ++ ['\n'] ++ (Text.trim content ++
          ("</script>".toList ++ rest)))
  | [], _, h => by cases h
  | c :: s, out, h => by
    rw [addToScript?] at h
    split at h
    next head content rest hscript =>
      cases h
      simp only [scriptAt?, Option.bind_eq_bind, Option.pure_def, Option.bind_eq_some_iff] at hscript
      obtain ⟨behind, hbehind, hscript⟩ := hscript
      split at hscript
      next => cases hscript
      next =>
        obtain ⟨⟨attributes, inner⟩, htag, hscript⟩ := Option.bind_eq_some_iff.1 hscript
        obtain ⟨⟨content', behind'⟩, hclose, hscript⟩ := Option.bind_eq_some_iff.1 hscript
        cases hscript
        have hinner : inner = content' ++ "</script>".toList ++ behind' := Text.eq_of_breakOn? hclose
        have hdrop : inner.drop content'.length = "</script>".toList ++ behind' := by
          rw [hinner, List.append_assoc, List.drop_left]
        refine ⟨"<script".toList ++ attributes, content', behind', ?_, ?_⟩
        · rw [Text.after?_eq_some_iff.1 hbehind, Text.eq_of_breakOn? htag, hinner]
          simp only [List.append_assoc]
        · simp only [hdrop]
          simp
    next =>
      obtain ⟨out', hrest, rfl⟩ := Option.map_eq_some_iff.1 h
      obtain ⟨front, content, rest, rfl, rfl⟩ := addToScript?_eq_some hrest
      exact ⟨c :: front, content, rest, rfl, rfl⟩

/-- A tag is kept by trimming a text around it. -/
theorem IsTag.exists_trim {g : List Char} (h : IsTag g) (a b : List Char) :
    ∃ a' b', Text.trim (a ++ (g ++ b)) = a' ++ (g ++ b') := by
  obtain ⟨x, hg, -⟩ := h
  obtain ⟨l, r, hl, hr, hsplit⟩ := Text.exists_eq_append_trim (a ++ (g ++ b))
  generalize Text.trim (a ++ (g ++ b)) = t at hsplit
  rw [List.append_assoc] at hsplit
  have hleft : ∃ u, t ++ r = u ++ g ++ b := by
    rcases List.append_eq_append_iff.1 hsplit with ⟨u, hu, hx⟩ | ⟨u, hu, ht⟩
    · cases u with
      | nil => exact ⟨[], hx.symm⟩
      | cons c u =>
        rw [hg] at hx
        obtain ⟨rfl, -⟩ := List.cons.inj hx
        exact absurd (hl '<' (by rw [hu]; simp)) (by decide)
    · exact ⟨u, by rw [ht, List.append_assoc]⟩
  obtain ⟨u, hu⟩ := hleft
  rcases List.append_eq_append_iff.1 hu with ⟨v, hv, hr'⟩ | ⟨v, hv, -⟩
  · rcases List.eq_nil_or_concat v with rfl | ⟨v, c, rfl⟩
    · exact ⟨u, [], by rw [List.append_nil] at hv ⊢; exact hv.symm⟩
    · rw [hg, List.concat_eq_append, ← List.cons_append, ← List.append_assoc, ← List.append_assoc] at hv
      obtain ⟨-, hc⟩ := List.append_inj' hv rfl
      cases hc
      exact absurd (hr '>' (by rw [hr']; simp)) (by decide)
  · exact ⟨u, v, by rw [hv, List.append_assoc]⟩

/-- A tag ends at the first closing bracket. -/
theorem IsTag.exists_append {g b front rest : List Char} (h : IsTag g)
    (heq : g ++ b = front ++ '>' :: rest) : ∃ v, front ++ ['>'] = g ++ v := by
  obtain ⟨x, rfl, hx⟩ := h
  have hx : '>' ∉ '<' :: x := List.not_mem_cons_of_ne_of_not_mem (by decide) hx
  have hsplit : ('<' :: x) ++ '>' :: b = front ++ '>' :: rest := by rw [← heq]; simp
  rcases List.append_eq_append_iff.1 hsplit with ⟨v, hv, hrest⟩ | ⟨v, hv, hrest⟩
  · cases v with
    | nil => exact ⟨[], by rw [hv]; simp⟩
    | cons c v =>
      obtain ⟨rfl, -⟩ := List.cons.inj hrest
      exact ⟨v ++ ['>'], by rw [hv]; simp⟩
  · cases v with
    | nil => exact ⟨[], by rw [List.append_nil] at hv; rw [← hv]; simp⟩
    | cons c v =>
      obtain ⟨rfl, -⟩ := List.cons.inj hrest
      exact absurd (by rw [hv]; simp) hx

/-- A tag that goes on behind the content of a script block ends it. -/
theorem IsTag.end_infix {v w b rest : List Char} (h : IsTag (v ++ w)) (hw : w ≠ [])
    (heq : "</script>".toList ++ rest = w ++ b) : "</script".toList <:+: v ++ w := by
  obtain ⟨x, hx, hmem⟩ := h
  have hx' : '>' ∉ '<' :: x := List.not_mem_cons_of_ne_of_not_mem (by decide) hmem
  rcases List.eq_nil_or_concat w with rfl | ⟨w, c, rfl⟩
  · exact absurd rfl hw
  · have hsplit : (v ++ w) ++ [c] = ('<' :: x) ++ ['>'] := by rw [List.append_assoc]; simpa using hx
    obtain ⟨hvw, hc⟩ := List.append_inj' hsplit rfl
    cases hc
    have hclose : "</script>".toList = "</script".toList ++ ['>'] := by decide
    have hw : "</script".toList = w := by
      rw [hclose, List.append_assoc, List.concat_eq_append, List.append_assoc, List.singleton_append,
        List.singleton_append] at heq
      exact (Text.append_cons_inj (by decide) (fun hmem => hx' (hvw ▸ List.mem_append_right v hmem)) heq).1
    rw [hw]
    exact ⟨v, ['>'], by simp⟩

/-- Every tag is kept by the import, unless it ends a script block. -/
theorem exists_withDarkImport {a g b : List Char} (h : IsTag g) (hscript : ¬ "</script".toList <:+: g) :
    ∃ a' b', withDarkImport (a ++ (g ++ b)) = a' ++ (g ++ b') := by
  have hkeep (line : List Char) (b : List Char) :
      ∃ a' b', (addToScript? line (a ++ (g ++ b))).getD (a ++ (g ++ b)) = a' ++ (g ++ b') := by
    cases hadd : addToScript? line (a ++ (g ++ b)) with
    | none => exact ⟨a, b, rfl⟩
    | some out =>
      obtain ⟨front, content, rest, hpage, rfl⟩ := addToScript?_eq_some hadd
      rw [Option.getD_some]
      generalize '\n' :: line ++ ['\n'] = added
      -- What stands behind the front holds a tag that begins there.
      have hbehind {u : List Char} (hrest : content ++ ("</script>".toList ++ rest) = u ++ (g ++ b)) :
          ∃ a' b', Text.trim content ++ ("</script>".toList ++ rest) = a' ++ (g ++ b') := by
        rcases List.append_eq_append_iff.1 hrest with ⟨v, -, hclose⟩ | ⟨v, hcontent, hv⟩
        · exact ⟨Text.trim content ++ v, b, by rw [hclose, List.append_assoc]⟩
        · rcases List.append_eq_append_iff.1 hv with ⟨w, hw, -⟩ | ⟨w, hw, hclose⟩
          · obtain ⟨a', b', htrim⟩ := h.exists_trim u w
            exact ⟨a', b' ++ ("</script>".toList ++ rest), by rw [hcontent, hw, htrim]; simp⟩
          · by_cases hne : w = []
            · obtain ⟨a', b', htrim⟩ := h.exists_trim u []
              rw [hne, List.append_nil] at hw
              rw [List.append_nil] at htrim
              exact ⟨a', b' ++ ("</script>".toList ++ rest), by rw [hcontent, ← hw, htrim]; simp⟩
            · exact absurd (hw ▸ IsTag.end_infix (hw ▸ h) hne hclose) hscript
      rcases List.append_eq_append_iff.1 hpage with ⟨u, hfront, hrest⟩ | ⟨u, ha, hrest⟩
      · rcases List.eq_nil_or_concat u with rfl | ⟨u, c, rfl⟩
        · obtain ⟨a', b', hout⟩ := hbehind (u := []) hrest.symm
          exact ⟨front ++ ['>'] ++ (added ++ a'), b', by rw [hout]; simp⟩
        · have hc : c = '>' := by
            rw [List.concat_eq_append, ← List.append_assoc] at hfront
            obtain ⟨-, hc⟩ := List.append_inj' hfront rfl
            cases hc
            rfl
          rw [hc, List.concat_eq_append] at hfront hrest
          have hend : g ++ b = u ++ '>' :: (content ++ ("</script>".toList ++ rest)) := by
            rw [hrest, List.append_assoc]
            rfl
          obtain ⟨v, hv⟩ := h.exists_append hend
          refine ⟨a, v ++ (added ++ (Text.trim content ++ ("</script>".toList ++ rest))), ?_⟩
          rw [hfront, hv]
          simp
      · obtain ⟨a', b', hout⟩ := hbehind hrest
        exact ⟨front ++ ['>'] ++ (added ++ a'), b', by rw [hout]; simp⟩
  rw [withDarkImport]
  split
  next =>
    simp only
    split
    next => exact hkeep darkImport b
    next =>
      rw [List.append_assoc, List.append_assoc]
      exact hkeep darkImport (b ++ scriptStub)
  next => exact ⟨a, b, rfl⟩

end ClientBuild.Markup
