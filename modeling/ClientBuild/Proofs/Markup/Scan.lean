import ClientBuild.Proofs.Markup.Cut
import ClientBuild.Proofs.Text.Replace
import ClientBuild.Proofs.Text.Words

/-!
# Where the tags of a page are found

The scans for template blocks and for tags cut every page (`exists_isCut`), and they find the same places
again when the tags have been replaced by others (`Alike.takeTemplate?_eq_some`, `Cut.IsFound.mapTags`): a scan
stops at the brackets of a tag and looks inside for few marks only.
-/

namespace ClientBuild.Markup

/-! ## Tags -/

/-- A tag as the scan for tags finds it: neither empty nor skipped. -/
def IsNode (g : List Char) : Prop :=
  ∃ x, g = '<' :: (x ++ ['>']) ∧ '>' ∉ x ∧ x ≠ [] ∧ isSkippedTag x = false

theorem IsNode.isTag {g : List Char} (h : IsNode g) : IsTag g := by
  obtain ⟨x, hg, hx, -⟩ := h
  exact ⟨x, hg, hx⟩

theorem tagsFrom_eq_drop : ∀ (k o : Nat) (s : List Char),
    tagsFrom k o s = tagsFrom 0 (o + Text.byteSize (s.take k)) (s.drop k)
  | 0, _, _ => rfl
  | k + 1, o, [] => by simp [tagsFrom]
  | k + 1, o, c :: s => by
    rw [tagsFrom, tagsFrom_eq_drop k, List.take_succ_cons, List.drop_succ_cons, Text.byteSize_cons,
      Nat.add_assoc]

theorem tagInner?_eq_some {s inner : List Char} (h : tagInner? s = some inner) :
    ∃ rest, s = '<' :: (inner ++ '>' :: rest) ∧ '>' ∉ inner ∧ inner ≠ [] := by
  rw [tagInner?.eq_def] at h
  split at h
  next t =>
    obtain ⟨run, rest, rfl, hrun, htake, hdrop⟩ := Text.exists_run (· != '>') t
    simp only [htake, hdrop] at h
    split at h
    next => cases h
    next hne =>
      cases h
      have hinner : '>' ∉ inner := fun hmem => absurd (hrun _ hmem) (by decide)
      have hnil : inner ≠ [] := fun hnil => by simp [hnil] at hne
      cases rest with
      | nil => simp at hne
      | cons c rest =>
        have hc : c = '>' := by
          have := List.head?_dropWhile_not (· != '>') (inner ++ c :: rest)
          rw [hdrop] at this
          simpa using this
        exact ⟨rest, by rw [hc], hinner, hnil⟩
  next => cases h

theorem tagInner?_tag {x : List Char} (hx : '>' ∉ x) (hne : x ≠ []) (s : List Char) :
    tagInner? ('<' :: (x ++ '>' :: s)) = some x := by
  have hrun : ∀ c ∈ x, (c != '>') = true := fun c hc => by
    rw [bne_iff_ne]
    rintro rfl
    exact hx hc
  rw [tagInner?, List.takeWhile_append_of_pos hrun, List.dropWhile_append_of_pos hrun]
  simp [hne]

/-- A tag is found at its place, unless it is skipped, and the scan goes on behind it. -/
theorem tagsFrom_tag {x : List Char} (hx : '>' ∉ x) (hne : x ≠ []) (o : Nat) (s : List Char) :
    tagsFrom 0 o ('<' :: (x ++ ['>']) ++ s) =
      (if isSkippedTag x then [] else [⟨o, '<' :: (x ++ ['>'])⟩]) ++
        tagsFrom 0 (o + Text.byteSize ('<' :: (x ++ ['>']))) s := by
  have hsplit : '<' :: (x ++ ['>']) ++ s = '<' :: (x ++ '>' :: s) := by simp
  have hskip : tagsFrom (x.length + 1) (o + '<'.utf8Size) (x ++ '>' :: s) =
      tagsFrom 0 (o + Text.byteSize ('<' :: (x ++ ['>']))) s := by
    have hsize : x.length + 1 = (x ++ ['>']).length := by simp
    rw [tagsFrom_eq_drop, show x ++ '>' :: s = (x ++ ['>']) ++ s by simp, hsize, List.take_left,
      List.drop_left, Text.byteSize_cons, Nat.add_assoc]
  rw [hsplit, tagsFrom, tagInner?_tag hx hne]
  simp only [hskip]
  split
  next => rfl
  next => rfl

theorem tagsFrom_of_none {d : Char} {s : List Char} (h : tagInner? (d :: s) = none) (o : Nat) :
    tagsFrom 0 o (d :: s) = tagsFrom 0 (o + d.utf8Size) s := by
  rw [tagsFrom, h]

/-- Where no tag begins, none does after the tags behind have been replaced. -/
theorem tagInner?_image {f : List Char → List Char} {d : Char} {c : Cut} (hc : c.All IsTag)
    (hf : c.All fun g => IsTag (f g)) (h : tagInner? (d :: c.source) = none) :
    tagInner? (d :: c.image f) = none := by
  cases hinner : tagInner? (d :: c.image f) with
  | none => rfl
  | some inner =>
    obtain ⟨rest, himage, hmem, hne⟩ := tagInner?_eq_some hinner
    obtain ⟨rfl, hrest⟩ := List.cons.inj himage
    -- The text behind has a closing bracket as well, and does not begin with it.
    have hclose : '>' ∈ c.source ∧ c.source.head? ≠ some '>' := by
      obtain ⟨e, inner, rfl⟩ := List.exists_cons_of_ne_nil hne
      have he : e ≠ '>' := fun heq => hmem (heq ▸ List.mem_cons_self)
      obtain ⟨_ | ⟨⟨t, g⟩, ps⟩, last⟩ := c
      · have himage : last = (e :: inner) ++ '>' :: rest := hrest
        constructor
        · rw [show Cut.source ⟨[], last⟩ = last from rfl, himage]
          simp
        · rw [show Cut.source ⟨[], last⟩ = last from rfl, himage]
          simpa using he
      · obtain ⟨⟨x, rfl, -⟩, -⟩ := List.forall_mem_cons.1 hc
        have hsource : Cut.source ⟨(t, '<' :: (x ++ ['>'])) :: ps, last⟩ =
            t ++ ('<' :: (x ++ ['>']) ++ Cut.source ⟨ps, last⟩) := by
          simp [Cut.source, Cut.image]
        refine ⟨by rw [hsource]; simp, ?_⟩
        rw [hsource]
        cases t with
        | nil => simp
        | cons e' t =>
          have hhead : Cut.image f ⟨(e' :: t, '<' :: (x ++ ['>'])) :: ps, last⟩ =
              e' :: (t ++ f ('<' :: (x ++ ['>'])) ++ Cut.image f ⟨ps, last⟩) := by
            simp [Cut.image]
          rw [hhead] at hrest
          have hhead : e' = e := (List.cons.inj hrest).1
          simpa [hhead] using he
    obtain ⟨x, s, hs, hx⟩ := List.eq_append_cons_of_mem hclose.1
    have hxne : x ≠ [] := by
      rintro rfl
      rw [hs] at hclose
      exact hclose.2 rfl
    rw [hs, tagInner?_tag hx hxne] at h
    cases h

/-- A text is cut at the tags in it, and they are found at their places whatever tags they are replaced by. -/
theorem exists_cut_tagsFrom (s : List Char) : ∃ c : Cut, c.source = s ∧ c.All IsNode ∧
    ∀ f, (c.All fun g => IsNode (f g)) → ∀ o, tagsFrom 0 o (c.image f) = (c.mapTags f).nodes o := by
  cases s with
  | nil => exact ⟨⟨[], []⟩, rfl, fun _ hp => absurd hp List.not_mem_nil, fun _ _ _ => rfl⟩
  | cons d s =>
    cases htag : tagInner? (d :: s) with
    | none =>
      obtain ⟨c, rfl, hall, hnodes⟩ := exists_cut_tagsFrom s
      refine ⟨c.behind [d], Cut.source_behind [d] c, Cut.all_behind.2 hall, fun f hf o => ?_⟩
      rw [Cut.all_behind] at hf
      have hnone := tagInner?_image (hall.imp fun _ h => h.isTag) (hf.imp fun _ h => h.isTag) htag
      rw [Cut.image_behind, List.singleton_append, tagsFrom_of_none hnone, hnodes f hf, Cut.mapTags_behind,
        Cut.nodes_behind]
      simp [Text.byteSize]
    | some inner =>
      obtain ⟨rest, hs, hinner, hne⟩ := tagInner?_eq_some htag
      have hlength : rest.length < (d :: s).length := by
        rw [hs]
        simp only [List.length_cons, List.length_append]
        omega
      have hs' : d :: s = '<' :: (inner ++ ['>']) ++ rest := by rw [hs]; simp
      obtain ⟨c, hsource, hall, hnodes⟩ := exists_cut_tagsFrom rest
      by_cases hskipped : isSkippedTag inner = true
      · refine ⟨c.behind ('<' :: (inner ++ ['>'])), ?_, Cut.all_behind.2 hall, fun f hf o => ?_⟩
        · rw [Cut.source_behind, hsource, hs']
        · rw [Cut.all_behind] at hf
          rw [Cut.image_behind, tagsFrom_tag hinner hne, if_pos hskipped, List.nil_append, hnodes f hf,
            Cut.mapTags_behind, Cut.nodes_behind]
      · refine ⟨Cut.append ⟨[([], '<' :: (inner ++ ['>']))], []⟩ c, ?_, ?_, fun f hf o => ?_⟩
        · rw [Cut.source_append, hsource, hs']
          simp [Cut.source, Cut.image]
        · refine Cut.all_append.2 ⟨fun p hp => ?_, hall⟩
          rw [List.mem_singleton.1 hp]
          exact ⟨inner, rfl, hinner, hne, Bool.eq_false_iff.2 hskipped⟩
        · obtain ⟨htag, hf⟩ := Cut.all_append.1 hf
          obtain ⟨x, hx, hmem, hxne, hxskipped⟩ := htag _ List.mem_cons_self
          have himage : Cut.image f ⟨[([], '<' :: (inner ++ ['>']))], []⟩ = '<' :: (x ++ ['>']) := by
            simp only at hx
            simp [Cut.image, hx]
          have hone : (Cut.mapTags f ⟨[([], '<' :: (inner ++ ['>']))], []⟩).nodes o =
              [⟨o, '<' :: (x ++ ['>'])⟩] := by
            simp only at hx
            simp [Cut.mapTags, Cut.nodes, Cut.locate, hx, Text.byteSize]
          rw [Cut.image_append, himage, tagsFrom_tag hmem hxne, hxskipped, Cut.mapTags_append,
            Cut.nodes_append, hone, Cut.source_mapTags, himage, hnodes f hf]
          rfl
termination_by s.length
decreasing_by
  · exact Nat.lt_succ_self _
  · exact hlength

/-- The tags of a text at an offset by a cut. -/
theorem exists_cut_nodes (s : List Char) : ∃ c : Cut, c.source = s ∧ ∀ o, tagsFrom 0 o s = c.nodes o := by
  obtain ⟨c, hsource, hall, hnodes⟩ := exists_cut_tagsFrom s
  refine ⟨c, hsource, fun o => ?_⟩
  have hid : c.mapTags id = c := by simp [Cut.mapTags]
  have hsame := hnodes id hall o
  rwa [show c.image id = s from hsource, hid] at hsame

/-! ## Texts that are scanned alike -/

/-- The marks that the scan for template blocks looks for, up to their ends, and the one of scripts. -/
def marks : List (List Char) := [templateOpen, "</template".toList, "<script".toList]

/-- A tag to rewrite: it ends no element, is no comment, and has no marks in it. -/
def IsBare (g : List Char) : Prop :=
  IsTag g ∧ (∀ w ∈ ["<>", "</", "<!--"], ¬ w.toList <+: g) ∧ ∀ w ∈ marks, ¬ w <:+: g

theorem IsBare.isNode {g : List Char} (h : IsBare g) : IsNode g := by
  obtain ⟨⟨x, rfl, hx⟩, hstarts, hmarks⟩ := h
  have hstart {w : List Char} (hw : '<' :: w <+: '<' :: (x ++ ['>'])) : w <+: x ++ ['>'] :=
    (List.prefix_cons_inj '<').1 hw
  refine ⟨x, rfl, hx, ?_, ?_⟩
  · rintro rfl
    exact hstarts "<>" (by simp) (List.prefix_refl _)
  · rw [isSkippedTag, Bool.or_eq_false_iff, Bool.eq_false_iff, Bool.eq_false_iff, ne_eq, ne_eq,
      Text.startsWith_iff, Text.startsWith_iff]
    constructor
    · intro hslash
      exact hstarts "</" (by simp) ((List.prefix_cons_inj '<').2 (hslash.trans (List.prefix_append _ _)))
    · intro htemplate
      exact hmarks templateOpen (by simp [marks])
        ((List.prefix_cons_inj '<').2 (htemplate.trans (List.prefix_append _ _))).isInfix

/-- No mark begins in a tag, whatever follows it. -/
theorem IsBare.not_prefix {g y w : List Char} (h : IsBare g) (hy : y <:+ g) (hne : y ≠ []) (hw : w ∈ marks)
    (s : List Char) : ¬ w <+: y ++ s := by
  have hclose : ∀ w ∈ marks, '>' ∉ w := by decide
  obtain ⟨⟨x, rfl, -⟩, -, hmarks⟩ := h
  intro hfront
  refine hmarks w hw (List.IsInfix.trans ?_ hy.isInfix)
  -- A suffix of a tag ends with the bracket, which no mark has.
  rcases List.eq_nil_or_concat y with rfl | ⟨y, c, rfl⟩
  · exact absurd rfl hne
  · obtain ⟨u, hu⟩ := hy
    rw [List.concat_eq_append, ← List.append_assoc, ← List.cons_append] at hu
    obtain ⟨-, hc⟩ := List.append_inj' hu rfl
    obtain rfl : c = '>' := List.singleton_inj.1 hc
    rw [List.concat_eq_append, List.append_assoc, List.singleton_append] at hfront
    rw [List.concat_eq_append]
    exact ((Text.prefix_append_cons_iff (hclose w hw)).1 hfront).isInfix.trans (List.prefix_append _ _).isInfix

/-- The texts that the scans look for. -/
def scanned : List (List Char) := [templateOpen, templateClose, "<script".toList]

theorem exists_mark {p : List Char} (hp : p ∈ scanned) :
    ∃ w ∈ marks, w <+: p ∧ ∃ q, p = '<' :: q ∧ '<' ∉ q := by
  simp only [scanned, List.mem_cons, List.not_mem_nil, or_false] at hp
  rcases hp with rfl | rfl | rfl
  · exact ⟨templateOpen, by decide, by decide, "template".toList, rfl, by decide⟩
  · exact ⟨"</template".toList, by decide, by decide, "/template>".toList, rfl, by decide⟩
  · exact ⟨"<script".toList, by decide, by decide, "script".toList, rfl, by decide⟩

/-- No text that is scanned for begins in a tag to rewrite. -/
theorem IsBare.infix_append_iff {g p : List Char} (h : IsBare g) (hp : p ∈ scanned) (s : List Char) :
    p <:+: g ++ s ↔ p <:+: s := by
  obtain ⟨w, hw, hwp, -⟩ := exists_mark hp
  have hsuffix : ∀ y : List Char, y <:+ g → (p <:+: y ++ s ↔ p <:+: s) := by
    intro y
    induction y with
    | nil => exact fun _ => Iff.rfl
    | cons c y ih =>
      intro hy
      have hfront : ¬ p <+: c :: y ++ s := fun hfront =>
        h.not_prefix hy (List.cons_ne_nil c y) hw s (hwp.trans hfront)
      rw [List.cons_append, List.infix_cons_iff, ih ((List.suffix_cons c y).trans hy)]
      exact or_iff_right hfront
  exact hsuffix g (List.suffix_refl g)

/-- Are two texts the same but for tags to rewrite? -/
inductive Alike : List Char → List Char → Prop where
  | nil : Alike [] []
  | char (c : Char) {s t : List Char} : Alike s t → Alike (c :: s) (c :: t)
  | tag {g k s t : List Char} : IsBare g → IsBare k → Alike s t → Alike (g ++ s) (k ++ t)

namespace Alike

variable {s t u v : List Char}

theorem refl : ∀ s : List Char, Alike s s
  | [] => nil
  | c :: s => char c (refl s)

theorem symm (h : Alike s t) : Alike t s := by
  induction h with
  | nil => exact nil
  | char c _ ih => exact char c ih
  | tag hg hk _ ih => exact tag hk hg ih

theorem append (h : Alike s t) (h' : Alike u v) : Alike (s ++ u) (t ++ v) := by
  induction h with
  | nil => exact h'
  | char c _ ih => exact char c ih
  | tag hg hk _ ih =>
    rw [List.append_assoc, List.append_assoc]
    exact tag hg hk ih

/-- A word in front of one text is in front of the other. -/
theorem prefix_of_word {w : List Char} (hw : '<' ∉ w) (h : Alike s t) (hs : w <+: s) : w <+: t := by
  induction h generalizing w with
  | nil => exact hs
  | char c _ ih =>
    cases w with
    | nil => exact List.nil_prefix
    | cons d w =>
      obtain ⟨rfl, hrest⟩ := List.cons_prefix_cons.1 hs
      exact (List.prefix_cons_inj d).2 (ih (List.not_mem_of_not_mem_cons hw) hrest)
  | tag hg _ _ _ =>
    cases w with
    | nil => exact List.nil_prefix
    | cons d w =>
      obtain ⟨⟨x, rfl, -⟩, -⟩ := hg
      obtain ⟨rfl, -⟩ := List.cons_prefix_cons.1 hs
      exact absurd List.mem_cons_self hw

/-- What the scans look for is in front of both texts or of none. -/
theorem prefix_iff {p : List Char} (hp : p ∈ scanned) (h : Alike s t) : p <+: s ↔ p <+: t := by
  obtain ⟨w, hw, hwp, q, rfl, hq⟩ := exists_mark hp
  have hfront {s t : List Char} (h : Alike s t) (hs : '<' :: q <+: s) : '<' :: q <+: t := by
    cases h with
    | nil => exact hs
    | char c h =>
      obtain ⟨rfl, hrest⟩ := List.cons_prefix_cons.1 hs
      exact (List.prefix_cons_inj _).2 (h.prefix_of_word hq hrest)
    | tag hg _ _ => exact absurd (hwp.trans hs) (hg.not_prefix (List.suffix_refl _) hg.1.ne_nil hw _)
  exact ⟨hfront h, hfront h.symm⟩

/-- What the scans look for is in both texts or in none. -/
theorem infix_iff {p s t : List Char} (h : Alike s t) (hp : p ∈ scanned) : p <:+: s ↔ p <:+: t := by
  induction h with
  | nil => exact Iff.rfl
  | char c h ih => rw [List.infix_cons_iff, List.infix_cons_iff, (char c h).prefix_iff hp, ih]
  | tag hg hk _ ih => rw [hg.infix_append_iff hp, hk.infix_append_iff hp, ih]

end Alike

/-! ## Template blocks -/

/-- The scan takes a step of the same kind on texts with the same marks in front: both are over, or it goes
on behind the character in one state. -/
theorem takeTemplate?_cons {c : Char} {s t : List Char} (hopen : templateOpen <+: c :: s ↔ templateOpen <+: c :: t)
    (hclose : templateClose <+: c :: s ↔ templateClose <+: c :: t) (b : Bool) (d : Nat) :
    (b = false ∧ d = 0 ∧ templateClose <+: c :: s) ∨ ∃ b' d',
      takeTemplate? b d (c :: s) = (takeTemplate? b' d' s).map (fun p => (c :: p.1, p.2)) ∧
      takeTemplate? b d (c :: t) = (takeTemplate? b' d' t).map (fun p => (c :: p.1, p.2)) := by
  have hafter {p s : List Char} (h : p <+: s) : ∃ r, Text.after? p s = some r := by
    obtain ⟨r, rfl⟩ := h
    exact ⟨r, Text.after?_append p r⟩
  cases b with
  | true =>
    refine Or.inr ?_
    by_cases hc : c = '>'
    · exact ⟨false, d + 1, by simp only [takeTemplate?, if_pos hc], by simp only [takeTemplate?, if_pos hc]⟩
    · exact ⟨true, d, by simp only [takeTemplate?, if_neg hc], by simp only [takeTemplate?, if_neg hc]⟩
  | false =>
    by_cases hs : templateClose <+: c :: s
    · obtain ⟨r, hr⟩ := hafter hs
      obtain ⟨r', hr'⟩ := hafter (hclose.1 hs)
      cases d with
      | zero => exact Or.inl ⟨rfl, rfl, hs⟩
      | succ d => exact Or.inr ⟨false, d, by simp only [takeTemplate?, hr], by simp only [takeTemplate?, hr']⟩
    · have hr := Text.after?_eq_none_iff.2 hs
      have hr' := Text.after?_eq_none_iff.2 (mt hclose.2 hs)
      have hstart : Text.startsWith templateOpen (c :: s) = Text.startsWith templateOpen (c :: t) := by
        rw [Bool.eq_iff_iff, Text.startsWith_iff, Text.startsWith_iff, hopen]
      exact Or.inr ⟨Text.startsWith templateOpen (c :: s), d, by simp only [takeTemplate?, hr],
        by simp only [takeTemplate?, hr', hstart]⟩

theorem takeTemplate?_close (rest : List Char) :
    takeTemplate? false 0 (templateClose ++ rest) = some ([], rest) := by
  have hcons : templateClose ++ rest = '<' :: ("/template>".toList ++ rest) := rfl
  have hafter := Text.after?_append templateClose rest
  rw [hcons] at hafter ⊢
  simp only [takeTemplate?, hafter]

/-- The scan passes over a tag to rewrite. -/
theorem takeTemplate?_bare {g : List Char} (h : IsBare g) (b : Bool) (d : Nat) (s : List Char) :
    takeTemplate? b d (g ++ s) =
      (takeTemplate? false (if b then d + 1 else d) s).map fun p => (g ++ p.1, p.2) := by
  have hsuffix : ∀ y : List Char, y <:+ g → y ≠ [] → ∀ b d, takeTemplate? b d (y ++ s) =
      (takeTemplate? false (if b then d + 1 else d) s).map fun p => (y ++ p.1, p.2) := by
    intro y
    induction y with
    | nil => exact fun _ hne => absurd rfl hne
    | cons c y ih =>
      intro hy hne b d
      have hopen : Text.startsWith templateOpen (c :: y ++ s) = false := by
        rw [Bool.eq_false_iff, ne_eq, Text.startsWith_iff]
        exact h.not_prefix hy hne (by simp [marks]) s
      have hclose : Text.after? templateClose (c :: y ++ s) = none := by
        refine Text.after?_eq_none_iff.2 fun hfront => ?_
        have hmark : "</template".toList <+: templateClose := by decide
        exact h.not_prefix hy hne (by simp [marks]) s (hmark.trans hfront)
      obtain ⟨⟨x, rfl, hx⟩, -⟩ := h
      rw [List.cons_append] at hopen hclose ⊢
      by_cases hnil : y = []
      · -- The tag is over.
        obtain ⟨u, hu⟩ := hy
        rw [hnil, ← List.cons_append] at hu
        obtain ⟨-, hc⟩ := List.append_inj' hu rfl
        obtain rfl : c = '>' := List.singleton_inj.1 hc
        subst hnil
        cases b with
        | true => simp only [takeTemplate?, List.nil_append, if_true]; rfl
        | false =>
          rw [List.nil_append] at hopen hclose
          simp only [takeTemplate?, List.nil_append, hopen, hclose]
          rfl
      · have hc : c ≠ '>' := by
          rintro rfl
          obtain ⟨u, hu⟩ := hy
          have hmem : '>' ∈ ('<' :: x) := by
            obtain ⟨y, e, rfl⟩ := (List.eq_nil_or_concat y).resolve_left hnil
            rw [List.concat_eq_append, ← List.cons_append, ← List.append_assoc, ← List.cons_append] at hu
            rw [← (List.append_inj' hu rfl).1]
            simp
          exact (List.not_mem_cons_of_ne_of_not_mem (by decide) hx) hmem
        have hrest := ih ((List.suffix_cons c y).trans hy) hnil
        cases b with
        | true => simp only [takeTemplate?, if_neg hc, hrest, Option.map_map]; rfl
        | false => simp only [takeTemplate?, hopen, hclose, hrest, Option.map_map]; rfl
  exact hsuffix g (List.suffix_refl _) h.1.ne_nil b d

theorem templateClose_eq : templateClose = '<' :: "/template>".toList := rfl

/-- The content of a block that ends is taken, whatever tags are replaced in it and whatever follows. -/
theorem Alike.takeTemplate?_eq_some {s t rest : List Char} (h : Alike s t) : ∀ {b d},
    takeTemplate? b d (s ++ (templateClose ++ rest)) = some (s, rest) →
      ∀ rest', takeTemplate? b d (t ++ (templateClose ++ rest')) = some (t, rest') := by
  have hmap {x y r : List Char} {o : Option (List Char × List Char)}
      (ho : (o.map fun p => (x ++ p.1, p.2)) = some (x ++ y, r)) : o = some (y, r) := by
    obtain ⟨⟨z, q⟩, hz, heq⟩ := Option.map_eq_some_iff.1 ho
    obtain ⟨hy, hq⟩ := Prod.mk.inj heq
    have hy : z = y := List.append_cancel_left hy
    have hq : q = r := hq
    rw [hz, hy, hq]
  induction h with
  | nil =>
    intro b d hs rest'
    rw [List.nil_append] at hs ⊢
    rcases takeTemplate?_cons (c := '<') (s := "/template>".toList ++ rest) Iff.rfl Iff.rfl b d with
      ⟨rfl, rfl, -⟩ | ⟨b', d', hstep, -⟩
    · exact takeTemplate?_close rest'
    · have hstep := hs.symm.trans hstep
      obtain ⟨p, -, heq⟩ := Option.map_eq_some_iff.1 hstep.symm
      cases heq
  | @char c s t h ih =>
    intro b d hs rest'
    have hfront {p : List Char} (hp : p ∈ scanned) :
        p <+: c :: (s ++ (templateClose ++ rest)) ↔ p <+: c :: (t ++ (templateClose ++ rest')) := by
      -- No mark reaches from the content into what closes the block.
      obtain ⟨w, -, -, q, rfl, hq⟩ := exists_mark hp
      have hinside (s rest : List Char) : '<' :: q <+: c :: (s ++ (templateClose ++ rest)) ↔ '<' :: q <+: c :: s := by
        rw [List.cons_prefix_cons, List.cons_prefix_cons, templateClose_eq, List.cons_append,
          Text.prefix_append_cons_iff hq]
      rw [hinside, hinside]
      exact (char c h).prefix_iff hp
    rcases takeTemplate?_cons (hfront (by simp [scanned])) (hfront (by simp [scanned])) b d with
      ⟨rfl, rfl, hclose⟩ | ⟨b', d', hstep, hstep'⟩
    · obtain ⟨r, hr⟩ := hclose
      rw [List.cons_append, ← hr, takeTemplate?_close] at hs
      cases hs
    · rw [List.cons_append, hstep] at hs
      have hs := hmap (x := [c]) hs
      rw [List.cons_append, hstep', ih hs rest']
      rfl
  | @tag g k s t hg hk h ih =>
    intro b d hs rest'
    rw [List.append_assoc, takeTemplate?_bare hg] at hs
    rw [List.append_assoc, takeTemplate?_bare hk, ih (hmap hs) rest']
    rfl

theorem eq_of_takeTemplate? : ∀ {s content rest : List Char} {inTag : Bool} {depth : Nat},
    takeTemplate? inTag depth s = some (content, rest) → s = content ++ templateClose ++ rest
  | [], _, _, _, _, h => by cases h
  | c :: s, content, rest, inTag, depth, h => by
    have hstep {p : Option (List Char × List Char)}
        (hp : ∀ {content}, p = some (content, rest) → s = content ++ templateClose ++ rest)
        (h : (p.map fun p => (c :: p.1, p.2)) = some (content, rest)) :
        c :: s = content ++ templateClose ++ rest := by
      obtain ⟨⟨front, behind⟩, hfront, heq⟩ := Option.map_eq_some_iff.1 h
      cases heq
      exact congrArg (c :: ·) (hp hfront)
    cases inTag with
    | true =>
      rw [takeTemplate?] at h
      refine hstep (fun h => ?_) h
      split at h
      next => exact eq_of_takeTemplate? h
      next => exact eq_of_takeTemplate? h
    | false =>
      rw [takeTemplate?.eq_def] at h
      simp only at h
      split at h
      next hclose =>
        cases h
        exact (Text.after?_eq_some_iff.1 hclose).trans (List.nil_append _).symm
      next => exact hstep (fun h => eq_of_takeTemplate? h) h
      next => exact hstep (fun h => eq_of_takeTemplate? h) h

theorem templateRangesFrom_eq_drop : ∀ (k o : Nat) (s : List Char),
    templateRangesFrom k o s = templateRangesFrom 0 (o + Text.byteSize (s.take k)) (s.drop k)
  | 0, _, _ => rfl
  | k + 1, o, [] => by simp [templateRangesFrom]
  | k + 1, o, c :: s => by
    rw [templateRangesFrom, templateRangesFrom_eq_drop k, List.take_succ_cons, List.drop_succ_cons,
      Text.byteSize_cons, Nat.add_assoc]

theorem templateRangesFrom_of_not_open {c : Char} {s : List Char} (h : ¬ templateOpen <+: c :: s) (o : Nat) :
    templateRangesFrom 0 o (c :: s) = templateRangesFrom 0 (o + c.utf8Size) s := by
  have hopen : Text.startsWith templateOpen (c :: s) = false := by
    rwa [Bool.eq_false_iff, ne_eq, Text.startsWith_iff]
  simp only [templateRangesFrom, hopen]
  rfl

/-- The scan for blocks behind the first bracket. -/
theorem templateRangesFrom_of_open {tag behind : List Char} (hopen : templateOpen <+: tag) (htag : '>' ∉ tag)
    (o : Nat) : templateRangesFrom 0 o (tag ++ '>' :: behind) =
      match takeTemplate? false 0 behind with
      | some (content, rest) => ⟨o + Text.byteSize (tag ++ ['>']), content⟩ ::
          templateRangesFrom 0 (o + Text.byteSize (tag ++ ['>'] ++ content ++ templateClose)) rest
      | none => templateRangesFrom 0 (o + Text.byteSize (tag ++ ['>'])) behind := by
  obtain ⟨d, tag, rfl⟩ : ∃ d t, tag = d :: t := by
    cases tag with
    | nil => exact absurd (List.prefix_nil.1 hopen) (by decide)
    | cons d t => exact ⟨d, t, rfl⟩
  have hstart : Text.startsWith templateOpen (d :: (tag ++ '>' :: behind)) = true :=
    Text.startsWith_iff.2 (hopen.trans ⟨'>' :: behind, by simp⟩)
  have hbreak : Text.breakOn? ['>'] (d :: (tag ++ '>' :: behind)) = some (d :: tag, behind) := by
    have hnone : ¬ ['>'] <:+: (d :: tag) ++ ['>'].dropLast := fun h =>
      htag (by simpa using h.subset List.mem_cons_self)
    have := Text.breakOn?_append behind hnone
    simpa using this
  -- What is found behind a front part stands behind it.
  have hbehind (front rest : List Char) (hs : d :: (tag ++ '>' :: behind) = front ++ rest) {k : Nat}
      (hk : k + 1 = front.length) :
      templateRangesFrom k (o + d.utf8Size) (tag ++ '>' :: behind) =
        templateRangesFrom 0 (o + Text.byteSize front) rest := by
    cases front with
    | nil => cases hk
    | cons e front =>
      obtain ⟨rfl, hfront⟩ := List.cons.inj hs
      have hrest : tag ++ '>' :: behind = front ++ rest := hfront
      rw [List.length_cons, Nat.add_right_cancel_iff] at hk
      rw [hrest, hk, templateRangesFrom_eq_drop, List.take_left, List.drop_left, Text.byteSize_cons,
        Nat.add_assoc]
  rw [List.cons_append]
  simp only [templateRangesFrom, hstart, hbreak, if_true]
  cases hcontent : takeTemplate? false 0 behind with
  | none =>
    simp only
    rw [hbehind ((d :: tag) ++ ['>']) behind (by simp) (by simp)]
  | some p =>
    obtain ⟨content, rest⟩ := p
    simp only
    rw [hbehind ((d :: tag) ++ ['>'] ++ content ++ templateClose) rest
      (by rw [eq_of_takeTemplate? hcontent]; simp)
      (by simp only [List.length_append, List.length_cons, List.length_nil]; omega)]
    have hsize : Text.byteSize (d :: tag ++ ['>']) = Text.byteSize (d :: tag) + 1 := by
      rw [Text.byteSize_append, show Text.byteSize ['>'] = 1 by decide]
    rw [hsize, Nat.add_assoc]

theorem Cut.alike_image {f : List Char → List Char} {c : Cut} (h : c.All fun t => Alike t (f t)) :
    Alike c.source (c.image f) := by
  obtain ⟨ps, last⟩ := c
  induction ps with
  | nil => exact Alike.refl last
  | cons p ps ih =>
    obtain ⟨t, g⟩ := p
    obtain ⟨hg, hps⟩ := List.forall_mem_cons.1 h
    have hsplit (f : List Char → List Char) : Cut.image f ⟨(t, g) :: ps, last⟩ =
        t ++ (f g ++ Cut.image f ⟨ps, last⟩) := by
      simp [Cut.image]
    rw [Cut.source, hsplit, hsplit]
    exact (Alike.refl t).append (hg.append (ih hps))

/-- A text is cut at the contents of its template blocks. -/
theorem exists_cut_templateRangesFrom (s : List Char) :
    ∃ c : Cut, c.source = s ∧ ∀ o, templateRangesFrom 0 o s = c.nodes o := by
  cases s with
  | nil => exact ⟨⟨[], []⟩, rfl, fun _ => rfl⟩
  | cons d s =>
    by_cases hopen : templateOpen <+: d :: s
    · by_cases hclose : '>' ∈ d :: s
      · obtain ⟨tag, behind, hs, htag⟩ := List.eq_append_cons_of_mem hclose
        rw [hs, Text.prefix_append_cons_iff (by decide)] at hopen
        have hlength : behind.length < (d :: s).length := by
          rw [hs, List.length_append, List.length_cons]
          omega
        cases hcontent : takeTemplate? false 0 behind with
        | none =>
          obtain ⟨c, hsource, hranges⟩ := exists_cut_templateRangesFrom behind
          refine ⟨c.behind (tag ++ ['>']), ?_, fun o => ?_⟩
          · rw [Cut.source_behind, hsource, hs, List.append_assoc, List.singleton_append]
          · rw [hs, templateRangesFrom_of_open hopen htag, hcontent, Cut.nodes_behind]
            exact hranges _
        | some p =>
          obtain ⟨content, rest⟩ := p
          have hbehind := eq_of_takeTemplate? hcontent
          have hshort : rest.length < (d :: s).length := by
            rw [hbehind, List.length_append] at hlength
            omega
          obtain ⟨c, hsource, hranges⟩ := exists_cut_templateRangesFrom rest
          refine ⟨Cut.append ⟨[(tag ++ ['>'], content)], templateClose⟩ c, ?_, fun o => ?_⟩
          · rw [Cut.source_append, hsource, hs, hbehind]
            simp [Cut.source, Cut.image]
          · have hblock : Cut.source ⟨[(tag ++ ['>'], content)], templateClose⟩ =
                tag ++ ['>'] ++ content ++ templateClose := by
              simp [Cut.source, Cut.image]
            rw [hs, templateRangesFrom_of_open hopen htag, hcontent, Cut.nodes_append, hblock, ← hranges]
            rfl
      · refine ⟨⟨[], d :: s⟩, rfl, fun o => ?_⟩
        have hstart : Text.startsWith templateOpen (d :: s) = true := Text.startsWith_iff.2 hopen
        have hbreak : Text.breakOn? ['>'] (d :: s) = none :=
          Text.breakOn?_eq_none_iff.2 fun h => hclose (h.subset List.mem_cons_self)
        simp only [templateRangesFrom, hstart, hbreak]
        rfl
    · obtain ⟨c, hsource, hranges⟩ := exists_cut_templateRangesFrom s
      refine ⟨c.behind [d], by rw [Cut.source_behind, hsource, List.singleton_append], fun o => ?_⟩
      rw [templateRangesFrom_of_not_open hopen, hranges, Cut.nodes_behind]
      simp [Text.byteSize]
termination_by s.length
decreasing_by
  · exact hlength
  · exact hshort
  · exact Nat.lt_succ_self _

/-! ## Pages -/

/-- Replacing the tags of a kind only. -/
def only (keep : List Char → Bool) (f : List Char → List Char) (g : List Char) : List Char :=
  if keep g then f g else g

/-- Tags that are left out belong to the text between the others. -/
theorem exists_cut_filter (keep : List Char → Bool) (c : Cut) : ∃ c' : Cut, c'.source = c.source ∧
    (∀ P, c'.All P ↔ c.All fun g => keep g = true → P g) ∧
    ∀ f, (c'.All fun g => keep (f g) = true) → c.image (only keep f) = c'.image f ∧
      ∀ o, ((c.mapTags (only keep f)).nodes o).filter (fun n => keep n.text) = (c'.mapTags f).nodes o := by
  obtain ⟨ps, last⟩ := c
  induction ps with
  | nil =>
    refine ⟨⟨[], last⟩, rfl, fun P => ?_, fun f _ => ⟨rfl, fun _ => rfl⟩⟩
    simp only [Cut.All, List.not_mem_nil, false_imp_iff, implies_true]
  | cons p ps ih =>
    obtain ⟨t, g⟩ := p
    obtain ⟨c, hsource, hall, hmap⟩ := ih
    have hsplit (f : List Char → List Char) : Cut.image f ⟨(t, g) :: ps, last⟩ =
        t ++ (f g ++ Cut.image f ⟨ps, last⟩) := by
      simp [Cut.image]
    have hcons (P : List Char → Prop) : Cut.All P ⟨(t, g) :: ps, last⟩ ↔ P g ∧ Cut.All P ⟨ps, last⟩ :=
      List.forall_mem_cons
    have hone (f : List Char → List Char) : Cut.image f ⟨[(t, g)], []⟩ = t ++ f g := by
      simp [Cut.image]
    have hsource' : Cut.source ⟨(t, g) :: ps, last⟩ = t ++ (g ++ Cut.source ⟨ps, last⟩) := hsplit id
    have hone' : Cut.source ⟨[(t, g)], []⟩ = t ++ g := hone id
    by_cases hkeep : keep g = true
    · have honly (f : List Char → List Char) : only keep f g = f g := if_pos hkeep
      refine ⟨Cut.append ⟨[(t, g)], []⟩ c, ?_, fun P => ?_, fun f hf => ?_⟩
      · rw [Cut.source_append, hsource, hsource', hone', List.append_assoc]
      · rw [Cut.all_append, hall, hcons]
        exact and_congr_left fun _ => by simp [Cut.All, hkeep]
      · obtain ⟨hg, hf⟩ := Cut.all_append.1 hf
        have hg : keep (f g) = true := hg _ List.mem_cons_self
        obtain ⟨himage, hnodes⟩ := hmap f hf
        refine ⟨by rw [hsplit, Cut.image_append, himage, hone, honly, List.append_assoc], fun o => ?_⟩
        have hnode : (Cut.mapTags f ⟨[(t, g)], []⟩).nodes o = [⟨o + Text.byteSize t, f g⟩] := rfl
        have hnodes' : (Cut.mapTags (only keep f) ⟨(t, g) :: ps, last⟩).nodes o =
            ⟨o + Text.byteSize t, f g⟩ ::
              (Cut.mapTags (only keep f) ⟨ps, last⟩).nodes (o + Text.byteSize t + Text.byteSize (f g)) := by
          simp only [Cut.mapTags, Cut.nodes, List.map_cons, Cut.locate, honly]
        rw [hnodes', List.filter_cons_of_pos (by exact hg), hnodes, Cut.mapTags_append, Cut.nodes_append, hnode,
          Cut.source_mapTags, hone, Text.byteSize_append, Nat.add_assoc]
        rfl
    · have honly (f : List Char → List Char) : only keep f g = g := if_neg hkeep
      refine ⟨c.behind (t ++ g), ?_, fun P => ?_, fun f hf => ?_⟩
      · rw [Cut.source_behind, hsource, hsource', List.append_assoc]
      · rw [Cut.all_behind, hall, hcons]
        exact ⟨fun h => ⟨fun hg => absurd hg hkeep, h⟩, fun h => h.2⟩
      · rw [Cut.all_behind] at hf
        obtain ⟨himage, hnodes⟩ := hmap f hf
        refine ⟨by rw [hsplit, Cut.image_behind, himage, honly, List.append_assoc], fun o => ?_⟩
        have hnodes' : (Cut.mapTags (only keep f) ⟨(t, g) :: ps, last⟩).nodes o =
            ⟨o + Text.byteSize t, g⟩ ::
              (Cut.mapTags (only keep f) ⟨ps, last⟩).nodes (o + Text.byteSize t + Text.byteSize g) := by
          simp only [Cut.mapTags, Cut.nodes, List.map_cons, Cut.locate, honly]
        rw [hnodes', List.filter_cons_of_neg (by exact hkeep), hnodes, Cut.mapTags_behind, Cut.nodes_behind,
          Text.byteSize_append, Nat.add_assoc]

/-- Is the tag no comment? -/
def isNoComment (g : List Char) : Bool := !Text.startsWith "<!--".toList g

/-- Does a cut hold the tags that are found in it, but for comments? -/
structure Cut.IsFound (c : Cut) : Prop where
  all : c.All IsTag
  nodes : ∀ o, (tagsFrom 0 o c.source).filter (fun n => isNoComment n.text) = c.nodes o

/-- A text is cut at its tags, and at the tags that they are replaced by. -/
theorem exists_isFound (s : List Char) : ∃ c : Cut, c.source = s ∧ c.IsFound ∧
    ∀ f, (c.All fun g => IsBare g ∧ IsBare (f g)) → (c.mapTags f).IsFound := by
  obtain ⟨c, hsource, hnode, hnodes⟩ := exists_cut_tagsFrom s
  obtain ⟨c', hsource', hall, hmap⟩ := exists_cut_filter isNoComment c
  have hnode' : c'.All fun g => isNoComment g = true ∧ IsNode g :=
    (hall _).2 fun p hp hkeep => ⟨hkeep, hnode p hp⟩
  have hfound : ∀ f, (c'.All fun g => isNoComment (f g) = true ∧ IsNode (f g)) → (c'.mapTags f).IsFound := by
    intro f hf
    obtain ⟨himage, hfilter⟩ := hmap f (hf.imp fun _ h => h.1)
    have honly : c.All fun g => IsNode (only isNoComment f g) := by
      intro p hp
      by_cases hkeep : isNoComment p.2 = true
      · rw [only, if_pos hkeep]
        exact ((hall _).1 hf p hp hkeep).2
      · rw [only, if_neg hkeep]
        exact hnode p hp
    refine ⟨(Cut.all_mapTags f).2 (hf.imp fun _ h => h.2.isTag), fun o => ?_⟩
    rw [Cut.source_mapTags, ← himage, hnodes _ honly, hfilter]
  have hid := hfound id hnode'
  have hmapid : c'.mapTags id = c' := by simp [Cut.mapTags]
  refine ⟨c', hsource'.trans hsource, hmapid ▸ hid, fun f hf => hfound f (hf.imp fun g hg => ⟨?_, hg.2.isNode⟩)⟩
  rw [isNoComment, Bool.not_eq_true', Bool.eq_false_iff, ne_eq, Text.startsWith_iff]
  exact hg.2.2.1 "<!--" (by simp)

/-- A cut whose tags are found at one offset holds them at every offset, and those that they are replaced by. -/
theorem isFound_of_nodes {c : Cut} (h : (tagsFrom 0 0 c.source).filter (fun n => isNoComment n.text) = c.nodes 0) :
    c.IsFound ∧ ∀ f, (c.All fun g => IsBare g ∧ IsBare (f g)) → (c.mapTags f).IsFound := by
  obtain ⟨c', hsource, hfound, hmap⟩ := exists_isFound c.source
  obtain rfl : c' = c := by
    refine Cut.eq_of_nodes (o := 0) hsource ?_
    rw [← hfound.nodes, ← h, hsource]
  exact ⟨hfound, hmap⟩

theorem Cut.IsFound.mapTags {c : Cut} (h : c.IsFound) {f : List Char → List Char}
    (hf : c.All fun g => IsBare g ∧ IsBare (f g)) : (c.mapTags f).IsFound :=
  (isFound_of_nodes (h.nodes 0)).2 f hf

/-- A page cut at the tags that get safe class names. -/
structure IsCut (page : List Char) (c : Cut) : Prop where
  source : c.source = page
  all : c.All IsTag
  nodes : (templateNodes page).filter (fun n => !Text.startsWith "<!--".toList n.text) = c.nodes 0

/-- Every page is cut at its tags. -/
theorem exists_isCut (page : List Char) : ∃ c, IsCut page c := by
  obtain ⟨⟨ps, last⟩, hsource, hranges⟩ := exists_cut_templateRangesFrom page
  choose cut hcut using exists_isFound
  -- The blocks are cut one by one.
  have hrefine : ∃ c : Cut, c.source = Cut.source ⟨ps, last⟩ ∧ c.All IsTag ∧
      ∀ o, ((Cut.locate o ps).flatMap fun r => tagsFrom 0 r.start r.text).filter (fun n => isNoComment n.text) =
        c.nodes o := by
    clear hsource hranges
    induction ps with
    | nil => exact ⟨⟨[], last⟩, rfl, fun _ hp => absurd hp List.not_mem_nil, fun _ => rfl⟩
    | cons p ps ih =>
      obtain ⟨t, content⟩ := p
      obtain ⟨c, hsource, hall, hnodes⟩ := ih
      obtain ⟨hsource', hfound, -⟩ := hcut content
      refine ⟨((cut content).append c).behind t, ?_, Cut.all_behind.2 (Cut.all_append.2 ⟨hfound.all, hall⟩),
        fun o => ?_⟩
      · rw [Cut.source_behind, Cut.source_append, hsource, hsource']
        simp [Cut.source, Cut.image]
      · have hcontent := hfound.nodes (o + Text.byteSize t)
        rw [hsource'] at hcontent
        rw [Cut.locate, List.flatMap_cons, List.filter_append, hcontent, hnodes, Cut.nodes_behind, Cut.nodes_append,
          hsource']
  obtain ⟨c, hsource', hall, hnodes⟩ := hrefine
  refine ⟨c, hsource'.trans hsource, hall, ?_⟩
  rw [templateNodes, templateRanges, hranges]
  exact hnodes 0

/-- A page that is cut at a tag has nodes in its template blocks. -/
theorem IsCut.isEmpty_nodes {page : List Char} {c : Cut} (h : IsCut page c) (hne : c.tags ≠ []) :
    (templateNodes page).isEmpty = false := by
  rw [Bool.eq_false_iff, ne_eq, List.isEmpty_iff]
  intro hnil
  have hnodes := h.nodes
  obtain ⟨p, tags, htags⟩ := List.exists_cons_of_ne_nil hne
  rw [hnil, Cut.nodes, htags] at hnodes
  cases hnodes

/-- The page with its tags rewritten. -/
theorem IsCut.splice {page : List Char} {c : Cut} (h : IsCut page c) (f : List Char → List Char) :
    spliceFrom f ((templateNodes page).filter fun n => !Text.startsWith "<!--".toList n.text) 0 0 page =
      c.image f := by
  rw [h.nodes, ← h.source]
  exact spliceFrom_nodes f c (fun p hp => (h.all p hp).ne_nil) 0

/-! ## Closed texts -/

/-- Is a text over after a bracket, if there is any? -/
def IsClosed (s : List Char) : Prop := s = [] ∨ ∃ z, s = z ++ ['>']

theorem IsClosed.of_append {a b : List Char} (h : IsClosed (a ++ b)) : IsClosed b := by
  rcases List.eq_nil_or_concat b with rfl | ⟨b, c, rfl⟩
  · exact Or.inl rfl
  · rcases h with hnil | ⟨z, hz⟩
    · simp at hnil
    · rw [List.concat_eq_append, ← List.append_assoc] at hz
      obtain ⟨-, hc⟩ := List.append_inj' hz rfl
      exact Or.inr ⟨b, by rw [List.concat_eq_append, hc]⟩

/-- What the scans look for does not reach over the end of a closed text. -/
theorem IsClosed.prefix_iff {p s tail : List Char} (hs : IsClosed s) (hne : s ≠ []) (hp : p ∈ scanned) :
    p <+: s ++ tail ↔ p <+: s := by
  have hinner : ∀ p ∈ scanned, '>' ∉ p.dropLast := by decide
  refine ⟨fun h => ?_, fun h => h.trans (List.prefix_append s tail)⟩
  rcases List.prefix_or_prefix_of_prefix h (List.prefix_append s tail) with hfront | ⟨u, rfl⟩
  · exact hfront
  · rcases List.eq_nil_or_concat u with rfl | ⟨u, c, rfl⟩
    · exact ⟨[], by simp⟩
    · obtain ⟨z, rfl⟩ := hs.resolve_left hne
      refine absurd ?_ (hinner _ hp)
      rw [List.concat_eq_append, ← List.append_assoc, List.dropLast_concat]
      simp

end ClientBuild.Markup
