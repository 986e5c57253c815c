import ClientBuild.Proofs.Markup.Scan

/-!
# Pages whose template blocks are closed

Such a page is a row of template blocks with texts in front of them, and a last text (`Layout`).  The scan finds
the blocks one after the other (`templateRangesFrom_block`), so the page is cut block by block (`Layout.isCut`),
and the tags in its blocks may be replaced (`Layout.mapTags`).
-/

namespace ClientBuild.Markup

/-! ## Blocks -/

/-- The name of the tags that open template blocks. -/
def templateName : List Char := "template".toList

theorem templateOpen_eq : templateOpen = '<' :: templateName := rfl

theorem templateRangesFrom_of_not_infix {x : List Char} (hx : ¬ templateOpen <:+: x) (o : Nat) :
    templateRangesFrom 0 o x = [] := by
  induction x generalizing o with
  | nil => rfl
  | cons c x ih =>
    rw [templateRangesFrom_of_not_open fun h => hx h.isInfix,
      ih fun h => hx (h.trans (List.suffix_cons c x).isInfix)]

/-- No block begins in a text without marks in front of a bracket. -/
theorem templateRangesFrom_front {x : List Char} (hx : ¬ templateOpen <:+: x) (o : Nat) (s : List Char) :
    templateRangesFrom 0 o (x ++ '<' :: s) = templateRangesFrom 0 (o + Text.byteSize x) ('<' :: s) := by
  induction x generalizing o with
  | nil => rfl
  | cons c x ih =>
    have hnone : ¬ templateOpen <+: c :: (x ++ '<' :: s) := by
      intro hfront
      rw [templateOpen_eq, List.cons_prefix_cons, Text.prefix_append_cons_iff (by decide)] at hfront
      refine hx (List.IsPrefix.isInfix ?_)
      rw [templateOpen_eq, List.cons_prefix_cons]
      exact hfront
    rw [List.cons_append, templateRangesFrom_of_not_open hnone, ih fun h => hx (h.trans (List.suffix_cons c x).isInfix),
      Text.byteSize_cons, Nat.add_assoc]

/-- The content of a closed block is found at its place, and the scan goes on behind the block. -/
theorem templateRangesFrom_block {front tag content : List Char} (hfree : ¬ templateOpen <:+: front)
    (hopen : templateOpen <+: tag) (htag : '>' ∉ tag)
    (hclosed : takeTemplate? false 0 (content ++ templateClose) = some (content, [])) (o : Nat) (s : List Char) :
    templateRangesFrom 0 o (front ++ (tag ++ '>' :: (content ++ templateClose)) ++ s) =
      ⟨o + Text.byteSize (front ++ (tag ++ ['>'])), content⟩ ::
        templateRangesFrom 0 (o + Text.byteSize (front ++ (tag ++ '>' :: (content ++ templateClose)))) s := by
  have htake : takeTemplate? false 0 (content ++ (templateClose ++ s)) = some (content, s) :=
    (Alike.refl content).takeTemplate?_eq_some (by rwa [List.append_nil]) s
  obtain ⟨tag, rfl⟩ : ∃ t, tag = '<' :: t := by
    obtain ⟨t, rfl⟩ := hopen
    exact ⟨templateName ++ t, rfl⟩
  have hsplit : front ++ ('<' :: tag ++ '>' :: (content ++ templateClose)) ++ s =
      front ++ '<' :: (tag ++ '>' :: (content ++ (templateClose ++ s))) := by simp
  rw [hsplit, templateRangesFrom_front hfree, ← List.cons_append, templateRangesFrom_of_open hopen htag, htake]
  simp only [Text.byteSize_append, Text.byteSize_cons, List.cons_append, Nat.add_assoc,
    show Text.byteSize [] = 0 from rfl, Nat.add_zero]

/-- A template block and the text in front of it: the tag that opens the block, up to its bracket, and the content,
cut at its tags. -/
structure TemplateBlock where
  front : List Char
  tag : List Char
  inside : Cut
  free : ¬ templateOpen <:+: front
  opens : templateOpen <+: tag
  single : '>' ∉ tag
  closed : takeTemplate? false 0 (inside.source ++ templateClose) = some (inside.source, [])
  found : inside.IsFound

namespace TemplateBlock

/-- What stands in front of the content. -/
def head (b : TemplateBlock) : List Char := b.front ++ (b.tag ++ ['>'])

/-- The block, cut at the tags in it. -/
def cut (b : TemplateBlock) : Cut := (b.inside.behind b.head).append ⟨[], templateClose⟩

theorem source_cut (b : TemplateBlock) :
    b.cut.source = b.front ++ (b.tag ++ '>' :: (b.inside.source ++ templateClose)) := by
  have hclose : Cut.source ⟨[], templateClose⟩ = templateClose := rfl
  rw [cut, Cut.source_append, Cut.source_behind, hclose, head]
  simp

/-- The block with another text in front. -/
def withFront (b : TemplateBlock) (x : List Char) (hx : ¬ templateOpen <:+: x) : TemplateBlock :=
  { b with front := x, free := hx }

/-- The block with its tags replaced. -/
def mapTags (f : List Char → List Char) (b : TemplateBlock) (h : b.inside.All fun g => IsBare g ∧ IsBare (f g)) :
    TemplateBlock :=
  { b with
    inside := b.inside.mapTags f
    closed := by
      have halike : Alike b.inside.source (b.inside.image f) := Cut.alike_image fun p hp => by
        simpa using Alike.tag (h p hp).1 (h p hp).2 Alike.nil
      have hclosed : takeTemplate? false 0 (b.inside.source ++ (templateClose ++ [])) = some (b.inside.source, []) := by
        simpa using b.closed
      have := halike.takeTemplate?_eq_some hclosed []
      simpa using this
    found := b.found.mapTags h }

theorem cut_mapTags {f : List Char → List Char} {b : TemplateBlock}
    (h : b.inside.All fun g => IsBare g ∧ IsBare (f g)) : (b.mapTags f h).cut = b.cut.mapTags f := by
  rw [cut, cut, Cut.mapTags_append, Cut.mapTags_behind]
  rfl

end TemplateBlock

/-! ## Pages -/

/-- A page whose template blocks are closed: the blocks, and the text behind them. -/
structure Layout where
  blocks : List TemplateBlock
  last : List Char
  free : ¬ templateOpen <:+: last

namespace Layout

/-- The cut of a row of blocks and the text behind them. -/
def cutOf (last : List Char) (bs : List TemplateBlock) : Cut :=
  bs.foldr (fun b c => b.cut.append c) ⟨[], last⟩

/-- The page, cut at the tags in its blocks. -/
def cut (l : Layout) : Cut := cutOf l.last l.blocks

/-- The text of the page. -/
def source (l : Layout) : List Char := l.cut.source

theorem cutOf_cons (last : List Char) (b : TemplateBlock) (bs : List TemplateBlock) :
    cutOf last (b :: bs) = b.cut.append (cutOf last bs) := rfl

variable {f : List Char → List Char} {l : Layout}

/-- The page with its tags replaced. -/
def mapTags (f : List Char → List Char) (l : Layout)
    (h : ∀ b ∈ l.blocks, b.inside.All fun g => IsBare g ∧ IsBare (f g)) : Layout :=
  { l with blocks := l.blocks.pmap (fun b hb => b.mapTags f hb) h }

theorem cutOf_mapTags {last : List Char} {bs : List TemplateBlock}
    (h : ∀ b ∈ bs, b.inside.All fun g => IsBare g ∧ IsBare (f g)) :
    cutOf last (bs.pmap (fun b hb => b.mapTags f hb) h) = (cutOf last bs).mapTags f := by
  induction bs with
  | nil => rfl
  | cons b bs ih => rw [List.pmap_cons, cutOf_cons, cutOf_cons, Cut.mapTags_append, TemplateBlock.cut_mapTags, ih]

theorem source_mapTags (h : ∀ b ∈ l.blocks, b.inside.All fun g => IsBare g ∧ IsBare (f g)) :
    (l.mapTags f h).source = l.cut.image f := by
  rw [← Cut.source_mapTags]
  exact congrArg Cut.source (cutOf_mapTags h)

end Layout

end ClientBuild.Markup
