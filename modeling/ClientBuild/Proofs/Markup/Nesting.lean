import ClientBuild.Proofs.Markup.Blocks
import ClientBuild.Proofs.Text.Edits
import Mathlib.Data.List.TakeWhile

/-!
# Nested template blocks

A document is made of texts and of blocks that hold documents again.  The scan for the end of a block counts the
blocks that are open, so it passes over a whole document at whatever depth it stands (`takeTemplate?_document`), and
the blocks that are found are the outermost ones (`templateRangesFrom_document`).  Within one, a tag reaches from the
first opening bracket behind a closing one to the next closing one (`tagsFrom_eq`).  Both are found at their places in
the document (`templateNodes_document`).
-/

namespace ClientBuild.Markup

/-! ## Documents -/

/-- Does no template block begin or end in the text? -/
def IsFree (x : List Char) : Prop := ¬ templateOpen <:+: x ∧ ¬ templateClose <:+: x

instance (x : List Char) : Decidable (IsFree x) := inferInstanceAs (Decidable (¬ _ ∧ ¬ _))

/-- A document: a text, or a text with a block behind it, and more of the document behind the block. -/
inductive Document where
  | text (t : List Char) (free : IsFree t)
  | block (front : List Char) (free : IsFree front) (attributes : List Char) (single : '>' ∉ attributes)
      (inside rest : Document)

namespace Document

/-- The tag that opens a block. -/
def openTag (attributes : List Char) : List Char := templateOpen ++ (attributes ++ ['>'])

/-- The text of a document. -/
def source : Document → List Char
  | text t _ => t
  | block front _ a _ inside rest => front ++ (openTag a ++ (inside.source ++ (templateClose ++ rest.source)))

/-- The contents of the outermost blocks of a document that stands at an offset. -/
def contents : (offset : Nat) → Document → List Located
  | _, text _ _ => []
  | o, block front _ a _ inside rest =>
    ⟨o + Text.byteSize (front ++ openTag a), inside.source⟩ ::
      rest.contents (o + Text.byteSize (front ++ (openTag a ++ (inside.source ++ templateClose))))

end Document

/-- A text in front of a bracket has the marks that are in it. -/
theorem IsFree.not_prefix {x : List Char} (h : IsFree x) (s : List Char) {y : List Char} (hy : y <:+ x) (hne : y ≠ []) :
    ¬ templateOpen <+: y ++ '<' :: s ∧ ¬ templateClose <+: y ++ '<' :: s := by
  obtain ⟨c, y, rfl⟩ := List.exists_cons_of_ne_nil hne
  -- A mark has no bracket behind its first character.
  have hinside {p : List Char} (hp : '<' ∉ p) (hfront : '<' :: p <+: c :: y ++ '<' :: s) : '<' :: p <:+: x := by
    rw [List.cons_append, List.cons_prefix_cons, Text.prefix_append_cons_iff hp, ← List.cons_prefix_cons] at hfront
    exact hfront.isInfix.trans hy.isInfix
  exact ⟨fun hopen => h.1 (hinside (by decide) hopen), fun hclose => h.2 (hinside (by decide) hclose)⟩

theorem IsFree.takeTemplate? {x : List Char} (h : IsFree x) (d : Nat) (s : List Char) :
    takeTemplate? false d (x ++ '<' :: s) = (takeTemplate? false d ('<' :: s)).map fun p => (x ++ p.1, p.2) :=
  takeTemplate?_append (fun _ hy hne => h.not_prefix s hy hne) d

/-- **The scan for the end of a block passes over a document**, at any depth, in front of a bracket. -/
theorem takeTemplate?_document (x : Document) (d : Nat) (s : List Char) :
    takeTemplate? false d (x.source ++ '<' :: s) =
      (takeTemplate? false d ('<' :: s)).map fun p => (x.source ++ p.1, p.2) := by
  induction x generalizing d s with
  | text t ht => exact ht.takeTemplate? d s
  | block front hfree a ha inside rest ihinside ihrest =>
    have hopen (s : List Char) : Document.openTag a ++ s = templateOpen ++ (a ++ '>' :: s) := by
      simp [Document.openTag]
    have hclose (s : List Char) : templateClose ++ s = '<' :: ("/template>".toList ++ s) := rfl
    have hsource : Document.source (.block front hfree a ha inside rest) ++ '<' :: s =
        front ++ (templateOpen ++ (a ++ '>' :: (inside.source ++ (templateClose ++ (rest.source ++ '<' :: s))))) := by
      simp [Document.source, hopen]
    have hfront := hfree.takeTemplate? d (templateName ++
      (a ++ '>' :: (inside.source ++ (templateClose ++ (rest.source ++ '<' :: s)))))
    rw [← List.cons_append, ← templateOpen_eq] at hfront
    rw [hsource, hfront, takeTemplate?_opening ha, hclose, ihinside, ← hclose, takeTemplate?_closing, ihrest]
    simp only [Option.map_map, Document.source, hopen, List.append_assoc, List.cons_append]
    rfl

/-- The contents of the outermost blocks of a document are found at their places. -/
theorem templateRangesFrom_document (x : Document) (o : Nat) : templateRangesFrom 0 o x.source = x.contents o := by
  induction x generalizing o with
  | text t ht => exact templateRangesFrom_of_not_infix ht.1 o
  | block front hfree a ha inside rest _ ih =>
    have hopen : templateOpen <+: templateOpen ++ a := List.prefix_append _ _
    have hsingle : '>' ∉ templateOpen ++ a := List.not_mem_append (by decide) ha
    have hclosed : takeTemplate? false 0 (inside.source ++ templateClose) = some (inside.source, []) := by
      have hclose := takeTemplate?_close []
      rw [List.append_nil, templateClose_eq] at hclose
      rw [templateClose_eq, takeTemplate?_document, hclose, Option.map_some, List.append_nil]
    have hsource : Document.source (.block front hfree a ha inside rest) =
        front ++ ((templateOpen ++ a) ++ '>' :: (inside.source ++ templateClose)) ++ rest.source := by
      simp [Document.source, Document.openTag]
    rw [hsource, templateRangesFrom_block hfree.1 hopen hsingle hclosed, ih]
    simp [Document.contents, Document.openTag]

/-! ## Tags -/

/-- The tag that a closing bracket ends, by what stands between it and the one before: it begins at the first opening
bracket, and there is none if nothing stands behind that.  Tags that end elements and those of template blocks do not
count. -/
def tagBefore (offset : Nat) (piece : List Char) : List Located :=
  let inner := (piece.dropWhile (· ≠ '<')).drop 1
  if inner.isEmpty || isSkippedTag inner then []
  else [⟨offset + Text.byteSize (piece.takeWhile (· ≠ '<')), '<' :: (inner ++ ['>'])⟩]

/-- The tags of a text by its pieces between closing brackets. -/
def tagsOf : (offset : Nat) → (pieces : List (List Char)) → List Located
  | o, p :: q :: ps => tagBefore o p ++ tagsOf (o + Text.byteSize p + 1) (q :: ps)
  | _, _ => []

theorem tagsFrom_of_not_mem {x : List Char} (hx : '>' ∉ x) (o : Nat) : tagsFrom 0 o x = [] := by
  induction x generalizing o with
  | nil => rfl
  | cons c x ih =>
    have hnone : tagInner? (c :: x) = none := Option.eq_none_iff_forall_ne_some.2 fun inner hinner => by
      obtain ⟨rest, hs, -⟩ := tagInner?_eq_some hinner
      rw [hs] at hx
      exact hx (by simp)
    rw [tagsFrom_of_none hnone]
    exact ih (fun hmem => hx (List.mem_cons_of_mem c hmem)) _

theorem tagBefore_append {x : List Char} (hx : '<' ∉ x) (o : Nat) (inner : List Char) :
    tagBefore o (x ++ '<' :: inner) =
      if inner.isEmpty || isSkippedTag inner then [] else [⟨o + Text.byteSize x, '<' :: (inner ++ ['>'])⟩] := by
  have hall : ∀ c ∈ x, decide (c ≠ '<') = true := fun c hc => decide_eq_true fun heq => hx (heq ▸ hc)
  have hdrop : (x ++ '<' :: inner).dropWhile (· ≠ '<') = '<' :: inner := by
    rw [List.dropWhile_append_of_pos hall, List.dropWhile_cons_of_neg (by decide)]
  have htake : (x ++ '<' :: inner).takeWhile (· ≠ '<') = x := by
    rw [List.takeWhile_append_of_pos hall, List.takeWhile_cons_of_neg (by decide), List.append_nil]
  rw [tagBefore, hdrop, htake]
  rfl

theorem tagBefore_of_not_mem {x : List Char} (hx : '<' ∉ x) (o : Nat) : tagBefore o x = [] := by
  have hall : ∀ c ∈ x, decide (c ≠ '<') = true := fun c hc => decide_eq_true fun heq => hx (heq ▸ hc)
  have hdrop : x.dropWhile (· ≠ '<') = [] := List.dropWhile_eq_nil_iff.2 hall
  rw [tagBefore, hdrop]
  rfl

/-- The tag that a closing bracket ends is found, and the scan goes on behind the bracket. -/
theorem tagsFrom_piece {p : List Char} (hp : '>' ∉ p) (o : Nat) (s : List Char) :
    tagsFrom 0 o (p ++ '>' :: s) = tagBefore o p ++ tagsFrom 0 (o + Text.byteSize p + 1) s := by
  have hclose (o : Nat) : tagsFrom 0 o ('>' :: s) = tagsFrom 0 (o + 1) s := tagsFrom_of_none rfl o
  by_cases hopen : '<' ∈ p
  · obtain ⟨x, inner, rfl, hx⟩ := List.eq_append_cons_of_mem hopen
    rw [List.mem_append, List.mem_cons, not_or, not_or] at hp
    rw [tagBefore_append hx, List.append_assoc, tagsFrom_text hx, Text.byteSize_append, Text.byteSize_cons]
    cases inner with
    | nil =>
      have hnone : tagInner? ('<' :: '>' :: s) = none := rfl
      rw [List.cons_append, List.nil_append, tagsFrom_of_none hnone, hclose]
      rfl
    | cons c inner =>
      have hsplit : '<' :: (c :: inner) ++ '>' :: s = '<' :: (c :: inner ++ ['>']) ++ s := by simp
      have hsize : Text.byteSize ('<' :: (c :: inner ++ ['>'])) =
          '<'.utf8Size + Text.byteSize (c :: inner) + 1 := by
        rw [Text.byteSize_cons, Text.byteSize_append, show Text.byteSize ['>'] = 1 by decide, Nat.add_assoc]
      rw [hsplit, tagsFrom_tag hp.2.2 (List.cons_ne_nil c inner), hsize]
      simp only [List.isEmpty_cons, Bool.false_or, Nat.add_assoc]
  · rw [tagBefore_of_not_mem hopen, tagsFrom_text hopen, hclose]
    rfl

/-- **The scan for tags by the pieces of the text**: each closing bracket ends the tag that its piece holds. -/
theorem tagsFrom_eq (o : Nat) (s : List Char) : tagsFrom 0 o s = tagsOf o (Text.splitOn (· == '>') s) := by
  induction s using Text.word_induction (· == '>') generalizing o with
  | word x hx =>
    have hmem : '>' ∉ x := fun hmem => by simpa using hx '>' hmem
    rw [tagsFrom_of_not_mem hmem, Text.splitOn_of_forall hx]
    rfl
  | append x c s hx hc ih =>
    obtain rfl : c = '>' := beq_iff_eq.1 hc
    have hmem : '>' ∉ x := fun hmem => by simpa using hx '>' hmem
    have hne : Text.splitOn (· == '>') s ≠ [] := Text.splitOn_ne_nil s
    obtain ⟨q, ps, hps⟩ := List.exists_cons_of_ne_nil hne
    rw [tagsFrom_piece hmem, ih, Text.splitOn_append (by rfl), Text.splitOn_of_forall hx, hps]
    rfl

/-! ## Places -/

theorem exists_of_mem_templateRanges {page : List Char} {r : Located} (h : r ∈ templateRanges page) :
    ∃ front back, page = front ++ (r.text ++ back) ∧ r.start = Text.byteSize front := by
  obtain ⟨ranges, hpage, hranges⟩ := exists_cut_templateRangesFrom page
  rw [templateRanges, hranges] at h
  obtain ⟨front, back, hsplit, hstart⟩ := Cut.exists_of_mem_nodes h
  exact ⟨front, back, hpage.symm.trans hsplit, by rw [hstart, Nat.zero_add]⟩

/-- Whatever the page, a tag that is found stands in it at its offset. -/
theorem exists_of_mem_templateNodes {page : List Char} {n : Located} (h : n ∈ templateNodes page) :
    ∃ front back, page = front ++ (n.text ++ back) ∧ n.start = Text.byteSize front := by
  obtain ⟨r, hr, hn⟩ := List.mem_flatMap.1 h
  obtain ⟨a, b, hpage, hstart⟩ := exists_of_mem_templateRanges hr
  obtain ⟨tags, htext, hcut⟩ := exists_cut_nodes r.text
  rw [hcut] at hn
  obtain ⟨x, y, hx, hnstart⟩ := Cut.exists_of_mem_nodes hn
  rw [htext] at hx
  refine ⟨a ++ x, y ++ b, by rw [hpage, hx]; simp, ?_⟩
  rw [hnstart, hstart, Text.byteSize_append]

/-- **Nested blocks are matched**: what is scanned of a document are the contents of its outermost blocks, in order, and
what is found are the tags in them, apart from those that end elements and those of template blocks; both stand in the
document at their offsets. -/
theorem templateNodes_document (x : Document) :
    templateRanges x.source = x.contents 0 ∧
      templateNodes x.source =
        (x.contents 0).flatMap (fun r => tagsOf r.start (Text.splitOn (· == '>') r.text)) ∧
      ∀ l ∈ templateRanges x.source ++ templateNodes x.source,
        ∃ front back, x.source = front ++ (l.text ++ back) ∧ l.start = Text.byteSize front := by
  have hranges : templateRanges x.source = x.contents 0 := templateRangesFrom_document x 0
  refine ⟨hranges, ?_, fun l hl => ?_⟩
  · rw [templateNodes, hranges]
    exact List.flatMap_congr fun r _ => tagsFrom_eq r.start r.text
  · rcases List.mem_append.1 hl with hl | hl
    · exact exists_of_mem_templateRanges hl
    · exact exists_of_mem_templateNodes hl

/-- A block in a block, between tags, behind a tag outside. -/
theorem templateNodes_document_nested :
    let inner : Document := .text "<text>x</text>".toList (by decide)
    let outer : Document := .block "<view>".toList (by decide) " v-if=\"a\"".toList (by decide) inner
      (.text "</view>".toList (by decide))
    let x : Document := .block "<i>é</i>".toList (by decide) [] (by decide) outer (.text [] (by decide))
    x.source = "<i>é</i><template><view><template v-if=\"a\"><text>x</text></template></view></template>".toList ∧
      templateRanges x.source = [⟨19, outer.source⟩] ∧
      templateNodes x.source = [⟨19, "<view>".toList⟩, ⟨44, "<text>".toList⟩] ∧
      ∃ front back, x.source = front ++ ("<text>".toList ++ back) ∧ 44 = Text.byteSize front := by
  intro inner outer x
  obtain ⟨hranges, hnodes, hplaces⟩ := templateNodes_document x
  have hfound : templateNodes x.source = [⟨19, "<view>".toList⟩, ⟨44, "<text>".toList⟩] :=
    hnodes.trans (by decide +kernel)
  have hmem : ⟨44, "<text>".toList⟩ ∈ templateNodes x.source := hfound ▸ by decide
  exact ⟨by decide +kernel, hranges, hfound, hplaces _ (List.mem_append_right _ hmem)⟩

end ClientBuild.Markup
