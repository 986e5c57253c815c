import ClientBuild.Proofs.Markup.Layout

/-!
# The tags of well-formed pages

A template block holds texts, tags and further blocks, and a tag has attributes whose values are quoted.  The
scan finds each tag whole and at its place (`templateNodes_source`), as long as the tags are readable: it knows no
quotes, so a value may neither close a tag nor open a block, and it takes every tag for one of a block whose name
begins like theirs.  A tag with a closing bracket in a value is found nowhere (`source_not_mem_templateNodes`).
-/

namespace ClientBuild.Markup

/-! ## Tags -/

/-- The characters that delimit tags and values. -/
def delimiters : List Char := ['<', '>', '"', '\'']

/-- A quoted value and what stands in front of it: a blank, the name of the attribute and the equals sign. -/
structure QuotedAttribute where
  lead : List Char
  quote : Char
  value : List Char
  apart : ∃ c ∈ lead.head?, Text.isBlank c = true
  plain : ∀ c ∈ lead, c ∉ delimiters
  quotes : quote ∈ ['"', '\'']
  bounded : quote ∉ value

/-- The attribute as it stands in a tag. -/
def QuotedAttribute.source (a : QuotedAttribute) : List Char := a.lead ++ a.quote :: (a.value ++ [a.quote])

/-- An opening or self-closing tag: its name, its attributes with quoted values, and what follows them up to the
closing bracket. -/
structure Tag where
  name : List Char
  quoted : List QuotedAttribute
  tail : List Char
  named : name ≠ []
  word : ∀ c ∈ name, c ∉ '/' :: delimiters ∧ Text.isBlank c = false
  apart : ∀ c ∈ tail.head?, c = '/' ∨ Text.isBlank c = true
  plain : ∀ c ∈ tail, c ∉ delimiters

namespace Tag

/-- What stands behind the name, up to the closing bracket. -/
def attributes (g : Tag) : List Char := g.quoted.flatMap QuotedAttribute.source ++ g.tail

/-- What stands between the brackets. -/
def inner (g : Tag) : List Char := g.name ++ g.attributes

/-- The tag from its opening bracket to the one that ends it. -/
def source (g : Tag) : List Char := '<' :: (g.inner ++ ['>'])

/-- Is there a slash in front of the bracket that ends the tag? -/
def isSelfClosing (g : Tag) : Bool := g.tail.getLast? == some '/'

/-- Does the tag open a template block? -/
def OpensBlock (g : Tag) : Prop := g.name = templateName ∧ g.isSelfClosing = false

/-- Do the scans see where the tag ends and whether it opens a block?  No value closes a tag or opens a block, and
no other tag has a name that begins like the ones that open blocks. -/
def IsReadable (g : Tag) : Prop :=
  (∀ a ∈ g.quoted, '>' ∉ a.value ∧ ¬ templateOpen <:+: a.value) ∧ (templateName <+: g.name → g.OpensBlock)

instance (g : Tag) : Decidable g.OpensBlock := inferInstanceAs (Decidable (_ ∧ _))

instance (g : Tag) : Decidable g.IsReadable := inferInstanceAs (Decidable (_ ∧ _))

/-- The name is over where the attributes begin. -/
theorem exists_attributes_eq (g : Tag) (s : List Char) :
    ∃ c r, g.attributes ++ '>' :: s = c :: r ∧ c ∉ templateName := by
  have hletters : ∀ c ∈ templateName, c ≠ '/' ∧ c ≠ '>' ∧ Text.isBlank c = false := by decide
  have hblank {c : Char} (hc : Text.isBlank c = true) : c ∉ templateName := fun hmem => by
    rw [(hletters c hmem).2.2] at hc
    cases hc
  rw [attributes]
  cases g.quoted with
  | nil =>
    cases htail : g.tail with
    | nil => exact ⟨'>', s, rfl, fun hmem => (hletters _ hmem).2.1 rfl⟩
    | cons c t =>
      refine ⟨c, t ++ '>' :: s, rfl, ?_⟩
      rcases g.apart c (by rw [htail]; rfl) with rfl | hc
      · exact fun hmem => (hletters _ hmem).1 rfl
      · exact hblank hc
  | cons a as =>
    obtain ⟨c, hhead, hc⟩ := a.apart
    obtain ⟨r, hlead⟩ := List.head?_eq_some_iff.1 hhead
    refine ⟨c, ?_, ?_, hblank hc⟩
    · exact r ++ a.quote :: (a.value ++ [a.quote]) ++ as.flatMap QuotedAttribute.source ++ g.tail ++ '>' :: s
    · simp [QuotedAttribute.source, hlead]

/-- A tag that begins like those of template blocks has a name that does. -/
theorem templateName_front {g : Tag} {s : List Char} (h : templateName <+: g.inner ++ '>' :: s) :
    templateName <+: g.name := by
  obtain ⟨c, r, heq, hc⟩ := g.exists_attributes_eq s
  rw [inner, List.append_assoc, heq, Text.prefix_append_cons_iff hc] at h
  exact h

/-- A tag does not begin like one that ends an element. -/
theorem not_slash_front (g : Tag) {q s : List Char} : ¬ '/' :: q <+: g.inner ++ s := by
  intro h
  obtain ⟨c, name, hname⟩ := List.exists_cons_of_ne_nil g.named
  rw [inner, hname, List.cons_append, List.cons_append] at h
  obtain ⟨rfl, -⟩ := List.cons_prefix_cons.1 h
  exact (g.word '/' (hname ▸ List.mem_cons_self)).1 List.mem_cons_self

/-- What begins with an opening bracket and has no quotes stands in a value, if it is among the attributes. -/
theorem infix_value {q : List Char} (hq : ∀ c ∈ ['"', '\''], c ∉ '<' :: q) {back : List Char} (hback : '<' ∉ back) :
    ∀ {as : List QuotedAttribute}, '<' :: q <:+: as.flatMap QuotedAttribute.source ++ back →
      ∃ a ∈ as, '<' :: q <:+: a.value
  | [], h => absurd (h.subset List.mem_cons_self) hback
  | a :: as, h => by
    have hsplit : (a :: as).flatMap QuotedAttribute.source ++ back =
        a.lead ++ a.quote :: (a.value ++ a.quote :: (as.flatMap QuotedAttribute.source ++ back)) := by
      simp [QuotedAttribute.source]
    have hquote := hq a.quote a.quotes
    rw [hsplit, Text.infix_append_cons_iff hquote, Text.infix_append_cons_iff hquote] at h
    rcases h with hlead | hvalue | hbehind
    · exact absurd List.mem_cons_self (a.plain '<' (hlead.subset List.mem_cons_self))
    · exact ⟨a, List.mem_cons_self, hvalue⟩
    · obtain ⟨b, hb, hinside⟩ := infix_value hq hback hbehind
      exact ⟨b, List.mem_cons_of_mem a hb, hinside⟩

/-- What begins with an opening bracket and has no quotes stands in front of a tag or in a value of it, if it is
in the tag. -/
theorem infix_source {g : Tag} {q : List Char} (hq : ∀ c ∈ ['"', '\''], c ∉ '<' :: q) (h : '<' :: q <:+: g.source) :
    q <+: g.inner ++ ['>'] ∨ ∃ a ∈ g.quoted, '<' :: q <:+: a.value := by
  rcases List.infix_cons_iff.1 h with hfront | hinside
  · exact Or.inl ((List.prefix_cons_inj '<').1 hfront)
  · have hname : '<' ∉ g.name := fun hmem => (g.word '<' hmem).1 (by decide)
    have htail : '<' ∉ g.tail ++ ['>'] := fun hmem => by
      rcases List.mem_append.1 hmem with hmem | hmem
      · exact g.plain '<' hmem (by decide)
      · cases List.mem_singleton.1 hmem
    rw [inner, attributes, List.append_assoc, List.append_assoc] at hinside
    exact Or.inr (infix_value hq htail (Text.infix_of_infix_append_right hname hinside))

theorem isClosed_source (g : Tag) : IsClosed g.source := Or.inr ⟨'<' :: g.inner, rfl⟩

/-- No block ends in a readable tag. -/
theorem IsReadable.not_close {g : Tag} (h : g.IsReadable) : ¬ templateClose <:+: g.source := by
  intro hclose
  rcases infix_source (q := "/template>".toList) (by decide) hclose with hfront | ⟨a, ha, hvalue⟩
  · exact g.not_slash_front hfront
  · exact (h.1 a ha).1 (hvalue.subset (by decide))

/-- A block begins in a readable tag only where the tag opens it. -/
theorem IsReadable.not_open {g : Tag} (h : g.IsReadable) (hg : ¬ g.OpensBlock) : ¬ templateOpen <:+: g.source := by
  intro hopen
  rcases infix_source (q := templateName) (by decide) hopen with hfront | ⟨a, ha, hvalue⟩
  · exact hg (h.2 (templateName_front hfront))
  · exact (h.1 a ha).2 hvalue

/-- A readable tag ends with its first closing bracket. -/
theorem IsReadable.not_mem_inner {g : Tag} (h : g.IsReadable) : '>' ∉ g.inner := by
  have hquoted : ∀ a ∈ g.quoted, '>' ∉ a.source := fun a ha hmem => by
    simp only [QuotedAttribute.source, List.mem_append, List.mem_cons, List.not_mem_nil, or_false] at hmem
    have hquote : '>' ≠ a.quote := fun heq => absurd (heq ▸ a.quotes) (by decide)
    rcases hmem with hlead | hstart | hvalue | hstop
    · exact a.plain '>' hlead (by decide)
    · exact hquote hstart
    · exact (h.1 a ha).1 hvalue
    · exact hquote hstop
  rw [inner, attributes, List.mem_append, List.mem_append, List.mem_flatMap]
  rintro (hname | ⟨a, ha, hmem⟩ | htail)
  · exact (g.word '>' hname).1 (by decide)
  · exact hquoted a ha hmem
  · exact g.plain '>' htail (by decide)

theorem inner_ne_nil (g : Tag) : g.inner ≠ [] := List.append_ne_nil_of_left_ne_nil g.named _

theorem isSkippedTag_inner (g : Tag) : isSkippedTag g.inner = true ↔ templateName <+: g.name := by
  rw [isSkippedTag, Bool.or_eq_true, Text.startsWith_iff, Text.startsWith_iff]
  constructor
  · rintro (hslash | hname)
    · exact absurd (List.append_nil g.inner ▸ hslash) g.not_slash_front
    · exact templateName_front (hname.trans (List.prefix_append g.inner ['>']))
  · exact fun h => Or.inr (h.trans (List.prefix_append _ _))

/-- The node for a tag at an offset: none for one of a template block. -/
def nodes (o : Nat) (g : Tag) : List Located := if g.name = templateName then [] else [⟨o, g.source⟩]

/-- A readable tag is found whole, unless it is one of a template block. -/
theorem IsReadable.tagsFrom {g : Tag} (h : g.IsReadable) (o : Nat) (s : List Char) :
    tagsFrom 0 o (g.source ++ s) = g.nodes o ++ tagsFrom 0 (o + Text.byteSize g.source) s := by
  rw [source, tagsFrom_tag h.not_mem_inner g.inner_ne_nil, nodes, source]
  by_cases hname : templateName <+: g.name
  · rw [if_pos (g.isSkippedTag_inner.2 hname), if_pos (h.2 hname).1]
  · rw [if_neg (mt g.isSkippedTag_inner.1 hname), if_neg fun heq => hname ⟨[], by rw [heq, List.append_nil]⟩]

end Tag

theorem isNode_of_mem_tagsFrom {n : Located} : ∀ {k o : Nat} {s : List Char}, n ∈ tagsFrom k o s → IsNode n.text
  | _, _, [], h => by cases h
  | k + 1, o, c :: s, h => isNode_of_mem_tagsFrom (k := k) h
  | 0, o, c :: s, h => by
    rw [tagsFrom] at h
    split at h
    next => exact isNode_of_mem_tagsFrom h
    next inner hinner =>
      obtain ⟨-, -, hclose, hne⟩ := tagInner?_eq_some hinner
      simp only at h
      split at h
      next => exact isNode_of_mem_tagsFrom h
      next hskipped =>
        rcases List.mem_cons.1 h with rfl | h
        · exact ⟨inner, rfl, hclose, hne, Bool.eq_false_iff.2 hskipped⟩
        · exact isNode_of_mem_tagsFrom h

/-- A tag with a closing bracket in a value is found in no page, since what is found has none before its end. -/
theorem source_not_mem_templateNodes {g : Tag} {a : QuotedAttribute} (ha : a ∈ g.quoted) (hvalue : '>' ∈ a.value)
    (page : List Char) : ∀ n ∈ templateNodes page, n.text ≠ g.source := by
  intro n hn heq
  obtain ⟨r, -, hr⟩ := List.mem_flatMap.1 hn
  obtain ⟨x, hx, hclose, -⟩ := isNode_of_mem_tagsFrom hr
  have hinner : g.inner = x := by
    rw [heq, Tag.source, List.cons.injEq, List.append_left_inj] at hx
    exact hx.2
  refine hclose (hinner ▸ List.mem_append_right _ (List.mem_append_left _ (List.mem_flatMap.2 ⟨a, ha, ?_⟩)))
  simp [QuotedAttribute.source, hvalue]

/-! ## Contents of blocks -/

/-- The tag that ends an element. -/
def endTag (t : List Char) : List Char := '<' :: (('/' :: t) ++ ['>'])

/-- What stands in a template block: texts, tags, and blocks that are closed. -/
inductive Content where
  | nil
  | text (t : List Char) (plain : '<' ∉ t ∧ '>' ∉ t) (rest : Content)
  | tag (g : Tag) (single : ¬ g.OpensBlock) (rest : Content)
  | close (t : List Char) (plain : '<' ∉ t ∧ '>' ∉ t) (other : t ≠ templateName) (rest : Content)
  | block (g : Tag) (opens : g.OpensBlock) (inside rest : Content)

namespace Content

/-- The text of a content. -/
def source : Content → List Char
  | nil => []
  | text t _ rest => t ++ rest.source
  | tag g _ rest => g.source ++ rest.source
  | close t _ _ rest => endTag t ++ rest.source
  | block g _ inside rest => g.source ++ (inside.source ++ (templateClose ++ rest.source))

/-- The opening and self-closing tags of a content. -/
def tags : Content → List Tag
  | nil => []
  | text _ _ rest => rest.tags
  | tag g _ rest => g :: rest.tags
  | close _ _ _ rest => rest.tags
  | block g _ inside rest => g :: (inside.tags ++ rest.tags)

/-- The tags of a content at an offset that are not of template blocks, each whole and at its place. -/
def nodes : (offset : Nat) → Content → List Located
  | _, nil => []
  | o, text t _ rest => rest.nodes (o + Text.byteSize t)
  | o, tag g _ rest => g.nodes o ++ rest.nodes (o + Text.byteSize g.source)
  | o, close t _ _ rest => rest.nodes (o + Text.byteSize (endTag t))
  | o, block g _ inside rest => inside.nodes (o + Text.byteSize g.source) ++
      rest.nodes (o + Text.byteSize (g.source ++ (inside.source ++ templateClose)))

end Content

theorem tagsFrom_text {t : List Char} (ht : '<' ∉ t) (o : Nat) (s : List Char) :
    tagsFrom 0 o (t ++ s) = tagsFrom 0 (o + Text.byteSize t) s := by
  induction t generalizing o with
  | nil => rfl
  | cons c t ih =>
    rw [List.mem_cons, not_or] at ht
    obtain ⟨hc, ht⟩ := ht
    have hnone : tagInner? (c :: (t ++ s)) = none := by
      rw [tagInner?.eq_def]
      split
      next heq => exact absurd (List.cons.inj heq).1.symm hc
      next => rfl
    rw [List.cons_append, tagsFrom_of_none hnone, ih ht, Text.byteSize_cons, Nat.add_assoc]

theorem tagsFrom_endTag {t : List Char} (ht : '>' ∉ t) (o : Nat) (s : List Char) :
    tagsFrom 0 o (endTag t ++ s) = tagsFrom 0 (o + Text.byteSize (endTag t)) s := by
  rw [endTag, tagsFrom_tag (List.not_mem_cons_of_ne_of_not_mem (by decide) ht) (List.cons_ne_nil _ _)]
  rfl

theorem templateClose_eq_endTag : templateClose = endTag templateName := by decide

/-- The tags of a content are found whole and at their places. -/
theorem Content.tagsFrom_source {c : Content} (hc : ∀ g ∈ c.tags, g.IsReadable) (o : Nat) (s : List Char) :
    tagsFrom 0 o (c.source ++ s) = c.nodes o ++ tagsFrom 0 (o + Text.byteSize c.source) s := by
  induction c generalizing o s with
  | nil => rfl
  | text t ht rest ih =>
    rw [source, nodes, List.append_assoc, tagsFrom_text ht.1, ih hc, Text.byteSize_append, Nat.add_assoc]
  | tag g _ rest ih =>
    obtain ⟨hg, hrest⟩ := List.forall_mem_cons.1 hc
    rw [source, nodes, List.append_assoc, hg.tagsFrom, ih hrest, Text.byteSize_append, Nat.add_assoc,
      List.append_assoc]
  | close t ht _ rest ih =>
    rw [source, nodes, List.append_assoc, tagsFrom_endTag ht.2, ih hc, Text.byteSize_append, Nat.add_assoc]
  | block g hg inside rest ihinside ihrest =>
    obtain ⟨hread, hall⟩ := List.forall_mem_cons.1 hc
    obtain ⟨hinside, hrest⟩ := List.forall_mem_append.1 hall
    have hnone : g.nodes o = [] := if_pos hg.1
    have hclose (o : Nat) (s : List Char) :
        tagsFrom 0 o (templateClose ++ s) = tagsFrom 0 (o + Text.byteSize templateClose) s := by
      rw [templateClose_eq_endTag]
      exact tagsFrom_endTag (by decide) o s
    simp only [source, nodes, List.append_assoc, Text.byteSize_append, ← Nat.add_assoc]
    rw [hread.tagsFrom, hnone, List.nil_append, ihinside hinside, hclose, ihrest hrest]

/-! ## Blocks -/

/-- Does no block begin or end in a text, whatever follows it? -/
def Unmarked (x : List Char) : Prop :=
  ∀ y, y <:+ x → y ≠ [] → ∀ s, ¬ templateOpen <+: y ++ s ∧ ¬ templateClose <+: y ++ s

theorem unmarked_text {t : List Char} (ht : '<' ∉ t) : Unmarked t := by
  intro y hy hne s
  obtain ⟨c, y, rfl⟩ := List.exists_cons_of_ne_nil hne
  have hc : '<' ≠ c := fun heq => ht (heq ▸ hy.subset List.mem_cons_self)
  exact ⟨fun h => hc (List.cons_prefix_cons.1 h).1, fun h => hc (List.cons_prefix_cons.1 h).1⟩

theorem IsClosed.unmarked {x : List Char} (h : IsClosed x) (hopen : ¬ templateOpen <:+: x)
    (hclose : ¬ templateClose <:+: x) : Unmarked x := by
  rintro y ⟨u, rfl⟩ hne s
  have hinside {p : List Char} (hp : p ∈ scanned) (hfront : p <+: y ++ s) : p <:+: u ++ y :=
    ((h.of_append.prefix_iff hne hp).1 hfront).isInfix.trans (List.suffix_append u y).isInfix
  exact ⟨fun hfront => hopen (hinside (by simp [scanned]) hfront),
    fun hfront => hclose (hinside (by simp [scanned]) hfront)⟩

/-- The scan for the end of a block passes over a text where, in front of what follows, no block begins or ends. -/
theorem takeTemplate?_append {x s : List Char}
    (h : ∀ y, y <:+ x → y ≠ [] → ¬ templateOpen <+: y ++ s ∧ ¬ templateClose <+: y ++ s) (d : Nat) :
    takeTemplate? false d (x ++ s) = (takeTemplate? false d s).map fun p => (x ++ p.1, p.2) := by
  induction x with
  | nil => simp
  | cons c x ih =>
    obtain ⟨hopen, hclose⟩ := h (c :: x) (List.suffix_refl _) (List.cons_ne_nil c x)
    have hafter := Text.after?_eq_none_iff.2 hclose
    have hstart : Text.startsWith templateOpen (c :: x ++ s) = false := by
      rwa [Bool.eq_false_iff, ne_eq, Text.startsWith_iff]
    have hrest := ih fun y hy => h y (hy.trans (List.suffix_cons c x))
    rw [List.cons_append] at hafter hstart ⊢
    simp only [takeTemplate?, hafter, hstart, hrest, Option.map_map]
    rfl

theorem Unmarked.takeTemplate? {x : List Char} (h : Unmarked x) (d : Nat) (s : List Char) :
    takeTemplate? false d (x ++ s) = (takeTemplate? false d s).map fun p => (x ++ p.1, p.2) :=
  takeTemplate?_append (fun y hy hne => h y hy hne s) d

/-- The scan goes on behind the tag that opens a further block. -/
theorem takeTemplate?_inTag {x : List Char} (hx : '>' ∉ x) (d : Nat) (s : List Char) :
    takeTemplate? true d (x ++ '>' :: s) =
      (takeTemplate? false (d + 1) s).map fun p => (x ++ '>' :: p.1, p.2) := by
  induction x with
  | nil => simp only [List.nil_append, takeTemplate?, if_true]
  | cons c x ih =>
    rw [List.mem_cons, not_or] at hx
    obtain ⟨hc, hx⟩ := hx
    rw [List.cons_append]
    simp only [takeTemplate?, if_neg (Ne.symm hc), ih hx, Option.map_map]
    rfl

/-- The scan for the end of a block counts a further block. -/
theorem takeTemplate?_opening {a : List Char} (ha : '>' ∉ a) (d : Nat) (s : List Char) :
    takeTemplate? false d (templateOpen ++ (a ++ '>' :: s)) =
      (takeTemplate? false (d + 1) s).map fun p => (templateOpen ++ (a ++ '>' :: p.1), p.2) := by
  have hcons (t : List Char) : templateOpen ++ (a ++ '>' :: t) = '<' :: ((templateName ++ a) ++ '>' :: t) := by
    simp [templateOpen_eq]
  have hname : '>' ∉ templateName ++ a := List.not_mem_append (by decide) ha
  have hafter : Text.after? templateClose ('<' :: ((templateName ++ a) ++ '>' :: s)) = none :=
    Text.after?_eq_none_iff.2 fun hfront => by
      rw [templateClose_eq, List.prefix_cons_inj] at hfront
      exact absurd (List.cons_prefix_cons.1 hfront).1 (by decide)
  have hstart : Text.startsWith templateOpen ('<' :: ((templateName ++ a) ++ '>' :: s)) = true := by
    rw [Text.startsWith_iff, templateOpen_eq, List.prefix_cons_inj, List.append_assoc]
    exact List.prefix_append _ _
  simp only [hcons, takeTemplate?, hafter, hstart, takeTemplate?_inTag hname, Option.map_map]
  rfl

theorem Tag.IsReadable.takeTemplate?_opening {g : Tag} (h : g.IsReadable) (hg : g.OpensBlock) (d : Nat)
    (s : List Char) : takeTemplate? false d (g.source ++ s) =
      (takeTemplate? false (d + 1) s).map fun p => (g.source ++ p.1, p.2) := by
  have hsplit (t : List Char) : g.source ++ t = templateOpen ++ (g.attributes ++ '>' :: t) := by
    simp [source, inner, hg.1, templateOpen_eq]
  have hmem := h.not_mem_inner
  rw [inner, List.mem_append, not_or] at hmem
  rw [hsplit, Markup.takeTemplate?_opening hmem.2]
  simp only [hsplit]

theorem takeTemplate?_closing (d : Nat) (s : List Char) : takeTemplate? false (d + 1) (templateClose ++ s) =
    (takeTemplate? false d s).map fun p => (templateClose ++ p.1, p.2) := by
  have hcons : templateClose ++ s = '<' :: ("/template>".toList ++ s) := rfl
  have hafter := Text.after?_append templateClose s
  have hrest := (unmarked_text (t := "/template>".toList) (by decide)).takeTemplate? d s
  rw [hcons] at hafter ⊢
  simp only [takeTemplate?, hafter, hrest, Option.map_map]
  rfl

theorem unmarked_endTag {t : List Char} (ht : '<' ∉ t ∧ '>' ∉ t) (hne : t ≠ templateName) :
    Unmarked (endTag t) := by
  have hopening {q : List Char} (h : '<' :: q <:+: endTag t) : q <+: '/' :: t ++ ['>'] := by
    rcases List.infix_cons_iff.1 h with hfront | hinside
    · exact (List.prefix_cons_inj '<').1 hfront
    · have hmem := hinside.subset List.mem_cons_self
      simp [ht.1] at hmem
  refine IsClosed.unmarked (Or.inr ⟨'<' :: '/' :: t, rfl⟩) (fun hopen => ?_) fun hclose => ?_
  · rw [templateOpen_eq] at hopen
    exact absurd (List.cons_prefix_cons.1 (hopening hopen)).1 (by decide)
  · rw [templateClose_eq_endTag] at hclose
    obtain ⟨u, hu⟩ := (List.cons_prefix_cons.1 (hopening hclose)).2
    have heq : templateName ++ '>' :: u = t ++ '>' :: [] := by simpa using hu
    exact hne (Text.append_cons_inj (by decide) ht.2 heq).1.symm

/-- The scan for the end of a block passes over a content. -/
theorem Content.takeTemplate?_source {c : Content} (hc : ∀ g ∈ c.tags, g.IsReadable) (d : Nat) (s : List Char) :
    takeTemplate? false d (c.source ++ s) = (takeTemplate? false d s).map fun p => (c.source ++ p.1, p.2) := by
  induction c generalizing d s with
  | nil => simp [source]
  | text t ht rest ih =>
    rw [source, List.append_assoc, (unmarked_text ht.1).takeTemplate?, ih hc, Option.map_map]
    simp only [List.append_assoc]
    rfl
  | tag g hg rest ih =>
    obtain ⟨hread, hrest⟩ := List.forall_mem_cons.1 hc
    have hunmarked := g.isClosed_source.unmarked (hread.not_open hg) hread.not_close
    rw [source, List.append_assoc, hunmarked.takeTemplate?, ih hrest, Option.map_map]
    simp only [List.append_assoc]
    rfl
  | close t ht hne rest ih =>
    rw [source, List.append_assoc, (unmarked_endTag ht hne).takeTemplate?, ih hc, Option.map_map]
    simp only [List.append_assoc]
    rfl
  | block g hg inside rest ihinside ihrest =>
    obtain ⟨hread, hall⟩ := List.forall_mem_cons.1 hc
    obtain ⟨hinside, hrest⟩ := List.forall_mem_append.1 hall
    simp only [source, List.append_assoc]
    rw [hread.takeTemplate?_opening hg, ihinside hinside, takeTemplate?_closing, ihrest hrest]
    simp only [Option.map_map]
    rfl

/-! ## Pages -/

/-- A template block, and the text in front of it. -/
structure Block where
  front : List Char
  opening : Tag
  content : Content
  free : ¬ templateOpen <:+: front
  opens : opening.OpensBlock

namespace Block

/-- The block and the text in front of it. -/
def source (b : Block) : List Char := b.front ++ (b.opening.source ++ (b.content.source ++ templateClose))

/-- The tags of the block. -/
def tags (b : Block) : List Tag := b.opening :: b.content.tags

/-- The tags in a block whose front text starts at an offset. -/
def nodes (o : Nat) (b : Block) : List Located := b.content.nodes (o + Text.byteSize (b.front ++ b.opening.source))

end Block

/-- A page: template blocks, and the text behind them. -/
structure Page where
  blocks : List Block
  last : List Char
  free : ¬ templateOpen <:+: last

namespace Page

/-- The text of a page. -/
def source (p : Page) : List Char := p.blocks.flatMap Block.source ++ p.last

/-- The opening and self-closing tags in the template blocks of a page, those of the blocks included. -/
def tags (p : Page) : List Tag := p.blocks.flatMap Block.tags

/-- The tags in blocks that start at an offset. -/
def nodesFrom : (offset : Nat) → List Block → List Located
  | _, [] => []
  | o, b :: bs => b.nodes o ++ nodesFrom (o + Text.byteSize b.source) bs

/-- The tags in the template blocks of a page that are not of template blocks, each whole and at its place. -/
def nodes (p : Page) : List Located := nodesFrom 0 p.blocks

end Page

/-- The content of a block is found at its place. -/
theorem Block.templateRangesFrom {b : Block} (hb : ∀ g ∈ b.tags, g.IsReadable) (o : Nat) (s : List Char) :
    templateRangesFrom 0 o (b.source ++ s) =
      ⟨o + Text.byteSize (b.front ++ b.opening.source), b.content.source⟩ ::
        Markup.templateRangesFrom 0 (o + Text.byteSize b.source) s := by
  obtain ⟨hopening, hcontent⟩ := List.forall_mem_cons.1 hb
  have hopen : templateOpen <+: '<' :: b.opening.inner := by
    rw [templateOpen_eq, List.prefix_cons_inj, Tag.inner, b.opens.1]
    exact List.prefix_append _ _
  have hsingle : '>' ∉ '<' :: b.opening.inner :=
    List.not_mem_cons_of_ne_of_not_mem (by decide) hopening.not_mem_inner
  have hclosed : takeTemplate? false 0 (b.content.source ++ templateClose) = some (b.content.source, []) := by
    have hclose := takeTemplate?_close []
    rw [List.append_nil] at hclose
    rw [Content.takeTemplate?_source hcontent, hclose, Option.map_some, List.append_nil]
  have hsource : b.source = b.front ++ ('<' :: b.opening.inner ++ '>' :: (b.content.source ++ templateClose)) := by
    simp [source, Tag.source]
  rw [hsource, templateRangesFrom_block b.free hopen hsingle hclosed, Tag.source, List.cons_append]

/-- The tags of a page that is one block are found at their places. -/
theorem Block.templateNodes_eq {b : Block} (hb : ∀ g ∈ b.tags, g.IsReadable) : templateNodes b.source = b.nodes 0 := by
  have hranges := b.templateRangesFrom hb 0 []
  have hcontent := Content.tagsFrom_source (List.forall_mem_cons.1 hb).2
    (0 + Text.byteSize (b.front ++ b.opening.source)) []
  rw [List.append_nil] at hranges
  rw [List.append_nil, tagsFrom, List.append_nil] at hcontent
  rw [templateNodes, templateRanges, hranges, Block.nodes, ← hcontent, Markup.templateRangesFrom, List.flatMap_singleton]

/-- **Every tag is seen whole** on a page with readable tags: the scan finds those that are not of template blocks,
each at its place. -/
theorem templateNodes_source (p : Page) (hp : ∀ g ∈ p.tags, g.IsReadable) : templateNodes p.source = p.nodes := by
  have hblocks (o : Nat) (bs : List Block) (hbs : ∀ g ∈ bs.flatMap Block.tags, g.IsReadable) :
      ((templateRangesFrom 0 o (bs.flatMap Block.source ++ p.last)).flatMap fun r => tagsFrom 0 r.start r.text) =
        Page.nodesFrom o bs := by
    induction bs generalizing o with
    | nil =>
      rw [List.flatMap_nil, List.nil_append, templateRangesFrom_of_not_infix p.free]
      rfl
    | cons b bs ih =>
      rw [List.flatMap_cons, List.forall_mem_append] at hbs
      obtain ⟨hb, hbs⟩ := hbs
      have hcontent := Content.tagsFrom_source (List.forall_mem_cons.1 hb).2
        (o + Text.byteSize (b.front ++ b.opening.source)) []
      rw [List.append_nil, tagsFrom, List.append_nil] at hcontent
      rw [List.flatMap_cons, List.append_assoc, b.templateRangesFrom hb, List.flatMap_cons, ih _ hbs, Page.nodesFrom,
        Block.nodes, hcontent]
  exact hblocks 0 p.blocks hp

/-- An attribute in double quotes behind a blank. -/
def attributeOf (k v : String) (hk : ∀ c ∈ ' ' :: (k.toList ++ ['=']), c ∉ delimiters) (hv : '"' ∉ v.toList) :
    QuotedAttribute where
  lead := ' ' :: (k.toList ++ ['='])
  quote := '"'
  value := v.toList
  apart := ⟨' ', rfl, rfl⟩
  plain := hk
  quotes := List.mem_cons_self
  bounded := hv

/-- A tag that ends behind its attributes. -/
def tagOf (name : String) (as : List QuotedAttribute) (hname : name.toList ≠ [])
    (hword : ∀ c ∈ name.toList, c ∉ '/' :: delimiters ∧ Text.isBlank c = false) : Tag where
  name := name.toList
  quoted := as
  tail := []
  named := hname
  word := hword
  apart := fun _ hc => by cases hc
  plain := fun _ hc => by cases hc

/-- A page with a block in its block, whose condition has an opening bracket. -/
def nestedPage : Page where
  blocks := [{
    front := "<script></script>\n".toList
    opening := tagOf "template" [attributeOf "lang" "html" (by decide) (by decide)] (by decide) (by decide)
    content :=
      .block (tagOf "template" [attributeOf "v-if" "a < b" (by decide) (by decide)] (by decide) (by decide)) (by decide)
        (.tag (tagOf "text" [attributeOf "class" "p-2" (by decide) (by decide)] (by decide) (by decide)) (by decide)
          (.text "x".toList (by decide) (.close "text".toList (by decide) (by decide) .nil)))
        (.tag (tagOf "image" [attributeOf "src" "a" (by decide) (by decide)] (by decide) (by decide)) (by decide) .nil)
    free := by decide
    opens := by decide }]
  last := []
  free := by decide

theorem templateNodes_source_nested :
    nestedPage.source = ("<script></script>\n<template lang=\"html\"><template v-if=\"a < b\">" ++
        "<text class=\"p-2\">x</text></template><image src=\"a\"></template>").toList ∧
      (∀ g ∈ nestedPage.tags, g.IsReadable) ∧
      templateNodes nestedPage.source =
        [⟨63, "<text class=\"p-2\">".toList⟩, ⟨100, "<image src=\"a\">".toList⟩] := by
  have hread : ∀ g ∈ nestedPage.tags, g.IsReadable := by decide
  exact ⟨by decide +kernel, hread, (templateNodes_source nestedPage hread).trans (by decide +kernel)⟩

/-- A tag whose condition has a closing bracket. -/
def comparingTag : Tag := tagOf "view" [attributeOf "v-if" "a > b" (by decide) (by decide)] (by decide) (by decide)

/-- A page with that tag only. -/
def comparingPage : Page where
  blocks := [{
    front := []
    opening := tagOf "template" [] (by decide) (by decide)
    content := .tag comparingTag (by decide) (.close "view".toList (by decide) (by decide) .nil)
    free := by decide
    opens := by decide }]
  last := []
  free := by decide

/-- The tag is cut at the closing bracket of its condition. -/
theorem comparing_tag_cut :
    comparingPage.source = "<template><view v-if=\"a > b\"></view></template>".toList ∧
      comparingPage.nodes = [⟨10, "<view v-if=\"a > b\">".toList⟩] ∧
      templateNodes comparingPage.source = [⟨10, "<view v-if=\"a >".toList⟩] := by
  decide

end ClientBuild.Markup
