import ClientBuild.Markup.Transform
import ClientBuild.Proofs.Text.Bytes
import ClientBuild.Proofs.Text.Words

/-!
# Pages cut at their tags

The tags in the template blocks of a page are found by their offsets and replaced at them.  The same is said
here without offsets: a text is cut into its tags and the texts in front of them, the offsets of the tags tell
the cut (`Cut.eq_of_nodes`), and replacing the tags at their offsets replaces them in the cut
(`spliceFrom_nodes`).
-/

namespace ClientBuild.Markup

/-- A text cut at its tags: each tag behind the text in front of it, and the text behind the last one. -/
structure Cut where
  tags : List (List Char × List Char)
  last : List Char

namespace Cut

/-- The text with each tag replaced. -/
def image (f : List Char → List Char) (c : Cut) : List Char :=
  (c.tags.flatMap fun p => p.1 ++ f p.2) ++ c.last

/-- The text that is cut. -/
def source (c : Cut) : List Char := c.image id

/-- The cut with each tag replaced. -/
def mapTags (f : List Char → List Char) (c : Cut) : Cut := ⟨c.tags.map fun p => (p.1, f p.2), c.last⟩

/-- The tags of a text that starts at an offset, with their offsets. -/
def locate : (offset : Nat) → List (List Char × List Char) → List Located
  | _, [] => []
  | o, (t, g) :: ps =>
    ⟨o + Text.byteSize t, g⟩ :: locate (o + Text.byteSize t + Text.byteSize g) ps

/-- The tags of a cut, with their offsets. -/
def nodes (offset : Nat) (c : Cut) : List Located := locate offset c.tags

/-- A text in front of a cut. -/
def behind (t : List Char) : Cut → Cut
  | ⟨[], last⟩ => ⟨[], t ++ last⟩
  | ⟨(u, g) :: ps, last⟩ => ⟨(t ++ u, g) :: ps, last⟩

/-- Two cuts one after the other. -/
def append (a b : Cut) : Cut :=
  ⟨a.tags ++ (behind a.last b).tags, (behind a.last b).last⟩

variable (f : List Char → List Char)

@[simp] theorem source_mapTags (c : Cut) : (c.mapTags f).source = c.image f := by
  simp [source, mapTags, image, List.flatMap_map]

@[simp] theorem image_behind (t : List Char) (c : Cut) : (behind t c).image f = t ++ c.image f := by
  obtain ⟨_ | ⟨⟨u, g⟩, ps⟩, last⟩ := c <;> simp [behind, image]

@[simp] theorem image_append (a b : Cut) : (a.append b).image f = a.image f ++ b.image f := by
  have h := image_behind f a.last b
  rw [image] at h
  rw [append, image, List.flatMap_append, List.append_assoc, h, ← List.append_assoc]
  rfl

@[simp] theorem source_behind (t : List Char) (c : Cut) : (behind t c).source = t ++ c.source :=
  image_behind id t c

@[simp] theorem source_append (a b : Cut) : (a.append b).source = a.source ++ b.source :=
  image_append id a b

theorem nodes_behind (t : List Char) (c : Cut) (o : Nat) :
    (behind t c).nodes o = c.nodes (o + Text.byteSize t) := by
  obtain ⟨_ | ⟨⟨u, g⟩, ps⟩, last⟩ := c
  · rfl
  · simp only [behind, nodes, locate, Text.byteSize_append, Nat.add_assoc]

theorem nodes_append (a b : Cut) (o : Nat) :
    (a.append b).nodes o = a.nodes o ++ b.nodes (o + Text.byteSize a.source) := by
  obtain ⟨ps, last⟩ := a
  rw [nodes, append]
  induction ps generalizing o with
  | nil =>
    rw [List.nil_append, ← nodes, nodes_behind]
    rfl
  | cons p ps ih =>
    obtain ⟨t, g⟩ := p
    have hsize : Text.byteSize (source ⟨(t, g) :: ps, last⟩) =
        Text.byteSize t + Text.byteSize g + Text.byteSize (source ⟨ps, last⟩) := by
      simp only [source, image, List.flatMap_cons, id_eq, List.append_assoc, Text.byteSize_append,
        Nat.add_assoc]
    simp only [List.cons_append, locate, nodes] at ih ⊢
    rw [ih, hsize]
    simp only [Nat.add_assoc]

/-- A tag stands in the text at its offset. -/
theorem exists_of_mem_nodes {c : Cut} {o : Nat} {n : Located} (h : n ∈ c.nodes o) :
    ∃ front back, c.source = front ++ (n.text ++ back) ∧ n.start = o + Text.byteSize front := by
  obtain ⟨ps, last⟩ := c
  induction ps generalizing o with
  | nil => cases h
  | cons p ps ih =>
    obtain ⟨t, g⟩ := p
    have hsource : source ⟨(t, g) :: ps, last⟩ = t ++ (g ++ source ⟨ps, last⟩) := by
      simp [source, image]
    rcases List.mem_cons.1 h with rfl | h
    · exact ⟨t, _, hsource, rfl⟩
    · obtain ⟨front, back, hrest, hstart⟩ := ih h
      refine ⟨t ++ (g ++ front), back, by rw [hsource, hrest]; simp, ?_⟩
      rw [hstart, Text.byteSize_append, Text.byteSize_append]
      omega

@[simp] theorem mapTags_behind (t : List Char) (c : Cut) :
    (behind t c).mapTags f = behind t (c.mapTags f) := by
  obtain ⟨_ | ⟨⟨u, g⟩, ps⟩, last⟩ := c <;> rfl

@[simp] theorem mapTags_append (a b : Cut) :
    (a.append b).mapTags f = (a.mapTags f).append (b.mapTags f) := by
  have h := mapTags_behind f a.last b
  rw [mapTags, Cut.mk.injEq] at h
  rw [append, append, mapTags, List.map_append, h.1, h.2]
  rfl

/-- Are all tags of a cut of a kind? -/
def All (P : List Char → Prop) (c : Cut) : Prop := ∀ p ∈ c.tags, P p.2

variable {P : List Char → Prop}

@[simp] theorem all_behind {c : Cut} {t : List Char} : (behind t c).All P ↔ c.All P := by
  obtain ⟨_ | ⟨⟨u, g⟩, ps⟩, last⟩ := c
  · exact Iff.rfl
  · simp only [All, behind, List.forall_mem_cons]

@[simp] theorem all_append {a b : Cut} : (a.append b).All P ↔ a.All P ∧ b.All P := by
  have hbehind : (behind a.last b).All P ↔ b.All P := all_behind
  exact List.forall_mem_append.trans (and_congr_right fun _ => hbehind)

theorem all_mapTags {c : Cut} : (c.mapTags f).All P ↔ c.All fun g => P (f g) := List.forall_mem_map

theorem All.imp {Q : List Char → Prop} {c : Cut} (h : c.All P) (himp : ∀ g, P g → Q g) : c.All Q :=
  fun p hp => himp p.2 (h p hp)

theorem All.and {Q : List Char → Prop} {c : Cut} (h : c.All P) (h' : c.All Q) : c.All fun g => P g ∧ Q g :=
  fun p hp => ⟨h p hp, h' p hp⟩

/-- Where the tags stand tells the cut of a text. -/
theorem eq_of_nodes {c c' : Cut} {o : Nat} (hsource : c.source = c'.source) (hnodes : c.nodes o = c'.nodes o) :
    c = c' := by
  obtain ⟨ps, last⟩ := c
  obtain ⟨qs, last'⟩ := c'
  induction ps generalizing qs o with
  | nil =>
    cases qs with
    | nil => exact congrArg (Cut.mk []) hsource
    | cons q qs => exact absurd hnodes.symm (List.cons_ne_nil _ _)
  | cons p ps ih =>
    cases qs with
    | nil => exact absurd hnodes (List.cons_ne_nil _ _)
    | cons q qs =>
      obtain ⟨t, g⟩ := p
      obtain ⟨u, k⟩ := q
      have hsplit (t g : List Char) (ps : List (List Char × List Char)) (last : List Char) :
          source ⟨(t, g) :: ps, last⟩ = t ++ (g ++ source ⟨ps, last⟩) := by
        simp [source, image]
      obtain ⟨hhead, hrest⟩ := List.cons.inj hnodes
      obtain ⟨hsize, rfl⟩ := Located.mk.inj hhead
      rw [hsplit, hsplit] at hsource
      obtain ⟨rfl, hbehind⟩ := Text.append_inj_of_byteSize (Nat.add_left_cancel hsize) hsource
      obtain ⟨rfl, rfl⟩ := Cut.mk.inj (ih qs (List.append_cancel_left hbehind) hrest)
      rfl

end Cut

/-! ## Tags -/

/-- A text between angle brackets, of which the closing one stands at the end only. -/
def IsTag (g : List Char) : Prop := ∃ x, g = '<' :: (x ++ ['>']) ∧ '>' ∉ x

theorem IsTag.ne_nil {g : List Char} (h : IsTag g) : g ≠ [] := by
  obtain ⟨x, rfl, _⟩ := h
  exact List.cons_ne_nil _ _

/-! ## Replacing tags -/

theorem spliceFrom_eq_drop (f : List Char → List Char) (ns : List Located) : ∀ (k o : Nat) (s : List Char),
    spliceFrom f ns k o s = spliceFrom f ns 0 (o + Text.byteSize (s.take k)) (s.drop k)
  | 0, _, _ => rfl
  | k + 1, o, [] => by simp [spliceFrom]
  | k + 1, o, c :: s => by
    rw [spliceFrom, spliceFrom_eq_drop f ns k, List.take_succ_cons, List.drop_succ_cons,
      Text.byteSize_cons, Nat.add_assoc]

theorem spliceFrom_nil (f : List Char → List Char) (o : Nat) (s : List Char) :
    spliceFrom f [] 0 o s = s := by
  cases s <;> rfl

/-- The text in front of the first part stays. -/
theorem spliceFrom_text (f : List Char → List Char) (g s : List Char) (ns : List Located) :
    ∀ (t : List Char) (o : Nat), spliceFrom f (⟨o + Text.byteSize t, g⟩ :: ns) 0 o (t ++ s) =
      t ++ spliceFrom f (⟨o + Text.byteSize t, g⟩ :: ns) 0 (o + Text.byteSize t) s
  | [], _ => rfl
  | c :: t, o => by
    have hpos := c.utf8Size_pos
    have hne : o + Text.byteSize (c :: t) ≠ o := by
      rw [Text.byteSize_cons]
      omega
    have hoffset : o + Text.byteSize (c :: t) = o + c.utf8Size + Text.byteSize t := by
      rw [Text.byteSize_cons, Nat.add_assoc]
    rw [List.cons_append, spliceFrom, if_neg hne, hoffset, spliceFrom_text f g s ns t, List.cons_append]

/-- Replacing the tags of a text at their offsets replaces them in its cut. -/
theorem spliceFrom_nodes (f : List Char → List Char) (c : Cut) (hc : c.All (· ≠ [])) (o : Nat) :
    spliceFrom f (c.nodes o) 0 o c.source = c.image f := by
  obtain ⟨ps, last⟩ := c
  induction ps generalizing o with
  | nil => exact spliceFrom_nil f o last
  | cons p ps ih =>
    obtain ⟨t, g⟩ := p
    obtain ⟨hg, hps⟩ := List.forall_mem_cons.1 hc
    obtain ⟨d, g, rfl⟩ := List.exists_cons_of_ne_nil hg
    have hsplit : Cut.source ⟨(t, d :: g) :: ps, last⟩ = t ++ d :: (g ++ Cut.source ⟨ps, last⟩) := by
      simp [Cut.source, Cut.image]
    have hrest := ih (o + Text.byteSize t + Text.byteSize (d :: g)) hps
    rw [Text.byteSize_cons, ← Nat.add_assoc] at hrest
    rw [hsplit, Cut.nodes, Cut.locate, spliceFrom_text, spliceFrom, if_pos rfl, List.length_cons,
      Nat.add_sub_cancel, spliceFrom_eq_drop, List.take_left, List.drop_left, Text.byteSize_cons,
      ← Nat.add_assoc]
    rw [Cut.nodes] at hrest
    rw [hrest]
    simp [Cut.image]

end ClientBuild.Markup
