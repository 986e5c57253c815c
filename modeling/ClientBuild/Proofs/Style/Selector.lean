import ClientBuild.Proofs.Style.SafeName
import ClientBuild.Proofs.Text.Words
import ClientBuild.Style.Sheet

/-!
# Selectors of classes

A selector is made safe as a whole: its backslashes go, its dark variants go, and its characters are written as
words.  Where it names utility classes, that is the same as making each name safe by itself
(`safeSelector_source`), since the dark variant has a blank in it, which no name has: an occurrence of it is one
that stands behind a class (`not_variant_prefix_joint`).
-/

namespace ClientBuild.Style

open SafeName (encode darkVariant)

/-- The characters that may stand between classes. -/
def jointChars : List Char := [' ', ',', '>', '+', '~']

/-- A class in a selector: a utility, its spelling with backslashes put in, whether the dark variant follows, and
what joins it to the next class. -/
structure SelectorPart where
  name : List Char
  spelling : List Char
  dark : Bool
  joint : List Char
  utility : isUtility name = true
  blank : ∀ c ∈ name, Text.isBlank c = false
  backslash : '\\' ∉ name
  host : ¬ ":host".toList <:+: name
  spelled : spelling.filter (· != '\\') = name
  joins : ∀ c ∈ joint, c ∈ jointChars

namespace SelectorPart

/-- The dark variant, if it follows the class. -/
def variant (p : SelectorPart) : List Char := if p.dark then darkVariant.toList else []

/-- The part as it stands in a selector. -/
def text (p : SelectorPart) : List Char := '.' :: (p.spelling ++ (p.variant ++ p.joint))

/-- The part with its safe name, without the dark variant. -/
def safeText (p : SelectorPart) : List Char := '.' :: (encode p.name ++ p.joint)

/-- The part without backslashes. -/
def plainText (p : SelectorPart) : List Char := '.' :: (p.name ++ (p.variant ++ p.joint))

/-- The part without backslashes and dark variant. -/
def bareText (p : SelectorPart) : List Char := '.' :: (p.name ++ p.joint)

/-- The selector of some classes. -/
def source (ps : List SelectorPart) : List Char := ps.flatMap text

/-- The selector without backslashes. -/
def plain (ps : List SelectorPart) : List Char := ps.flatMap plainText

theorem source_cons (p : SelectorPart) (ps : List SelectorPart) :
    source (p :: ps) = '.' :: (p.spelling ++ (p.variant ++ (p.joint ++ source ps))) := by
  simp [source, text]

theorem plain_cons (p : SelectorPart) (ps : List SelectorPart) :
    plain (p :: ps) = '.' :: (p.name ++ (p.variant ++ (p.joint ++ plain ps))) := by
  simp [plain, plainText]

theorem not_blank (p : SelectorPart) : ' ' ∉ p.name := fun h => absurd (p.blank _ h) (by decide)

/-! ## Backslashes -/

/-- Without its backslashes, a selector has the names as they are. -/
theorem filter_source (ps : List SelectorPart) : (source ps).filter (· != '\\') = plain ps := by
  have hvariant (p : SelectorPart) : p.variant.filter (· != '\\') = p.variant := by
    rw [variant]
    split
    next => decide
    next => rfl
  have hjoint (p : SelectorPart) : p.joint.filter (· != '\\') = p.joint := by
    refine List.filter_eq_self.2 fun c hc => ?_
    have hsafe : ∀ c ∈ jointChars, (c != '\\') = true := by decide
    exact hsafe c (p.joins c hc)
  induction ps with
  | nil => rfl
  | cons p ps ih =>
    rw [source_cons, plain_cons, List.filter_cons_of_pos (by decide), List.filter_append, p.spelled,
      List.filter_append, hvariant, List.filter_append, hjoint, ih]

/-! ## Selectors are not kept as they are -/

/-- Does a text end, or go on with a character that stands around classes? -/
def IsBreak (t : List Char) : Prop := ∀ c ∈ t.head?, c ∈ '.' :: jointChars

theorem isBreak_joint {joint t : List Char} (hjoint : ∀ c ∈ joint, c ∈ jointChars) (ht : IsBreak t) :
    IsBreak (joint ++ t) := by
  cases joint with
  | nil => exact ht
  | cons c joint =>
    intro d hd
    cases hd
    exact List.mem_cons_of_mem _ (hjoint c List.mem_cons_self)

theorem isBreak_source (ps : List SelectorPart) : IsBreak (source ps) := by
  cases ps with
  | nil =>
    intro c hc
    cases hc
  | cons p ps =>
    intro c hc
    rw [source_cons] at hc
    cases hc
    exact List.mem_cons_self

theorem isBreak_plain (ps : List SelectorPart) : IsBreak (plain ps) := by
  cases ps with
  | nil =>
    intro c hc
    cases hc
  | cons p ps =>
    intro c hc
    rw [plain_cons] at hc
    cases hc
    exact List.mem_cons_self

/-- The mark of a host selector does not reach over a break. -/
theorem host_infix_append {s t : List Char} (ht : IsBreak t) (h : ":host".toList <:+: s ++ t) :
    ":host".toList <:+: s ∨ ":host".toList <:+: t := by
  have hbreak : ∀ c ∈ '.' :: jointChars, c ∉ ":host".toList := by decide
  cases t with
  | nil =>
    rw [List.append_nil] at h
    exact Or.inl h
  | cons c t =>
    rcases (Text.infix_append_cons_iff (hbreak c (ht c rfl))).1 h with hleft | hright
    · exact Or.inl hleft
    · exact Or.inr (hright.trans (List.suffix_cons c t).isInfix)

/-- A host selector behind what joins two classes stands behind it altogether. -/
theorem host_infix_joint {joint t : List Char} (hjoint : ∀ c ∈ joint, c ∈ jointChars)
    (h : ":host".toList <:+: joint ++ t) : ":host".toList <:+: t := by
  have hnone : ∀ c ∈ jointChars, c ∉ ":host".toList := by decide
  by_cases hne : joint = []
  · rw [hne, List.nil_append] at h
    exact h
  · have := Text.infix_append_of_disjoint (a := []) (by decide) hne (fun c hc => hnone c (hjoint c hc)) h
    exact this.resolve_left fun hnil => absurd (List.infix_nil.1 hnil) (by decide)

/-- The dark variant is no host selector, and none begins in it. -/
theorem host_infix_variant (p : SelectorPart) {s t : List Char} (ht : IsBreak t)
    (h : ":host".toList <:+: s ++ (p.variant ++ t)) : ":host".toList <:+: s ∨ ":host".toList <:+: t := by
  rw [variant] at h
  split at h
  next =>
    have hsplit : darkVariant.toList ++ t = ':' :: ("is(.dark *".toList ++ ')' :: t) := by
      rw [show darkVariant.toList = ':' :: ("is(.dark *".toList ++ [')']) by decide]
      simp
    have hword : ":host".toList = ':' :: "host".toList := by decide
    rw [hsplit, hword, Text.infix_append_cons_of_head (by decide), ← hword, List.infix_cons_iff,
      Text.infix_append_cons_iff (by decide)] at h
    rcases h with hname | hfront | hinside | hbehind
    · exact Or.inl hname
    · obtain ⟨u, hu⟩ := hfront
      cases hu
    · exact absurd hinside (Text.contains_eq_false_iff.1 (by decide))
    · exact Or.inr hbehind
  next =>
    rw [List.nil_append] at h
    exact host_infix_append ht h

theorem host_not_infix_source (ps : List SelectorPart) : ¬ ":host".toList <:+: source ps := by
  induction ps with
  | nil => exact fun h => absurd (List.infix_nil.1 h) (by decide)
  | cons p ps ih =>
    intro h
    have hdot : ":host".toList <:+: [] ++ '.' :: (p.spelling ++ (p.variant ++ (p.joint ++ source ps))) := by
      rw [← source_cons]
      exact h
    rw [Text.infix_append_cons_iff (by decide)] at hdot
    rcases hdot with hnil | h
    · exact absurd (List.infix_nil.1 hnil) (by decide)
    · rcases host_infix_variant p (isBreak_joint p.joins (isBreak_source ps)) h with hname | hjoint
      · -- The mark has no backslash, so it is in the name as well.
        refine p.host ?_
        obtain ⟨a, b, hab⟩ := hname
        refine ⟨a.filter (· != '\\'), b.filter (· != '\\'), ?_⟩
        rw [← p.spelled, ← hab, List.filter_append, List.filter_append]
        rfl
      · exact ih (host_infix_joint p.joins hjoint)

theorem not_passesThrough_source (ps : List SelectorPart) : SafeName.passesThrough (source ps) = false := by
  rw [SafeName.passesThrough, Text.contains_eq_false_iff.2 (host_not_infix_source ps), Bool.false_or,
    Bool.eq_false_iff]
  intro hany
  obtain ⟨o, ho, heq⟩ := List.any_eq_true.1 hany
  have hoperator : ∀ o ∈ SafeName.operators, (o.toList.head?.any fun c => c ∉ '.' :: jointChars) = true := by decide
  obtain ⟨c, hc, hmem⟩ := (Option.any_eq_true _ _).1 (hoperator o ho)
  rw [beq_iff_eq.1 heq] at hc
  exact of_decide_eq_true hmem (isBreak_source ps c hc)

/-! ## Dark variants -/

/-- The dark variant up to its blank. -/
def darkStem : List Char := ":is(.dark".toList

/-- The dark variant from its blank on. -/
def darkTail : List Char := [' ', '*', ')']

theorem darkVariant_eq : darkVariant.toList = darkStem ++ darkTail := by decide

/-- A dark variant that begins in a text without blanks has its blank behind it. -/
theorem exists_of_variant_prefix {y b : List Char} (hy : ' ' ∉ y) (h : darkVariant.toList <+: y ++ b) :
    ∃ u, darkStem = y ++ u ∧ u ++ darkTail <+: b := by
  obtain ⟨z, hz⟩ := h
  rw [darkVariant_eq, List.append_assoc] at hz
  rcases List.append_eq_append_iff.1 hz with ⟨a, ha, hrest⟩ | ⟨u, hu, hb⟩
  · cases a with
    | nil => exact ⟨[], by simpa using ha.symm, z, by simpa using hrest⟩
    | cons c a =>
      have hc : c = ' ' := (List.cons.inj hrest).1.symm
      rw [ha, hc] at hy
      exact absurd (List.mem_append_right _ List.mem_cons_self) hy
  · exact ⟨u, hu, z, by rw [hb, List.append_assoc]⟩

/-- No dark variant begins in a name that one follows. -/
theorem not_variant_prefix_variant {y : List Char} (hne : y ≠ []) (hy : ' ' ∉ y) (r : List Char) :
    ¬ darkVariant.toList <+: y ++ (darkVariant.toList ++ r) := by
  intro h
  obtain ⟨u, hu, z, hz⟩ := exists_of_variant_prefix hy h
  have hstem : ' ' ∉ darkStem := by decide
  have hblank : ' ' ∉ u := fun hmem => hstem (hu ▸ List.mem_append_right y hmem)
  have hsplit : u ++ ' ' :: (['*', ')'] ++ z) = darkStem ++ ' ' :: (['*', ')'] ++ r) := by
    have heq : u ++ darkTail ++ z = darkStem ++ darkTail ++ r := by rw [hz, darkVariant_eq]
    rw [List.append_assoc, List.append_assoc] at heq
    exact heq
  obtain ⟨rfl, -⟩ := Text.append_cons_inj hblank hstem hsplit
  exact hne (List.append_left_eq_self.1 hu.symm)

/-- No dark variant begins in a name that none follows. -/
theorem not_variant_prefix_joint {y joint : List Char} (hne : y ≠ []) (hy : ' ' ∉ y)
    (hjoint : ∀ c ∈ joint, c ∈ jointChars) (ps : List SelectorPart) :
    ¬ darkVariant.toList <+: y ++ (joint ++ plain ps) := by
  intro h
  obtain ⟨u, hu, hfront⟩ := exists_of_variant_prefix hy h
  have hbreak := isBreak_joint hjoint (isBreak_plain ps)
  cases u with
  | nil =>
    -- The blank is a joint: behind it would stand a star.
    cases joint with
    | nil =>
      cases ps with
      | nil => exact absurd (List.prefix_nil.1 hfront) (by decide)
      | cons p ps =>
        rw [plain_cons] at hfront
        obtain ⟨z, hz⟩ := hfront
        cases hz
    | cons c joint =>
      obtain ⟨-, hstar⟩ := List.cons_prefix_cons.1 hfront
      have hbehind := isBreak_joint (fun d hd => hjoint d (List.mem_cons_of_mem c hd)) (isBreak_plain ps)
      obtain ⟨z, hz⟩ := hstar
      have hz : '*' :: (')' :: z) = joint ++ plain ps := hz
      exact absurd (hbehind '*' (by rw [← hz]; rfl)) (by decide)
  | cons d u =>
    -- Only the dot stands around classes: a class that begins with `dark` would follow.
    have hd : d ∈ '.' :: jointChars := by
      obtain ⟨z, hz⟩ := hfront
      exact hbreak d (by rw [← hz]; rfl)
    have hsuffix : ∀ t ∈ darkStem.tail.tails, (t.head?.any fun d => d ∈ '.' :: jointChars) = true →
        t = ".dark".toList := by decide
    have htail : d :: u ∈ darkStem.tail.tails := by
      obtain ⟨e, y, rfl⟩ := List.exists_cons_of_ne_nil hne
      rw [hu, List.mem_tails]
      exact List.suffix_append y _
    have hdark := hsuffix _ htail (decide_eq_true hd)
    rw [hdark] at hfront
    cases joint with
    | cons c joint =>
      obtain ⟨z, hz⟩ := hfront
      have hc : c = '.' := (List.cons.inj hz).1.symm
      exact absurd (hjoint c List.mem_cons_self) (by rw [hc]; decide)
    | nil =>
      cases ps with
      | nil => exact absurd (List.prefix_nil.1 hfront) (by decide)
      | cons p ps =>
        rw [List.nil_append, plain_cons] at hfront
        have hclass : "dark *)".toList <+: p.name ++ (p.variant ++ (p.joint ++ plain ps)) :=
          (List.prefix_cons_inj '.').1 hfront
        rcases List.prefix_or_prefix_of_prefix (List.prefix_append p.name _) hclass with hshort | hlong
        · have hutility : ∀ n ∈ "dark *)".toList.inits, isUtility n = false := by decide
          have := hutility p.name ((List.mem_inits _ _).2 hshort)
          rw [p.utility] at this
          cases this
        · exact p.not_blank (hlong.subset (by decide))

/-- Taking the dark variants out of a selector takes those out that follow its classes. -/
theorem replaceAll_plain (ps : List SelectorPart) :
    Text.replaceAll darkVariant.toList [] (plain ps) = ps.flatMap bareText := by
  -- A text in which no dark variant begins stays in front of the rest.
  have hstays {a b : List Char} (h : ∀ x c y, a = x ++ c :: y → ¬ darkVariant.toList <+: c :: y ++ b) :
      Text.replaceAll darkVariant.toList [] (a ++ b) = a ++ Text.replaceAll darkVariant.toList [] b :=
    Text.replaceMatches_append_of_none b fun x c y hx => Text.literally_of_not_isPrefix (h x c y hx)
  induction ps with
  | nil => rfl
  | cons p ps ih =>
    have hblank : ∀ x c y, '.' :: p.name = x ++ c :: y → ' ' ∉ c :: y := by
      intro x c y hx hmem
      have hname : ' ' ∈ '.' :: p.name := hx ▸ List.mem_append_right x hmem
      exact p.not_blank ((List.mem_cons.1 hname).resolve_left (by decide))
    have hname : Text.replaceAll darkVariant.toList [] ('.' :: p.name ++ (p.variant ++ (p.joint ++ plain ps))) =
        '.' :: p.name ++ Text.replaceAll darkVariant.toList [] (p.variant ++ (p.joint ++ plain ps)) := by
      refine hstays fun x c y hx => ?_
      rw [variant]
      split
      next => exact not_variant_prefix_variant (List.cons_ne_nil c y) (hblank x c y hx) _
      next => exact not_variant_prefix_joint (List.cons_ne_nil c y) (hblank x c y hx) p.joins ps
    have hvariant : Text.replaceAll darkVariant.toList [] (p.variant ++ (p.joint ++ plain ps)) =
        Text.replaceAll darkVariant.toList [] (p.joint ++ plain ps) := by
      rw [variant]
      split
      next => rw [Text.replaceAll_append (by decide), List.nil_append]
      next => rw [List.nil_append]
    have hjoint : Text.replaceAll darkVariant.toList [] (p.joint ++ plain ps) =
        p.joint ++ Text.replaceAll darkVariant.toList [] (plain ps) := by
      refine hstays fun x c y hx hfront => ?_
      have hcolon : ∀ c ∈ jointChars, ':' ≠ c := by decide
      have hc := p.joins c (hx ▸ List.mem_append_right x List.mem_cons_self)
      obtain ⟨z, hz⟩ := hfront
      exact hcolon c hc (List.cons.inj hz).1
    rw [plain_cons, ← List.cons_append, hname, hvariant, hjoint, ih, List.flatMap_cons, bareText,
      List.cons_append, List.cons_append, List.append_assoc]

/-! ## Safe names -/

/-- The name of a class is made safe by writing its characters. -/
theorem encode_name (p : SelectorPart) : encode p.name = SafeName.replaceAllIn SafeName.words p.name := by
  have hfilter : p.name.filter (· != '\\') = p.name := List.filter_eq_self.2 fun c hc => by
    rw [bne_iff_ne]
    rintro rfl
    exact p.backslash hc
  rw [SafeName.encode_of_not_blank (not_passesThrough_of_isUtility p.utility p.host) p.not_blank, hfilter]

/-- Writing the characters of a selector writes those of its names. -/
theorem replaceAllIn_bareText (ps : List SelectorPart) :
    SafeName.replaceAllIn SafeName.words (ps.flatMap bareText) = ps.flatMap safeText := by
  have hkept {s : List Char} (hs : ∀ c ∈ s, c ∈ '.' :: jointChars) :
      SafeName.replaceAllIn SafeName.words s = s := by
    refine SafeName.replaceAllIn_eq_self fun c hc hmem => ?_
    have hwords : ∀ c ∈ SafeName.words.map Prod.fst, c ∉ '.' :: jointChars := by decide
    exact hwords c hc (hs c hmem)
  induction ps with
  | nil => rfl
  | cons p ps ih =>
    have hdot : SafeName.replaceAllIn SafeName.words ['.'] = ['.'] := hkept (by simp)
    have hjoint : SafeName.replaceAllIn SafeName.words p.joint = p.joint :=
      hkept fun c hc => List.mem_cons_of_mem _ (p.joins c hc)
    have hsplit : bareText p = ['.'] ++ (p.name ++ p.joint) := rfl
    rw [List.flatMap_cons, List.flatMap_cons, SafeName.replaceAllIn_append, ih, hsplit,
      SafeName.replaceAllIn_append, SafeName.replaceAllIn_append, hdot, hjoint, ← encode_name, safeText,
      List.singleton_append]

end SelectorPart

open SelectorPart in
/-- **A selector of utility classes is renamed class by class**: each class gets the safe form of its name, however
it is spelled, the dark variants go, and what joins the classes stays. -/
theorem safeSelector_source (ps : List SelectorPart) (huni : ¬ "uni-".toList <:+: source ps)
    (hhover : ¬ ".button-hover".toList <:+: source ps) : safeSelector (source ps) = ps.flatMap safeText := by
  rw [safeSelector, Text.contains_eq_false_iff.2 huni, Text.contains_eq_false_iff.2 hhover,
    if_neg (by decide), encode, if_neg (by simp [not_passesThrough_source ps]), filter_source, replaceAll_plain,
    replaceAllIn_bareText]

/-- A dark background in its dark variant, the colon escaped. -/
def darkBackground : SelectorPart where
  name := "dark:bg-black".toList
  spelling := "dark\\:bg-black".toList
  dark := true
  joint := " > ".toList
  utility := by decide
  blank := by decide
  backslash := by decide
  host := Text.contains_eq_false_iff.1 (by decide)
  spelled := by decide
  joins := by decide

/-- A half width, the slash escaped. -/
def halfWidth : SelectorPart where
  name := "w-1/2".toList
  spelling := "w-1\\/2".toList
  dark := false
  joint := []
  utility := by decide
  blank := by decide
  backslash := by decide
  host := Text.contains_eq_false_iff.1 (by decide)
  spelled := by decide
  joins := by decide

open SelectorPart in
/-- A half width below a dark background. -/
theorem safeSelector_source_dark :
    source [darkBackground, halfWidth] = ".dark\\:bg-black:is(.dark *) > .w-1\\/2".toList ∧
      (¬ "uni-".toList <:+: source [darkBackground, halfWidth] ∧
        ¬ ".button-hover".toList <:+: source [darkBackground, halfWidth]) ∧
      safeSelector (source [darkBackground, halfWidth]) = ".dark-colon-bg-black > .w-1-slash-2".toList := by
  have huni : ¬ "uni-".toList <:+: source [darkBackground, halfWidth] :=
    Text.contains_eq_false_iff.1 (by decide +kernel)
  have hhover : ¬ ".button-hover".toList <:+: source [darkBackground, halfWidth] :=
    Text.contains_eq_false_iff.1 (by decide +kernel)
  have hsafe := safeSelector_source [darkBackground, halfWidth] huni hhover
  refine ⟨by decide, ⟨huni, hhover⟩, hsafe.trans ?_⟩
  decide +kernel

end ClientBuild.Style
