import ClientBuild.Proofs.Markup.Attributes
import ClientBuild.Proofs.Markup.Blocks
import ClientBuild.Proofs.Markup.Frame
import ClientBuild.Proofs.Markup.Stability
import ClientBuild.Proofs.Style.Faithful

/-!
# Elements with one attribute

A tag with a class attribute only has the classes that this attribute lists (`classAttributes_classTag`).  The tag has
nothing to clean unless the list is empty (`isClean_classTag`).
-/

namespace ClientBuild.Markup

open Style.SafeName (unsafeChars)

/-! ## Tags with a class attribute -/

/-- A name of an element that is neither a text tag nor one of a template block: it has no blanks, and none of the
characters that delimit tags and values, that no safe name has or that mark dark mode.  Names of letters
and dashes are such names. -/
structure IsElementName (n : List Char) : Prop where
  nonempty : n ≠ []
  word : ∀ c ∈ n, Text.isBlank c = false ∧ c ∉ '_' :: '=' :: (delimiters ++ unsafeChars)
  other : n ≠ "text".toList
  outside : ¬ templateName <+: n

/-- A tag up to the value of its class attribute. -/
def classStart (n : List Char) : List Char := '<' :: (n ++ " class=".toList)

/-- The tag of an element with a class attribute only. -/
def classTag (n v : List Char) : List Char := classStart n ++ '"' :: (v ++ '"' :: ['>'])

variable {n v : List Char}

theorem IsElementName.not_mem (hn : IsElementName n) {c : Char}
    (hc : c ∈ '_' :: '=' :: (delimiters ++ unsafeChars)) : c ∉ n := fun hmem => (hn.word c hmem).2 hc

/-- The class attribute is the only one that names classes. -/
theorem classAttributes_classTag (hn : IsElementName n) (hv : ∀ c ∈ v, isQuote c = false ∧ c ≠ '\\') :
    classAttributes (classTag n v) = [⟨.static, v⟩] := by
  let a : Attribute := ⟨0, .plain, '"', v⟩
  have hsplit : classTag n v = '<' :: n ++ (a.text ++ ['>']) := by
    simp [classTag, classStart, a, Attribute.text, Attribute.gap, AttributeName.text, AttributeName.lead,
      AttributeName.key]
  have hsound : a.IsSound := ⟨rfl, isQuoted_of_forall hv⟩
  have hequal : '=' ∉ '<' :: n := List.not_mem_cons_of_ne_of_not_mem (by decide) (hn.not_mem (by decide))
  rw [hsplit, classAttributes_attribute hsound hequal, classAttributes_of_not_mem (by decide)]
  rfl

theorem isTag_classTag (hn : IsElementName n) (hv : '>' ∉ v) : IsTag (classTag n v) := by
  refine ⟨n ++ " class=".toList ++ '"' :: (v ++ ['"']), by simp [classTag, classStart], fun hmem => ?_⟩
  simp only [List.mem_append, List.mem_cons, List.not_mem_nil, or_false] at hmem
  rcases hmem with (hname | hclass) | hopen | hvalue | hclose
  · exact hn.not_mem (by decide) hname
  · exact absurd hclass (by decide)
  · exact absurd hopen (by decide)
  · exact hv hvalue
  · exact absurd hclose (by decide)

/-- A tag is clean whose only value is not empty. -/
theorem isClean_classTag (hn : IsElementName n) (hv : '"' ∉ v) (hvalue : v ∉ emptyValues) : IsClean (classTag n v) := by
  rintro p hp ⟨x, y, h⟩
  obtain ⟨u, m, rfl, hu, -, hm⟩ := exists_eq_quoted hp
  have hempty : ∀ m ∈ emptyValues, '"' ∉ m := by decide
  have hstart : '"' ∉ classStart n := by
    rw [classStart, List.mem_cons, List.mem_append, not_or, not_or]
    exact ⟨by decide, hn.not_mem (by decide), by decide⟩
  have hsplit : (x ++ u) ++ '"' :: (m ++ '"' :: y) = classStart n ++ '"' :: (v ++ '"' :: ['>']) := by
    rw [← classTag, ← h]
    simp [quoted]
  -- The tag has two quotes, so none stands in front of an empty attribute in it.
  have hcount := congrArg (List.count '"') hsplit
  simp only [List.count_append, List.count_cons_self, List.count_eq_zero_of_not_mem hu,
    List.count_eq_zero_of_not_mem (hempty m hm), List.count_eq_zero_of_not_mem hstart, List.count_eq_zero_of_not_mem hv,
    show ['>'].count '"' = 0 from rfl] at hcount
  have hx : '"' ∉ x := List.count_eq_zero.1 (by omega)
  obtain ⟨-, hrest⟩ := Text.append_cons_inj (List.not_mem_append hx hu) hstart hsplit
  exact hvalue ((Text.append_cons_inj (hempty m hm) hv hrest).1 ▸ hm)

theorem isTextTag_classTag (hn : IsElementName n) : isTextTag (classTag n v) = false := by
  have hsplit : classTag n v = '<' :: (n ++ ' ' :: ("class=".toList ++ '"' :: (v ++ '"' :: ['>']))) := by
    simp [classTag, classStart]
  rw [isTextTag]
  split
  next c s hafter =>
    rw [Text.after?_eq_some_iff, hsplit] at hafter
    have htext : n ++ ' ' :: ("class=".toList ++ '"' :: (v ++ '"' :: ['>'])) = "text".toList ++ c :: s :=
      (List.cons.inj hafter).2
    rcases List.append_eq_append_iff.1 htext with ⟨u, hu, hrest⟩ | ⟨u, hu, hrest⟩
    · cases u with
      | nil => exact absurd (by rw [hu, List.append_nil]) hn.other
      | cons d u =>
        obtain ⟨rfl, -⟩ := List.cons.inj hrest
        exact absurd (hu ▸ List.mem_append_right n List.mem_cons_self : ' ' ∈ "text".toList) (by decide)
    · cases u with
      | nil => exact absurd (by rw [hu, List.append_nil]) hn.other
      | cons d u =>
        obtain ⟨rfl, -⟩ := List.cons.inj hrest
        have hmem : c ∈ n := hu ▸ List.mem_append_right _ List.mem_cons_self
        have hdelimiter {e : Char} (he : e ∈ '_' :: '=' :: (delimiters ++ unsafeChars)) : (c == e) = false :=
          beq_eq_false_iff_ne.2 fun heq => hn.not_mem he (heq ▸ hmem)
        rw [(hn.word c hmem).1, hdelimiter (by decide), hdelimiter (by decide)]
        rfl
  next => rfl

end ClientBuild.Markup
