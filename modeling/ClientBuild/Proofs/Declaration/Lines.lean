import ClientBuild.Proofs.Declaration.Declared

/-!
# Lines that declare nothing

In every declaration the lines behind the first are indented, empty or begin with a closing brace
(`Indented`), as long as the strings in it have no line breaks.  Rewriting interfaces keeps that
(`Indented.interfacesToTypes`), so that a declaration declares the name in its first line and no other.
-/

namespace ClientBuild.Declaration

/-! ## Indented texts -/

/-- Can the character stand behind a line break? -/
def IsMargin (c : Char) : Prop := c = '\t' ∨ c = '}' ∨ c = '\n'

instance (c : Char) : Decidable (IsMargin c) := inferInstanceAs (Decidable (_ ∨ _ ∨ _))

/-- Does every line behind the first begin with a tab or a closing brace, or is it empty? -/
def Indented (s : List Char) : Prop := ∀ x c y, s = x ++ '\n' :: c :: y → IsMargin c

/-- Does every line begin with a tab or a closing brace, or is it empty? -/
def Block (s : List Char) : Prop := Indented ('\n' :: s)

variable {a b s : List Char}

theorem Indented.of_infix (h : Indented s) (ha : a <:+: s) : Indented a := by
  obtain ⟨x, y, rfl⟩ := ha
  intro u c v huv
  exact h (x ++ u) c (v ++ y) (by rw [huv]; simp)

theorem indented_cons {c : Char} :
    Indented (c :: s) ↔ (c = '\n' → ∀ d t, s = d :: t → IsMargin d) ∧ Indented s := by
  constructor
  · intro h
    refine ⟨?_, h.of_infix (List.suffix_cons c s).isInfix⟩
    rintro rfl d t rfl
    exact h [] d t rfl
  · rintro ⟨hfirst, hs⟩ x d y hxy
    cases x with
    | nil =>
      obtain ⟨rfl, rfl⟩ := List.cons.inj hxy
      exact hfirst rfl d y rfl
    | cons e x => exact hs x d y (List.cons.inj hxy).2

theorem indented_cons_of_ne {c : Char} (hc : c ≠ '\n') : Indented (c :: s) ↔ Indented s := by
  rw [indented_cons]
  exact and_iff_right fun h => absurd h hc

theorem indented_line {c : Char} (hc : IsMargin c) :
    Indented ('\n' :: c :: s) ↔ Indented (c :: s) := by
  rw [indented_cons]
  refine and_iff_right fun _ d t h => ?_
  rwa [← (List.cons.inj h).1]

theorem indented_append_of_not_mem (ha : '\n' ∉ a) : Indented (a ++ s) ↔ Indented s := by
  induction a with
  | nil => rfl
  | cons c a ih =>
    obtain ⟨hc, ha⟩ := List.ne_and_not_mem_of_not_mem_cons ha
    rw [List.cons_append, indented_cons_of_ne hc.symm, ih ha]

theorem Indented.append (ha : Indented a) (hb : Block b) : Indented (a ++ b) := by
  induction a with
  | nil => exact hb.of_infix (List.suffix_cons _ b).isInfix
  | cons c a ih =>
    obtain ⟨hc, ha⟩ := indented_cons.1 ha
    refine indented_cons.2 ⟨fun hline d t h => ?_, ih ha⟩
    cases a with
    | nil => exact (indented_cons.1 hb).1 rfl d t h
    | cons e a => exact hc hline d a (by rw [(List.cons.inj h).1])

theorem Indented.append_concat {c : Char} (ha : Indented (a ++ [c])) (hc : c ≠ '\n')
    (hb : Indented b) : Indented (a ++ c :: b) := by
  induction a with
  | nil => exact (indented_cons_of_ne hc).2 hb
  | cons e a ih =>
    obtain ⟨he, ha⟩ := indented_cons.1 ha
    refine indented_cons.2 ⟨fun hline d t h => ?_, ih ha⟩
    cases a with
    | nil => exact he hline d [] (by rw [← (List.cons.inj h).1]; rfl)
    | cons f a => exact he hline d (a ++ [c]) (by rw [← (List.cons.inj h).1]; rfl)

theorem Block.append (ha : Block a) (hb : Block b) : Block (a ++ b) := Indented.append ha hb

/-- **Rewriting interfaces keeps the lines of a text.** -/
theorem Indented.interfacesToTypes : ∀ {s : List Char}, Indented s → Indented (interfacesToTypes s)
  | [], h => h
  | c :: s, h => by
    cases hfound : plainInterface (c :: s) with
    | none =>
      have hcons : Declaration.interfacesToTypes (c :: s) = c :: Declaration.interfacesToTypes s :=
        Text.replaceMatches_cons_of_none hfound
      obtain ⟨hfirst, hs⟩ := indented_cons.1 h
      rw [hcons]
      refine indented_cons.2 ⟨fun hline d t ht => ?_, Indented.interfacesToTypes hs⟩
      cases s with
      | nil => cases ht
      | cons e s =>
        have hmargin := hfirst hline e s rfl
        have hei : e ≠ 'i' := by
          rintro rfl
          exact absurd hmargin (by decide)
        rw [interfacesToTypes_cons_of_ne hei] at ht
        exact (List.cons.inj ht).1 ▸ hmargin
    | some p =>
      obtain ⟨t, n⟩ := p
      obtain ⟨head, name, body, rest, hat⟩ := exists_of_plainInterface hfound
      have hbody : Indented body := h.of_infix
        ⟨"interface".toList ++ head ++ ['{'], '}' :: rest, by rw [hat.text]; simp⟩
      have hrest : Indented rest := h.of_infix
        ⟨"interface".toList ++ head ++ '{' :: body ++ ['}'], [], by rw [hat.text]; simp⟩
      have hhead : Indented head := h.of_infix
        ⟨"interface".toList, '{' :: (body ++ '}' :: rest), by rw [hat.text]⟩
      obtain ⟨front, w, rfl, hw⟩ := hat.word
      have hline : w ≠ '\n' := by
        rintro rfl
        exact absurd hw (by decide)
      have hshort : rest.length < (c :: s).length := by
        rw [hat.text]
        simp only [List.length_append, List.length_cons]
        omega
      rw [interfacesToTypes_of_some hfound, hat.drop, hat.type]
      have hblock : Indented (body ++ '}' :: Declaration.interfacesToTypes rest) :=
        hbody.append ((indented_line (by decide)).2
          ((indented_cons_of_ne (by decide)).2 (Indented.interfacesToTypes hrest)))
      have hopen : Indented (" = \x7b".toList ++
          (body ++ '}' :: Declaration.interfacesToTypes rest)) :=
        (indented_append_of_not_mem (by decide)).2 hblock
      have hname := (hhead.of_infix hat.named).append_concat hline hopen
      have hall := (indented_append_of_not_mem (a := "type ".toList) (by decide)).2 hname
      simpa using hall
termination_by s => s.length
decreasing_by
  · simp
  · exact hshort

theorem RewrittenTo.indented {y : List Char} (h : RewrittenTo s y) (hs : Indented s) :
    Indented y := by
  rcases h with rfl | ⟨body, rest, _, rfl, rfl⟩
  · exact hs.interfacesToTypes
  · have hbody : Indented body := hs.of_infix (List.prefix_append _ _).isInfix
    have hrest : Indented rest := hs.of_infix ⟨body ++ ['}'], [], by simp⟩
    exact hbody.append ((indented_line (by decide)).2
      ((indented_cons_of_ne (by decide)).2 hrest.interfacesToTypes))

/-! ## What indented lines declare -/

variable {word : String}

theorem splitOn_of_not_mem (h : '\n' ∉ s) : Text.splitOn (· == '\n') s = [s] :=
  Text.splitOn_of_forall fun c hc => by simpa using fun heq : c = '\n' => h (heq ▸ hc)

variable {types : TypeMap}

/-- An interface that a match may begin in front of is opened all the same. -/
theorem RewrittenTo.exists_opening {name y : List Char} (hname : IsName name) (hclose : '}' ∈ s)
    (h : RewrittenTo ("interface ".toList ++ name ++ " \x7b".toList ++ s) y) :
    ∃ opening y', Opens "export ".toList name opening ∧ RewrittenTo s y' ∧
      "export ".toList ++ y = opening ++ y' := by
  rcases h with rfl | ⟨body, rest, hbody, hsplit, rfl⟩
  · have hfirst : "export ".toList ++ "interface ".toList = "export interface ".toList := by
      decide
    obtain ⟨opening, y', hopens, hy, hform⟩ := Declaration.exists_opening hname hclose
    refine ⟨opening, y', hopens, hy, ?_⟩
    rw [← hform, ← interfacesToTypes_append_of_not_mem (by decide), ← hfirst]
    simp only [List.append_assoc]
  · -- The brace that closes the match is one of the block.
    have hfront : '}' ∉ "interface ".toList ++ name ++ " \x7b".toList := by
      simp [hname.not_mem not_isNameChar_close]
    obtain ⟨body', rfl⟩ := prefix_of_not_mem hfront ⟨s, hsplit⟩
    rw [List.append_assoc _ body'] at hsplit
    refine ⟨_, body' ++ '}' :: interfacesToTypes rest, Or.inl rfl, Or.inr ⟨body', rest, ?_, ?_, rfl⟩, ?_⟩
    · exact fun h => hbody (List.mem_append_right _ h)
    · exact List.append_cancel_left hsplit
    · simp only [List.append_assoc]

/-- The union of keys has few characters that are not in a key. -/
theorem not_mem_dictKeyUnion {c : Char} {keys : List String} (hc : c ∉ "string".toList ++ " | ".toList)
    (h : ∀ key ∈ keys, c ∉ Json.quote key) : c ∉ (dictKeyUnion keys).toList := by
  rw [dictKeyUnion]
  split
  next => exact fun hmem => hc (List.mem_append_left " | ".toList hmem)
  next =>
    rw [String.toList_ofList]
    intro hmem
    rcases Text.mem_join hmem with hmem | ⟨piece, hpiece, hmem⟩
    · exact hc (List.mem_append_right "string".toList hmem)
    · obtain ⟨key, hkey, rfl⟩ := List.mem_map.1 hpiece
      exact h key hkey hmem

end ClientBuild.Declaration
