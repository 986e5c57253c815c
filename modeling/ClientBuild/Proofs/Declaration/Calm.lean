import ClientBuild.Proofs.Declaration.Declared
import ClientBuild.Proofs.Text.Apart
import Mathlib.Data.List.TakeWhile

/-!
# Texts that do not read like an interface

Whether an interface begins at a place is decided by what stands in front of its brace, if only some brace
closes behind (`plainInterface_isSome_swap`).  So a text in which none begins can be looked at without what is
behind it (`Calm`), and in a text put together from calm ones none begins where a character stands between that
is in front of no brace of an interface (`Calm.append`).  What is declared for a schema is calm where its
comments are.
-/

namespace ClientBuild.Declaration

variable {a b s t u v : List Char}

/-! ## A brace and what is behind it -/

theorem isSome_plainBlock?_iff : (plainBlock? s).isSome = true ↔ ∃ t, Text.trimLeft s = '{' :: t ∧ '}' ∈ t := by
  rw [plainBlock?]
  split
  next t ht =>
    have hclose : (t.dropWhile (· != '}')).isEmpty = true ↔ '}' ∉ t := by
      by_cases hmem : '}' ∈ t
      · obtain ⟨x, y, rfl, -⟩ := List.eq_append_cons_of_mem hmem
        simp [Text.dropWhile_append_cons (p := (· != '}')) (c := '}') rfl]
      · have hdrop : t.dropWhile (· != '}') = [] := by
          rw [List.dropWhile_eq_nil_iff]
          exact fun c hc => by simpa using fun heq : c = '}' => hmem (heq ▸ hc)
        simp [hdrop, hmem]
    dsimp only
    split
    next h => simpa [ht] using hclose.1 h
    next h => simpa [ht] using fun hmem => h (hclose.2 hmem)
  next hopen => simpa using fun t ht => absurd ht (hopen t)

theorem isSome_plainBlock?_swap (hu : '}' ∈ u) (hv : '}' ∈ v) (s : List Char) :
    (plainBlock? (s ++ '{' :: u)).isSome = (plainBlock? (s ++ '{' :: v)).isSome := by
  have hblank : Text.isBlank '{' = false := by decide
  rw [Bool.eq_iff_iff, isSome_plainBlock?_iff, isSome_plainBlock?_iff, Text.trimLeft, Text.trimLeft,
    Text.dropWhile_append_cons hblank, Text.dropWhile_append_cons hblank]
  cases s.dropWhile Text.isBlank with
  | nil => simp [hu, hv]
  | cons c s => simp [hu, hv]

theorem isSome_interfaceNamed?_iff {size : Nat} : (interfaceNamed? size s).isSome = true ↔
    (∃ base rest, extendsPart? (s.drop size) = some (base, rest) ∧ (plainBlock? rest).isSome = true) ∨
      (plainBlock? (s.drop size)).isSome = true := by
  cases hextends : extendsPart? (s.drop size) with
  | none => cases hplain : plainBlock? (s.drop size) <;> simp [interfaceNamed?, hextends, hplain]
  | some p =>
    obtain ⟨base, rest⟩ := p
    cases hrest : plainBlock? rest <;> cases hplain : plainBlock? (s.drop size) <;>
      simp [interfaceNamed?, hextends, hrest, hplain]

theorem isSome_interfaceNamed?_swap (hu : '}' ∈ u) (hv : '}' ∈ v) {size : Nat} (hle : size ≤ s.length) :
    (interfaceNamed? size (s ++ '{' :: u)).isSome = (interfaceNamed? size (s ++ '{' :: v)).isSome := by
  have hblank : Text.isBlank '{' = false := by decide
  have hword : Text.isWordAscii '{' = false := by decide
  rw [Bool.eq_iff_iff, isSome_interfaceNamed?_iff, isSome_interfaceNamed?_iff,
    List.drop_append_of_le_length hle, List.drop_append_of_le_length hle, extendsPart?_append hblank hword,
    extendsPart?_append hblank hword, isSome_plainBlock?_swap hu hv]
  cases extendsPart? (s.drop size) with
  | none => simp
  | some p => simp [isSome_plainBlock?_swap hu hv]

/-- **Whether an interface begins somewhere** does not depend on what stands behind a brace, as long as a brace
closes there. -/
theorem isSome_plainInterface_swap (hu : '}' ∈ u) (hv : '}' ∈ v) (s : List Char) :
    (plainInterface (s ++ '{' :: u)).isSome = (plainInterface (s ++ '{' :: v)).isSome := by
  have hblank : Text.isBlank '{' = false := by decide
  have hword : Text.isWordAscii '{' = false := by decide
  simp only [plainInterface]
  rw [Text.after?_append_cons (by decide), Text.after?_append_cons (by decide)]
  cases Text.after? "interface".toList s with
  | none => rfl
  | some behind =>
    have hlong := (List.takeWhile_prefix Text.isWordAscii (l := behind.dropWhile Text.isBlank)).length_le
    have hshort := Nat.le_trans (Nat.sub_le _ "extends".length) hlong
    have hfirst := isSome_interfaceNamed?_swap hu hv hlong
    have hsecond := isSome_interfaceNamed?_swap hu hv hshort
    simp only [Option.map_some, bind, Option.bind_some, Text.blanksBefore, Text.trimLeft,
      Text.takeWhile_append_cons hblank, Text.dropWhile_append_cons hblank,
      Text.takeWhile_append_cons hword, Option.orElse_apply, Option.orElse_eq_or]
    split
    next => rfl
    next =>
      rw [Option.isSome_map, Option.isSome_map, Option.isSome_or, Option.isSome_or, hfirst]
      split
      next => rw [hsecond]
      next => rfl

/-! ## Calm texts -/

/-- Does no interface begin in the text, whatever stands behind it?  A brace behind it closes what the text
leaves open. -/
def Calm (s : List Char) : Prop := ∀ b, b <:+ s → plainInterface (b ++ ['}']) = none

instance (s : List Char) : Decidable (Calm s) :=
  @decidable_of_iff _ (∀ b ∈ s.tails, plainInterface (b ++ ['}']) = none)
    (by simp only [List.mem_tails, Calm]) (List.decidableBAll _ _)

theorem Calm.of_suffix (h : Calm s) (hb : b <:+ s) : Calm b := fun c hc => h c (hc.trans hb)

theorem InterfaceAt.exists_brace {head name body rest : List Char} {n : Nat}
    (h : InterfaceAt s t n head name body rest) :
    ∃ x y, s = x ++ '{' :: y ∧ (∀ c ∈ x, IsHeadChar c) ∧ '}' ∈ y := by
  have hkeyword : ∀ c ∈ "interface".toList, Text.isWordAscii c = true := List.all_eq_true.1 (by decide)
  refine ⟨_, _, h.text, fun c hc => ?_, List.mem_append_right _ List.mem_cons_self⟩
  exact (List.mem_append.1 hc).elim (fun hc => Or.inl (hkeyword c hc)) (h.headChar c)

/-- Where an interface begins, a brace stands behind characters of its head. -/
theorem exists_brace {p : List Char × Nat} (h : plainInterface s = some p) :
    ∃ x y, s = x ++ '{' :: y ∧ (∀ c ∈ x, IsHeadChar c) ∧ '}' ∈ y := by
  obtain ⟨_, _, _, _, hat⟩ := exists_of_plainInterface (t := p.1) (n := p.2) h
  exact hat.exists_brace

/-- **An interface that begins in a calm text** has its brace behind it. -/
theorem Calm.exists_brace (h : Calm s) {p : List Char × Nat} (hfound : plainInterface (s ++ t) = some p) :
    ∃ x y, t = x ++ '{' :: y ∧ ∀ c ∈ x, IsHeadChar c := by
  obtain ⟨x, y, hsplit, hx, hy⟩ := Declaration.exists_brace hfound
  rcases Text.append_eq_append_cons hsplit with ⟨w, rfl, rfl⟩ | ⟨w, rfl, rfl⟩
  · have hswap := isSome_plainInterface_swap hy (v := w ++ ['}']) (by simp) x
    have hnone := h _ List.suffix_rfl
    rw [List.append_assoc, List.cons_append] at hfound hnone
    rw [hfound, hnone] at hswap
    cases hswap
  · exact ⟨w, y, rfl, fun c hc => hx c (List.mem_append_right s hc)⟩

theorem calm_of_not_mem (h : '{' ∉ s) : Calm s := by
  intro b hb
  rw [Option.eq_none_iff_forall_ne_some]
  intro p hp
  obtain ⟨x, y, hsplit, -⟩ := Declaration.exists_brace hp
  have hopen : '{' ∈ b ++ ['}'] := by simp [hsplit]
  rcases List.mem_append.1 hopen with hmem | hmem
  · exact h (hb.subset hmem)
  · exact absurd hmem (by decide)

/-- Without braces of its own, a text can stand behind a calm one. -/
theorem Calm.append_of_not_mem (ha : Calm a) (hb : '{' ∉ b) : Calm (a ++ b) := by
  intro c hsuffix
  obtain ⟨r, hr⟩ := hsuffix
  rcases List.append_eq_append_iff.1 hr with ⟨z, rfl, rfl⟩ | ⟨z, rfl, hz⟩
  · rw [Option.eq_none_iff_forall_ne_some, List.append_assoc]
    intro p hp
    obtain ⟨x, y, hsplit, -⟩ := (ha.of_suffix (List.suffix_append r z)).exists_brace hp
    have hopen : '{' ∈ b ++ ['}'] := by simp [hsplit]
    exact (List.mem_append.1 hopen).elim hb (by decide)
  · exact calm_of_not_mem hb c ⟨z, hz.symm⟩

theorem calm_cons {c : Char} (hc : c ≠ 'i') : Calm (c :: s) ↔ Calm s := by
  refine ⟨fun h => h.of_suffix (List.suffix_cons c s), fun h b hb => ?_⟩
  rcases List.suffix_cons_iff.1 hb with rfl | hb
  · exact plainInterface_cons_of_ne hc
  · exact h b hb

/-- No interface begins in a calm text in front of one that begins, but for characters of a head, with a
character of another kind. -/
theorem Calm.append {x y : List Char} {c : Char} (ha : Calm a) (hb : Calm (x ++ c :: y)) (hx : '{' ∉ x)
    (hhead : ¬ IsHeadChar c) (hopen : c ≠ '{') : Calm (a ++ (x ++ c :: y)) := by
  intro b hsuffix
  obtain ⟨r, hr⟩ := hsuffix
  rcases List.append_eq_append_iff.1 hr with ⟨z, rfl, rfl⟩ | ⟨z, rfl, hz⟩
  · rw [Option.eq_none_iff_forall_ne_some, List.append_assoc]
    intro p hp
    obtain ⟨w, v, hsplit, hw⟩ := (ha.of_suffix (List.suffix_append r z)).exists_brace hp
    rw [List.append_assoc] at hsplit
    obtain ⟨u, rfl, hu⟩ := Text.exists_of_append_eq_right hsplit hx
    cases u with
    | nil => exact hopen (List.cons.inj hu).1
    | cons d u =>
      rw [(List.cons.inj hu).1] at hhead
      exact hhead (hw d (by simp))
  · exact hb b ⟨z, hz.symm⟩

theorem Calm.append_cons {c : Char} (ha : Calm a) (hb : Calm b) (hc : ¬ IsHeadChar c) (hopen : c ≠ '{') :
    Calm (a ++ c :: b) := by
  refine ha.append (x := []) ((calm_cons ?_).2 hb) List.not_mem_nil hc hopen
  rintro rfl
  exact hc (by decide)

theorem calm_cons_cons {c d : Char} (hd : d ≠ 'n') : Calm (c :: d :: s) ↔ Calm (d :: s) := by
  refine ⟨fun h => h.of_suffix (List.suffix_cons c _), fun h b hb => ?_⟩
  rcases List.suffix_cons_iff.1 hb with rfl | hb
  · exact plainInterface_cons_cons_of_ne hd _
  · exact h b hb

theorem calm_nil : Calm [] := calm_of_not_mem List.not_mem_nil

/-- A calm text stays in front of a text whose braces open behind characters of no head. -/
theorem Calm.interfacesToTypes_append (h : Calm a) (ht : ∀ x y, t = x ++ '{' :: y → ∃ c ∈ x, ¬ IsHeadChar c) :
    interfacesToTypes (a ++ t) = a ++ interfacesToTypes t := by
  refine Text.replaceMatches_append_of_none t fun x c y hsplit => ?_
  rw [Option.eq_none_iff_forall_ne_some]
  intro p hp
  obtain ⟨u, v, hbrace, hu⟩ := (h.of_suffix ⟨x, hsplit.symm⟩).exists_brace hp
  obtain ⟨d, hd, hhead⟩ := ht u v hbrace
  exact hhead (hu d hd)

/-- A calm text stays when interfaces become types. -/
theorem Calm.interfacesToTypes (h : Calm s) : interfacesToTypes (s ++ ['}']) = s ++ ['}'] := by
  have hclose : Declaration.interfacesToTypes ['}'] = ['}'] := interfacesToTypes_of_not_mem (by decide)
  rw [h.interfacesToTypes_append, hclose]
  intro x y hsplit
  have hopen : '{' ∈ ['}'] := hsplit ▸ List.mem_append_right x List.mem_cons_self
  exact absurd hopen (by decide)

/-! ## What is declared for a schema -/

/-- May the text stand in front of any calm text? -/
def KeepsCalm (s : List Char) : Prop := ∀ rest, Calm rest → Calm (s ++ rest)

theorem KeepsCalm.calm (h : KeepsCalm s) : Calm s := by
  simpa using h [] calm_nil

theorem keepsCalm_join {texts : List String} (h : ∀ s ∈ texts, KeepsCalm s.toList) :
    KeepsCalm (String.join texts).toList := by
  induction texts with
  | nil => exact fun _ hrest => hrest
  | cons s texts ih =>
    intro rest hrest
    obtain ⟨hs, htexts⟩ := List.forall_mem_cons.1 h
    rw [String.join_cons, String.toList_append, List.append_assoc]
    exact hs _ (ih htexts rest hrest)

theorem keepsCalm_fieldText {types : TypeMap} {c : Column} (hcomment : Calm (columnComment c).toList)
    (hname : '{' ∉ c.propertyName.toList) (htype : '{' ∉ (types.typeOf c.propertyName c.type).toList) :
    KeepsCalm (fieldText types c).toList := by
  intro rest hrest
  have hstop : Calm ((types.typeOf c.propertyName c.type).toList ++ ';' :: '\n' :: rest) :=
    (calm_of_not_mem htype).append_cons ((calm_cons (by decide)).2 hrest) (by decide) (by decide)
  have hfield : Calm (c.propertyName.toList ++ '?' :: ':' :: ' ' ::
      ((types.typeOf c.propertyName c.type).toList ++ ';' :: '\n' :: rest)) :=
    (calm_of_not_mem hname).append_cons (by simpa (disch := decide) [calm_cons] using hstop) (by decide)
      (by decide)
  have hbehind : Calm ("\n\t ".toList ++ '*' :: '/' :: '\n' :: '\t' :: (c.propertyName.toList ++ '?' :: ':' :: ' ' ::
      ((types.typeOf c.propertyName c.type).toList ++ ';' :: '\n' :: rest))) := by
    simpa (disch := decide) [calm_cons] using hfield
  have hall := hcomment.append hbehind (by decide) (by decide) (by decide)
  simp only [fieldText, String.join_cons, String.join_nil, String.toList_append]
  simpa (disch := decide) [calm_cons] using hall

theorem keepsCalm_parameterComment {description : Option String}
    (h : ∀ text, text ∈ (description.filter hasText).map docText → Calm text.toList) :
    KeepsCalm (parameterComment description).toList := by
  intro rest hrest
  rw [parameterComment]
  split
  next text htext =>
    split
    next => simpa using hrest
    next =>
      have hbehind : Calm ([' '] ++ '*' :: '/' :: '\n' :: rest) := by
        simpa (disch := decide) [calm_cons] using hrest
      have hall := (h text htext).append hbehind (by decide) (by decide) (by decide)
      simp only [String.join_cons, String.join_nil, String.toList_append]
      simpa (disch := decide) [calm_cons] using hall
  next => simpa using hrest

/-- The type of a parameter as it is declared. -/
def parameterType (p : Parameter) : String := (p.type.filter fun t => !t.isEmpty).getD "string"

theorem keepsCalm_parameterText {p : Parameter}
    (hcomment : ∀ text, text ∈ (p.description.filter hasText).map docText → Calm text.toList)
    (hname : '{' ∉ p.name.toList) (htype : '{' ∉ (parameterType p).toList) :
    KeepsCalm (parameterText p).toList := by
  intro rest hrest
  have hoptional : '{' ∉ (if !p.required then "?" else "").toList := by split <;> decide
  have hstop : Calm ((parameterType p).toList ++ ';' :: '\n' :: rest) :=
    (calm_of_not_mem htype).append_cons ((calm_cons (by decide)).2 hrest) (by decide) (by decide)
  have hall : Calm (p.name.toList ++ (if !p.required then "?" else "").toList ++ ':' :: ' ' ::
      ((parameterType p).toList ++ ';' :: '\n' :: rest)) := by
    refine (calm_of_not_mem fun h => ?_).append_cons ((calm_cons (by decide)).2 hstop) (by decide) (by decide)
    exact (List.mem_append.1 h).elim hname hoptional
  simp only [parameterText, String.join_cons, String.join_nil, String.toList_append, List.append_assoc]
  refine keepsCalm_parameterComment hcomment _ ?_
  simpa (disch := decide) [calm_cons, parameterType] using hall

theorem keepsCalm_parametersText {ps : List Parameter}
    (h : ∀ p ∈ ps, KeepsCalm (parameterText p).toList) : KeepsCalm (parametersText ps).toList := by
  intro rest hrest
  rw [parametersText]
  split
  next => simpa (disch := decide) [calm_cons] using hrest
  next =>
    have hclose : Calm ('\t' :: '}' :: rest) := by simpa (disch := decide) [calm_cons] using hrest
    have hall := keepsCalm_join (List.forall_mem_map.2 h) _ hclose
    simpa (disch := decide) [String.join_cons, calm_cons] using hall

/-- The comment on a method. -/
def methodComment (m : Method) : String :=
  docText ((m.summary.filter hasText).getD (ofChars (methodName m)))

theorem keepsCalm_signatureText {controller name : String} {e : Entity} {m : Method}
    (hcomment : Calm (docText ((m.summary.filter hasText).getD name)).toList) (hname : IsName name.toList)
    (h : ∀ p ∈ m.parameters.filter fun p => isLawful p.name.toList, KeepsCalm (parameterText p).toList) :
    KeepsCalm (signatureText .uniappX controller e m name).toList := by
  intro rest hrest
  have hanswer : Calm ("): Promise<any>;\n".toList ++ rest) := by
    simpa (disch := decide) [calm_cons, calm_cons_cons] using hrest
  have htypes := keepsCalm_parametersText h _ hanswer
  have hmember := (calm_of_not_mem (hname.not_mem not_isNameChar_open)).append_cons (c := '(')
    (b := "data?: ".toList ++ ((parametersText (m.parameters.filter fun p => isLawful p.name.toList)).toList ++
      ("): Promise<any>;\n".toList ++ rest)))
    (by simpa (disch := decide) [calm_cons] using htypes) (by decide) (by decide)
  have hall := hcomment.append (x := "\n\t ".toList) (c := '*')
    (y := "/\n\t".toList ++ (name.toList ++ '(' :: ("data?: ".toList ++
      ((parametersText (m.parameters.filter fun p => isLawful p.name.toList)).toList ++
        ("): Promise<any>;\n".toList ++ rest)))))
    (by simpa (disch := decide) [calm_cons] using hmember) (by decide) (by decide) (by decide)
  simp only [signatureText, answerType, Target.isCrossPlatform, String.join_cons, String.join_nil,
    String.toList_append]
  simpa (disch := decide) [calm_cons] using hall

end ClientBuild.Declaration
