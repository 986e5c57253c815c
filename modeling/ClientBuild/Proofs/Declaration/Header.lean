import ClientBuild.Proofs.Declaration.Chain
import ClientBuild.Proofs.Declaration.Whole

/-!
# The header of the service type

Flattening takes the first header of the service type for its header.  Names have no blanks and a
header has four, so only a string that a backend gives to the declarations in front can have it in it
(`keepsClear_leadTexts`); where none has, the service type is found, and as it is balanced it is
lifted (`exists_synthesize`).  What counts are the strings as they stand in the declarations: a comment
is put on one line with single blanks and can become the header by that (`header_of_comment`).
-/

namespace ClientBuild.Declaration

/-! ## Texts without the header -/

/-- Is the header of the service type nowhere in the text? -/
def Clear (s : List Char) : Prop := ¬ serviceHeader <:+: s

theorem clear_of_contains {s : List Char} (h : Text.contains serviceHeader s = false) : Clear s :=
  Text.contains_eq_false_iff.1 h

/-- The header has four blanks. -/
theorem clear_of_count {s : List Char} (h : s.count ' ' < 4) : Clear s := by
  intro hs
  have := hs.sublist.count_le ' '
  have hheader : serviceHeader.count ' ' = 4 := by decide
  omega

theorem clear_append_cons {a b : List Char} {c : Char} (hc : c ∉ serviceHeader) :
    Clear (a ++ c :: b) ↔ Clear a ∧ Clear b := by
  rw [Clear, Text.infix_append_cons_iff hc, not_or]
  rfl

theorem clear_cons {c : Char} {s : List Char} (hc : c ≠ 'e') : Clear (c :: s) ↔ Clear s := by
  rw [Clear, List.infix_cons_iff, not_or]
  refine and_iff_right fun h => hc ?_
  obtain ⟨t, ht⟩ := h
  exact (List.cons.inj ht).1.symm

theorem clear_cons_cons {c d : Char} {s : List Char} (hd : d ≠ 'x') :
    Clear (c :: d :: s) ↔ Clear (d :: s) := by
  rw [Clear, List.infix_cons_iff, not_or]
  refine and_iff_right fun h => hd ?_
  obtain ⟨t, ht⟩ := h
  exact (List.cons.inj (List.cons.inj ht).2).1.symm

theorem clear_concat {c : Char} {s : List Char} (hc : c ≠ '{') : Clear (s ++ [c]) ↔ Clear s := by
  have hheader : serviceHeader = "export type Service = ".toList ++ ['{'] := rfl
  rw [Clear, List.infix_concat_iff, not_or]
  refine and_iff_right_iff_imp.2 fun _ h => hc ?_
  obtain ⟨t, ht⟩ := h
  rw [hheader, ← List.append_assoc] at ht
  exact (List.cons.inj (List.append_inj' ht rfl).2).1.symm

theorem clear_append_cons_cons {a b : List Char} {c d : Char} (hc : c ≠ '{')
    (hd : d ∉ serviceHeader) : Clear (a ++ c :: d :: b) ↔ Clear a ∧ Clear b := by
  rw [← clear_concat (s := a) hc, ← clear_append_cons hd, List.append_assoc]
  rfl

theorem IsName.clear {s : List Char} (h : IsName s) : Clear s := by
  refine clear_of_count ?_
  rw [List.count_eq_zero.2 (h.not_mem (not_isNameChar_of_noise (by decide)))]
  decide

theorem clear_nil : Clear [] := clear_of_count (by decide)

/-- May the text stand in front of any text without the header? -/
def KeepsClear (s : List Char) : Prop := ∀ rest, Clear rest → Clear (s ++ rest)

theorem KeepsClear.clear {s : List Char} (h : KeepsClear s) : Clear s := by
  simpa using h [] clear_nil

theorem KeepsClear.append {s t : List Char} (hs : KeepsClear s) (ht : KeepsClear t) :
    KeepsClear (s ++ t) := by
  intro rest hrest
  rw [List.append_assoc]
  exact hs _ (ht rest hrest)

theorem keepsClear_join {texts : List String} (h : ∀ s ∈ texts, KeepsClear s.toList) :
    KeepsClear (String.join texts).toList := by
  induction texts with
  | nil => exact fun rest hrest => hrest
  | cons s texts ih =>
    obtain ⟨hs, htexts⟩ := List.forall_mem_cons.1 h
    rw [String.join_cons, String.toList_append]
    exact hs.append (ih htexts)

/-- The first line of an interface has three blanks. -/
theorem keepsClear_opening {name : List Char} (h : IsName name) :
    KeepsClear ("export interface ".toList ++ name ++ " \x7b\n".toList) := by
  intro rest hrest
  have hname : name.count ' ' = 0 :=
    List.count_eq_zero.2 (h.not_mem (not_isNameChar_of_noise (by decide)))
  have hline : Clear ("export interface ".toList ++ name ++ " \x7b".toList) := by
    refine clear_of_count ?_
    rw [List.count_append, List.count_append, hname]
    decide
  have hsplit : "export interface ".toList ++ name ++ " \x7b\n".toList ++ rest =
      ("export interface ".toList ++ name ++ " \x7b".toList) ++ '\n' :: rest := by simp
  rw [hsplit, clear_append_cons (by decide)]
  exact ⟨hline, hrest⟩

theorem serviceHeader_eq : serviceHeader = "export type Service = ".toList ++ ['{'] := rfl

/-! ## What a backend gives to the text before the service type -/

/-- The strings in a field. -/
def columnStrings (types : TypeMap) (c : Column) : List String :=
  [columnComment c, c.propertyName, types.typeOf c.propertyName c.type]

/-- The strings in a parameter. -/
def parameterStrings (p : Parameter) : List String :=
  ((p.description.filter hasText).map docText).toList ++
    [p.name, (p.type.filter fun t => !t.isEmpty).getD "string"]

/-- The strings in the signature of a method. -/
def methodStrings (m : Method) : List String :=
  docText ((m.summary.filter hasText).getD (ofChars (methodName m))) ::
    (m.parameters.filter fun p => isLawful p.name.toList).flatMap parameterStrings

/-- The strings of a backend that stand before the service type, each as it stands there. -/
def renderedStrings (types : TypeMap) (es : List Entity) (tree : RouteTree)
    (dictKeys : Option (List String)) : List String :=
  ((declaredEntities [] es).1.flatMap fun e => e.mergedColumns.flatMap (columnStrings types)) ++
    ((walkNodes es [] tree).controllers.flatMap fun c =>
      (declaredMethods c.entity).flatMap methodStrings) ++
    (dictKeys.getD []).map fun key => String.ofList (Json.quote key)

section texts

variable {types : TypeMap}

theorem keepsClear_fieldText {c : Column} (h : ∀ s ∈ columnStrings types c, Clear s.toList) :
    KeepsClear (fieldText types c).toList := by
  intro rest hrest
  simp only [columnStrings, List.forall_mem_cons] at h
  obtain ⟨hcomment, hname, htype, -⟩ := h
  simp only [fieldText, String.join_cons, String.join_nil, String.toList_append]
  simp (disch := decide) [clear_cons, clear_append_cons, hcomment, hname, htype, hrest]

theorem keepsClear_entityText {e : Entity} (hname : hasLawfulName e = true)
    (h : ∀ s ∈ e.mergedColumns.flatMap (columnStrings types), Clear s.toList) :
    KeepsClear (entityText .uniappX types e ++ "\n").toList := by
  have hfields : KeepsClear (String.join (e.mergedColumns.map (fieldText types))).toList := by
    refine keepsClear_join (List.forall_mem_map.2 fun c hc => ?_)
    exact keepsClear_fieldText fun s hs => h s (List.mem_flatMap.2 ⟨c, hc, hs⟩)
  have hclose : KeepsClear "\x7d\n\n".toList := by
    intro rest hrest
    simpa (disch := decide) [clear_cons] using hrest
  have htext : (entityText .uniappX types e ++ "\n").toList =
      ("export interface ".toList ++ (entityName e).toList ++ " \x7b\n".toList) ++
        (String.join (e.mergedColumns.map (fieldText types))).toList ++ "\x7d\n\n".toList := by
    simp [entityText, String.join_cons, exportWord, Target.isCrossPlatform]
  rw [htext]
  exact ((keepsClear_opening (isName_entityName hname)).append hfields).append hclose

theorem keepsClear_parameterComment {description : Option String}
    (h : ∀ text, text ∈ (description.filter hasText).map docText → Clear text.toList) :
    KeepsClear (parameterComment description).toList := by
  intro rest hrest
  rw [parameterComment]
  split
  next text htext =>
    split
    next => simpa using hrest
    next =>
      have hclear := h text htext
      simp only [String.join_cons, String.join_nil, String.toList_append]
      simp (disch := decide) [clear_cons, clear_append_cons_cons, hclear, hrest]
  next => simpa using hrest

theorem keepsClear_parameterText {p : Parameter} (h : ∀ s ∈ parameterStrings p, Clear s.toList) :
    KeepsClear (parameterText p).toList := by
  intro rest hrest
  simp only [parameterStrings, List.mem_append, or_imp, forall_and, List.forall_mem_cons,
    Option.mem_toList] at h
  obtain ⟨hdescription, hname, htype, -⟩ := h
  simp only [parameterText, String.join_cons, String.join_nil, String.toList_append,
    List.append_assoc]
  refine keepsClear_parameterComment hdescription _ ?_
  cases p.required <;>
    simp (disch := decide) [clear_cons, clear_append_cons, hname, htype, hrest]

theorem keepsClear_parametersText {ps : List Parameter}
    (h : ∀ s ∈ ps.flatMap parameterStrings, Clear s.toList) :
    KeepsClear (parametersText ps).toList := by
  intro rest hrest
  rw [parametersText]
  split
  next => simpa (disch := decide) [clear_cons] using hrest
  next =>
    have hlist : KeepsClear (String.join (ps.map parameterText)).toList := by
      refine keepsClear_join (List.forall_mem_map.2 fun p hp => ?_)
      exact keepsClear_parameterText fun s hs => h s (List.mem_flatMap.2 ⟨p, hp, hs⟩)
    have hclose : Clear ('\t' :: '}' :: rest) := by simpa (disch := decide) [clear_cons] using hrest
    have hall := hlist _ hclose
    simpa (disch := decide) [String.join_cons, clear_cons] using hall

theorem keepsClear_signatureText {name : String} {e : Entity} {m : Method}
    (hm : m ∈ declaredMethods e) (h : ∀ s ∈ methodStrings m, Clear s.toList) :
    KeepsClear (signatureText .uniappX name e m (ofChars (methodName m))).toList := by
  intro rest hrest
  obtain ⟨hsummary, hparameters⟩ := List.forall_mem_cons.1 h
  have hmethod : Clear (methodName m) := (isName_methodName hm).clear
  have htypes := (keepsClear_parametersText hparameters).clear
  simp only [ofChars] at hsummary
  simp only [signatureText, answerType, Target.isCrossPlatform, String.join_cons, String.join_nil,
    String.toList_append, ofChars, String.toList_ofList]
  simp (disch := decide) [clear_cons, clear_cons_cons, clear_append_cons, hsummary, hmethod, htypes,
    hrest]

theorem keepsClear_controllerText {name : String} {e : Entity} (hname : IsName name.toList)
    (h : ∀ s ∈ (declaredMethods e).flatMap methodStrings, Clear s.toList) :
    KeepsClear (controllerText .uniappX name e ++ "\n").toList := by
  have hmethods : KeepsClear (String.join ((namedMethods e).map fun x =>
      signatureText .uniappX name e x.2 x.1)).toList := by
    refine keepsClear_join (List.forall_mem_map.2 fun x hx => ?_)
    obtain ⟨m, hm, rfl⟩ := List.mem_map.1 hx
    exact keepsClear_signatureText hm fun s hs => h s (List.mem_flatMap.2 ⟨m, hm, hs⟩)
  have hclose : KeepsClear "\x7d\n\n".toList := by
    intro rest hrest
    simpa (disch := decide) [clear_cons] using hrest
  have htext : (controllerText .uniappX name e ++ "\n").toList =
      ("export interface ".toList ++ name.toList ++ " \x7b\n".toList) ++
        (String.join ((namedMethods e).map fun x => signatureText .uniappX name e x.2 x.1)).toList ++
        "\x7d\n\n".toList := by
    simp [controllerText, String.join_cons, exportWord, Target.isCrossPlatform]
  rw [htext]
  exact ((keepsClear_opening hname).append hmethods).append hclose

theorem keepsClear_quote {key : String} (h : Clear (Json.quote key)) :
    KeepsClear (Json.quote key) := by
  intro rest hrest
  have hsplit : Json.quote key ++ rest = '"' :: (Json.escape key.toList ++ '"' :: rest) := by
    simp [Json.quote]
  have hbody : Clear ('"' :: (Json.escape key.toList ++ '"' :: [])) := h
  rw [clear_cons (by decide), clear_append_cons (by decide)] at hbody
  rw [hsplit, clear_cons (by decide), clear_append_cons (by decide)]
  exact ⟨hbody.1, hrest⟩

theorem keepsClear_bar : KeepsClear " | ".toList := by
  intro rest hrest
  simpa (disch := decide) [clear_cons] using hrest

theorem keepsClear_join_bar {keys : List String} (h : ∀ key ∈ keys, Clear (Json.quote key)) :
    KeepsClear (Text.join " | ".toList (keys.map Json.quote)) := by
  induction keys with
  | nil => exact fun rest hrest => hrest
  | cons key keys ih =>
    obtain ⟨hkey, hkeys⟩ := List.forall_mem_cons.1 h
    cases keys with
    | nil => exact keepsClear_quote hkey
    | cons k keys => exact ((keepsClear_quote hkey).append keepsClear_bar).append (ih hkeys)

theorem clear_dictKeyUnion {keys : List String} (h : ∀ key ∈ keys, Clear (Json.quote key)) :
    Clear (dictKeyUnion keys).toList := by
  rw [dictKeyUnion]
  split
  next => exact clear_of_count (by decide)
  next =>
    rw [String.toList_ofList]
    exact (keepsClear_join_bar h).clear

theorem keepsClear_dictText {dictKeys : Option (List String)}
    (h : ∀ key ∈ dictKeys.getD [], Clear (Json.quote key)) :
    KeepsClear (dictText .uniappX dictKeys).toList := by
  cases dictKeys with
  | none => exact fun rest hrest => hrest
  | some keys =>
    intro rest hrest
    have hsplit : (dictText .uniappX (some keys)).toList ++ rest =
        "export type ".toList ++ 'D' ::
          ("ictKey = ".toList ++ ((dictKeyUnion keys).toList ++ ';' :: '\n' :: '\n' :: rest)) := by
      simp [dictText, String.join_cons, exportWord, Target.isCrossPlatform]
    have hkeys : Clear (dictKeyUnion keys).toList := clear_dictKeyUnion h
    rw [hsplit, clear_append_cons (by decide)]
    refine ⟨clear_of_count (by decide), ?_⟩
    simp (disch := decide) [clear_cons, clear_cons_cons, clear_append_cons, hkeys, hrest]

theorem keepsClear_helperText {dictKeys : Option (List String)}
    (h : ∀ key ∈ dictKeys.getD [], Clear (Json.quote key)) :
    KeepsClear (helperText .uniappX dictKeys).toList := by
  have hjson : KeepsClear ("\nexport type json = any;\n\n".toList) := by
    intro rest hrest
    have hsplit : "\nexport type json = any;\n\n".toList ++ rest =
        "\nexport type ".toList ++ 'j' :: ("son = any;\n\n".toList ++ rest) := by simp
    rw [hsplit, clear_append_cons (by decide)]
    refine ⟨clear_of_count (by decide), ?_⟩
    simpa (disch := decide) [clear_cons] using hrest
  have hcounts : KeepsClear "\tsize: number;\n\tpage: number;\n\ttotal: number;\n\x7d\n\n".toList := by
    intro rest hrest
    simpa (disch := decide) [clear_cons, clear_cons_cons] using hrest
  have hname : IsName "PagePagination".toList := by decide
  have htext : (helperText .uniappX dictKeys).toList =
      "\nexport type json = any;\n\n".toList ++ (dictText .uniappX dictKeys).toList ++
      ("export interface ".toList ++ "PagePagination".toList ++ " \x7b\n".toList ++
        "\tsize: number;\n\tpage: number;\n\ttotal: number;\n\x7d\n\n".toList) := by
    simp [helperText, indexText, String.join_cons, exportWord, Target.isCrossPlatform]
  rw [htext]
  exact (hjson.append (keepsClear_dictText h)).append ((keepsClear_opening hname).append hcounts)

theorem keepsClear_genericText : KeepsClear (genericText .uniappX).toList := by
  have hname : IsName "PageResponse<T>".toList := by decide
  have hmembers : KeepsClear
      "\tpagination: PagePagination;\n\tlist: T[];\n\x7d\n\n".toList := by
    intro rest hrest
    simpa (disch := decide) [clear_cons, clear_cons_cons] using hrest
  have htext : (genericText .uniappX).toList =
      ("export interface ".toList ++ "PageResponse<T>".toList ++ " \x7b\n".toList) ++
        "\tpagination: PagePagination;\n\tlist: T[];\n\x7d\n\n".toList := by
    simp [genericText, indexText, String.join_cons, exportWord, Target.isCrossPlatform]
  rw [htext]
  exact (keepsClear_opening hname).append hmembers

theorem keepsClear_pageText {p : PageType} (hname : IsName p.name.toList)
    (hentity : IsName p.entity.toList) : KeepsClear (pageText .uniappX p).toList := by
  have hmembers : KeepsClear ("\tpagination: PagePagination;\n\tlist: ".toList ++ p.entity.toList ++
      "[];\n\x7d\n\n".toList) := by
    intro rest hrest
    have hclear := hentity.clear
    simp (disch := decide) [clear_cons, clear_cons_cons, clear_append_cons, hclear, hrest]
  have htext : (pageText .uniappX p).toList =
      ("export interface ".toList ++ p.name.toList ++ " \x7b\n".toList) ++
        ("\tpagination: PagePagination;\n\tlist: ".toList ++ p.entity.toList ++
          "[];\n\x7d\n\n".toList) := by
    simp [pageText, String.join_cons, exportWord, Target.isCrossPlatform]
  rw [htext]
  exact (keepsClear_opening hname).append hmembers

end texts

/-! ## The declarations in front of the service type -/

theorem exists_of_mem_pagesOf {cs : List Controller} {p : PageType} (h : p ∈ pagesOf cs) :
    ∃ c ∈ cs, p = ⟨c.name ++ "PageResponse", entityType c.entity⟩ := by
  obtain ⟨c, hc, hp⟩ := List.mem_flatMap.1 (Text.mem_distinct.1 h)
  obtain ⟨m, _, hm⟩ := List.mem_filterMap.1 hp
  split at hm
  · exact ⟨c, hc, (Option.some.inj hm).symm⟩
  · cases hm

theorem isName_pageName {name : String} (h : IsName name.toList) :
    IsName (name ++ "PageResponse").toList := by
  rw [String.toList_append]
  exact h.append fun c hc => isNameChar_of_word (List.all_eq_true.1 (by decide) c hc)

/-- What walking a tree finds has names. -/
theorem isName_controller {es : List Entity} {tree : RouteTree} {c : Controller}
    (h : c ∈ (walkNodes es [] tree).controllers) : IsName c.name.toList := by
  rw [(walkNodes_eq es [] tree).2] at h
  exact (namedParts_root es tree).controllersOf c h

variable {types : TypeMap} {es : List Entity} {tree : RouteTree} {dictKeys : Option (List String)}

/-- Is the header of the service type in no string that a backend gives to the text before it? -/
def HeaderFree (types : TypeMap) (es : List Entity) (tree : RouteTree)
    (dictKeys : Option (List String)) : Prop :=
  ∀ s ∈ renderedStrings types es tree dictKeys, Text.contains serviceHeader s.toList = false

theorem keepsClear_leadTexts (h : HeaderFree types es tree dictKeys) :
    KeepsClear (String.join (leadTexts .uniappX types es tree dictKeys)).toList := by
  simp only [HeaderFree, renderedStrings, List.mem_append, or_imp, forall_and,
    List.forall_mem_flatMap, List.forall_mem_map, String.toList_ofList,
    Text.contains_eq_false_iff] at h
  obtain ⟨⟨hentities, hcontrollers⟩, hkeys⟩ := h
  refine keepsClear_join fun text htext => ?_
  simp only [leadTexts, entityPieces, controllerPieces, List.mem_append, List.mem_cons,
    List.not_mem_nil, or_false] at htext
  rcases htext with ((htext | rfl | rfl) | htext) | htext
  · obtain ⟨e, he, rfl⟩ := List.mem_map.1 htext
    refine keepsClear_entityText (hasLawfulName_of_mem_declaredEntities he).1 ?_
    exact List.forall_mem_flatMap.2 (hentities e he)
  · exact keepsClear_helperText hkeys
  · exact keepsClear_genericText
  · obtain ⟨p, hp, rfl⟩ := List.mem_map.1 htext
    obtain ⟨c, hc, rfl⟩ := exists_of_mem_pagesOf hp
    exact keepsClear_pageText (isName_pageName (isName_controller hc)) (isName_entityType c.entity)
  · obtain ⟨c, hc, rfl⟩ := List.mem_map.1 htext
    exact keepsClear_controllerText (isName_controller hc)
      (List.forall_mem_flatMap.2 (hcontrollers c hc))

/-! ## Flattening succeeds -/

/-- The lifted interfaces. -/
def liftedText (shapes : Shapes) : List Char :=
  shapes.first.flatMap fun (key, shape) => interfaceText key shape

/-- The declarations with the objects of the service type lifted. -/
def flatText (lead : List Char) (shapes : Shapes) (level : List Char) : List Char :=
  lead ++ ['\n'] ++ liftedText shapes ++ "\nexport type Service = \x7b ".toList ++ level ++ " \x7d".toList

theorem toList_serviceText (chain : String) :
    (serviceText .uniappX chain).toList =
      serviceHeader ++ ('\n' :: chain.toList ++ "\n\x7d\n".toList) := by
  have hword : (exportWord .uniappX).toList ++ "type Service = \x7b\n".toList =
      serviceHeader ++ ['\n'] := rfl
  simp only [serviceText, String.join_cons, String.join_nil, String.toList_append, Target.isCrossPlatform,
    Bool.not_true, Bool.false_eq_true, if_false]
  rw [← List.append_assoc, hword]
  simp

theorem toList_plainText : (plainText .uniappX types es tree dictKeys).toList =
      (String.join (leadTexts .uniappX types es tree dictKeys)).toList ++ '\n' :: serviceHeader ++
        ('\n' :: (chains (parts es [] tree)).toList ++ "\n\x7d\n".toList) := by
  have hrequest : (requestText .uniappX).toList = [] := rfl
  rw [plainText, String.toList_append, String.toList_append, String.toList_append, hrequest,
    toList_serviceText, (walkNodes_eq es [] tree).1, List.append_nil, List.append_assoc,
    List.append_assoc]
  rfl

/-- The cross-platform declarations are the flattened ones with types for interfaces. -/
theorem synthesize_eq_flatten : synthesize .uniappX types es tree dictKeys =
    (flatten (plainText .uniappX types es tree dictKeys).toList).map fun flat =>
      ⟨ofChars (interfacesToTypes flat.text),
        (declaredEntities [] es).2 ++ (walkNodes es [] tree).collisions ++ flat.collisions⟩ := by
  rw [synthesize, synthesizePlain_eq]
  cases h : flatten (plainText .uniappX types es tree dictKeys).toList with
  | error e => simp [bind, Except.bind, Target.isCrossPlatform, h, Except.map]
  | ok flat => simp [bind, Except.bind, pure, Except.pure, Target.isCrossPlatform, h, Except.map]

/-- **Where no string has the header in it, the service type is found and lifted.** -/
theorem exists_synthesize (h : HeaderFree types es tree dictKeys) :
    ∃ level shapes, currentLevel (Text.trim (linesOf (parts es [] tree))) = .ok level ∧
      collect (Text.trim (linesOf (parts es [] tree))) {} = .ok shapes ∧
      synthesize .uniappX types es tree dictKeys = .ok
        ⟨ofChars (interfacesToTypes (flatText
            (String.join (leadTexts .uniappX types es tree dictKeys)).toList shapes level)),
          (declaredEntities [] es).2 ++ (walkNodes es [] tree).collisions ++ shapes.collisions⟩ := by
  have hnamed := namedParts_root es tree
  have hservice : unbroken ('\n' :: (chains (parts es [] tree)).toList ++ "\n\x7d\n".toList) =
      linesOf (parts es [] tree) ++ '}' :: [] := by
    rw [← hnamed.unbroken_chains]
    simp [unbroken]
  obtain ⟨level, shapes, hlevel, hshapes, hflat⟩ :=
    flatten_eq_ok (keepsClear_leadTexts h).clear (balanced_linesOf hnamed) hservice
  refine ⟨level, shapes, hlevel, hshapes, ?_⟩
  rw [synthesize_eq_flatten, toList_plainText, hflat]
  rfl

/-- **Brace errors are not the fault of a backend.**  For any entities, tree and dictionary, the
cross-platform declarations are made, unless a string has the header of the service type in it as it
stands in front of the service type. -/
theorem synthesize_succeeds (types : TypeMap) (es : List Entity) (tree : RouteTree)
    (dictKeys : Option (List String)) (h : HeaderFree types es tree dictKeys) :
    ∃ out, synthesize .uniappX types es tree dictKeys = .ok out := by
  obtain ⟨level, shapes, _, _, hok⟩ := exists_synthesize h
  exact ⟨_, hok⟩

/-- An entity at the root with a comment on its one column. -/
def agedEntity (comment : String) : Entity where
  route := "/app"
  name := "A"
  columns := [{ propertyName := "age", type := "int", source := "a.age", comment }]

/-- Braces in a comment do no harm. -/
theorem synthesize_succeeds_aged :
    HeaderFree (.ofRules []) [agedEntity "from \x7b\x7b to"]
        (RouteTree.build "app" [agedEntity "from \x7b\x7b to"]) none ∧
      ∃ out, synthesize .uniappX (.ofRules []) [agedEntity "from \x7b\x7b to"]
        (RouteTree.build "app" [agedEntity "from \x7b\x7b to"]) none = .ok out := by
  have hfree : HeaderFree (.ofRules []) [agedEntity "from \x7b\x7b to"]
      (RouteTree.build "app" [agedEntity "from \x7b\x7b to"]) none := by
    unfold HeaderFree
    decide
  exact ⟨hfree, synthesize_succeeds _ _ _ _ hfree⟩

/-! ### A comment that becomes the header -/

/-- Two blanks in a comment become one, so that it can have the header in it only where it stands. -/
def splitHeader : Entity := agedEntity "export  type Service = \x7b\x7b"

/-- The strings of an entity without methods as its backend gives them. -/
def givenStrings (e : Entity) : List String :=
  [e.route, e.name] ++ e.mergedColumns.flatMap fun c => [c.propertyName, c.type, c.source, c.comment]

theorem build_splitHeader : RouteTree.build "app" [splitHeader] = [] := by
  have hsegments : RouteTree.segmentsOf "app" splitHeader = [] := by decide
  rw [RouteTree.build, List.foldl_cons, hsegments]
  rfl

/-- The declarations behind the comment. -/
def behindComment : List Char :=
  '{' :: "\n\t */\n\tage?: number;\n".toList ++ '}' :: ("\n\n".toList ++
    ((helperText .uniappX none).toList ++ (genericText .uniappX).toList ++
      '\n' :: (serviceText .uniappX "").toList))

theorem plainText_splitHeader :
    (plainText .uniappX (.ofRules []) [splitHeader] [] none).toList =
      "export interface A \x7b\n\t/**\n\t * ".toList ++ serviceHeader ++ behindComment := by
  have hlawful : hasLawfulName splitHeader = true := by decide
  have hdeclared : (declaredEntities [] [splitHeader]).1 = [splitHeader] := by
    simp [declaredEntities, hlawful]
  have hentity : (entityText .uniappX (.ofRules []) splitHeader).toList =
      "export interface A \x7b\n\t/**\n\t * ".toList ++ serviceHeader ++
        "\x7b\n\t */\n\tage?: number;\n\x7d\n".toList := by decide
  have hwalk : walkNodes [splitHeader] [] [] = {} := rfl
  have hrequest : (requestText .uniappX).toList = [] := rfl
  simp only [plainText, leadTexts, entityPieces, controllerPieces, pagesOf, hdeclared, hwalk,
    String.toList_append, hrequest, String.join_cons, String.join_append, List.map_cons,
    List.map_nil, hentity]
  simp [behindComment, String.join_nil, Text.distinct, Text.dedupFrom]

theorem balanced_behindComment : Balanced behindComment := by
  have hblank : BraceFree "\n\n".toList := by simp [BraceFree]
  have hservice : Balanced ('\n' :: (serviceText .uniappX "").toList) := by
    have htext : '\n' :: (serviceText .uniappX "").toList =
        "\nexport type Service = ".toList ++ '{' :: ("\n\n".toList ++ '}' :: "\n".toList) := by
      rw [toList_serviceText, serviceHeader_eq]
      simp
    rw [htext]
    exact .block (by simp [BraceFree]) hblank (BraceFree.balanced (by simp [BraceFree]))
  have hgeneric : Balanced (genericText .uniappX).toList := by
    have htext : (genericText .uniappX).toList = "export interface PageResponse<T> ".toList ++ '{' ::
        ("\n\tpagination: PagePagination;\n\tlist: T[];\n".toList ++ '}' :: "\n\n".toList) := by
      simp [genericText, indexText, String.join_cons, exportWord, Target.isCrossPlatform]
    rw [htext]
    exact .block (by simp [BraceFree]) (by simp [BraceFree]) hblank.balanced
  have hhelper : Balanced (helperText .uniappX none).toList := by
    have htext : (helperText .uniappX none).toList =
        "\nexport type json = any;\n\nexport interface PagePagination ".toList ++ '{' ::
          ("\n\tsize: number;\n\tpage: number;\n\ttotal: number;\n".toList ++
            '}' :: "\n\n".toList) := by
      simp [helperText, dictText, indexText, String.join_cons, exportWord, Target.isCrossPlatform]
    rw [htext]
    exact .block (by simp [BraceFree]) (by simp [BraceFree]) hblank.balanced
  exact Balanced.block (a := []) ⟨List.not_mem_nil, List.not_mem_nil⟩ (by simp [BraceFree])
    (hblank.balanced.append ((hhelper.append hgeneric).append hservice))

/-- **A comment without the header can become the header.** -/
theorem header_of_comment :
    (∀ s ∈ givenStrings splitHeader, Text.contains serviceHeader s.toList = false) ∧
      synthesize .uniappX (.ofRules []) [splitHeader] (RouteTree.build "app" [splitHeader]) none =
        .error (.unbalancedBraces 23) := by
  refine ⟨by decide, ?_⟩
  have hfirst : ¬ serviceHeader <:+: "export interface A \x7b\n\t/**\n\t * ".toList ++
      serviceHeader.dropLast := clear_of_contains (by decide)
  have hbreak := Text.breakOn?_append behindComment hfirst
  have hsize : Text.byteSize serviceHeader = 23 := by decide
  have hflat : flatten (plainText .uniappX (.ofRules []) [splitHeader] [] none).toList =
      .error (.unbalancedBraces 23) := by
    rw [flatten, plainText_splitHeader, hbreak]
    dsimp only
    rw [← unbroken, balanced_behindComment.unbroken.takeBraced?_eq_none]
    dsimp only
    rw [hsize]
  rw [build_splitHeader, synthesize_eq_flatten, hflat]
  rfl

end ClientBuild.Declaration
