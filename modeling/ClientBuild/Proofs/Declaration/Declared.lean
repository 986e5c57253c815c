import ClientBuild.Proofs.Declaration.Header
import ClientBuild.Proofs.Declaration.Rewriting

/-!
# What a text declares

A line declares the name behind its keyword.  The declarations of a schema are pieces, each over with
a block, so that a target gives a form to each piece by itself (`exists_pieces`), and a piece begins
with the line that declares its name in either form.
-/

namespace ClientBuild.Declaration

/-! ## Names that lines declare -/

/-- The name that a line declares: what stands between the keyword and the next space. -/
def declaredName? (word line : List Char) : Option String :=
  (Text.after? word line).bind fun s =>
    ((Text.after? "interface ".toList s).or (Text.after? "type ".toList s)).map fun s =>
      String.ofList (s.takeWhile (· != ' '))

/-- The names that the lines of a text declare, in order; `word` is the word in front of them. -/
def declaredNames (word : String) (text : List Char) : List String :=
  (Text.splitOn (· == '\n') text).filterMap (declaredName? word.toList)

variable {word : String} {name opening a b : List Char}

theorem declaredNames_append_line (a b : List Char) :
    declaredNames word (a ++ '\n' :: b) = declaredNames word a ++ declaredNames word b := by
  rw [declaredNames, Text.splitOn_append (by decide), List.filterMap_append]
  rfl

theorem IsName.not_mem_space (h : IsName name) : ' ' ∉ name :=
  h.not_mem (not_isNameChar_of_noise (by decide))

theorem IsName.not_mem_line (h : IsName name) : '\n' ∉ name :=
  h.not_mem (not_isNameChar_of_noise (by decide))

theorem takeWhile_name (hname : IsName name) (s : List Char) :
    (name ++ ' ' :: s).takeWhile (· != ' ') = name := by
  rw [List.takeWhile_append_of_pos fun c hc => by
    simpa using fun heq : c = ' ' => hname.not_mem_space (heq ▸ hc)]
  simp

/-- A line with the name of an alias declares it. -/
theorem declaredName?_type (hname : IsName name) (s : List Char) :
    declaredName? word.toList (word.toList ++ ("type ".toList ++ (name ++ ' ' :: s))) =
      some (String.ofList name) := by
  have hother : Text.after? "interface ".toList ("type ".toList ++ (name ++ ' ' :: s)) = none :=
    Text.after?_eq_none_iff.2 fun ⟨r, hr⟩ => absurd (List.cons.inj hr).1 (by decide)
  rw [declaredName?, Text.after?_append, Option.bind_some, hother, Text.after?_append,
    Option.none_or, Option.map_some, takeWhile_name hname]

/-- The line that opens a declaration declares its name. -/
theorem declaredName?_opening (hname : IsName name) (h : Opens word.toList name opening)
    (s : List Char) : declaredName? word.toList (opening ++ s) = some (String.ofList name) := by
  rcases h with rfl | rfl
  · have hline : word.toList ++ "interface ".toList ++ name ++ " \x7b".toList ++ s =
        word.toList ++ ("interface ".toList ++ (name ++ ' ' :: '{' :: s)) := by simp
    rw [declaredName?, hline, Text.after?_append, Option.bind_some, Text.after?_append,
      Option.some_or, Option.map_some, takeWhile_name hname]
  · have hline : word.toList ++ "type ".toList ++ name ++ " = \x7b".toList ++ s =
        word.toList ++ ("type ".toList ++ (name ++ ' ' :: '=' :: ' ' :: '{' :: s)) := by simp
    rw [hline, declaredName?_type hname]

theorem splitOn_append_of_not_mem (h : '\n' ∉ a) :
    ∃ l ls, Text.splitOn (· == '\n') b = l :: ls ∧
      Text.splitOn (· == '\n') (a ++ b) = (a ++ l) :: ls := by
  by_cases hb : '\n' ∈ b
  · obtain ⟨l, s, rfl, hl⟩ := List.eq_append_cons_of_mem hb
    have hsplit : ∀ l, '\n' ∉ l → Text.splitOn (· == '\n') (l ++ '\n' :: s) =
        l :: Text.splitOn (· == '\n') s := by
      intro l hl
      rw [Text.splitOn_append (by decide), Text.splitOn_of_forall fun c hc => by
        simpa using fun heq : c = '\n' => hl (heq ▸ hc)]
      rfl
    refine ⟨l, _, hsplit l hl, ?_⟩
    rw [← List.append_assoc]
    exact hsplit (a ++ l) fun hmem => (List.mem_append.1 hmem).elim h hl
  · have hsingle : ∀ l, '\n' ∉ l → Text.splitOn (· == '\n') l = [l] := fun l hl =>
      Text.splitOn_of_forall fun c hc => by simpa using fun heq : c = '\n' => hl (heq ▸ hc)
    exact ⟨b, [], hsingle b hb, hsingle (a ++ b) fun hmem => (List.mem_append.1 hmem).elim h hb⟩

theorem Opens.not_mem_line (hname : IsName name) (hword : '\n' ∉ word.toList)
    (h : Opens word.toList name opening) : '\n' ∉ opening := by
  have hinterface : '\n' ∉ "interface ".toList ∧ '\n' ∉ " \x7b".toList := by decide
  have htype : '\n' ∉ "type ".toList ∧ '\n' ∉ " = \x7b".toList := by decide
  rcases h with rfl | rfl
  · simp [hword, hname.not_mem_line]
  · simp [hword, hname.not_mem_line]

/-- A declaration that begins a line is among those of its text. -/
theorem mem_declaredNames (hname : IsName name) (hword : '\n' ∉ word.toList)
    (h : Opens word.toList name opening) (ha : a = [] ∨ ∃ x, a = x ++ ['\n']) (s : List Char) :
    String.ofList name ∈ declaredNames word (a ++ (opening ++ s)) := by
  obtain ⟨l, ls, _, hline⟩ := splitOn_append_of_not_mem (b := s) (h.not_mem_line hname hword)
  have hhere : String.ofList name ∈ declaredNames word (opening ++ s) := by
    rw [declaredNames, hline, List.filterMap_cons, declaredName?_opening hname h]
    exact List.mem_cons_self
  rcases ha with rfl | ⟨x, rfl⟩
  · exact hhere
  · rw [List.append_assoc, List.singleton_append, declaredNames_append_line]
    exact List.mem_append_right _ hhere

/-! ## Interfaces -/

theorem toList_interface (word name : String) (texts : List String) :
    (String.join (word :: "interface " :: name :: " \x7b\n" :: (texts ++ ["\x7d\n"])) ++ "\n").toList =
      word.toList ++ "interface ".toList ++ name.toList ++ " \x7b".toList ++
        '\n' :: ((String.join texts).toList ++ "\x7d\n\n".toList) := by
  simp only [String.join_cons, String.join_append, String.join_nil, String.toList_append,
    List.append_assoc, String.append_empty]
  rfl

theorem close_mem_interface (body : List Char) : '}' ∈ '\n' :: (body ++ "\x7d\n\n".toList) :=
  List.mem_cons_of_mem _ (List.mem_append_right _ (by decide))

theorem isName_interfaceName {key : List Char} (h : ∀ c ∈ key, IsNameChar c) :
    IsName (interfaceName key) := by
  refine ⟨by simp [interfaceName], fun c hc => ?_⟩
  rcases List.mem_append.1 hc with hc | hc
  · exact isNameChar_of_mem_capitalize h c hc
  · have hword : ∀ c ∈ "Interface".toList, Text.isWordAscii c = true :=
      List.all_eq_true.1 (by decide)
    exact isNameChar_of_word (hword c hc)

theorem interfaceText_eq (key : String) (shape : List Char) : interfaceText key shape =
    '\n' :: ("export interface ".toList ++ interfaceName key.toList ++ " \x7b".toList ++
      ' ' :: (shape ++ " \x7d\n".toList)) := by
  have hfirst : "\nexport interface ".toList = '\n' :: "export interface ".toList := by
    decide
  have hopen : " \x7b ".toList = " \x7b".toList ++ [' '] := by decide
  unfold interfaceText
  rw [hfirst, hopen]
  simp only [List.append_assoc, List.cons_append, List.nil_append]

/-- The interface of a key begins behind an empty line. -/
theorem exists_interfaceText {key : String} (hname : ∀ c ∈ key.toList, IsNameChar c)
    (shape : List Char) :
    ∃ opening y, Opens "export ".toList (interfaceName key.toList) opening ∧
      RewrittenTo (' ' :: (shape ++ " \x7d\n".toList)) y ∧
      interfacesToTypes (interfaceText key shape) = '\n' :: (opening ++ y) := by
  obtain ⟨opening, y, hopens, hy, hform⟩ :=
    exists_opening (isName_interfaceName hname) (s := ' ' :: (shape ++ " \x7d\n".toList))
      (List.mem_cons_of_mem _ (List.mem_append_right _ (by decide)))
  refine ⟨opening, y, hopens, hy, ?_⟩
  rw [interfaceText_eq, interfacesToTypes_cons_of_ne (by decide), hform]

/-! ## The pieces of a text -/

variable {types : TypeMap} {es : List Entity} {tree : RouteTree} {dictKeys : Option (List String)}

/-- The form that a target gives to a declaration. -/
def form (t : Target) (s : List Char) : List Char :=
  if t.isCrossPlatform then interfacesToTypes s else s

theorem Closed.append (h : Closed b) (a : List Char) : Closed (a ++ b) := by
  obtain ⟨x, y, rfl, hy⟩ := h
  exact ⟨a ++ x, y, by simp, hy⟩

theorem closed_end : Closed "\x7d\n\n".toList := ⟨[], ['\n', '\n'], rfl, by decide⟩

/-- Every declaration in front of the service type is over with a block and an empty line. -/
theorem exists_of_mem_leadTexts {t : Target} {text : String}
    (h : text ∈ leadTexts t types es tree dictKeys) : ∃ a, text.toList = a ++ "\x7d\n\n".toList := by
  have hjoin : ∀ (texts : List String) (last : String),
      (String.join (texts ++ [last])).toList = (String.join texts).toList ++ last.toList := by
    intro texts last
    rw [String.join_append, String.toList_append, String.join_cons, String.join_nil,
      String.append_empty]
  have hline : ∀ texts : List String, (String.join (texts ++ ["\x7d\n"])).toList ++ "\n".toList =
      (String.join texts).toList ++ "\x7d\n\n".toList := by
    intro texts
    rw [hjoin, List.append_assoc]
    rfl
  have hlist : ∀ texts : List String, (String.join (texts ++ ["[];\n\x7d\n\n"])).toList =
      ((String.join texts).toList ++ "[];\n".toList) ++ "\x7d\n\n".toList := by
    intro texts
    rw [hjoin, List.append_assoc]
    rfl
  simp only [leadTexts, entityPieces, controllerPieces, List.mem_append, List.mem_map, List.mem_cons,
    List.not_mem_nil, or_false] at h
  rcases h with ((⟨e, _, rfl⟩ | rfl | rfl) | ⟨p, _, rfl⟩) | ⟨c, _, rfl⟩
  · rw [entityText, String.toList_append]
    exact ⟨_, hline [_, _, _, _, _, _]⟩
  · rw [helperText]
    exact ⟨_, hjoin [_, _, _, _, _, _, _] _⟩
  · rw [genericText]
    exact ⟨_, hjoin [_, _, _] _⟩
  · rw [pageText]
    exact ⟨_, hlist [_, _, _, _, _]⟩
  · rw [controllerText, String.toList_append]
    exact ⟨_, hline [_, _, _, _, _, _]⟩

theorem closed_leadTexts {t : Target} {text : String}
    (h : text ∈ leadTexts t types es tree dictKeys) : Closed text.toList := by
  obtain ⟨a, ha⟩ := exists_of_mem_leadTexts h
  rw [ha]
  exact closed_end.append a

theorem closed_controllerText {t : Target} {c : Controller}
    (h : c ∈ (walkNodes es [] tree).controllers) : Closed (controllerText t c.name c.entity).toList := by
  have hmem : controllerText t c.name c.entity ++ "\n" ∈ leadTexts t {} es tree none :=
    List.mem_append_right _ (List.mem_map_of_mem h)
  obtain ⟨a, ha⟩ := exists_of_mem_leadTexts hmem
  have hsplit : (controllerText t c.name c.entity).toList ++ ['\n'] =
      (a ++ "\x7d\n".toList) ++ ['\n'] := by
    rw [String.toList_append] at ha
    rw [List.append_assoc]
    exact ha
  rw [List.append_cancel_right hsplit]
  exact Closed.append ⟨[], ['\n'], rfl, by decide⟩ a

/-- What stands behind a block stays in every form. -/
theorem form_append {t : Target} {s : List Char} (hs : Closed s) (hb : 'i' ∉ b) :
    form t (s ++ b) = form t s ++ b := by
  rw [form, form]
  split
  · rw [interfacesToTypes_append hs, interfacesToTypes_of_not_mem hb]
  · rfl

/-- The form of a declaration ends its line. -/
theorem exists_form_leadTexts {t : Target} {text : String}
    (h : text ∈ leadTexts t types es tree dictKeys) : ∃ y, form t text.toList = y ++ ['\n'] := by
  obtain ⟨a, ha⟩ := exists_of_mem_leadTexts h
  have hclosed : Closed (a ++ "\x7d\n".toList) := Closed.append ⟨[], ['\n'], rfl, by decide⟩ a
  have hsplit : text.toList = (a ++ "\x7d\n".toList) ++ ['\n'] := by
    rw [ha, List.append_assoc]
    rfl
  exact ⟨_, by rw [hsplit, form_append hclosed (by decide)]⟩

theorem flatten_ends {lines : List (List Char)} (h : ∀ l ∈ lines, ∃ y, l = y ++ ['\n']) :
    lines.flatten = [] ∨ ∃ x, lines.flatten = x ++ ['\n'] := by
  cases hlines : lines.getLast? with
  | none =>
    rw [List.getLast?_eq_none_iff.1 hlines]
    exact Or.inl rfl
  | some l =>
    obtain ⟨before, rfl⟩ := List.getLast?_eq_some_iff.1 hlines
    obtain ⟨y, rfl⟩ := h l (by simp)
    exact Or.inr ⟨before.flatten ++ y, by simp⟩

/-- Every declaration in front of the service type begins a line. -/
theorem exists_split_leadTexts {t : Target} {text : String}
    (h : text ∈ leadTexts t types es tree dictKeys) {front : List Char}
    (hfront : front = [] ∨ ∃ x, front = x ++ ['\n']) (back : List Char) :
    ∃ before after,
      front ++ ((leadTexts t types es tree dictKeys).map fun s => form t s.toList).flatten ++ back =
        before ++ form t text.toList ++ after ∧ (before = [] ∨ ∃ x, before = x ++ ['\n']) := by
  obtain ⟨before, after, hsplit⟩ := List.append_of_mem h
  have hbefore : ∀ l ∈ before.map fun s => form t s.toList, ∃ y, l = y ++ ['\n'] := by
    refine List.forall_mem_map.2 fun s hs =>
      exists_form_leadTexts (?_ : s ∈ leadTexts t types es tree dictKeys)
    rw [hsplit]
    exact List.mem_append_left _ hs
  refine ⟨front ++ (before.map fun s => form t s.toList).flatten,
    (after.map fun s => form t s.toList).flatten ++ back, ?_, ?_⟩
  · rw [hsplit, List.map_append, List.map_cons, List.flatten_append, List.flatten_cons]
    simp only [List.append_assoc]
  · rcases flatten_ends hbefore with hnil | ⟨x, hx⟩
    · rw [hnil, List.append_nil]
      exact hfront
    · exact Or.inr ⟨front ++ x, by rw [hx, List.append_assoc]⟩

theorem plainInterface_cons_cons_of_ne {c d : Char} (hd : d ≠ 'n') (s : List Char) :
    plainInterface (c :: d :: s) = none := by
  have hafter : Text.after? "interface".toList (c :: d :: s) = none := by
    refine Text.after?_eq_none_iff.2 fun h => hd ?_
    obtain ⟨r, hr⟩ := h
    exact (List.cons.inj (List.cons.inj hr).2).1.symm
  simp only [plainInterface, hafter]
  rfl

theorem interfacesToTypes_service (s : List Char) :
    interfacesToTypes ("\nexport type Service = \x7b ".toList ++ s) =
      "\nexport type Service = \x7b ".toList ++ interfacesToTypes s := by
  have hsplit : ∀ s, "\nexport type Service = \x7b ".toList ++ s =
      "\nexport type Serv".toList ++ ('i' :: 'c' :: ("e = \x7b ".toList ++ s)) := by simp
  have hcons : interfacesToTypes ('i' :: 'c' :: ("e = \x7b ".toList ++ s)) =
      'i' :: interfacesToTypes ('c' :: ("e = \x7b ".toList ++ s)) :=
    Text.replaceMatches_cons_of_none (plainInterface_cons_cons_of_ne (by decide) _)
  rw [hsplit, hsplit, interfacesToTypes_append_of_not_mem (by decide), hcons,
    interfacesToTypes_cons_of_ne (by decide), interfacesToTypes_append_of_not_mem (by decide)]

theorem closed_interfaceText (key : String) (shape : List Char) : Closed (interfaceText key shape) :=
  Closed.append ⟨[' '], ['\n'], rfl, by decide⟩ _

/-- **The cross-platform declarations, piece by piece.** -/
theorem exists_pieces (h : HeaderFree types es tree dictKeys) :
    ∃ level shapes out, currentLevel (Text.trim (linesOf (parts es [] tree))) = .ok level ∧
      collect (Text.trim (linesOf (parts es [] tree))) {} = .ok shapes ∧
      synthesize .uniappX types es tree dictKeys = .ok out ∧
      out.collisions = (declaredEntities [] es).2 ++ (walkNodes es [] tree).collisions ++
        shapes.collisions ∧
      out.text.toList =
        ((leadTexts .uniappX types es tree dictKeys).map fun s => interfacesToTypes s.toList).flatten ++
          '\n' :: ((shapes.first.map fun p => interfacesToTypes (interfaceText p.1 p.2)).flatten ++
            ("\nexport type Service = \x7b ".toList ++ interfacesToTypes (level ++ " \x7d".toList))) := by
  obtain ⟨level, shapes, hlevel, hshapes, hok⟩ := exists_synthesize h
  refine ⟨level, shapes, _, hlevel, hshapes, hok, rfl, ?_⟩
  have hlead : ∀ s ∈ (leadTexts .uniappX types es tree dictKeys).map String.toList, Closed s :=
    List.forall_mem_map.2 fun s hs => closed_leadTexts hs
  have hlifted : ∀ s ∈ shapes.first.map fun p => interfaceText p.1 p.2, Closed s :=
    List.forall_mem_map.2 fun p _ => closed_interfaceText p.1 p.2
  have hflat : flatText (String.join (leadTexts .uniappX types es tree dictKeys)).toList shapes level =
      ((leadTexts .uniappX types es tree dictKeys).map String.toList).flatten ++
        (['\n'] ++ ((shapes.first.map fun p => interfaceText p.1 p.2).flatten ++
          ("\nexport type Service = \x7b ".toList ++ (level ++ " \x7d".toList)))) := by
    simp only [flatText, liftedText, String.toList_join, List.flatMap, List.append_assoc]
  dsimp only
  rw [ofChars, String.toList_ofList, hflat, interfacesToTypes_flatten hlead,
    interfacesToTypes_append_of_not_mem (by decide), interfacesToTypes_flatten hlifted,
    interfacesToTypes_service, List.map_map, List.map_map]
  rfl

/-- The ambient declarations, piece by piece. -/
theorem synthesize_ambient {t : Target} (ht : t.isCrossPlatform = false) :
    ∃ out, synthesize t types es tree dictKeys = .ok out ∧
      out.collisions = (declaredEntities [] es).2 ++ (walkNodes es [] tree).collisions ∧
      out.text.toList = "declare namespace Eps \x7b\n".toList ++
        ((leadTexts t types es tree dictKeys).map String.toList).flatten ++
          '\n' :: ((requestText t).toList ++
            (serviceText t (walkNodes es [] tree).chain).toList ++ "\n\x7d\n".toList) := by
  refine ⟨_, by rw [synthesize, synthesizePlain_eq]; simp [bind, Except.bind, ht]; rfl, rfl, ?_⟩
  simp only [plainText, String.toList_append, String.toList_join, List.flatMap, List.append_assoc]
  rfl

end ClientBuild.Declaration
