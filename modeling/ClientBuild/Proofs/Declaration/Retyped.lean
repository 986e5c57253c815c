import ClientBuild.Proofs.Declaration.Again
import ClientBuild.Proofs.Declaration.Fenced
import ClientBuild.Proofs.Declaration.Keys
import ClientBuild.Proofs.Declaration.ServiceTypes
import ClientBuild.Proofs.Declaration.Tight
import ClientBuild.Proofs.Declaration.Unique
import ClientBuild.Proofs.Json.ValueText

/-!
# Interfaces that are left

The cross-platform declarations are a row of interfaces with a few other texts between them (`items`).  Where
names are words, every interface of the row becomes a type but the generic one, whose name has brackets in it
(`interfaces_become_types`).  A match runs up to the first brace that closes, which is never behind the interface
it begins, so that no interface hides the next one; behind that brace a body can change only where a comment in
it reads like an interface itself.
-/

namespace ClientBuild.Declaration

/-! ## Declarations in a row -/

/-- An exported interface. -/
structure Interface where
  name : String
  /-- What stands between its braces. -/
  body : List Char
  /-- The comments in the body, as they stand there. -/
  comments : List String := []

namespace Interface

/-- The body in front of its first closing brace. -/
def front (i : Interface) : List Char := i.body.takeWhile (· != '}')

/-- The body from its first closing brace on. -/
def back (i : Interface) : List Char := i.body.dropWhile (· != '}')

/-- The interface with an empty line behind it. -/
def text (i : Interface) : List Char :=
  "export interface ".toList ++ i.name.toList ++ " \x7b".toList ++ (i.body ++ ['}']) ++ "\n\n".toList

/-- A type under the name of the interface. -/
def type (i : Interface) (body : List Char) : List Char :=
  "export type ".toList ++ i.name.toList ++ " = \x7b".toList ++ (body ++ ['}']) ++ "\n\n".toList

end Interface

/-- A stretch of the declarations. -/
inductive Item where
  | interface (i : Interface)
  | other (text : List Char)

namespace Item

def text : Item → List Char
  | .interface i => i.text
  | .other text => text

/-- The name that an interface declares. -/
def name? : Item → Option String
  | .interface i => some i.name
  | .other _ => none

end Item

/-- The answer of a page query. -/
def pageInterface (p : PageType) : Interface where
  name := p.name
  body := "\n\tpagination: PagePagination;\n\tlist: ".toList ++ p.entity.toList ++ "[];\n".toList

/-- The answer of a page query for any entity. -/
def genericInterface : Interface := pageInterface ⟨"PageResponse<T>", "T"⟩

/-- What a stretch becomes when interfaces become types. -/
inductive Retyped : Item → List Char → Prop where
  | other (text : List Char) : Retyped (.other text) text
  | generic : Retyped (.interface genericInterface) genericInterface.text
  /-- The body stays up to its first closing brace, and behind it interfaces in it become types as well.  It
  stays altogether where none begins there, and so where no comment reads like one. -/
  | type {i : Interface} {body : List Char}
      (hbody : body ++ ['}'] = i.front ++ interfacesToTypes (i.back ++ ['}']))
      (hsame : Calm i.back ∨ (∀ s ∈ i.comments, Calm s.toList) → body = i.body) :
      Retyped (.interface i) (i.type body)

/-! ## What a row becomes -/

variable {row row' : List Item} {texts texts' : List (List Char)} {left left' : List String}

/-- The texts that items become, and the names of the interfaces that are left in them, in front of any rest. -/
structure Becomes (row : List Item) (texts : List (List Char)) (left : List String) : Prop where
  retyped : List.Forall₂ Retyped row texts
  rewritten : ∀ rest, interfacesToTypes (row.flatMap Item.text ++ rest) = texts.flatten ++ interfacesToTypes rest
  declared : ∀ rest, interfaceNames (row.flatMap Item.text ++ rest) = row.filterMap Item.name? ++ interfaceNames rest
  left : ∀ rest, interfaceNames (texts.flatten ++ rest) = left ++ interfaceNames rest

theorem becomes_nil : Becomes [] [] [] := ⟨.nil, fun _ => rfl, fun _ => rfl, fun _ => rfl⟩

theorem Becomes.append (h : Becomes row texts left) (h' : Becomes row' texts' left') :
    Becomes (row ++ row') (texts ++ texts') (left ++ left') where
  retyped := List.rel_append h.retyped h'.retyped
  rewritten rest := by
    rw [List.flatMap_append, List.append_assoc, h.rewritten, h'.rewritten, List.flatten_append, List.append_assoc]
  declared rest := by
    rw [List.flatMap_append, List.append_assoc, h.declared, h'.declared, List.filterMap_append, List.append_assoc]
  left rest := by rw [List.flatten_append, List.append_assoc, h.left, h'.left, List.append_assoc]

/-- Of a row of which no interface is left one by one, none is left. -/
theorem exists_becomes {α : Type} {f : α → Item} {xs : List α}
    (h : ∀ x ∈ xs, ∃ text, Becomes [f x] [text] []) : ∃ texts, Becomes (xs.map f) texts [] := by
  induction xs with
  | nil => exact ⟨[], becomes_nil⟩
  | cons x xs ih =>
    obtain ⟨hx, hxs⟩ := List.forall_mem_cons.1 h
    obtain ⟨text, htext⟩ := hx
    obtain ⟨texts, htexts⟩ := ih hxs
    exact ⟨text :: texts, htext.append htexts⟩

/-- A text that ends a line leaves the names in front of the end. -/
theorem interfaceNames_append_lines (a b : List Char) :
    interfaceNames (a ++ "\n\n".toList ++ b) = interfaceNames a ++ interfaceNames b := by
  have hsplit : a ++ "\n\n".toList ++ b = a ++ '\n' :: ([] ++ '\n' :: b) := by simp
  rw [hsplit, interfaceNames_append_line, interfaceNames_append_line]
  rfl

/-- Texts that stay in front of any rest. -/
theorem becomes_other {a : List Char} (hstays : ∀ rest, interfacesToTypes (a ++ rest) = a ++ interfacesToTypes rest)
    (hline : ∃ b, a = b ++ "\n\n".toList) (hopen : '{' ∉ a) : Becomes [.other a] [a] [] := by
  have hnames : ∀ rest, interfaceNames (a ++ rest) = interfaceNames rest := fun rest => by
    obtain ⟨b, rfl⟩ := hline
    have hb : '{' ∉ b := fun hmem => hopen (List.mem_append_left _ hmem)
    rw [interfaceNames_append_lines, interfaceNames_of_fenced (fenced_of_not_mem hb _)]
    rfl
  refine ⟨.cons (.other a) .nil, fun rest => ?_, fun rest => ?_, fun rest => ?_⟩
  · rw [List.flatMap_singleton, List.flatten_singleton]
    exact hstays rest
  · rw [List.flatMap_singleton]
    exact hnames rest
  · rw [List.flatten_singleton]
    exact hnames rest

theorem names_genericInterface (rest : List Char) :
    interfaceNames (genericInterface.text ++ rest) = "PageResponse<T>" :: interfaceNames rest := by
  have hsplit : genericInterface.text =
      "export interface PageResponse<T> \x7b\n\tpagination: PagePagination;\n\tlist: T[];\n\x7d".toList ++
        "\n\n".toList := rfl
  rw [hsplit, interfaceNames_append_lines]
  rfl

/-- **The generic interface stays**: its name is no word. -/
theorem becomes_generic : Becomes [.interface genericInterface] [genericInterface.text] ["PageResponse<T>"] where
  retyped := .cons .generic .nil
  rewritten rest := by
    have hclosed : Closed genericInterface.text :=
      ⟨"export interface PageResponse<T> \x7b\n\tpagination: PagePagination;\n\tlist: T[];\n".toList, ['\n', '\n'],
        by decide, by decide⟩
    have hstays : interfacesToTypes genericInterface.text = genericInterface.text := by decide +kernel
    rw [List.flatMap_singleton, Item.text, interfacesToTypes_append hclosed, hstays, List.flatten_singleton]
  declared rest := by
    rw [List.flatMap_singleton]
    exact names_genericInterface rest
  left rest := by
    rw [List.flatten_singleton]
    exact names_genericInterface rest

/-! ## Interfaces -/

/-- May the interface become a type?  Its name is a word, an interface begins in it only in a comment, and no line
of it begins one. -/
structure Interface.Ready (i : Interface) : Prop where
  word : IsWord i.name.toList
  calm : (∀ s ∈ i.comments, Calm s.toList) → Calm i.body
  fenced : Fenced .bare i.body ∨ Calm i.body ∧ '\n' ∉ i.body

theorem interfaceName?_type (name s : List Char) :
    interfaceName? ("export type ".toList ++ name ++ " = \x7b".toList ++ s) = none := by
  refine interfaceName?_of_not_prefix fun h => ?_
  have hshort : "export type ".toList <+: "export type ".toList ++ name ++ " = \x7b".toList ++ s := by
    rw [List.append_assoc, List.append_assoc]
    exact List.prefix_append _ _
  have hboth := List.prefix_of_prefix_length_le hshort h (by decide)
  exact absurd hboth (by decide)

/-- An interface under a word becomes a type up to its first closing brace, and what is behind it is rewritten. -/
theorem interfacesToTypes_interface {name front back : List Char} (hname : IsWord name) (hfront : '}' ∉ front)
    (hback : back = [] ∨ ∃ s, back = '}' :: s) (rest : List Char) :
    interfacesToTypes ("export interface ".toList ++ name ++ " \x7b".toList ++ (front ++ (back ++ '}' :: rest))) =
      "export type ".toList ++ name ++ " = \x7b".toList ++
        (front ++ (interfacesToTypes (back ++ ['}']) ++ interfacesToTypes rest)) := by
  obtain ⟨behind, hbehind⟩ : ∃ behind, back ++ '}' :: rest = '}' :: behind := by
    rcases hback with rfl | ⟨s, rfl⟩
    · exact ⟨_, rfl⟩
    · exact ⟨_, rfl⟩
  have htext : "export interface ".toList ++ name ++ " \x7b".toList ++ (front ++ '}' :: behind) =
      "export ".toList ++ ("interface".toList ++ ' ' :: (name ++ ' ' :: '{' :: (front ++ '}' :: behind))) := by
    simp
  have hshut : '}' :: interfacesToTypes behind = interfacesToTypes (back ++ ['}']) ++ interfacesToTypes rest := by
    rw [← interfacesToTypes_cons_of_ne (by decide), ← hbehind, interfacesToTypes_append_close]
  rw [hbehind, htext, interfacesToTypes_append_of_not_mem (by decide),
    interfacesToTypes_of_word hname.isName hname.2 hfront, hshut]
  simp

namespace Interface

variable {i : Interface}

theorem front_append_back (i : Interface) : i.front ++ i.back = i.body := List.takeWhile_append_dropWhile

theorem close_not_mem_front (i : Interface) : '}' ∉ i.front := fun hmem => by
  simpa using List.all_eq_true.1 List.all_takeWhile _ hmem

theorem back_eq (i : Interface) : i.back = [] ∨ ∃ s, i.back = '}' :: s := by
  rw [back]
  cases h : i.body.dropWhile (· != '}') with
  | nil => exact Or.inl rfl
  | cons c s =>
    have hstop := List.head_dropWhile_not (· != '}') (l := i.body) (by simp [h])
    have hc : c = '}' := by simpa [h] using hstop
    exact Or.inr ⟨s, by rw [hc]⟩

theorem back_suffix (i : Interface) : i.back <:+ i.body := List.dropWhile_suffix _

/-- An interface under a word becomes a type, with the same body in front of its first closing brace. -/
theorem interfacesToTypes_text {body : List Char} (hword : IsWord i.name.toList)
    (hbody : body ++ ['}'] = i.front ++ interfacesToTypes (i.back ++ ['}'])) (rest : List Char) :
    interfacesToTypes (i.text ++ rest) = i.type body ++ interfacesToTypes rest := by
  have htext : i.text ++ rest = "export interface ".toList ++ i.name.toList ++ " \x7b".toList ++
      (i.front ++ (i.back ++ '}' :: ("\n\n".toList ++ rest))) := by
    unfold text
    simp only [List.append_assoc, List.cons_append, List.nil_append, ← front_append_back i]
  have hline : interfacesToTypes ("\n\n".toList ++ rest) = "\n\n".toList ++ interfacesToTypes rest :=
    interfacesToTypes_append_of_not_mem (by decide) rest
  rw [htext, interfacesToTypes_interface hword i.close_not_mem_front i.back_eq, hline, ← List.append_assoc i.front,
    ← hbody]
  unfold type
  simp only [List.append_assoc]

/-- An interface is read back from its first line. -/
theorem interfaceNames_text (hword : IsWord i.name.toList)
    (h : Fenced .bare (i.body ++ ['}']) ∨ '\n' ∉ i.body ++ ['}']) (rest : List Char) :
    interfaceNames (i.text ++ rest) = i.name :: interfaceNames rest := by
  have hopening : '\n' ∉ "export interface ".toList ++ i.name.toList ++ " \x7b".toList := by
    simp [hword.isName.not_mem_line]
  have hnames := interfaceNames_append_of_fenced hopening (interfaceName?_of_name hword.isName) h
  unfold text
  rw [interfaceNames_append_lines, hnames, String.ofList_toList]
  rfl

/-- No interface is read from a type. -/
theorem interfaceNames_type {body : List Char} (hword : IsWord i.name.toList)
    (h : Fenced .bare (body ++ ['}']) ∨ '\n' ∉ body ++ ['}']) (rest : List Char) :
    interfaceNames (i.type body ++ rest) = interfaceNames rest := by
  have hopening : '\n' ∉ "export type ".toList ++ i.name.toList ++ " = \x7b".toList := by
    simp [hword.isName.not_mem_line]
  have hnames := interfaceNames_append_of_fenced hopening (interfaceName?_type i.name.toList) h
  unfold type
  rw [interfaceNames_append_lines, hnames]
  rfl

/-- **An interface under a word becomes a type**, and no interface is left. -/
theorem Ready.becomes (h : i.Ready) : ∃ text, Becomes [.interface i] [text] [] := by
  obtain ⟨b, hb⟩ := exists_interfacesToTypes_concat i.back
  have hbody : i.front ++ b ++ ['}'] = i.front ++ interfacesToTypes (i.back ++ ['}']) := by
    rw [hb, List.append_assoc]
  have hsame : Calm i.back → i.front ++ b = i.body := fun hcalm => by
    rw [hcalm.interfacesToTypes] at hb
    rw [← List.append_cancel_right hb, front_append_back]
  have hbefore : Fenced .bare (i.body ++ ['}']) ∨ '\n' ∉ i.body ++ ['}'] := by
    refine h.fenced.imp (fun hfenced => fenced_append.2 ⟨hfenced, fenced_of_not_mem (by decide) _⟩) ?_
    exact fun hplain hmem => (List.mem_append.1 hmem).elim hplain.2 (by decide)
  have hafter : Fenced .bare (i.front ++ b ++ ['}']) ∨ '\n' ∉ i.front ++ b ++ ['}'] := by
    rcases h.fenced with hfenced | ⟨hcalm, -⟩
    · -- What is behind the first closing brace stays fenced when it is rewritten.
      rw [← front_append_back] at hfenced
      obtain ⟨hfront, hback⟩ := fenced_append.1 hfenced
      have hshut := fenced_append.2 ⟨hback, fenced_of_not_mem (s := ['}']) (by decide) _⟩
      rw [hbody]
      exact Or.inl (fenced_append.2 ⟨hfront, hshut.interfacesToTypes⟩)
    · rw [hsame (hcalm.of_suffix i.back_suffix)]
      exact hbefore
  refine ⟨i.type (i.front ++ b), .cons (.type hbody ?_) .nil, fun rest => ?_, fun rest => ?_, fun rest => ?_⟩
  · exact fun hcalm => hsame (hcalm.elim id fun hcomments => (h.calm hcomments).of_suffix i.back_suffix)
  · rw [List.flatMap_singleton, List.flatten_singleton]
    exact interfacesToTypes_text h.word hbody rest
  · rw [List.flatMap_singleton]
    exact interfaceNames_text h.word hbefore rest
  · rw [List.flatten_singleton]
    exact interfaceNames_type h.word hafter rest

end Interface

/-! ## The declarations of a schema -/

/-- The interface of an entity. -/
def entityInterface (types : TypeMap) (e : Entity) : Interface where
  name := entityName e
  body := '\n' :: (String.join (e.mergedColumns.map (fieldText types))).toList
  comments := e.mergedColumns.map columnComment

/-- How a page is counted. -/
def countInterface : Interface where
  name := "PagePagination"
  body := "\n\tsize: number;\n\tpage: number;\n\ttotal: number;\n".toList

/-- The comments on a parameter. -/
def parameterComments (p : Parameter) : List String := ((p.description.filter hasText).map docText).toList

/-- The comments in the signature of a method. -/
def methodComments (m : Method) : List String :=
  methodComment m :: (m.parameters.filter fun p => isLawful p.name.toList).flatMap parameterComments

/-- The interface of a controller. -/
def controllerInterface (c : Controller) : Interface where
  name := c.name
  body := '\n' :: (String.join ((namedMethods c.entity).map fun x =>
    signatureText .uniappX c.name c.entity x.2 x.1)).toList
  comments := (declaredMethods c.entity).flatMap methodComments

/-- The interface of a key with a shape. -/
def shapeInterface (p : String × List Char) : Interface where
  name := ofChars (interfaceName p.1.toList)
  body := ' ' :: (p.2 ++ [' '])

/-- The declarations in front of those that are lifted. -/
def leadItems (types : TypeMap) (es : List Entity) (tree : RouteTree) (dictKeys : Option (List String)) : List Item :=
  let controllers := (walkNodes es [] tree).controllers
  ((declaredEntities [] es).1.map fun e => .interface (entityInterface types e)) ++
    [.other ("\nexport type json = any;\n\n".toList ++ (dictText .uniappX dictKeys).toList)] ++
    [.interface countInterface] ++ [.interface genericInterface] ++
    ((pagesOf controllers).map fun p => .interface (pageInterface p)) ++
    controllers.map fun c => .interface (controllerInterface c)

/-- The declarations in front of the service type, with what is lifted from it. -/
def items (types : TypeMap) (es : List Entity) (tree : RouteTree) (dictKeys : Option (List String)) : List Item :=
  leadItems types es tree dictKeys ++ [.other "\n\n".toList] ++
    (firstShapes ((objectsIn (linesOf (parts es [] tree))).map shapeIn)).map fun p => .interface (shapeInterface p)

section texts

variable {types : TypeMap} {es : List Entity} {tree : RouteTree} {dictKeys : Option (List String)}

theorem toList_entityText (types : TypeMap) (e : Entity) :
    (entityText .uniappX types e ++ "\n").toList = (entityInterface types e).text := by
  unfold Interface.text
  simp [entityText, entityInterface, String.join_cons, exportWord, Target.isCrossPlatform]

theorem toList_helperText : (helperText .uniappX dictKeys).toList =
    "\nexport type json = any;\n\n".toList ++ (dictText .uniappX dictKeys).toList ++ countInterface.text := by
  unfold Interface.text
  simp [helperText, countInterface, indexText, String.join_cons, exportWord, Target.isCrossPlatform]

theorem toList_genericText : (genericText .uniappX).toList = genericInterface.text := by decide

theorem toList_pageText (p : PageType) : (pageText .uniappX p).toList = (pageInterface p).text := by
  unfold Interface.text
  simp [pageText, pageInterface, String.join_cons, exportWord, Target.isCrossPlatform]

theorem toList_controllerText (c : Controller) :
    (controllerText .uniappX c.name c.entity ++ "\n").toList = (controllerInterface c).text := by
  unfold Interface.text
  simp [controllerText, controllerInterface, String.join_cons, exportWord, Target.isCrossPlatform]

theorem interfaceText_append_line (p : String × List Char) :
    interfaceText p.1 p.2 ++ ['\n'] = '\n' :: (shapeInterface p).text := by
  have hname : (shapeInterface p).name.toList = interfaceName p.1.toList := String.toList_ofList
  unfold Interface.text
  rw [interfaceText_eq, hname]
  simp [shapeInterface]

/-- Lifted interfaces begin with a line break, and it is the one that ends those in front. -/
theorem flatMap_interfaceText (ps : List (String × List Char)) (s : List Char) :
    (ps.flatMap fun (k, shape) => interfaceText k shape) ++ '\n' :: s =
      '\n' :: (ps.flatMap (fun p => (shapeInterface p).text) ++ s) := by
  induction ps with
  | nil => rfl
  | cons p ps ih =>
    rw [List.flatMap_cons, List.append_assoc, ih, List.append_cons, interfaceText_append_line, List.flatMap_cons,
      List.append_assoc, List.cons_append]

theorem toList_join_leadTexts : (String.join (leadTexts .uniappX types es tree dictKeys)).toList =
    (leadItems types es tree dictKeys).flatMap Item.text := by
  rw [leadTexts, entityPieces, controllerPieces]
  simp only [leadItems, String.toList_join, List.flatMap_append, List.flatMap_map, toList_entityText, toList_pageText,
    toList_controllerText, List.flatMap_cons, List.flatMap_nil, toList_helperText, toList_genericText, Item.text,
    List.append_nil, List.append_assoc]

/-- **The flattened declarations** are the row with the service type at its end. -/
theorem text_flattened_items :
    (flattened ((String.join (leadTexts .uniappX types es tree dictKeys)).toList ++ ['\n'])
        (linesOf (parts es [] tree))).text =
      (items types es tree dictKeys).flatMap Item.text ++ serviceLine (linesOf (parts es [] tree)) := by
  rw [text_flattened, interfaces, flatMap_interfaceText, toList_join_leadTexts, items]
  simp only [List.flatMap_append, List.flatMap_map, List.flatMap_cons, List.flatMap_nil, Item.text]
  simp

end texts

/-! ## Names that are words -/

/-- Are the names that are declared words, and opens no brace in what stands between the comments? -/
structure WordNamed (types : TypeMap) (namespaceId : String) (es : List Entity) (dictKeys : Option (List String)) :
    Prop where
  entities : ∀ e ∈ (declaredEntities [] es).1, ∀ c ∈ (entityName e).toList, Text.isWordAscii c = true
  routes : ∀ e ∈ es, ∀ segment ∈ RouteTree.segmentsOf namespaceId e,
    KeyChars (fun c => Text.isWordAscii c = true) segment
  columns : ∀ e ∈ es, ∀ c ∈ e.mergedColumns,
    '{' ∉ c.propertyName.toList ∧ '{' ∉ (types.typeOf c.propertyName c.type).toList
  parameters : ∀ e ∈ es, ∀ m ∈ e.methods, ∀ p ∈ m.parameters,
    '{' ∉ p.name.toList ∧ '{' ∉ (parameterType p).toList
  keys : ∀ key ∈ dictKeys.getD [], '{' ∉ key.toList

namespace Interface

theorem ready_of_not_mem {i : Interface} (hword : IsWord i.name.toList) (hopen : '{' ∉ i.body) : i.Ready :=
  ⟨hword, fun _ => calm_of_not_mem hopen, Or.inl (fenced_of_not_mem hopen _)⟩

end Interface

theorem ready_entityInterface {types : TypeMap} {e : Entity} (hword : IsWord (entityName e).toList)
    (hcolumns : ∀ c ∈ e.mergedColumns,
      '{' ∉ c.propertyName.toList ∧ '{' ∉ (types.typeOf c.propertyName c.type).toList) :
    (entityInterface types e).Ready := by
  have hcalm : (∀ s ∈ e.mergedColumns.map columnComment, Calm s.toList) →
      KeepsCalm (String.join (e.mergedColumns.map (fieldText types))).toList := fun hcomments => by
    refine keepsCalm_join (List.forall_mem_map.2 fun c hc => ?_)
    exact keepsCalm_fieldText (hcomments _ (List.mem_map_of_mem hc)) (hcolumns c hc).1 (hcolumns c hc).2
  have hfenced : KeepsFence (String.join (e.mergedColumns.map (fieldText types))).toList := by
    refine keepsFence_join (List.forall_mem_map.2 fun c hc => ?_)
    exact keepsFence_fieldText (hcolumns c hc).1 (hcolumns c hc).2
  exact ⟨hword, fun hcomments => (calm_cons (by decide)).2 (hcalm hcomments).calm,
    Or.inl (fenced_line.2 hfenced.fenced)⟩

theorem ready_controllerInterface {c : Controller} (hword : IsWord c.name.toList)
    (hparameters : ∀ m ∈ c.entity.methods, ∀ p ∈ m.parameters,
      '{' ∉ p.name.toList ∧ '{' ∉ (parameterType p).toList) : (controllerInterface c).Ready := by
  have hname : ∀ m ∈ declaredMethods c.entity, IsName (ofChars (methodName m)).toList := fun m hm => by
    rw [ofChars, String.toList_ofList]
    exact isName_methodName hm
  have hplain : ∀ m ∈ declaredMethods c.entity, ∀ p ∈ m.parameters.filter fun p => isLawful p.name.toList,
      '{' ∉ p.name.toList ∧ '{' ∉ (parameterType p).toList := fun m hm p hp =>
    hparameters m (List.mem_of_mem_filter hm) p (List.mem_of_mem_filter hp)
  have hcalm : (∀ s ∈ (declaredMethods c.entity).flatMap methodComments, Calm s.toList) →
      KeepsCalm (String.join ((namedMethods c.entity).map fun x =>
        signatureText .uniappX c.name c.entity x.2 x.1)).toList := fun hcomments => by
    refine keepsCalm_join (List.forall_mem_map.2 fun x hx => ?_)
    obtain ⟨m, hm, rfl⟩ := List.mem_map.1 hx
    obtain ⟨hsummary, hdescriptions⟩ := List.forall_mem_cons.1 (List.forall_mem_flatMap.1 hcomments m hm)
    refine keepsCalm_signatureText hsummary (hname m hm) fun p hp => ?_
    refine keepsCalm_parameterText (fun text htext => ?_) (hplain m hm p hp).1 (hplain m hm p hp).2
    exact List.forall_mem_flatMap.1 hdescriptions p hp text (Option.mem_toList.2 htext)
  have hfenced : KeepsFence (String.join ((namedMethods c.entity).map fun x =>
      signatureText .uniappX c.name c.entity x.2 x.1)).toList := by
    refine keepsFence_join (List.forall_mem_map.2 fun x hx => ?_)
    obtain ⟨m, hm, rfl⟩ := List.mem_map.1 hx
    exact keepsFence_signatureText (hname m hm) fun p hp =>
      keepsFence_parameterText (hplain m hm p hp).1 (hplain m hm p hp).2
  exact ⟨hword, fun hcomments => (calm_cons (by decide)).2 (hcalm hcomments).calm,
    Or.inl (fenced_line.2 hfenced.fenced)⟩

theorem ready_pageInterface {p : PageType} (hword : IsWord p.name.toList) (hentity : IsName p.entity.toList) :
    (pageInterface p).Ready := by
  refine Interface.ready_of_not_mem hword ?_
  have hopen : '{' ∉ "\n\tpagination: PagePagination;\n\tlist: ".toList ∧ '{' ∉ "[];\n".toList := by decide
  simp only [pageInterface, List.mem_append, not_or]
  exact ⟨⟨hopen.1, hentity.not_mem not_isNameChar_open⟩, hopen.2⟩

theorem ready_shapeInterface {body : List Char} (hbody : Tight body) {p : String × List Char}
    (hp : p ∈ firstShapes ((objectsIn body).map shapeIn)) : (shapeInterface p).Ready := by
  obtain ⟨o, v, ho, hwritten, rfl⟩ := exists_of_mem_firstShapes hp
  have hcalm : Calm (shapeInterface (shapeIn o)).body :=
    (calm_cons (by decide)).2 ((tight_shapeIn hbody ho).calm.append_of_not_mem (by decide))
  refine ⟨?_, fun _ => hcalm, Or.inr ⟨hcalm, ?_⟩⟩
  · have hname : (shapeInterface (shapeIn o)).name.toList = interfaceName o.key := by
      rw [shapeInterface, shapeIn, ofChars, String.toList_ofList, String.toList_ofList]
    rw [hname]
    exact isWord_interfaceName hwritten.label.1
  · have hline := line_not_mem_oneLine (Text.trim o.body) (objectsIn (Text.trim o.body))
    simpa [shapeInterface, shapeIn] using hline

/-! ### Other texts -/

theorem open_not_mem_quote {key : String} (h : '{' ∉ key.toList) : '{' ∉ Json.quote key :=
  fun hmem => (Json.mem_quote hmem).elim (fun hsign => absurd hsign (by decide)) fun hkey => h hkey.1

/-- The types in front of the interfaces that every text has stay. -/
theorem becomes_helper {dictKeys : Option (List String)} (h : ∀ key ∈ dictKeys.getD [], '{' ∉ key.toList) :
    let text := "\nexport type json = any;\n\n".toList ++ (dictText .uniappX dictKeys).toList
    Becomes [.other text] [text] [] := by
  intro text
  obtain ⟨a, htext, ha⟩ : ∃ a, text = a ++ ";\n\n".toList ∧ '{' ∉ a := by
    cases dictKeys with
    | none => exact ⟨"\nexport type json = any".toList, by decide, by decide⟩
    | some keys =>
      have hunion : '{' ∉ (dictKeyUnion keys).toList :=
        not_mem_dictKeyUnion (by decide) fun key hkey => open_not_mem_quote (h key hkey)
      refine ⟨"\nexport type json = any;\n\nexport type DictKey = ".toList ++ (dictKeyUnion keys).toList, ?_, ?_⟩
      · simp [text, dictText, String.join_cons, exportWord, Target.isCrossPlatform]
      · exact fun hmem => (List.mem_append.1 hmem).elim (by decide) hunion
  have hopen : '{' ∉ a ++ ";\n\n".toList := fun hmem => (List.mem_append.1 hmem).elim ha (by decide)
  have hbehind : ∀ rest x y, ";\n\n".toList ++ rest = x ++ '{' :: y → ∃ c ∈ x, ¬ IsHeadChar c := by
    intro rest x y hsplit
    cases x with
    | nil => exact absurd (List.cons.inj hsplit).1 (by decide)
    | cons c x => exact ⟨c, List.mem_cons_self, (List.cons.inj hsplit).1 ▸ by decide⟩
  have hstays : ∀ rest, interfacesToTypes (a ++ ";\n\n".toList ++ rest) =
      a ++ ";\n\n".toList ++ interfacesToTypes rest := by
    intro rest
    have hline : interfacesToTypes (";\n\n".toList ++ rest) = ";\n\n".toList ++ interfacesToTypes rest :=
      interfacesToTypes_append_of_not_mem (by decide) rest
    rw [List.append_assoc, (calm_of_not_mem ha).interfacesToTypes_append (hbehind rest), hline, List.append_assoc]
  rw [htext]
  exact becomes_other hstays ⟨a ++ [';'], by simp⟩ hopen

/-! ## The cross-platform declarations -/

section main

variable {types : TypeMap} {namespaceId : String} {es : List Entity} {dictKeys : Option (List String)}

theorem WordNamed.controllers (h : WordNamed types namespaceId es dictKeys) {c : Controller}
    (hc : c ∈ (walkNodes es [] (RouteTree.build namespaceId es)).controllers) :
    IsWord c.name.toList ∧ c.entity ∈ es := by
  have hne := (isName_controller hc).1
  rw [(walkNodes_eq es [] _).2] at hc
  have hkeys := everyKey_build h.routes
  exact ⟨⟨hne, mem_controllers_of_everyKey (fun _ hx => hx) (List.forall_mem_nil _) hkeys c hc⟩,
    mem_of_mem_controllersOf _ c hc⟩

/-- **Of the row, the generic interface is left.** -/
theorem WordNamed.exists_becomes (h : WordNamed types namespaceId es dictKeys) :
    ∃ texts, Becomes (items types es (RouteTree.build namespaceId es) dictKeys) texts ["PageResponse<T>"] := by
  let tree := RouteTree.build namespaceId es
  have hbody : Tight (linesOf (parts es [] tree)) := tight_linesOf (namedParts_root es tree)
  have hsuffix : ∀ c ∈ "PageResponse".toList, Text.isWordAscii c = true := List.all_eq_true.1 (by decide)
  have hentity : ∀ e ∈ (declaredEntities [] es).1,
      ∃ text, Becomes [.interface (entityInterface types e)] [text] [] := by
    intro e he
    obtain ⟨hlawful, hmem⟩ := hasLawfulName_of_mem_declaredEntities he
    exact (ready_entityInterface ⟨(isName_entityName hlawful).1, h.entities e he⟩ (h.columns e hmem)).becomes
  have hpage : ∀ p ∈ pagesOf (walkNodes es [] tree).controllers,
      ∃ text, Becomes [.interface (pageInterface p)] [text] [] := by
    intro p hp
    obtain ⟨c, hc, rfl⟩ := exists_of_mem_pagesOf hp
    have hword : IsWord (c.name ++ "PageResponse").toList := by
      rw [String.toList_append]
      exact (h.controllers hc).1.append hsuffix
    exact (@ready_pageInterface ⟨_, _⟩ hword (isName_entityType c.entity)).becomes
  have hcontroller : ∀ c ∈ (walkNodes es [] tree).controllers,
      ∃ text, Becomes [.interface (controllerInterface c)] [text] [] := by
    intro c hc
    obtain ⟨hword, hmem⟩ := h.controllers hc
    exact (ready_controllerInterface hword (h.parameters _ hmem)).becomes
  have hshape : ∀ p ∈ firstShapes ((objectsIn (linesOf (parts es [] tree))).map shapeIn),
      ∃ text, Becomes [.interface (shapeInterface p)] [text] [] := fun p hp => (ready_shapeInterface hbody hp).becomes
  have hstays : ∀ rest, interfacesToTypes ("\n\n".toList ++ rest) = "\n\n".toList ++ interfacesToTypes rest :=
    interfacesToTypes_append_of_not_mem (by decide)
  obtain ⟨entities, hentities⟩ := Declaration.exists_becomes hentity
  obtain ⟨count, hcount⟩ := (Interface.ready_of_not_mem (i := countInterface) (by decide) (by decide)).becomes
  obtain ⟨pages, hpages⟩ := Declaration.exists_becomes hpage
  obtain ⟨controllers, hcontrollers⟩ := Declaration.exists_becomes hcontroller
  obtain ⟨lifted, hlifted⟩ := Declaration.exists_becomes hshape
  have hhelper := becomes_helper h.keys
  have hblank := becomes_other hstays ⟨[], (List.nil_append _).symm⟩ (by decide)
  exact ⟨_, ((((((hentities.append hhelper).append hcount).append becomes_generic).append hpages).append
    hcontrollers).append hblank).append hlifted⟩

/-- The service type itself stays. -/
theorem interfacesToTypes_serviceLine {body : List Char} (h : Tight body) :
    interfacesToTypes (serviceLine body) = serviceLine body := by
  have hlevel : interfacesToTypes (oneLine (Text.trim body) (objectsIn body) ++ [' '] ++ ['}']) =
      oneLine (Text.trim body) (objectsIn body) ++ [' '] ++ ['}'] :=
    ((tight_level h).calm.append_of_not_mem (by decide)).interfacesToTypes
  have hheader : "\nexport type Service = \x7b ".toList = '\n' :: (serviceHeader ++ [' ']) := by decide
  have hservice := interfacesToTypes_service (oneLine (Text.trim body) (objectsIn body) ++ [' '] ++ ['}'])
  rw [hlevel, hheader, List.cons_append, List.append_assoc, interfacesToTypes_cons_of_ne (by decide)] at hservice
  have hsplit : serviceLine body =
      serviceHeader ++ ([' '] ++ (oneLine (Text.trim body) (objectsIn body) ++ [' '] ++ ['}'])) := by
    rw [serviceLine, List.append_assoc (oneLine _ _)]
    rfl
  rw [hsplit]
  exact (List.cons.inj hservice).2

theorem interfaceNames_serviceLine (body : List Char) : interfaceNames (serviceLine body) = [] := by
  have hheader : '\n' ∉ serviceHeader := by decide
  have hlevel := line_not_mem_oneLine (Text.trim body) (objectsIn body)
  have hline : '\n' ∉ serviceLine body := by simp [serviceLine, hheader, hlevel]
  have hother : ¬ "export interface ".toList <+: serviceLine body := fun h => by
    have hboth := List.prefix_of_prefix_length_le h (List.prefix_append serviceHeader _) (by decide)
    exact absurd hboth (by decide)
  rw [interfaceNames_of_not_mem hline, interfaceName?_of_not_prefix hother]
  rfl

/-- Flattening the declarations gives the row with the service type at its end. -/
theorem flatten_plainText {tree : RouteTree} (h : HeaderFree types es tree dictKeys) :
    ∃ flat, flatten (plainText .uniappX types es tree dictKeys).toList = .ok flat ∧
      flat.text = (items types es tree dictKeys).flatMap Item.text ++ serviceLine (linesOf (parts es [] tree)) := by
  have hparts := namedParts_root es tree
  have hservice : unbroken ('\n' :: (chains (parts es [] tree)).toList ++ "\n\x7d\n".toList) =
      linesOf (parts es [] tree) ++ '}' :: [] := by
    rw [← hparts.unbroken_chains]
    simp [unbroken]
  have hclear := keepsClear_leadTexts h ['\n'] (clear_of_count (by decide))
  have hbreak := breakOn?_serviceHeader hclear ('\n' :: (chains (parts es [] tree)).toList ++ "\n\x7d\n".toList)
  have htext : (plainText .uniappX types es tree dictKeys).toList =
      (String.join (leadTexts .uniappX types es tree dictKeys)).toList ++ ['\n'] ++ serviceHeader ++
        ('\n' :: (chains (parts es [] tree)).toList ++ "\n\x7d\n".toList) := by
    rw [toList_plainText]
    simp
  rw [← htext] at hbreak
  refine ⟨_, flatten_eq_ok_iff.2 ⟨_, _, _, [], hbreak, ?_, rfl⟩, text_flattened_items⟩
  rw [hservice]
  exact (balanced_linesOf hparts).takeBraced? []

/-- **Only the generic interface stays on the cross-platform target.**  Where names are words and no string has the
header of the service type in it, the declarations are the flattened ones, a row of interfaces and few other texts
with the service type at its end, and every interface of the row has become a type but the generic one. -/
theorem interfaces_become_types (types : TypeMap) (namespaceId : String) (es : List Entity)
    (dictKeys : Option (List String)) (hnamed : WordNamed types namespaceId es dictKeys)
    (hfree : HeaderFree types es (RouteTree.build namespaceId es) dictKeys) :
    let tree := RouteTree.build namespaceId es
    let row := items types es tree dictKeys
    let service := serviceLine (linesOf (parts es [] tree))
    ∃ plain flat out texts, synthesizePlain .uniappX types es tree dictKeys = .ok plain ∧
      flatten plain.text.toList = .ok flat ∧ synthesize .uniappX types es tree dictKeys = .ok out ∧
      flat.text = row.flatMap Item.text ++ service ∧ out.text.toList = texts.flatten ++ service ∧
      List.Forall₂ Retyped row texts ∧ interfaceNames flat.text = row.filterMap Item.name? ∧
      interfaceNames out.text.toList = ["PageResponse<T>"] := by
  intro tree row service
  obtain ⟨flat, hflat, htext⟩ := flatten_plainText hfree
  obtain ⟨texts, hbecomes⟩ := hnamed.exists_becomes
  have hservice : interfacesToTypes service = service :=
    interfacesToTypes_serviceLine (tight_linesOf (namedParts_root es tree))
  have hnone : interfaceNames service = [] := interfaceNames_serviceLine _
  have hout : synthesize .uniappX types es tree dictKeys = .ok ⟨ofChars (interfacesToTypes flat.text),
      (declaredEntities [] es).2 ++ (walkNodes es [] tree).collisions ++ flat.collisions⟩ := by
    rw [synthesize_eq_flatten, hflat]
    rfl
  have hrewritten : interfacesToTypes flat.text = texts.flatten ++ service := by
    rw [htext, hbecomes.rewritten, hservice]
  refine ⟨_, flat, _, texts, synthesizePlain_eq _ _ _ _ _, hflat, hout, htext, ?_, hbecomes.retyped, ?_, ?_⟩
  · rw [ofChars, String.toList_ofList, hrewritten]
  · rw [htext, hbecomes.declared, hnone, List.append_nil]
  · rw [ofChars, String.toList_ofList, hrewritten, hbecomes.left, hnone]
    rfl

/-- An entity with braces in its comments. -/
def infoEntity : Entity where
  route := "/app/user/info"
  name := "Member Info"
  methods := [{ path := "/page", summary := some "from \x7b to \x7d"
                parameters := [{ name := "id", description := some "export interface Foo \x7b a \x7d" }] }]
  columns := [{ propertyName := "age", type := "int", source := "a.age", comment := "\x7b \x7d interface" }]

/-- Interfaces of every kind, and comments that read like one. -/
theorem interfaces_become_types_info :
    let tree := RouteTree.build "app" [infoEntity]
    let row := items (.ofRules []) [infoEntity] tree (some ["a", "b"])
    let service := serviceLine (linesOf (parts [infoEntity] [] tree))
    (WordNamed (.ofRules []) "app" [infoEntity] (some ["a", "b"]) ∧
      HeaderFree (.ofRules []) [infoEntity] tree (some ["a", "b"]) ∧
      row.filterMap Item.name? =
        ["MemberInfo", "PagePagination", "PageResponse<T>", "UserInfoPageResponse", "UserInfo", "UserInterface"]) ∧
    ∃ plain flat out texts, synthesizePlain .uniappX (.ofRules []) [infoEntity] tree (some ["a", "b"]) = .ok plain ∧
      flatten plain.text.toList = .ok flat ∧
      synthesize .uniappX (.ofRules []) [infoEntity] tree (some ["a", "b"]) = .ok out ∧
      flat.text = row.flatMap Item.text ++ service ∧ out.text.toList = texts.flatten ++ service ∧
      List.Forall₂ Retyped row texts ∧ interfaceNames flat.text = row.filterMap Item.name? ∧
      interfaceNames out.text.toList = ["PageResponse<T>"] := by
  intro tree row service
  have hnamed : WordNamed (.ofRules []) "app" [infoEntity] (some ["a", "b"]) :=
    ⟨by decide +kernel, by unfold KeyChars; decide +kernel, by decide +kernel, by decide +kernel, by decide⟩
  have hfree : HeaderFree (.ofRules []) [infoEntity] tree (some ["a", "b"]) := by
    unfold HeaderFree
    decide +kernel
  have hnames : row.filterMap Item.name? =
      ["MemberInfo", "PagePagination", "PageResponse<T>", "UserInfoPageResponse", "UserInfo", "UserInterface"] := by
    decide +kernel
  exact ⟨⟨hnamed, hfree, hnames⟩, interfaces_become_types _ _ _ _ hnamed hfree⟩

/-! ### Comments that change declarations -/

/-- Two blanks in the comment become one, so that it becomes the header with an empty block. -/
def headerEntity : Entity := agedEntity "export  type Service = \x7b \x7d"

/-- The comment reads like an interface, behind a brace that closes. -/
def namesakeEntity : Entity := agedEntity "\x7d interface Foo \x7b a \x7d"

/-- **Comments can change declarations.**  One that becomes the header takes the place of the service type, with
nothing behind it; and one that reads like an interface becomes a type in a body that is kept otherwise. -/
theorem comments_change_declarations :
    (let tree := RouteTree.build "app" [headerEntity]
     WordNamed (.ofRules []) "app" [headerEntity] none ∧
      (∀ s ∈ givenStrings headerEntity, Text.contains serviceHeader s.toList = false) ∧
      ∃ out, synthesize .uniappX (.ofRules []) [headerEntity] tree none = .ok out ∧
        interfaceNames out.text.toList = [] ∧
        Text.contains "export type PagePagination = \x7b".toList out.text.toList = false) ∧
    (let tree := RouteTree.build "app" [namesakeEntity]
     let i := entityInterface (.ofRules []) namesakeEntity
     WordNamed (.ofRules []) "app" [namesakeEntity] none ∧ HeaderFree (.ofRules []) [namesakeEntity] tree none ∧
      ∃ out, synthesize .uniappX (.ofRules []) [namesakeEntity] tree none = .ok out ∧
        Text.contains (i.type i.body) out.text.toList = false) := by
  refine ⟨?header, ?namesake⟩
  case header =>
    intro tree
    refine ⟨⟨by decide +kernel, by unfold KeyChars; decide +kernel, by decide +kernel, by decide, by decide⟩,
      by decide, ?_⟩
    let front := "export interface A \x7b\n\t/**\n\t * ".toList
    let text := (leadItems (.ofRules []) [headerEntity] tree none).flatMap Item.text ++
      '\n' :: serviceHeader ++ ('\n' :: (chains (parts [headerEntity] [] tree)).toList ++ "\n\x7d\n".toList)
    let back := text.drop (front.length + serviceHeader.length)
    have htext : (plainText .uniappX (.ofRules []) [headerEntity] tree none).toList = text := by
      rw [toList_plainText, toList_join_leadTexts]
    have hsplit : text = front ++ serviceHeader ++ back := by decide +kernel
    have hbreak := @breakOn?_serviceHeader front (clear_of_contains (by decide)) back
    have hblock : (takeBraced? 0 (unbroken back)).map Prod.fst = some [' '] := by decide +kernel
    obtain ⟨⟨body, rest⟩, hbody, rfl⟩ := Option.map_eq_some_iff.1 hblock
    rw [← hsplit] at hbreak
    have hflat := flatten_eq_ok_iff.2 ⟨front, back, _, rest, hbreak, hbody, rfl⟩
    rw [synthesize_eq_flatten, htext, hflat]
    refine ⟨_, rfl, ?_⟩
    dsimp only
    rw [ofChars, String.toList_ofList]
    decide +kernel
  case namesake =>
    intro tree i
    have hfree : HeaderFree (.ofRules []) [namesakeEntity] tree none := by
      unfold HeaderFree
      decide +kernel
    refine ⟨⟨by decide +kernel, by unfold KeyChars; decide +kernel, by decide +kernel, by decide, by decide⟩,
      hfree, ?_⟩
    obtain ⟨flat, hflat, htext⟩ := flatten_plainText hfree
    rw [synthesize_eq_flatten, hflat]
    refine ⟨_, rfl, ?_⟩
    dsimp only
    rw [ofChars, String.toList_ofList, htext]
    decide +kernel

end main

end ClientBuild.Declaration
