import ClientBuild.Proofs.Declaration.Declared
import ClientBuild.Proofs.Declaration.OneLine
import ClientBuild.Proofs.Declaration.Shapes

/-!
# Flattening again

A text that has been flattened can be flattened again: what was written behind the text in front is balanced
(`flatten_flattened`).  It changes only blanks when no interface has the header of the service type in it and the
objects are apart: then the first pass lifts every object, and nothing is left for the second one
(`flatten_again`).  An object that stands in a later one as well is replaced there, so the later one is not found
any more and stays; the second pass lifts it, although it has an interface (`flatten_again_changes`).
-/

namespace ClientBuild.Declaration

/-! ## What is written -/

/-- The interfaces of the objects of a service type. -/
def interfaces (body : List Char) : List Char :=
  (firstShapes ((objectsIn body).map shapeIn)).flatMap fun (k, shape) => interfaceText k shape

/-- The service type itself, behind its line break. -/
def serviceLine (body : List Char) : List Char :=
  serviceHeader ++ ' ' :: (oneLine (Text.trim body) (objectsIn body) ++ " \x7d".toList)

theorem text_flattened (before body : List Char) :
    (flattened before body).text = before ++ (interfaces body ++ '\n' :: serviceLine body) := by
  have hheader : "\nexport type Service = \x7b ".toList = '\n' :: (serviceHeader ++ [' ']) := by decide
  rw [flattened, hheader, serviceLine]
  simp [interfaces]

theorem mem_firstShapes {ps : List (String × List Char)} {p : String × List Char} (h : p ∈ firstShapes ps) :
    p ∈ ps := by
  obtain ⟨key, -, hfound⟩ := List.mem_filterMap.1 h
  obtain ⟨shape, hshape, rfl⟩ := Option.map_eq_some_iff.1 hfound
  exact Assoc.mem_of_get? hshape

/-- An interface is that of an object, which is written in the service type. -/
theorem exists_of_mem_firstShapes {body : List Char} {p : String × List Char}
    (h : p ∈ firstShapes ((objectsIn body).map shapeIn)) :
    ∃ o v, o ∈ objectsIn body ∧ o.Written v ∧ p = shapeIn o := by
  obtain ⟨o, ho, rfl⟩ := List.mem_map.1 (mem_firstShapes h)
  obtain ⟨⟨v, hv⟩, -⟩ := written_of_mem_objectsIn ho
  exact ⟨o, v, ho, hv, rfl⟩

theorem balanced_interfaceText {key shape : List Char} (hkey : IsWord key) (hshape : Balanced shape) :
    Balanced (interfaceText (String.ofList key) shape) := by
  have hblank : BraceFree [' '] := by constructor <;> decide
  have hword : BraceFree ('\n' :: "export interface ".toList) := by constructor <;> decide
  have hfront := (hword.append (braceFree_of_word (isWord_interfaceName hkey))).append hblank
  have hblock := ((hblank.balanced.append hshape).append hblank.balanced).braced
  have hall := (hfront.balanced.append hblock).append (BraceFree.balanced (s := ['\n']) (by constructor <;> decide))
  have hopen : " \x7b".toList = [' ', '{'] := by decide
  have hclose : " \x7d\n".toList = [' ', '}', '\n'] := by decide
  have hchars : (String.ofList key).toList = key := String.toList_ofList
  rw [interfaceText_eq, hchars, hopen, hclose]
  simpa only [List.append_assoc, List.cons_append, List.nil_append] using hall

theorem balanced_shapeIn {o : NestedObject} {v : List Char} (ho : o.Written v) : Balanced (shapeIn o).2 :=
  ho.balanced.trim.oneLine fun _ ho' => (written_of_mem_objectsIn ho').1

theorem balanced_interfaces (body : List Char) : Balanced (interfaces body) := by
  have hall : ∀ p ∈ firstShapes ((objectsIn body).map shapeIn), Balanced (interfaceText p.1 p.2) := by
    intro p hp
    obtain ⟨o, v, -, ho, rfl⟩ := exists_of_mem_firstShapes hp
    exact balanced_interfaceText ho.label.1 (balanced_shapeIn ho)
  rw [interfaces]
  generalize firstShapes ((objectsIn body).map shapeIn) = ps at hall
  induction ps with
  | nil => exact balanced_nil
  | cons p ps ih =>
    obtain ⟨hp, hps⟩ := List.forall_mem_cons.1 hall
    exact hp.append (ih hps)

theorem balanced_level {body : List Char} (h : Balanced body) :
    Balanced (oneLine (Text.trim body) (objectsIn body)) :=
  h.trim.oneLine fun _ ho => (written_of_mem_objectsIn ho).1

theorem balanced_serviceLine {body : List Char} (h : Balanced body) : Balanced (serviceLine body) := by
  have hheader : serviceHeader = serviceHeader.dropLast ++ ['{'] := by decide
  have hblank : Balanced [' '] := (BraceFree.balanced (by constructor <;> decide))
  have hwords : Balanced serviceHeader.dropLast := (BraceFree.balanced (by constructor <;> decide))
  have hall := hwords.append ((hblank.append (balanced_level h)).append hblank).braced
  rw [serviceLine, hheader]
  simpa using hall

/-! ## Flattening again succeeds -/

/-- A text can be flattened where all that is behind a line break is balanced and has the header. -/
theorem exists_flatten {before tail : List Char} (hbefore : ¬ serviceHeader <:+: before)
    (htail : Balanced ('\n' :: tail)) (hheader : serviceHeader <:+: tail) :
    ∃ flat, flatten (before ++ '\n' :: tail) = .ok flat := by
  obtain ⟨⟨a, b⟩, hbreak⟩ : ∃ p, Text.breakOn? serviceHeader (before ++ '\n' :: tail) = some p := by
    rw [← Option.ne_none_iff_exists', ne_eq, Text.breakOn?_eq_none_iff, Classical.not_not]
    exact hheader.trans ((List.suffix_cons '\n' tail).trans (List.suffix_append before _)).isInfix
  have hsplit := Text.eq_of_breakOn? hbreak
  rcases Text.append_eq_append_cons hsplit.symm with ⟨w, hw, rfl⟩ | ⟨w, rfl, -⟩
  · -- The header stands behind the line break, and its brace is closed there.
    obtain ⟨u, -, rfl⟩ := Text.exists_of_append_eq hw (show '\n' ∉ serviceHeader by decide)
    have hend : serviceHeader = serviceHeader.dropLast ++ ['{'] := by decide
    have hunbroken : unbroken ('\n' :: (u ++ serviceHeader ++ b)) =
        unbroken (u ++ serviceHeader.dropLast) ++ '{' :: unbroken b := by
      conv_lhs => rw [hend]
      simp [unbroken]
    have hbalanced := htail.unbroken
    rw [hunbroken] at hbalanced
    obtain ⟨body, rest, hbody, -⟩ := hbalanced.exists_takeBraced?
    exact ⟨_, flatten_eq_ok_iff.2 ⟨a, b, body, rest, hbreak, hbody, rfl⟩⟩
  · exact absurd ⟨a, w, rfl⟩ hbefore

/-- Interfaces begin with a line break, and so does what is behind them. -/
theorem interfaces_append_line (body s : List Char) :
    ∃ tail, interfaces body ++ '\n' :: s = '\n' :: tail ∧ s <:+ tail := by
  rw [interfaces]
  cases firstShapes ((objectsIn body).map shapeIn) with
  | nil => exact ⟨s, rfl, List.suffix_refl s⟩
  | cons p ps => exact ⟨_, rfl, (List.suffix_cons '\n' s).trans (List.suffix_append _ _)⟩

/-- **What has been flattened can be flattened again.** -/
theorem flatten_flattened {before body : List Char} (hbefore : ¬ serviceHeader <:+: before) (hbody : Balanced body) :
    ∃ again, flatten (flattened before body).text = .ok again := by
  have hline : Balanced ('\n' :: serviceLine body) :=
    Balanced.append (s := ['\n']) (BraceFree.balanced (by constructor <;> decide)) (balanced_serviceLine hbody)
  have htail := (balanced_interfaces body).append hline
  have hheader : serviceHeader <:+: serviceLine body := (List.prefix_append _ _).isInfix
  obtain ⟨tail, htext, hinside⟩ := interfaces_append_line body (serviceLine body)
  rw [text_flattened, htext]
  rw [htext] at htail
  exact exists_flatten hbefore htail (hheader.trans hinside.isInfix)

/-! ## Flattening again changes nothing -/

/-- The header of the service type stands in an interface only if it stands in its shape. -/
theorem infix_of_infix_interfaceText {key shape : List Char} (hkey : IsWord key)
    (h : serviceHeader <:+: interfaceText (String.ofList key) shape) : serviceHeader <:+: shape := by
  have hend : serviceHeader = serviceHeader.dropLast ++ ['{'] := by decide
  have hstart : serviceHeader = 'e' :: serviceHeader.tail := by decide
  have hopen : " \x7b".toList = [' '] ++ ['{'] := by decide
  have hsplit : interfaceText (String.ofList key) shape =
      ('\n' :: "export interface ".toList ++ interfaceName key ++ [' ']) ++
        '{' :: ([' '] ++ (shape ++ " \x7d\n".toList)) := by
    have hchars : (String.ofList key).toList = key := String.toList_ofList
    rw [interfaceText_eq, hchars, hopen]
    simp only [List.append_assoc, List.cons_append, List.nil_append]
  have hfront : '{' ∉ '\n' :: "export interface ".toList ++ interfaceName key ++ [' '] := by
    simp [(braceFree_of_word (isWord_interfaceName hkey)).1]
  rw [hsplit, hend] at h
  rcases Text.infix_concat_append_cons (by decide) hfront h with ⟨x, hx⟩ | h
  · -- The equals sign would be the last character of the name.
    have hequals : serviceHeader.dropLast = "export type Service ".toList ++ ['='] ++ [' '] := by decide
    have hname : interfaceName key = capitalize key ++ "Interfac".toList ++ ['e'] := by
      rw [interfaceName, List.append_assoc]
      rfl
    rw [hequals, ← List.append_assoc] at hx
    obtain ⟨hx, -⟩ := List.append_inj' hx rfl
    rw [hname, ← List.append_assoc, ← List.append_assoc] at hx
    obtain ⟨-, hlast⟩ := List.append_inj' hx rfl
    cases hlast
  · rw [← hend, hstart] at h
    have hbehind := Text.infix_of_infix_append_right (by decide) h
    rw [← hstart, hend] at hbehind
    rw [hend]
    exact Text.infix_of_infix_append (by decide) hbehind

theorem not_infix_interfaces {body : List Char}
    (h : ∀ o ∈ objectsIn body, ¬ serviceHeader <:+: (shapeIn o).2) : ¬ serviceHeader <:+: interfaces body := by
  have hall : ∀ p ∈ firstShapes ((objectsIn body).map shapeIn), ¬ serviceHeader <:+: interfaceText p.1 p.2 := by
    intro p hp
    obtain ⟨o, v, hmem, ho, rfl⟩ := exists_of_mem_firstShapes hp
    exact fun hinside => h o hmem (infix_of_infix_interfaceText ho.label.1 hinside)
  rw [interfaces]
  generalize firstShapes ((objectsIn body).map shapeIn) = ps at hall
  induction ps with
  | nil => decide
  | cons p ps ih =>
    obtain ⟨key, shape⟩ := p
    obtain ⟨hp, hps⟩ := List.forall_mem_cons.1 hall
    obtain ⟨t, ht⟩ : ∃ t, interfaceText key shape = t ++ ['\n'] :=
      ⟨_, (List.append_assoc _ [' ', '}'] ['\n']).symm⟩
    dsimp only at hp
    rw [ht] at hp
    rw [List.flatMap_cons]
    dsimp only
    rw [ht, List.append_assoc, List.singleton_append, Text.infix_append_cons_iff (by decide), not_or]
    exact ⟨fun hinside => hp (hinside.trans (List.prefix_append _ _).isInfix), ih hps⟩

/-- No object is left in the service type, when its objects are apart. -/
theorem spent_level {body : List Char} (h : Balanced body) (hapart : Apart (outermost (Text.trim body))) :
    Spent (oneLine (Text.trim body) (objectsIn body)) := by
  have hrow := row_outermost h.trim.closing
  have hspent := hrow.foldl_refer (Follows.refl _) (fun t ht => (hrow.written t ht).1) hapart
  rw [← objectsIn_eq_flatMap h.trim.closing, objectsIn_trim h] at hspent
  exact hspent.oneLine

theorem unbroken_of_neat {s : List Char} (h : Neat s) : unbroken s = s := by
  refine List.filter_eq_self.2 fun c hc => ?_
  have hline : c ≠ '\n' := by
    rintro rfl
    exact absurd (h.eq_blank _ hc (by decide)) (by decide)
  have htab : c ≠ '\t' := by
    rintro rfl
    exact absurd (h.eq_blank _ hc (by decide)) (by decide)
  simp [hline, htab]

/-- What has been flattened is flattened again to the same text with one more line break, when its interfaces do
not have the header in them and the objects are apart. -/
theorem flatten_text_flattened {before body : List Char} (hbefore : ¬ serviceHeader <:+: before)
    (hbody : Balanced body) (hheader : ∀ o ∈ objectsIn body, ¬ serviceHeader <:+: (shapeIn o).2)
    (hapart : Apart (outermost (Text.trim body))) :
    flatten (flattened before body).text =
      .ok ⟨before ++ (interfaces body ++ '\n' :: '\n' :: serviceLine body), []⟩ := by
  let level := oneLine (Text.trim body) (objectsIn body)
  have hneat : Neat level := neat_oneLine _ _
  have hblank : ∀ c ∈ [' '], Text.isBlank c = true := List.forall_mem_singleton.2 (by decide)
  have htrim : Text.trim ([' '] ++ (level ++ [' '])) = level :=
    (Text.trim_append_of_blank hblank hblank level).trans (Text.trim_trim _)
  have hbalanced : Balanced ([' '] ++ (level ++ [' '])) := by
    have hspace : Balanced [' '] := BraceFree.balanced (by constructor <;> decide)
    exact hspace.append ((balanced_level hbody).append hspace)
  have hobjects : objectsIn ([' '] ++ (level ++ [' '])) = [] := by
    rw [← objectsIn_trim hbalanced, htrim]
    exact (spent_level hbody hapart).objectsIn
  have hagain : (flattened (before ++ (interfaces body ++ ['\n'])) ([' '] ++ (level ++ [' ']))) =
      ⟨before ++ (interfaces body ++ '\n' :: '\n' :: serviceLine body), []⟩ := by
    have htext := text_flattened (before ++ (interfaces body ++ ['\n'])) ([' '] ++ (level ++ [' ']))
    have hinterfaces : interfaces ([' '] ++ (level ++ [' '])) = [] := by
      rw [interfaces, hobjects]
      rfl
    have hline : serviceLine ([' '] ++ (level ++ [' '])) = serviceLine body := by
      rw [serviceLine, hobjects, htrim, oneLine_oneLine]
      rfl
    rw [hinterfaces, hline] at htext
    rw [flattened, hobjects] at htext ⊢
    dsimp only at htext
    rw [htext]
    simp [otherShapes, Text.distinct, Text.dedupFrom]
  rw [← hagain, text_flattened]
  refine flatten_eq_ok_iff.2 ⟨_, ' ' :: (level ++ " \x7d".toList), _, [], ?_, ?_, rfl⟩
  · have hfront : ¬ serviceHeader <:+: before ++ (interfaces body ++ ['\n']) := by
      obtain ⟨tail, htail, -⟩ := interfaces_append_line body []
      have hnone : ¬ serviceHeader <:+: '\n' :: tail := by
        rw [← htail, Text.infix_append_cons_iff (by decide), not_or]
        exact ⟨not_infix_interfaces hheader, by decide⟩
      rw [htail, Text.infix_append_cons_iff (by decide), not_or]
      exact ⟨hbefore, fun hinside => hnone (hinside.trans (List.suffix_cons '\n' tail).isInfix)⟩
    have hbreak := breakOn?_serviceHeader hfront (' ' :: (level ++ " \x7d".toList))
    rw [← hbreak, serviceLine]
    simp [level]
  · have hunbroken : unbroken (' ' :: (level ++ " \x7d".toList)) = [' '] ++ (level ++ [' ']) ++ '}' :: [] := by
      have hsplit : ' ' :: (level ++ " \x7d".toList) = [' '] ++ (level ++ " \x7d".toList) := rfl
      rw [hsplit, unbroken_append, unbroken_append, unbroken_of_neat hneat]
      simp [unbroken]
    rw [hunbroken]
    exact hbalanced.takeBraced? []

/-- **Flattening again.**  What has been flattened can be flattened again.  When no shape has the header of the
service type in it, and no object inside an outermost one stands in a later outermost one as well, nothing but
blanks changes: no object is left in the service type, so no interface is written again. -/
theorem flatten_again {text : List Char} {flat : Flattened} (h : flatten text = .ok flat) :
    ∃ again, flatten flat.text = .ok again ∧ ∀ before service body rest,
      Text.breakOn? serviceHeader text = some (before, service) →
        takeBraced? 0 (unbroken service) = some (body, rest) →
        (∀ o ∈ objectsIn body, ∀ p, keyedShape o = .ok p → ¬ serviceHeader <:+: p.2) →
        Apart (outermost (Text.trim body)) →
          Text.words again.text = Text.words flat.text ∧ again.collisions = [] ∧
            ∃ front level, flat.text = front ++ '\n' :: (serviceHeader ++ ' ' :: (level ++ " \x7d".toList)) ∧
              again.text = front ++ '\n' :: '\n' :: (serviceHeader ++ ' ' :: (level ++ " \x7d".toList)) ∧
              nestedObjects level = .ok [] := by
  obtain ⟨before, service, body, rest, hbreak, hbody, rfl⟩ := flatten_eq_ok_iff.1 h
  have hbefore : ¬ serviceHeader <:+: before := fun hinside =>
    ((Text.breakOn?_eq_some_iff (by decide)).1 hbreak).2 (hinside.trans (List.prefix_append _ _).isInfix)
  have hbalanced : Balanced body := (takeBraced?_eq_some_iff.1 hbody).2
  obtain ⟨again, hagain⟩ := flatten_flattened hbefore hbalanced
  refine ⟨again, hagain, fun before' service' body' rest' hbreak' hbody' hheader hapart => ?_⟩
  rw [hbreak] at hbreak'
  cases hbreak'
  rw [hbody] at hbody'
  cases hbody'
  have hshapes : ∀ o ∈ objectsIn body, ¬ serviceHeader <:+: (shapeIn o).2 := fun o ho => by
    obtain ⟨⟨v, hv⟩, -⟩ := written_of_mem_objectsIn ho
    exact hheader o ho _ (keyedShape_eq hv.balanced)
  rw [flatten_text_flattened hbefore hbalanced hshapes hapart] at hagain
  cases hagain
  rw [text_flattened, ← List.append_assoc, ← List.append_assoc]
  refine ⟨?_, rfl, _, _, rfl, rfl, ?_⟩
  · have hblank : Text.isBlank '\n' = true := by decide
    have hline := Text.words_append_cons hblank [] (serviceLine body)
    rw [Text.words_append_cons hblank, Text.words_append_cons hblank]
    exact congrArg _ hline
  · rw [(balanced_level hbalanced).closing.nestedObjects_eq, (spent_level hbalanced hapart).objectsIn]

/-- Two objects side by side, the second one with an object in it. -/
theorem flatten_again_base :
    let body := " base: \x7b sys: \x7b user: BaseSysUser; \x7d; \x7d; demo: \x7b goods: DemoGoods; \x7d; ".toList
    let text := serviceHeader ++ body ++ ['}']
    let flat := flattened [] body
    (flatten text = .ok flat ∧ Text.breakOn? serviceHeader text = some ([], body ++ ['}']) ∧
      takeBraced? 0 (unbroken (body ++ ['}'])) = some (body, []) ∧
      (∀ o ∈ objectsIn body, ∀ p, keyedShape o = .ok p → ¬ serviceHeader <:+: p.2) ∧
      Apart (outermost (Text.trim body))) ∧
    ∃ again, flatten flat.text = .ok again ∧
      Text.words again.text = Text.words flat.text ∧ again.collisions = [] ∧
        ∃ front level, flat.text = front ++ '\n' :: (serviceHeader ++ ' ' :: (level ++ " \x7d".toList)) ∧
          again.text = front ++ '\n' :: '\n' :: (serviceHeader ++ ' ' :: (level ++ " \x7d".toList)) ∧
          nestedObjects level = .ok [] := by
  intro body text flat
  have hbreak : Text.breakOn? serviceHeader text = some ([], body ++ ['}']) := by decide
  have hbody : takeBraced? 0 (unbroken (body ++ ['}'])) = some (body, []) := by decide
  have hflat : flatten text = .ok flat := flatten_eq_ok_iff.2 ⟨[], _, body, [], hbreak, hbody, rfl⟩
  have hshapes : (objectsIn body).all (fun o => !Text.contains serviceHeader (shapeIn o).2) = true := by decide
  have hheader : ∀ o ∈ objectsIn body, ∀ p, keyedShape o = .ok p → ¬ serviceHeader <:+: p.2 := by
    intro o ho p hp
    obtain ⟨⟨v, hv⟩, -⟩ := written_of_mem_objectsIn ho
    rw [keyedShape_eq hv.balanced] at hp
    cases hp
    exact Text.contains_eq_false_iff.1 (by simpa using List.all_eq_true.1 hshapes o ho)
  have hapart : Apart (outermost (Text.trim body)) := by decide
  obtain ⟨again, hagain, hsame⟩ := flatten_again hflat
  exact ⟨⟨hflat, hbreak, hbody, hheader, hapart⟩, again, hagain, hsame _ _ _ _ hbreak hbody hheader hapart⟩

/-- An object is replaced in the one behind it, which is not found any more and stays; flattening again lifts
it, although it has an interface. -/
theorem flatten_again_changes :
    let body := " y: \x7b a: \x7b p: P; \x7d; \x7d; z: \x7b a: \x7b p: P; \x7d; q: Q; \x7d; ".toList
    let flat := flattened [] body
    flatten (serviceHeader ++ body ++ ['}']) = .ok flat ∧
      ∃ again, flatten flat.text = .ok again ∧ Text.words again.text ≠ Text.words flat.text := by
  intro body flat
  have hflat : flatten (serviceHeader ++ body ++ ['}']) = .ok flat :=
    flatten_eq_ok_iff.2 ⟨[], body ++ ['}'], body, [], by decide, by decide, rfl⟩
  have hbreak : Text.breakOn? serviceHeader flat.text = some (interfaces body ++ ['\n'],
      " y: YInterface; z: \x7b a: AInterface; q: Q; \x7d; \x7d".toList) := by decide +kernel
  have hagain : flatten flat.text = .ok
      (flattened (interfaces body ++ ['\n']) " y: YInterface; z: \x7b a: AInterface; q: Q; \x7d; ".toList) :=
    flatten_eq_ok_iff.2 ⟨_, _, _, [], hbreak, by decide, rfl⟩
  exact ⟨hflat, _, hagain, by decide +kernel⟩

end ClientBuild.Declaration
