import ClientBuild.Proofs.Declaration.Groups
import ClientBuild.Proofs.Text.Replace
import ClientBuild.Proofs.Text.Words

/-!
# The members of the service type

An object type is a tree: its members are keys with the name of a type, or keys with the members of an
object in braces.  The search for nested objects finds the objects of the tree, each one in front of those
in it (`Members.nestedObjects_line`).  One level of the tree is left when they are replaced by the names of
their interfaces (`Members.currentLevel_line`): the braces of an object are the first ones of the text when
its turn comes, and an object in it is gone by then, since it has a type that stands nowhere else.
-/

namespace ClientBuild.Declaration

/-- The members of an object type, in order. -/
inductive Members where
  | nil
  /-- A key with the name of a type. -/
  | leaf (key type : List Char) (rest : Members)
  /-- A key with an object. -/
  | object (key : List Char) (inner rest : Members)
deriving DecidableEq

/-- A key with the name of a type, as a member of an object type in which nothing is nested. -/
structure Field where
  key : List Char
  type : List Char
deriving DecidableEq

/-- A field as it is written. -/
def Field.text (f : Field) : List Char := f.key ++ ": ".toList ++ f.type ++ [';']

/-- Fields on one line. -/
def fieldsText (fs : List Field) : List Char := Text.join [' '] (fs.map Field.text)

namespace Members

/-! ## Texts of members -/

/-- The lines of members, as the walk of the tree of routes writes them. -/
def text : Members → List Char
  | nil => []
  | leaf key type rest => key ++ ": ".toList ++ type ++ ";\n".toList ++ rest.text
  | object key inner rest =>
    key ++ ": \x7b\n".toList ++ inner.text ++ "\x7d;\n".toList ++ rest.text

/-- The lines of members without their breaks. -/
def line : Members → List Char
  | nil => []
  | leaf key type rest => key ++ ": ".toList ++ type ++ [';'] ++ rest.line
  | object key inner rest => objectText key inner.line ++ [';'] ++ rest.line

/-- The fields that stand for members: an object has the name of its interface. -/
def fields : Members → List Field
  | nil => []
  | leaf key type rest => ⟨key, type⟩ :: rest.fields
  | object key _ rest => ⟨key, interfaceName key⟩ :: rest.fields

/-- The objects at any depth with their keys, each one in front of those in it. -/
def objects : Members → List (List Char × Members)
  | nil => []
  | leaf _ _ rest => rest.objects
  | object key inner rest => (key, inner) :: inner.objects ++ rest.objects

/-- The types that members name at any depth. -/
def types : Members → List (List Char)
  | nil => []
  | leaf _ type rest => type :: rest.types
  | object _ inner rest => inner.types ++ rest.types

/-- Are all keys and types words, and has every object a member? -/
def Worded : Members → Prop
  | nil => True
  | leaf key type rest => IsWord key ∧ IsWord type ∧ rest.Worded
  | object key inner rest => IsWord key ∧ inner ≠ nil ∧ inner.Worded ∧ rest.Worded

instance decidableWorded : ∀ ms : Members, Decidable ms.Worded
  | nil => isTrue trivial
  | leaf _ _ rest =>
    have := decidableWorded rest
    inferInstanceAs (Decidable (_ ∧ _ ∧ _))
  | object _ inner rest =>
    have := decidableWorded inner
    have := decidableWorded rest
    inferInstanceAs (Decidable (_ ∧ _ ∧ _ ∧ _))

end Members

theorem IsWord.not_mem {s : List Char} (h : IsWord s) {c : Char} (hc : Text.isWordAscii c = false) :
    c ∉ s := fun hmem => by
  rw [h.2 c hmem] at hc
  cases hc

theorem isWord_interfaceName {key : List Char} (h : IsWord key) : IsWord (interfaceName key) := by
  have hword : ∀ c ∈ "Interface".toList, Text.isWordAscii c = true := by decide
  refine ⟨List.append_ne_nil_of_right_ne_nil _ (by decide), fun c hc => ?_⟩
  rcases List.mem_append.1 hc with hc | hc
  · exact (mem_of_mem_raiseFrom hc).elim (h.2 c) id
  · exact hword c hc

namespace Members

theorem unbroken_text : ∀ {ms : Members}, ms.Worded → unbroken ms.text = ms.line
  | nil, _ => rfl
  | leaf key type rest, ⟨hkey, htype, hrest⟩ => by
    simp only [text, line, unbroken_append, unbroken_of_names hkey.isName.2,
      unbroken_of_names htype.isName.2, unbroken_text hrest]
    rfl
  | object key inner rest, ⟨hkey, _, hinner, hrest⟩ => by
    simp only [text, line, objectText, unbroken_append, unbroken_of_names hkey.isName.2,
      unbroken_text hinner, unbroken_text hrest]
    simp [unbroken]

theorem balanced_line : ∀ {ms : Members}, ms.Worded → Balanced ms.line
  | nil, _ => balanced_nil
  | leaf key type rest, ⟨hkey, htype, hrest⟩ => by
    have hcolon : BraceFree ": ".toList := by constructor <;> decide
    have hstop : BraceFree [';'] := by constructor <;> decide
    exact ((((braceFree_of_word hkey).append hcolon).append (braceFree_of_word htype)).append hstop).balanced.append
      (balanced_line hrest)
  | object key inner rest, ⟨hkey, _, hinner, hrest⟩ => by
    have hcolon : BraceFree ": ".toList := by constructor <;> decide
    have hstop : BraceFree [';'] := by constructor <;> decide
    exact ((((braceFree_of_word hkey).append hcolon).balanced.append (balanced_line hinner).braced).append
      hstop.balanced).append (balanced_line hrest)

theorem line_ne_nil : ∀ {ms : Members}, ms ≠ nil → ms.line ≠ []
  | leaf key type rest, _ => by simp [line]
  | object key inner rest, _ => by simp [line]

/-! ## What the search finds -/

/-- An object as the search finds it. -/
def found (o : List Char × Members) : NestedObject := ⟨o.1, o.2.line, objectText o.1 o.2.line⟩

theorem findAll_line (size : Nat) : ∀ {ms : Members}, ms.Worded → ∀ s : List Char,
    Text.findAll (nestedObject? size) (ms.line ++ s) =
      ms.objects.map (fun o => .ok (some (found o))) ++ Text.findAll (nestedObject? size) s
  | nil, _, _ => rfl
  | leaf key type rest, ⟨hkey, htype, hrest⟩, s => by
    rw [line, objects, List.append_assoc, findAll_leaf hkey.isName.2 htype.isName, findAll_line size hrest]
  | object key inner rest, ⟨hkey, hne, hinner, hrest⟩, s => by
    rw [line, objects, List.append_assoc, findAll_group hkey (balanced_line hinner) (line_ne_nil hne),
      findAll_line size hinner, findAll_close, findAll_line size hrest]
    simp [found]

theorem nestedObjects_line {ms : Members} (h : ms.Worded) :
    nestedObjects ms.line = .ok (ms.objects.map found) := by
  have hmapM : ∀ os : List (List Char × Members),
      (os.map fun o => (.ok (some (found o)) : Except Failure (Option NestedObject))).mapM id =
        .ok (os.map fun o => some (found o)) := by
    intro os
    induction os with
    | nil => rfl
    | cons o os ih =>
      rw [List.map_cons, List.mapM_cons, ih]
      rfl
  have hall := findAll_line (Text.byteSize ms.line) h []
  rw [List.append_nil] at hall
  refine nestedObjects_eq_ok.2 ⟨ms.objects.map fun o => some (found o), ?_, ?_⟩
  · rw [hall, ← hmapM]
    simp [Text.findAll, Text.findAllFrom]
  · rw [List.filterMap_map]
    exact List.filterMap_eq_map ▸ rfl

end Members

/-! ## The types in a text -/

/-- A type as it stands behind its key. -/
def typeMark (type : List Char) : List Char := ':' :: ' ' :: (type ++ [';'])

/-- A text of lines with the types in them: fields, the first and the last lines of objects, and further
semicolons. -/
inductive Lines : List Char → List (List Char) → Prop where
  | nil : Lines [] []
  | field {key type s : List Char} {ts : List (List Char)} : IsWord key → IsWord type → Lines s ts →
      Lines (key ++ ": ".toList ++ type ++ [';'] ++ s) (type :: ts)
  | stop {s : List Char} {ts : List (List Char)} : Lines s ts → Lines (';' :: s) ts
  | opening {key s : List Char} {ts : List (List Char)} : IsWord key → Lines s ts →
      Lines (key ++ ": ".toList ++ '{' :: s) ts
  | closing {s : List Char} {ts : List (List Char)} : Lines s ts → Lines ('}' :: ';' :: s) ts

theorem Lines.append {s t : List Char} {ts us : List (List Char)} (hs : Lines s ts) (ht : Lines t us) :
    Lines (s ++ t) (ts ++ us) := by
  induction hs with
  | nil => exact ht
  | field hkey htype _ ih =>
    rw [List.append_assoc]
    exact ih.field hkey htype
  | stop _ ih => exact ih.stop
  | opening hkey _ ih =>
    rw [List.append_assoc, List.cons_append]
    exact ih.opening hkey
  | closing _ ih => exact ih.closing

/-- What stands in front of the first colon is passed. -/
theorem typeMark_infix_append {type a s : List Char} (ha : ':' ∉ a) (h : typeMark type <:+: a ++ s) :
    typeMark type <:+: s := by
  induction a with
  | nil => exact h
  | cons c a ih =>
    obtain ⟨hc, ha⟩ := List.ne_and_not_mem_of_not_mem_cons ha
    rcases List.infix_cons_iff.1 h with ⟨t, ht⟩ | h
    · exact absurd (List.cons.inj ht).1 hc
    · exact ih ha h

/-- **The types in a text of lines are those of its fields.** -/
theorem Lines.mem_of_infix {s type : List Char} {ts : List (List Char)} (hs : Lines s ts)
    (htype : IsWord type) (h : typeMark type <:+: s) : type ∈ ts := by
  have hcolon {w : List Char} (hw : IsWord w) : ':' ∉ w := hw.not_mem (by decide)
  induction hs with
  | nil => exact absurd (List.infix_nil.1 h) (List.cons_ne_nil _ _)
  | @field key u s ts hkey hu _ ih =>
    have hsplit : key ++ ": ".toList ++ u ++ [';'] ++ s = key ++ ':' :: (' ' :: u ++ ';' :: s) := by simp
    rw [hsplit] at h
    rcases List.infix_cons_iff.1 (typeMark_infix_append (hcolon hkey) h) with ⟨t, ht⟩ | h
    · have hend : type ++ ';' :: t = u ++ ';' :: s := by simpa [typeMark] using ht
      obtain ⟨rfl, -⟩ := Text.append_cons_inj (htype.not_mem (by decide)) (hu.not_mem (by decide)) hend
      exact List.mem_cons_self
    · have hrest := typeMark_infix_append (a := ' ' :: u ++ [';'])
        (by simp [hcolon hu]) (by simpa using h)
      exact List.mem_cons_of_mem _ (ih hrest)
  | stop _ ih => exact ih (typeMark_infix_append (a := [';']) (by decide) h)
  | @opening key s ts hkey _ ih =>
    have hsplit : key ++ ": ".toList ++ '{' :: s = key ++ ':' :: (' ' :: '{' :: s) := by simp
    rw [hsplit] at h
    rcases List.infix_cons_iff.1 (typeMark_infix_append (hcolon hkey) h) with ⟨t, ht⟩ | h
    · obtain ⟨c, type, rfl⟩ := List.exists_cons_of_ne_nil htype.1
      obtain ⟨rfl, -⟩ : c = '{' ∧ type ++ ';' :: t = s := by
        simpa [typeMark] using (List.cons.inj (List.cons.inj ht).2).2
      exact absurd List.mem_cons_self (htype.not_mem (by decide))
    · exact ih (typeMark_infix_append (a := [' ', '{']) (by decide) h)
  | closing _ ih => exact ih (typeMark_infix_append (a := ['}', ';']) (by decide) h)

namespace Members

theorem lines_line : ∀ {ms : Members}, ms.Worded → Lines ms.line ms.types
  | nil, _ => .nil
  | leaf _ _ _, ⟨hkey, htype, hrest⟩ => (lines_line hrest).field hkey htype
  | object key inner rest, ⟨hkey, _, hinner, hrest⟩ => by
    have hsplit : objectText key inner.line ++ [';'] ++ rest.line =
        key ++ ": ".toList ++ '{' :: (inner.line ++ '}' :: ';' :: rest.line) := by simp [objectText]
    rw [line, types, hsplit]
    exact ((lines_line hinner).append (lines_line hrest).closing).opening hkey

theorem isWord_of_mem_types : ∀ {ms : Members}, ms.Worded → ∀ t ∈ ms.types, IsWord t
  | leaf _ type rest, ⟨_, htype, hrest⟩, t, ht => by
    rcases List.mem_cons.1 ht with rfl | ht
    · exact htype
    · exact isWord_of_mem_types hrest t ht
  | object _ _ _, ⟨_, _, hinner, hrest⟩, t, ht =>
    (List.mem_append.1 ht).elim (isWord_of_mem_types hinner t) (isWord_of_mem_types hrest t)

/-- Every object has a type in it. -/
theorem exists_typeMark : ∀ {ms : Members}, ms.Worded → ms ≠ nil → ∃ t ∈ ms.types, typeMark t <:+: ms.line
  | leaf key type rest, _, _ =>
    ⟨type, List.mem_cons_self, key, rest.line, by simp [typeMark, line]⟩
  | object key inner rest, ⟨_, hne, hinner, _⟩, _ => by
    obtain ⟨t, ht, h⟩ := exists_typeMark hinner hne
    refine ⟨t, List.mem_append_left _ ht, h.trans ⟨key ++ ": ".toList ++ ['{'], '}' :: ';' :: rest.line, ?_⟩⟩
    simp [line, objectText]

theorem worded_of_mem_objects : ∀ {ms : Members}, ms.Worded → ∀ o ∈ ms.objects,
    IsWord o.1 ∧ o.2.Worded ∧ o.2 ≠ nil ∧ o.2.types ⊆ ms.types
  | leaf _ type _, ⟨_, _, hrest⟩, o, ho => by
    obtain ⟨hkey, hworded, hne, htypes⟩ := worded_of_mem_objects hrest o ho
    exact ⟨hkey, hworded, hne, List.subset_cons_of_subset type htypes⟩
  | object key inner rest, ⟨hkey, hne, hinner, hrest⟩, o, ho => by
    rcases List.mem_cons.1 ho with rfl | ho
    · exact ⟨hkey, hinner, hne, List.subset_append_left _ _⟩
    rcases List.mem_append.1 ho with ho | ho
    · obtain ⟨hkey, hworded, hne, htypes⟩ := worded_of_mem_objects hinner o ho
      exact ⟨hkey, hworded, hne, List.subset_append_of_subset_left _ htypes⟩
    · obtain ⟨hkey, hworded, hne, htypes⟩ := worded_of_mem_objects hrest o ho
      exact ⟨hkey, hworded, hne, List.subset_append_of_subset_right _ htypes⟩

/-! ## Names for objects -/

/-- One level of members: a name in place of each object, with a second semicolon behind it. -/
def level : Members → List Char
  | nil => []
  | leaf key type rest => key ++ ": ".toList ++ type ++ [';'] ++ rest.level
  | object key _ rest => key ++ ": ".toList ++ interfaceName key ++ [';'] ++ ';' :: rest.level

/-- The object whose braces come first in a text stands there for the first time. -/
theorem replaceFirst_object {key front : List Char} (hkey : IsWord key) (hfront : '{' ∉ front)
    (body r s : List Char) :
    Text.replaceFirst (objectText key body) r (front ++ objectText key body ++ s) = front ++ r ++ s := by
  have hnot : ¬ objectText key body <:+: front ++ (objectText key body).dropLast := by
    rintro ⟨x, y, hxy⟩
    have hlast : (objectText key body).dropLast = key ++ ": ".toList ++ '{' :: body := by
      have hsplit : objectText key body = (key ++ ": ".toList ++ '{' :: body) ++ ['}'] := by
        simp [objectText]
      rw [hsplit, List.dropLast_concat]
    have hopen : '{' ∉ front ++ (key ++ ": ".toList) := by
      simp [hfront, hkey.not_mem (show Text.isWordAscii '{' = false by decide)]
    have hcut : (x ++ (key ++ ": ".toList)) ++ '{' :: (body ++ ['}'] ++ y) =
        (front ++ (key ++ ": ".toList)) ++ '{' :: body := by
      rw [hlast] at hxy
      simpa [objectText] using hxy
    rcases List.append_eq_append_iff.1 hcut with ⟨u, hu, hrest⟩ | ⟨u, hu, hrest⟩
    · cases u with
      | nil =>
        have hlength := congrArg List.length hrest
        simp only [List.nil_append, List.length_cons, List.length_append] at hlength
        omega
      | cons c u =>
        obtain ⟨rfl, -⟩ := List.cons.inj hrest
        exact hopen (hu ▸ by simp)
    · have hlength := congrArg List.length hrest
      simp only [List.length_cons, List.length_append] at hlength
      omega
  rw [Text.replaceFirst, Text.breakOn?_append s hnot]

theorem replaceFirst_of_not_infix {p s : List Char} (h : ¬ p <:+: s) (r : List Char) :
    Text.replaceFirst p r s = s := by
  rw [Text.replaceFirst, Text.breakOn?_eq_none_iff.2 h]

/-- An object with a type that a text does not have is not replaced in it. -/
theorem refer_found_of_types {o : List Char × Members} {s : List Char} {ts : List (List Char)}
    (ho : o.2.Worded) (hne : o.2 ≠ nil) (hs : Lines s ts) (hts : ∀ t ∈ o.2.types, t ∉ ts) :
    refer s (found o) = s := by
  obtain ⟨t, ht, hmark⟩ := exists_typeMark ho hne
  refine replaceFirst_of_not_infix (fun h => hts t ht ?_) _
  refine hs.mem_of_infix (isWord_of_mem_types ho t ht) (hmark.trans (List.IsInfix.trans ?_ h))
  exact ⟨o.1 ++ ": ".toList ++ ['{'], ['}'], by simp [found, objectText]⟩

theorem foldl_refer_of_types {os : List (List Char × Members)} {s : List Char} {ts : List (List Char)}
    (hs : Lines s ts) (h : ∀ o ∈ os, o.2.Worded ∧ o.2 ≠ nil ∧ ∀ t ∈ o.2.types, t ∉ ts) :
    (os.map found).foldl refer s = s := by
  induction os with
  | nil => rfl
  | cons o os ih =>
    obtain ⟨⟨hworded, hne, hts⟩, hos⟩ := List.forall_mem_cons.1 h
    rw [List.map_cons, List.foldl_cons, refer_found_of_types hworded hne hs hts, ih hos]

/-- **The objects of a level are replaced one after the other**, behind a text of lines that has no braces
any more; those in them are gone with them. -/
theorem foldl_refer_line : ∀ {ms : Members} {front : List Char} {ts : List (List Char)}, ms.Worded →
    ms.types.Nodup → (∀ t ∈ ms.types, ∀ o ∈ ms.objects, t ≠ interfaceName o.1) →
    Lines front ts → '{' ∉ front → (∀ t ∈ ms.types, t ∉ ts) →
      (ms.objects.map found).foldl refer (front ++ ms.line) = front ++ ms.level
  | nil, _, _, _, _, _, _, _, _ => rfl
  | leaf key type rest, front, ts, ⟨hkey, htype, hrest⟩, hnodup, hfresh, hfront, hopen, hnew => by
    obtain ⟨hother, hnodup⟩ := List.nodup_cons.1 hnodup
    have hfield : Lines (front ++ (key ++ ": ".toList ++ type ++ [';'])) (ts ++ [type]) := by
      have := hfront.append (Lines.nil.field hkey htype)
      rwa [List.append_nil] at this
    have hopen' : '{' ∉ front ++ (key ++ ": ".toList ++ type ++ [';']) := by
      simp [hopen, (braceFree_of_word hkey).1, (braceFree_of_word htype).1]
    have hstep := foldl_refer_line hrest hnodup (fun t ht => hfresh t (List.mem_cons_of_mem _ ht)) hfield
      hopen' fun t ht hmem => by
        rcases List.mem_append.1 hmem with hmem | hmem
        · exact hnew t (List.mem_cons_of_mem _ ht) hmem
        · exact hother (List.mem_singleton.1 hmem ▸ ht)
    rw [line, level, objects, ← List.append_assoc, hstep, List.append_assoc]
  | object key inner rest, front, ts, ⟨hkey, hne, hinner, hrest⟩, hnodup, hfresh, hfront, hopen, hnew => by
    obtain ⟨-, hnodup, hdisjoint⟩ := List.nodup_append.1 hnodup
    have hname := isWord_interfaceName hkey
    have hself : ∀ t ∈ types (object key inner rest), t ≠ interfaceName key := fun t ht =>
      hfresh t ht (key, inner) List.mem_cons_self
    have hfield : Lines (front ++ (key ++ ": ".toList ++ interfaceName key ++ [';'] ++ [';']))
        (ts ++ [interfaceName key]) :=
      hfront.append ((Lines.nil.stop).field hkey hname)
    have hopen' : '{' ∉ front ++ (key ++ ": ".toList ++ interfaceName key ++ [';'] ++ [';']) := by
      simp [hopen, (braceFree_of_word hkey).1, (braceFree_of_word hname).1]
    -- The object itself, then those in it, then those behind it.
    have hfirst : refer (front ++ line (object key inner rest)) (found (key, inner)) =
        front ++ (key ++ ": ".toList ++ interfaceName key ++ [';'] ++ [';']) ++ rest.line := by
      have := replaceFirst_object hkey hopen inner.line
        (key ++ ": ".toList ++ interfaceName key ++ [';']) (';' :: rest.line)
      simpa [refer, found, line] using this
    have hinside : (inner.objects.map found).foldl refer
        (front ++ (key ++ ": ".toList ++ interfaceName key ++ [';'] ++ [';']) ++ rest.line) =
          front ++ (key ++ ": ".toList ++ interfaceName key ++ [';'] ++ [';']) ++ rest.line := by
      refine foldl_refer_of_types (hfield.append (lines_line hrest)) fun o ho => ?_
      obtain ⟨-, hworded, hne', htypes⟩ := worded_of_mem_objects hinner o ho
      refine ⟨hworded, hne', fun t ht hmem => ?_⟩
      have ht : t ∈ inner.types := htypes ht
      have hall : t ∈ types (object key inner rest) := List.mem_append_left _ ht
      rcases List.mem_append.1 hmem with hmem | hmem
      · rcases List.mem_append.1 hmem with hmem | hmem
        · exact hnew t hall hmem
        · exact hself t hall (List.mem_singleton.1 hmem)
      · exact hdisjoint t ht t hmem rfl
    have hbehind := foldl_refer_line hrest hnodup
      (fun t ht o ho => hfresh t (List.mem_append_right _ ht) o
        (List.mem_cons_of_mem _ (List.mem_append_right _ ho))) hfield hopen' fun t ht hmem => by
        rcases List.mem_append.1 hmem with hmem | hmem
        · exact hnew t (List.mem_append_right _ ht) hmem
        · exact hself t (List.mem_append_right _ ht) (List.mem_singleton.1 hmem)
    rw [objects, List.cons_append, List.map_cons, List.foldl_cons, List.map_append, List.foldl_append, hfirst,
      hinside, hbehind, level]
    simp

/-! ## One level on one line -/

/-- A field with any number of semicolons behind it gets one, with a blank behind it. -/
theorem replaceMatches_semicolonRun {key type s : List Char} {n : Nat} (hkey : IsWord key)
    (htype : IsWord type) (hn : n ≠ 0) (hs : s.head? ≠ some ';') :
    Text.replaceMatches semicolonRun (key ++ ": ".toList ++ type ++ (List.replicate n ';' ++ s)) =
      key ++ ": ".toList ++ type ++ [';'] ++ ' ' :: Text.replaceMatches semicolonRun s := by
  have hnone : ∀ {w x y : List Char} {c : Char}, (';' ∉ w) → w = x ++ c :: y → ∀ t,
      semicolonRun (c :: y ++ t) = none := by
    rintro w x y c hw rfl t
    have hc : c ≠ ';' := fun h => hw (by simp [h])
    simp [semicolonRun, hc]
  have hfront : ';' ∉ key ++ ": ".toList ++ type := by
    simp [hkey.not_mem (show Text.isWordAscii ';' = false by decide),
      htype.not_mem (show Text.isWordAscii ';' = false by decide)]
  have htake : (List.replicate n ';' ++ s).takeWhile (· == ';') = List.replicate n ';' := by
    rw [List.takeWhile_append_of_pos fun c hc => by simp [List.eq_of_mem_replicate hc]]
    cases s with
    | nil => simp
    | cons c s =>
      have hc : c ≠ ';' := fun h => hs (by rw [h]; rfl)
      simp [hc]
  obtain ⟨n, rfl⟩ := Nat.exists_eq_succ_of_ne_zero hn
  have hrun : semicolonRun (List.replicate (n + 1) ';' ++ s) = some ([';', ' '], n + 1) := by
    simp [semicolonRun, htake]
  rw [Text.replaceMatches_append_of_none _ fun x c y hx => hnone hfront hx _,
    Text.replaceMatches_of_some hrun (by simp), List.drop_left' (List.length_replicate ..)]
  simp

theorem head?_level : ∀ {ms : Members}, ms.Worded → ms.level.head? ≠ some ';'
  | nil, _ => by simp [level]
  | leaf key _ _, ⟨hkey, _⟩ => by
    obtain ⟨c, key, rfl⟩ := List.exists_cons_of_ne_nil hkey.1
    have := hkey.not_mem (show Text.isWordAscii ';' = false by decide)
    simp [level] at this ⊢
    exact fun h => this.1 h.symm
  | object key _ _, ⟨hkey, _⟩ => by
    obtain ⟨c, key, rfl⟩ := List.exists_cons_of_ne_nil hkey.1
    have := hkey.not_mem (show Text.isWordAscii ';' = false by decide)
    simp [level] at this ⊢
    exact fun h => this.1 h.symm

end Members

/-- Fields with a blank behind each of them. -/
def spacedText (fs : List Field) : List Char := fs.flatMap fun f => f.text ++ [' ']

theorem Members.semicolons_level : ∀ {ms : Members}, ms.Worded →
    Text.replaceMatches semicolonRun ms.level = spacedText ms.fields
  | .nil, _ => rfl
  | .leaf key type rest, ⟨hkey, htype, hrest⟩ => by
    have hstep := replaceMatches_semicolonRun (n := 1) hkey htype (by decide) (head?_level hrest)
    have hsplit : level (.leaf key type rest) =
        key ++ ": ".toList ++ type ++ (List.replicate 1 ';' ++ rest.level) := by simp [level]
    rw [hsplit, hstep, semicolons_level hrest]
    simp [spacedText, Members.fields, Field.text]
  | .object key inner rest, ⟨hkey, _, _, hrest⟩ => by
    have hstep := replaceMatches_semicolonRun (n := 2) hkey (isWord_interfaceName hkey) (by decide)
      (head?_level hrest)
    have hsplit : level (.object key inner rest) =
        key ++ ": ".toList ++ interfaceName key ++ (List.replicate 2 ';' ++ rest.level) := by
      simp [level, List.replicate]
    rw [hsplit, hstep, semicolons_level hrest]
    simp [spacedText, Members.fields, Field.text]

/-- A single blank behind a text without blanks stays. -/
theorem replaceMatches_blankRun {w s : List Char} (hw : ∀ c ∈ w, Text.isBlank c = false)
    (hs : ∀ c, s.head? = some c → Text.isBlank c = false) :
    Text.replaceMatches blankRun (w ++ ' ' :: s) = w ++ ' ' :: Text.replaceMatches blankRun s := by
  have hrun : blankRun (' ' :: s) = some ([' '], 0 + 1) := by
    have htake : s.takeWhile Text.isBlank = [] := by
      cases s with
      | nil => rfl
      | cons c s => simp [hs c rfl]
    simp [blankRun, htake, show Text.isBlank ' ' = true by decide]
  rw [Text.replaceMatches_append_of_none, Text.replaceMatches_of_some hrun (List.cons_ne_nil _ _)]
  · rfl
  · intro x c y hx
    have hc : Text.isBlank c = false := hw c (by simp [hx])
    simp [blankRun, hc]

/-- A field of words. -/
def Field.Worded (f : Field) : Prop := IsWord f.key ∧ IsWord f.type

theorem Field.Worded.head?_text {f : Field} (h : f.Worded) {c : Char} (s : List Char)
    (hc : (f.text ++ s).head? = some c) : Text.isBlank c = false := by
  obtain ⟨d, key, hkey⟩ := List.exists_cons_of_ne_nil h.1.1
  have hd : d = c := by simpa [Field.text, hkey] using hc
  exact (h.1.isName.2 c (hd ▸ hkey ▸ List.mem_cons_self)).isBlank

theorem blanks_spacedText : ∀ {fs : List Field}, (∀ f ∈ fs, f.Worded) →
    Text.replaceMatches blankRun (spacedText fs) = spacedText fs
  | [], _ => rfl
  | f :: fs, h => by
    obtain ⟨hf, hfs⟩ := List.forall_mem_cons.1 h
    have hsplit : spacedText (f :: fs) =
        (f.key ++ [':']) ++ ' ' :: ((f.type ++ [';']) ++ ' ' :: spacedText fs) := by
      simp [spacedText, Field.text]
    have hword {w : List Char} {d : Char} (hw : IsWord w) (hd : Text.isBlank d = false) :
        ∀ c ∈ w ++ [d], Text.isBlank c = false := by
      intro c hc
      rcases List.mem_append.1 hc with hc | hc
      · exact (hw.isName.2 c hc).isBlank
      · rwa [List.mem_singleton.1 hc]
    have htype : ∀ c, (f.type ++ [';'] ++ ' ' :: spacedText fs).head? = some c → Text.isBlank c = false := by
      intro c hc
      obtain ⟨d, type, ht⟩ := List.exists_cons_of_ne_nil hf.2.1
      have hd : d = c := by simpa [ht] using hc
      exact (hf.2.isName.2 c (hd ▸ ht ▸ List.mem_cons_self)).isBlank
    have hrest : ∀ c, (spacedText fs).head? = some c → Text.isBlank c = false := by
      intro c hc
      cases fs with
      | nil => cases hc
      | cons g fs =>
        refine (hfs g List.mem_cons_self).head?_text ([' '] ++ spacedText fs) ?_
        rw [← List.append_assoc]
        exact hc
    rw [hsplit, replaceMatches_blankRun (hword hf.1 (by decide)) htype,
      replaceMatches_blankRun (hword hf.2 (by decide)) hrest, blanks_spacedText hfs]

theorem spacedText_eq : ∀ {fs : List Field}, fs ≠ [] → spacedText fs = fieldsText fs ++ [' ']
  | [f], _ => by simp [spacedText, fieldsText, Text.join]
  | f :: g :: fs, _ => by
    have ih := spacedText_eq (List.cons_ne_nil g fs)
    have hjoin : fieldsText (f :: g :: fs) = f.text ++ [' '] ++ fieldsText (g :: fs) := by
      simp [fieldsText, Text.join]
    rw [hjoin, List.append_assoc, ← ih]
    simp [spacedText]

theorem exists_fieldsText_eq : ∀ {fs : List Field}, fs ≠ [] → ∃ r, fieldsText fs = r ++ [';']
  | [f], _ => ⟨f.key ++ ": ".toList ++ f.type, rfl⟩
  | f :: g :: fs, _ => by
    obtain ⟨r, hr⟩ := exists_fieldsText_eq (List.cons_ne_nil g fs)
    refine ⟨f.text ++ [' '] ++ r, ?_⟩
    rw [List.append_assoc, ← hr]
    simp [fieldsText, Text.join]

theorem trim_spacedText {fs : List Field} (h : ∀ f ∈ fs, f.Worded) :
    Text.trim (spacedText fs) = fieldsText fs := by
  cases fs with
  | nil => rfl
  | cons f fs =>
    obtain ⟨r, hr⟩ := exists_fieldsText_eq (List.cons_ne_nil f fs)
    obtain ⟨c, s, hs⟩ := List.exists_cons_of_ne_nil (show fieldsText (f :: fs) ≠ [] by simp [hr])
    have hc : Text.isBlank c = false := by
      refine (h f List.mem_cons_self).head?_text ([' '] ++ spacedText fs) ?_
      have := spacedText_eq (List.cons_ne_nil f fs)
      rw [hs] at this
      rw [← List.append_assoc]
      exact congrArg List.head? this
    rw [spacedText_eq (List.cons_ne_nil f fs), hs, Text.trim, Text.trimLeft, List.cons_append,
      List.dropWhile_cons_of_neg (by simp [hc]), ← List.cons_append,
      Text.trimRight_concat_of_blank (by decide), ← hs, hr, Text.trimRight_concat (by decide)]

namespace Members

theorem worded_of_mem_fields : ∀ {ms : Members}, ms.Worded → ∀ f ∈ ms.fields, f.Worded
  | leaf _ _ _, ⟨hkey, htype, hrest⟩, f, hf => by
    rcases List.mem_cons.1 hf with rfl | hf
    · exact ⟨hkey, htype⟩
    · exact worded_of_mem_fields hrest f hf
  | object _ _ _, ⟨hkey, _, _, hrest⟩, f, hf => by
    rcases List.mem_cons.1 hf with rfl | hf
    · exact ⟨hkey, isWord_interfaceName hkey⟩
    · exact worded_of_mem_fields hrest f hf

/-- **One level of members** is its fields. -/
theorem currentLevel_line {ms : Members} (h : ms.Worded) (hnodup : ms.types.Nodup)
    (hfresh : ∀ t ∈ ms.types, ∀ o ∈ ms.objects, t ≠ interfaceName o.1) :
    currentLevel ms.line = .ok (fieldsText ms.fields) := by
  have hlevel : (ms.objects.map found).foldl refer ms.line = ms.level :=
    foldl_refer_line h hnodup hfresh .nil List.not_mem_nil fun _ _ => List.not_mem_nil
  rw [currentLevel, nestedObjects_line h]
  refine congrArg Except.ok ?_
  rw [oneLine, hlevel, semicolons_level h, blanks_spacedText (worded_of_mem_fields h),
    trim_spacedText (worded_of_mem_fields h)]

end Members

end ClientBuild.Declaration
