import ClientBuild.Proofs.Markup.Names
import ClientBuild.Proofs.Text.Search

/-!
# Class attributes, read back

A tag lists attributes with blanks in front of each (`Attribute`).  A value goes on over the other quotes, over
what they enclose and over escaped characters (`IsQuoted`), so it is read to the quote that closes it
(`valueBefore?_quoted`), and the search for the next attribute begins behind it.  In front of an attribute none
is found: its name is read up to its equals sign, and neither goes over a blank that has something else behind it
(`classAttribute?_of_blank`).  So the attributes of a tag are found as they are listed (`attributes_read_back`).
-/

namespace ClientBuild.Markup

open Text (isBlank)

/-! ## The grammar of attributes -/

/-- What may stand between two quotes `q`: characters other than quotes and backslashes, escaped ones, and
strings in other quotes, which may hold any character but their own quote. -/
inductive IsQuoted (q : Char) : List Char → Prop where
  | nil : IsQuoted q []
  | char {c : Char} {s : List Char} : isQuote c = false → c ≠ '\\' → IsQuoted q s → IsQuoted q (c :: s)
  | escaped (c : Char) {s : List Char} : IsQuoted q s → IsQuoted q ('\\' :: c :: s)
  | string {i : Char} {t s : List Char} : isQuote i = true → i ≠ q → i ∉ t → IsQuoted q s →
      IsQuoted q (i :: (t ++ i :: s))

/-- The names of the attributes that name classes. -/
inductive AttributeName where
  | plain
  | hover
  | bound
  | boundHover
  | passThrough
deriving DecidableEq

namespace AttributeName

/-- What stands in front of the part of a name that is looked for. -/
def lead : AttributeName → String
  | hover => "hover-"
  | _ => ""

/-- The part of a name that is looked for. -/
def key : AttributeName → String
  | plain => "class"
  | hover => "class"
  | bound => ":class"
  | boundHover => ":hover-class"
  | passThrough => ":pt"

/-- A name as it is written. -/
def text (n : AttributeName) : List Char := n.lead.toList ++ n.key.toList

/-- How an attribute of a name gives its classes. -/
def kind : AttributeName → AttributeKind
  | plain => .static
  | hover => .static
  | bound => .dynamic
  | boundHover => .dynamic
  | passThrough => .passThrough

end AttributeName

/-- An attribute of a tag, with the number of blanks in front of it besides the first one. -/
structure Attribute where
  blanks : Nat
  name : AttributeName
  quote : Char
  value : List Char

namespace Attribute

/-- What stands in front of the name of an attribute. -/
def gap (a : Attribute) : List Char := List.replicate (a.blanks + 1) ' '

/-- An attribute as it is written. -/
def text (a : Attribute) : List Char := a.gap ++ (a.name.text ++ '=' :: a.quote :: (a.value ++ [a.quote]))

/-- What is read of an attribute. -/
def read (a : Attribute) : ClassAttribute := ⟨a.name.kind, a.value⟩

/-- The value of an attribute may stand between its quotes. -/
structure IsSound (a : Attribute) : Prop where
  quote : isQuote a.quote = true
  value : IsQuoted a.quote a.value

end Attribute

variable {q : Char} {v x : List Char}

/-- A text without quotes and backslashes may stand in front of what may stand between quotes. -/
theorem IsQuoted.append_of_forall (hv : IsQuoted q v) (h : ∀ c ∈ x, isQuote c = false ∧ c ≠ '\\') :
    IsQuoted q (x ++ v) := by
  induction x with
  | nil => exact hv
  | cons c x ih =>
    obtain ⟨⟨hquote, hescape⟩, hx⟩ := List.forall_mem_cons.1 h
    exact .char hquote hescape (ih hx)

theorem isQuoted_of_forall (h : ∀ c ∈ v, isQuote c = false ∧ c ≠ '\\') : IsQuoted q v := by
  rw [← List.append_nil v]
  exact .append_of_forall .nil h

/-! ## Reading values -/

theorem valueBefore?_char {c : Char} (hc : c ≠ '\\') (q : Char) (s : List Char) :
    valueBefore? q none (c :: s) =
      if c = q then some []
      else if isQuote c then (valueBefore? q (some c) s).map (c :: ·)
      else (valueBefore? q none s).map (c :: ·) := by
  rw [valueBefore?.eq_def]
  split
  next heq => cases heq
  next heq _ => cases heq
  next heq =>
    cases heq
    exact absurd rfl hc
  next heq =>
    cases heq
    rfl

theorem ne_backslash_of_isQuote (hq : isQuote q = true) : q ≠ '\\' := by
  rintro rfl
  cases hq

/-- An inner string is passed over. -/
theorem valueBefore?_inner {i : Char} {t : List Char} (ht : i ∉ t) (q : Char) (s : List Char) :
    valueBefore? q (some i) (t ++ i :: s) = (valueBefore? q none s).map fun v => t ++ i :: v := by
  induction t with
  | nil => rw [List.nil_append, valueBefore?, if_pos rfl]; rfl
  | cons c t ih =>
    rw [List.mem_cons, not_or] at ht
    rw [List.cons_append, valueBefore?, if_neg (Ne.symm ht.1), ih ht.2, Option.map_map]
    rfl

/-- **A value is read to the quote that closes it.** -/
theorem valueBefore?_quoted (hq : isQuote q = true) (s : List Char) (h : IsQuoted q v) :
    valueBefore? q none (v ++ q :: s) = some v := by
  induction h with
  | nil => rw [List.nil_append, valueBefore?_char (ne_backslash_of_isQuote hq), if_pos rfl]
  | @char c _ hquote hescape _ ih =>
    have hne : c ≠ q := by
      rintro rfl
      rw [hq] at hquote
      cases hquote
    rw [List.cons_append, valueBefore?_char hescape, if_neg hne, if_neg (by simp [hquote]), ih]
    rfl
  | escaped c _ ih =>
    rw [List.cons_append, List.cons_append, valueBefore?, ih]
    rfl
  | string hi hne ht _ ih =>
    rw [List.cons_append, List.append_assoc, List.cons_append, valueBefore?_char (ne_backslash_of_isQuote hi),
      if_neg hne, if_pos hi, valueBefore?_inner ht, ih]
    rfl

/-! ## Where attributes begin -/

/-- The letters of an attribute stand in front of its equals sign, with blanks between them. -/
theorem headNamed?_eq_append {s : List Char} {name : String} {head : AttributeHead}
    (h : headNamed? s name = some head) :
    ∃ written blanks behind, s = (written ++ blanks) ++ '=' :: behind ∧ (∀ c ∈ blanks, isBlank c = true) ∧
      ∀ c ∈ written, ∃ l ∈ name.toList, isLetter l c = true := by
  obtain ⟨⟨written, rest⟩, hname, h⟩ := Option.bind_eq_some_iff.1 h
  simp only at h
  split at h
  next behind hbehind =>
    have hrest : rest = rest.takeWhile isBlank ++ '=' :: behind := by
      rw [← hbehind]
      exact List.takeWhile_append_dropWhile.symm
    refine ⟨written, rest.takeWhile isBlank, behind, ?_, fun c hc => ?_, isLetter_of_afterName? hname⟩
    · rw [List.append_assoc, ← hrest]
      exact afterName?_eq_append hname
    · exact List.all_eq_true.1 List.all_takeWhile c hc
  next => cases h

/-- No attribute begins in a text without equals signs. -/
theorem classAttribute?_of_not_mem {s : List Char} (h : '=' ∉ s) : classAttribute? s = none := by
  have hnone : ∀ name ∈ attributeNames, headNamed? s name = none := by
    intro name _
    rw [Option.eq_none_iff_forall_ne_some]
    intro head hhead
    obtain ⟨written, blanks, behind, rfl, -⟩ := headNamed?_eq_append hhead
    exact h (List.mem_append_right _ List.mem_cons_self)
  rw [classAttribute?, attributeHead?, List.findSome?_eq_none_iff.2 hnone]
  rfl

/-- No attribute begins in front of a blank, unless the next thing behind it is an equals sign. -/
theorem classAttribute?_of_blank {s : List Char} (hx : '=' ∉ x) (hs : (Text.trimLeft s).head? ≠ some '=') :
    classAttribute? (x ++ ' ' :: s) = none := by
  have hletter : ∀ name ∈ attributeNames, ∀ l ∈ name.toList, isLetter l ' ' = false := by decide
  have hnone : ∀ name ∈ attributeNames, headNamed? (x ++ ' ' :: s) name = none := by
    intro name hname
    rw [Option.eq_none_iff_forall_ne_some]
    intro head hhead
    obtain ⟨written, blanks, behind, heq, hblanks, hletters⟩ := headNamed?_eq_append hhead
    have hwritten : ' ' ∉ written := by
      intro hmem
      obtain ⟨l, hl, hfound⟩ := hletters ' ' hmem
      rw [hletter name hname l hl] at hfound
      cases hfound
    have hend : ∀ u, ' ' :: s = u ++ '=' :: behind → ¬ ∀ c ∈ u, isBlank c = true := by
      intro u hu hblank
      cases u with
      | nil => cases hu
      | cons c u =>
        have hbehind : s = u ++ '=' :: behind := (List.cons.inj hu).2
        refine hs ?_
        rw [hbehind, Text.trimLeft_append_of_blank fun d hd => hblank d (List.mem_cons_of_mem c hd)]
        rfl
    -- The blank stands in front of the equals sign and is not in the name, so from it on there are blanks only.
    rw [List.append_assoc] at heq
    rcases List.append_eq_append_iff.1 heq with ⟨u, hu, hrest⟩ | ⟨u, hu, hrest⟩
    · cases u with
      | nil => exact hend blanks hrest hblanks
      | cons c u =>
        obtain ⟨rfl, -⟩ := List.cons.inj hrest
        exact hwritten (hu ▸ List.mem_append_right x List.mem_cons_self)
    · rcases List.append_eq_append_iff.1 hrest with ⟨w, hw, hrest⟩ | ⟨w, hw, hrest⟩
      · cases w with
        | nil => cases hrest
        | cons c w =>
          obtain ⟨rfl, -⟩ := List.cons.inj hrest
          exact hx (hu ▸ List.mem_append_right _ (hw ▸ List.mem_append_right _ List.mem_cons_self))
      · exact hend w hrest fun c hc => hblanks c (hw ▸ List.mem_append_right u hc)
  rw [classAttribute?, attributeHead?, List.findSome?_eq_none_iff.2 hnone]
  rfl

theorem attributeHead?_of_head {c : Char} (hc : isLetter ':' c = false ∧ isLetter 'c' c = false) (s : List Char) :
    attributeHead? (c :: s) = none := by
  have hstart : ∀ name ∈ attributeNames, name.toList.head? = some ':' ∨ name.toList.head? = some 'c' := by decide
  refine List.findSome?_eq_none_iff.2 fun name hname => ?_
  have hafter : afterName? name.toList (c :: s) = none := by
    rcases hstart name hname with h | h
    · obtain ⟨r, hr⟩ := List.head?_eq_some_iff.1 h
      rw [hr, afterName?, if_neg (by simp [hc.1])]
    · obtain ⟨r, hr⟩ := List.head?_eq_some_iff.1 h
      rw [hr, afterName?, if_neg (by simp [hc.2])]
  rw [headNamed?, hafter]
  rfl

/-- No attribute begins with a character that no name begins with. -/
theorem classAttribute?_of_head {c : Char} (hc : isLetter ':' c = false ∧ isLetter 'c' c = false) (s : List Char) :
    classAttribute? (c :: s) = none := by
  rw [classAttribute?, attributeHead?_of_head hc]
  rfl

/-! ## Attributes in a row -/

theorem isQuote_iff : isQuote q = true ↔ q = '\'' ∨ q = '"' ∨ q = '\x60' := by
  simp only [isQuote, Bool.or_eq_true, beq_iff_eq, or_assoc]

/-- At its name an attribute is read whole. -/
theorem classAttribute?_key (n : AttributeName) (hq : isQuote q = true) (hv : IsQuoted q v) (s : List Char) :
    classAttribute? (n.key.toList ++ '=' :: q :: (v ++ q :: s)) =
      some (⟨n.kind, v⟩, n.key.toList.length + 2 + v.length + 1) := by
  have hhead : attributeHead? (n.key.toList ++ '=' :: q :: (v ++ q :: s)) =
      some ⟨n.kind, q, n.key.toList.length + 2, v ++ q :: s⟩ := by
    rcases isQuote_iff.1 hq with rfl | rfl | rfl
    all_goals
      cases n
      all_goals rfl
  rw [classAttribute?, hhead]
  simp only [Option.bind_eq_bind, Option.bind_some, valueBefore?_quoted hq s hv]
  rfl

variable {a : Attribute}

/-- **The first attribute behind a text without equals signs is read**, and the search goes on behind it. -/
theorem classAttributes_attribute (ha : a.IsSound) (hx : '=' ∉ x) (s : List Char) :
    classAttributes (x ++ (a.text ++ s)) = a.read :: classAttributes s := by
  obtain ⟨blanks, n, q, v⟩ := a
  obtain ⟨hq, hv⟩ := ha
  have hsplit : x ++ (Attribute.text ⟨blanks, n, q, v⟩ ++ s) =
      (x ++ List.replicate blanks ' ' ++ [' ']) ++
        (n.lead.toList ++ (n.key.toList ++ '=' :: q :: (v ++ q :: s))) := by
    simp [Attribute.text, Attribute.gap, AttributeName.text, List.replicate_succ']
  have hgap : ∀ y c z, x ++ List.replicate blanks ' ' ++ [' '] = y ++ c :: z →
      classAttribute? (c :: z ++ (n.lead.toList ++ (n.key.toList ++ '=' :: q :: (v ++ q :: s)))) = none := by
    intro y c z h
    obtain ⟨w, hw⟩ : ∃ w, c :: z = w ++ [' '] := by
      rcases List.eq_nil_or_concat (c :: z) with hnil | ⟨w, d, hw⟩
      · cases hnil
      · rw [hw, List.concat_eq_append, ← List.append_assoc] at h
        obtain ⟨-, hd⟩ := List.append_inj' h rfl
        cases hd
        exact ⟨w, by rw [hw, List.concat_eq_append]⟩
    have hfront : '=' ∉ x ++ List.replicate blanks ' ' ++ [' '] := by
      simp [hx]
    rw [hw, List.append_assoc, List.singleton_append]
    refine classAttribute?_of_blank (fun hmem => hfront ?_) ?_
    · rw [h, hw]
      exact List.mem_append_right y (List.mem_append_left _ hmem)
    · cases n
      all_goals exact fun h => by cases h
  have hlead : ∀ y c z, n.lead.toList = y ++ c :: z →
      classAttribute? (c :: z ++ (n.key.toList ++ '=' :: q :: (v ++ q :: s))) = none := by
    intro y c z h
    have hstart : ∀ c ∈ n.lead.toList, isLetter ':' c = false ∧ isLetter 'c' c = false := by
      cases n
      all_goals decide
    exact classAttribute?_of_head (hstart c (h ▸ List.mem_append_right y List.mem_cons_self)) _
  have hdrop : (n.key.toList ++ '=' :: q :: (v ++ q :: s)).drop (n.key.toList.length + 2 + v.length + 1) = s := by
    have hend : n.key.toList ++ '=' :: q :: (v ++ q :: s) = (n.key.toList ++ '=' :: q :: (v ++ [q])) ++ s := by simp
    have hsize : (n.key.toList ++ '=' :: q :: (v ++ [q])).length = n.key.toList.length + 2 + v.length + 1 := by
      simp only [List.length_append, List.length_cons, List.length_nil]
      omega
    rw [hend, ← hsize, List.drop_left]
  rw [classAttributes, hsplit, Text.findAll_append_of_none _ hgap, Text.findAll_append_of_none _ hlead,
    Text.findAll_of_some (classAttribute?_key n hq hv s) (by simp), hdrop]
  rfl

/-- A text without equals signs has no attributes. -/
theorem classAttributes_of_not_mem (hx : '=' ∉ x) : classAttributes x = [] :=
  Text.findAll_eq_nil fun y _ _ hsplit =>
    classAttribute?_of_not_mem fun hmem => hx (hsplit ▸ List.mem_append_right y hmem)

/-- **Class attributes are read back.**  Of a tag that lists attributes with blanks in front of each, behind a name
and in front of an end that have no equals signs, the values are found, in order and with their kinds. -/
theorem attributes_read_back {n back : List Char} {attributes : List Attribute} (hn : '=' ∉ n) (hback : '=' ∉ back)
    (h : ∀ a ∈ attributes, a.IsSound) :
    classAttributes ('<' :: n ++ (attributes.flatMap Attribute.text ++ back)) = attributes.map Attribute.read := by
  have hfront : '=' ∉ '<' :: n := by simpa using hn
  generalize '<' :: n = x at hfront
  induction attributes generalizing x with
  | nil =>
    rw [List.flatMap_nil, List.nil_append]
    exact classAttributes_of_not_mem (List.not_mem_append hfront hback)
  | cons a attributes ih =>
    obtain ⟨ha, hrest⟩ := List.forall_mem_cons.1 h
    have hbehind := ih hrest [] List.not_mem_nil
    rw [List.nil_append] at hbehind
    rw [List.flatMap_cons, List.append_assoc, classAttributes_attribute ha hfront, hbehind, List.map_cons]

/-- A binding with a double quote in an inner string, a list with escaped quotes, and a tree, all in quotes of
their own. -/
theorem attributes_read_back_row :
    let attributes : List Attribute :=
      [⟨0, .bound, '"', "[a ? 'x\"' : b]".toList⟩, ⟨1, .hover, '\'', "p-2 \\'q\\' r".toList⟩,
        ⟨0, .passThrough, '\x60', "[]".toList⟩]
    ('=' ∉ "view".toList ∧ '=' ∉ " />".toList ∧ ∀ a ∈ attributes, a.IsSound) ∧
      classAttributes ('<' :: "view".toList ++ (attributes.flatMap Attribute.text ++ " />".toList)) =
        [⟨.dynamic, "[a ? 'x\"' : b]".toList⟩, ⟨.static, "p-2 \\'q\\' r".toList⟩, ⟨.passThrough, "[]".toList⟩] := by
  intro attributes
  have hbinding : IsQuoted '"' ("[a ? ".toList ++ ('\'' :: ("x\"".toList ++ '\'' :: " : b]".toList))) :=
    .append_of_forall (.string (by decide) (by decide) (by decide) (isQuoted_of_forall (by decide))) (by decide)
  have hlist : IsQuoted '\'' ("p-2 ".toList ++ ('\\' :: '\'' :: ("q".toList ++ '\\' :: '\'' :: " r".toList))) :=
    .append_of_forall (.escaped _ (.append_of_forall (.escaped _ (isQuoted_of_forall (by decide))) (by decide)))
      (by decide)
  have hn : '=' ∉ "view".toList := by decide
  have hback : '=' ∉ " />".toList := by decide
  have hsound : ∀ a ∈ attributes, a.IsSound := by
    simp only [attributes, List.forall_mem_cons]
    exact ⟨⟨by decide, hbinding⟩, ⟨by decide, hlist⟩, ⟨by decide, isQuoted_of_forall (by decide)⟩,
      List.forall_mem_nil _⟩
  exact ⟨⟨hn, hback, hsound⟩, attributes_read_back hn hback hsound⟩

end ClientBuild.Markup
