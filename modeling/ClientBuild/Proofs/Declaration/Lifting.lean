import ClientBuild.Proofs.Declaration.Members
import Mathlib.Data.List.Nodup

/-!
# The lifted service type is the same tree

The objects of a service type are collected in front of those in them, and again with each object around
them; one that is there already changes nothing (`Members.collect_line`).  So flattening writes the fields
of the tree and one interface for each object, and putting the fields of an interface in place of its name,
again and again, gives the tree back (`flatten_expands`).
-/

namespace ClientBuild.Declaration

/-- An interface that is lifted, with the key that it is named for. -/
structure Lifted where
  key : List Char
  fields : List Field

namespace Lifted

def name (i : Lifted) : List Char := interfaceName i.key

/-- An interface as it is written. -/
def text (i : Lifted) : List Char := interfaceText (String.ofList i.key) (fieldsText i.fields)

end Lifted

/-- The fields of the first interface of a name. -/
def fieldsOf? (is : List Lifted) (name : List Char) : Option (List Field) :=
  (is.find? fun i => i.name == name).map Lifted.fields

/-- Members whose objects are named in fields: every name of an interface is replaced by its fields. -/
inductive Expands (is : List Lifted) : List Field → Members → Prop where
  | nil : Expands is [] .nil
  | leaf {key type : List Char} {fs : List Field} {rest : Members} :
      fieldsOf? is type = none → Expands is fs rest → Expands is (⟨key, type⟩ :: fs) (.leaf key type rest)
  | object {key type : List Char} {body fs : List Field} {inner rest : Members} :
      fieldsOf? is type = some body → Expands is body inner → Expands is fs rest →
        Expands is (⟨key, type⟩ :: fs) (.object key inner rest)

/-- Fields are expanded in one way. -/
theorem Expands.det {is : List Lifted} {fs : List Field} {ms ms' : Members} (h : Expands is fs ms)
    (h' : Expands is fs ms') : ms = ms' := by
  induction h generalizing ms' with
  | nil =>
    cases h'
    rfl
  | leaf hnone _ ih =>
    cases h' with
    | leaf _ hrest => rw [ih hrest]
    | object hsome _ _ =>
      rw [hnone] at hsome
      cases hsome
  | object hsome _ _ ihinner ihrest =>
    cases h' with
    | leaf hnone _ =>
      rw [hnone] at hsome
      cases hsome
    | object hbody hinner hrest =>
      rw [hsome] at hbody
      cases hbody
      rw [ihinner hinner, ihrest hrest]

namespace Members

/-- The interfaces of members: one for each object, in front of those in it. -/
def lifted (ms : Members) : List Lifted := ms.objects.map fun o => ⟨o.1, o.2.fields⟩

/-- Members that can be told apart when they are lifted. -/
structure Lawful (ms : Members) : Prop where
  worded : ms.Worded
  /-- No type stands twice. -/
  types : ms.types.Nodup
  /-- No two keys of objects are the same with a capital letter in front. -/
  keys : (ms.objects.map fun o => capitalize o.1).Nodup
  /-- No type has the name of an interface. -/
  fresh : ∀ t ∈ ms.types, ∀ o ∈ ms.objects, t ≠ interfaceName o.1

section Parts

variable {key type : List Char} {inner rest : Members}

theorem Lawful.behind_leaf (h : Lawful (leaf key type rest)) : rest.Lawful :=
  ⟨h.worded.2.2, (List.nodup_cons.1 h.types).2, h.keys, fun t ht => h.fresh t (List.mem_cons_of_mem _ ht)⟩

theorem Lawful.nodup_keys (h : Lawful (object key inner rest)) :
    (inner.objects.map fun o => capitalize o.1).Nodup ∧ (rest.objects.map fun o => capitalize o.1).Nodup := by
  have hkeys := h.keys
  rw [objects, List.cons_append, List.map_cons, List.map_append, List.nodup_cons, List.nodup_append] at hkeys
  exact ⟨hkeys.2.1, hkeys.2.2.1⟩

theorem Lawful.inside (h : Lawful (object key inner rest)) : inner.Lawful :=
  ⟨h.worded.2.2.1, (List.nodup_append.1 h.types).1, h.nodup_keys.1, fun t ht o ho =>
    h.fresh t (List.mem_append_left _ ht) o (List.mem_cons_of_mem _ (List.mem_append_left _ ho))⟩

theorem Lawful.behind_object (h : Lawful (object key inner rest)) : rest.Lawful :=
  ⟨h.worded.2.2.2, (List.nodup_append.1 h.types).2.1, h.nodup_keys.2, fun t ht o ho =>
    h.fresh t (List.mem_append_right _ ht) o (List.mem_cons_of_mem _ (List.mem_append_right _ ho))⟩

end Parts

/-! ## Collecting -/

/-- The shape of an object under its key. -/
def shape (o : List Char × Members) : String × List Char := (String.ofList o.1, fieldsText o.2.fields)

theorem getLast?_concat_append {d : Char} {x s : List Char} (hs : ∀ c, s.getLast? = some c → c = d) :
    (x ++ [d] ++ s).getLast? = some d := by
  rw [List.getLast?_append, List.getLast?_concat]
  cases hlast : s.getLast? with
  | none => rfl
  | some c =>
    rw [hs c hlast]
    rfl

theorem getLast?_line : ∀ {ms : Members}, ∀ c, ms.line.getLast? = some c → c = ';'
  | nil, _, h => by cases h
  | leaf _ _ _, _, h => by
    rw [line, getLast?_concat_append getLast?_line] at h
    exact (Option.some.inj h).symm
  | object _ _ _, _, h => by
    rw [line, getLast?_concat_append getLast?_line] at h
    exact (Option.some.inj h).symm

theorem head?_line : ∀ {ms : Members} {c : Char}, ms.Worded → ms.line.head? = some c → Text.isBlank c = false
  | leaf _ _ _, c, ⟨hkey, _⟩, h => by
    obtain ⟨d, key, rfl⟩ := List.exists_cons_of_ne_nil hkey.1
    have hd : d = c := by simpa [line] using h
    exact (hkey.isName.2 c (hd ▸ List.mem_cons_self)).isBlank
  | object _ _ _, c, ⟨hkey, _⟩, h => by
    obtain ⟨d, key, rfl⟩ := List.exists_cons_of_ne_nil hkey.1
    have hd : d = c := by simpa [line, objectText] using h
    exact (hkey.isName.2 c (hd ▸ List.mem_cons_self)).isBlank

/-- The lines of members have no blanks around them. -/
theorem trim_line {ms : Members} (h : ms.Worded) : Text.trim ms.line = ms.line := by
  cases hline : ms.line with
  | nil => rfl
  | cons c s =>
    have hend : (c :: s).getLast (List.cons_ne_nil c s) = ';' :=
      getLast?_line _ ((congrArg _ hline).trans (List.getLast?_eq_some_getLast _))
    have hsplit := List.dropLast_concat_getLast (List.cons_ne_nil c s)
    rw [hend] at hsplit
    exact Text.trim_eq_self (head?_line h (by rw [hline]; rfl)) (by decide) hsplit.symm

/-- The objects of members, visited one after the other. -/
def visit (ms : Members) (r : Shapes) : Except Failure Shapes := (ms.objects.map found).foldlM collectObject r

theorem collect_eq_visit {ms : Members} (h : ms.Worded) (r : Shapes) : collect ms.line r = ms.visit r := by
  rw [collect_eq, nestedObjects_line h]
  rfl

theorem collectObject_found {key : List Char} {inner : Members} (h : inner.Lawful) (r : Shapes) :
    collectObject r (found (key, inner)) =
      inner.visit (r.add (String.ofList key) (fieldsText inner.fields)) := by
  rw [collectObject]
  simp only [found, trim_line h.worded, currentLevel_line h.worded h.types h.fresh]
  exact collect_eq_visit h.worded _

/-- An object is visited, then the objects in it once more, then those behind it. -/
theorem visit_object {key : List Char} {inner rest : Members} (h : inner.Lawful) (r : Shapes) :
    visit (object key inner rest) r =
      (inner.visit (r.add (String.ofList key) (fieldsText inner.fields))).bind fun r =>
        (inner.visit r).bind rest.visit := by
  rw [visit, objects, List.cons_append, List.map_cons, List.map_append, List.foldlM_cons,
    collectObject_found h]
  refine congrArg _ (funext fun r => ?_)
  rw [List.foldlM_append]
  rfl

theorem Shapes_add_of_get? {r : Shapes} {key : String} {s : List Char} (h : Assoc.get? key r.first = some s) :
    r.add key s = r := by
  rw [Shapes.add, h]
  simp

theorem Shapes_add_of_not_mem {r : Shapes} {key : String} (h : key ∉ Assoc.keys r.first) (s : List Char) :
    r.add key s = { r with first := r.first ++ [(key, s)] } := by
  have hnone : Assoc.get? key r.first = none := by
    cases hget : Assoc.get? key r.first with
    | none => rfl
    | some v => exact absurd (List.mem_map_of_mem (Assoc.mem_of_get? hget)) h
  rw [Shapes.add, hnone, Assoc.insert_of_not_mem s h]

/-- Objects that are there already change nothing. -/
theorem visit_of_get? : ∀ {ms : Members} {r : Shapes}, ms.Lawful →
    (∀ o ∈ ms.objects, Assoc.get? (shape o).1 r.first = some (shape o).2) → ms.visit r = .ok r
  | nil, _, _, _ => rfl
  | leaf _ _ _, _, h, hr => by
    have hrest := visit_of_get? h.behind_leaf hr
    exact hrest
  | object key inner rest, r, h, hr => by
    have hkey : Assoc.get? (String.ofList key) r.first = some (fieldsText inner.fields) :=
      hr (key, inner) List.mem_cons_self
    have hinner := visit_of_get? (r := r) h.inside fun o ho =>
      hr o (List.mem_cons_of_mem _ (List.mem_append_left _ ho))
    have hrest := visit_of_get? (r := r) h.behind_object fun o ho =>
      hr o (List.mem_cons_of_mem _ (List.mem_append_right _ ho))
    rw [visit_object h.inside, Shapes_add_of_get? hkey, hinner]
    exact (congrArg (Except.bind · rest.visit) hinner).trans hrest

/-- **Every object is collected once**, in front of those in it. -/
theorem visit_eq : ∀ {ms : Members} {r : Shapes}, ms.Lawful →
    (Assoc.keys (r.first ++ ms.objects.map shape)).Nodup →
      ms.visit r = .ok { r with first := r.first ++ ms.objects.map shape }
  | nil, r, _, _ => by simp [visit, objects]; rfl
  | leaf _ _ _, _, h, hr => by
    have hrest := visit_eq h.behind_leaf hr
    exact hrest
  | object key inner rest, r, h, hr => by
    have hsplit : objects (object key inner rest) = (key, inner) :: inner.objects ++ rest.objects := rfl
    rw [hsplit, List.map_append, List.map_cons, ← List.append_assoc] at hr
    have hleft := Assoc.nodup_keys_left hr
    rw [← List.singleton_append, ← List.append_assoc] at hr hleft
    -- The object is new, and so are those in it.
    have hkey : String.ofList key ∉ Assoc.keys r.first := by
      have := Assoc.nodup_keys_left hleft
      rw [Assoc.keys, List.map_append] at this
      exact fun hmem => (List.nodup_append.1 this).2.2 _ hmem _ List.mem_cons_self rfl
    have hinner := visit_eq (r := { r with first := r.first ++ [shape (key, inner)] }) h.inside hleft
    have hagain := visit_of_get? (r := { r with first := r.first ++ [shape (key, inner)] ++ inner.objects.map shape })
      h.inside fun o ho => Assoc.get?_of_mem hleft (List.mem_append_right _ (List.mem_map_of_mem ho))
    have hrest := visit_eq (r := { r with first := r.first ++ [shape (key, inner)] ++ inner.objects.map shape })
      h.behind_object hr
    have hadd : r.add (String.ofList key) (fieldsText inner.fields) =
        { r with first := r.first ++ [shape (key, inner)] } := Shapes_add_of_not_mem hkey _
    rw [visit_object h.inside, hadd, hinner]
    refine ((congrArg (Except.bind · rest.visit) hagain).trans hrest).trans ?_
    rw [hsplit]
    simp

/-- **All objects of members are collected**, each one once. -/
theorem collect_line {ms : Members} (h : ms.Lawful) :
    collect ms.line {} = .ok { first := ms.objects.map shape, collisions := [] } := by
  have hkeys : (Assoc.keys (ms.objects.map shape)).Nodup := by
    have hcapital : ((ms.objects.map Prod.fst).map capitalize).Nodup := by
      rw [List.map_map]
      exact h.keys
    have hkeys := (List.Nodup.of_map _ hcapital).map fun _ _ => String.ofList_injective
    rw [Assoc.keys, List.map_map]
    rwa [List.map_map] at hkeys
  rw [collect_eq_visit h.worded, visit_eq h (by simpa using hkeys)]
  rfl

/-! ## Expanding -/

theorem find?_of_nodup {α : Type} {f : α → List Char} {a : α} {l : List α} (h : (l.map f).Nodup) (ha : a ∈ l) :
    l.find? (fun b => f b == f a) = some a := by
  induction l with
  | nil => cases ha
  | cons b l ih =>
    obtain ⟨hb, hl⟩ := List.nodup_cons.1 h
    rcases List.mem_cons.1 ha with rfl | ha
    · exact List.find?_cons_of_pos (by simp)
    · have hmem : f a ∈ l.map f := List.mem_map_of_mem ha
      have hne : f b ≠ f a := fun heq => hb (heq ▸ hmem)
      rw [List.find?_cons_of_neg (by simpa using hne), ih hl ha]

theorem Lawful.fieldsOf?_object {ms : Members} (h : ms.Lawful) {key : List Char} {inner : Members}
    (ho : (key, inner) ∈ ms.objects) : fieldsOf? ms.lifted (interfaceName key) = some inner.fields := by
  have hnames : (ms.lifted.map Lifted.name).Nodup := by
    have := h.keys.map (List.append_left_injective "Interface".toList)
    rw [List.map_map] at this
    rw [lifted, List.map_map]
    exact this
  have hmem : (⟨key, inner.fields⟩ : Lifted) ∈ ms.lifted := List.mem_map.2 ⟨_, ho, rfl⟩
  exact congrArg (Option.map Lifted.fields) (find?_of_nodup hnames hmem)

theorem Lawful.fieldsOf?_type {ms : Members} (h : ms.Lawful) {t : List Char} (ht : t ∈ ms.types) :
    fieldsOf? ms.lifted t = none := by
  rw [fieldsOf?, Option.map_eq_none_iff, List.find?_eq_none]
  intro i hi hname
  obtain ⟨o, ho, rfl⟩ := List.mem_map.1 hi
  exact h.fresh t ht o ho (beq_iff_eq.1 hname).symm

/-- The fields of members expand to them, among members that can be told apart. -/
theorem Lawful.expands {root : Members} (h : root.Lawful) : ∀ {ms : Members}, ms.objects ⊆ root.objects →
    ms.types ⊆ root.types → Expands root.lifted ms.fields ms
  | nil, _, _ => .nil
  | leaf _ _ _, hobjects, htypes =>
    .leaf (h.fieldsOf?_type (htypes List.mem_cons_self))
      (h.expands hobjects fun _ ht => htypes (List.mem_cons_of_mem _ ht))
  | object _ _ _, hobjects, htypes =>
    .object (h.fieldsOf?_object (hobjects List.mem_cons_self))
      (h.expands (fun _ ho => hobjects (List.mem_cons_of_mem _ (List.mem_append_left _ ho)))
        fun _ ht => htypes (List.mem_append_left _ ht))
      (h.expands (fun _ ho => hobjects (List.mem_cons_of_mem _ (List.mem_append_right _ ho)))
        fun _ ht => htypes (List.mem_append_right _ ht))

end Members

/-! ## Flattening -/

theorem braceFree_fieldsText {fs : List Field} (h : ∀ f ∈ fs, f.Worded) : BraceFree (fieldsText fs) := by
  have hall : ∀ {fs : List Field}, (∀ f ∈ fs, f.Worded) → BraceFree (spacedText fs) := by
    intro fs hfs
    induction fs with
    | nil => exact ⟨List.not_mem_nil, List.not_mem_nil⟩
    | cons f fs ih =>
      obtain ⟨⟨hkey, htype⟩, hfs⟩ := List.forall_mem_cons.1 hfs
      have hcolon : BraceFree ": ".toList := by constructor <;> decide
      have hstop : BraceFree [';'] := by constructor <;> decide
      have hblank : BraceFree [' '] := by constructor <;> decide
      exact (((((braceFree_of_word hkey).append hcolon).append (braceFree_of_word htype)).append hstop).append
        hblank).append (ih hfs)
  cases fs with
  | nil => exact ⟨List.not_mem_nil, List.not_mem_nil⟩
  | cons f fs =>
    refine (hall h).of_subset ?_
    rw [spacedText_eq (List.cons_ne_nil f fs)]
    exact List.subset_append_left _ _

/-- **Flattening a service type keeps the tree.**  The text in front of it stays, there is one interface for
each object, in front of those of the objects in it, nothing is left out, no object stands in what is written
behind the text, and putting the fields of interfaces in place of their names gives back exactly the members
that were there. -/
theorem flatten_expands {before after : List Char} {ms : Members} (hbefore : ¬ serviceHeader <:+: before)
    (h : ms.Lawful) :
    flatten (before ++ serviceHeader ++ '\n' :: (ms.text ++ '\n' :: '}' :: after)) = .ok
        { text := before ++ ms.lifted.flatMap Lifted.text ++ "\nexport type Service = \x7b ".toList ++
            fieldsText ms.fields ++ " \x7d".toList
          collisions := [] } ∧
      (∀ fs ∈ ms.fields :: ms.lifted.map Lifted.fields, BraceFree (fieldsText fs)) ∧
      ∀ ms', Expands ms.lifted ms.fields ms' ↔ ms' = ms := by
  have hexpands := h.expands (List.Subset.refl _) (List.Subset.refl _)
  refine ⟨?_, fun fs hfs => ?_, fun ms' => ⟨fun h' => h'.det hexpands, fun heq => heq ▸ hexpands⟩⟩
  · have hservice : unbroken ('\n' :: (ms.text ++ '\n' :: '}' :: after)) = ms.line ++ '}' :: unbroken after := by
      have hsplit : '\n' :: (ms.text ++ '\n' :: '}' :: after) =
          ['\n'] ++ (ms.text ++ (['\n', '}'] ++ after)) := by simp
      rw [hsplit, unbroken_append, unbroken_append, unbroken_append, Members.unbroken_text h.worded]
      rfl
    obtain ⟨level, shapes, hlevel, hshapes, hflat⟩ :=
      flatten_of_balanced hbefore (Members.balanced_line h.worded) hservice
    rw [Members.trim_line h.worded] at hlevel hshapes
    rw [Members.currentLevel_line h.worded h.types h.fresh] at hlevel
    rw [Members.collect_line h] at hshapes
    cases hlevel
    cases hshapes
    rw [hflat, List.flatMap_map, Members.lifted, List.flatMap_map]
    rfl
  · refine braceFree_fieldsText ?_
    rcases List.mem_cons.1 hfs with rfl | hfs
    · exact Members.worded_of_mem_fields h.worded
    · obtain ⟨i, hi, rfl⟩ := List.mem_map.1 hfs
      obtain ⟨o, ho, rfl⟩ := List.mem_map.1 hi
      exact Members.worded_of_mem_fields (Members.worded_of_mem_objects h.worded o ho).2.1

/-- An object in an object, with fields behind both. -/
theorem flatten_expands_base :
    let before := "export interface User \x7b age?: number; \x7d\n".toList
    let sys : Members :=
      .leaf "user".toList "BaseSysUser".toList (.leaf "menu".toList "BaseSysMenu".toList .nil)
    let ms : Members :=
      .object "base".toList (.object "sys".toList sys (.leaf "comm".toList "BaseComm".toList .nil))
        (.leaf "demo".toList "DemoGoods".toList .nil)
    (¬ serviceHeader <:+: before ∧ ms.Lawful) ∧
    flatten (before ++ serviceHeader ++ '\n' :: (ms.text ++ '\n' :: '}' :: ['\n'])) = .ok
        { text := before ++ ms.lifted.flatMap Lifted.text ++ "\nexport type Service = \x7b ".toList ++
            fieldsText ms.fields ++ " \x7d".toList
          collisions := [] } ∧
      (∀ fs ∈ ms.fields :: ms.lifted.map Lifted.fields, BraceFree (fieldsText fs)) ∧
      ∀ ms', Expands ms.lifted ms.fields ms' ↔ ms' = ms := by
  intro before sys ms
  have hbefore : ¬ serviceHeader <:+: before := Text.contains_eq_false_iff.1 (by decide)
  have hlawful : ms.Lawful := ⟨by decide, by decide, by decide, by decide⟩
  exact ⟨⟨hbefore, hlawful⟩, flatten_expands hbefore hlawful⟩

end ClientBuild.Declaration
