import ClientBuild.Proofs.Declaration.Outermost
import Mathlib.Data.List.Nodup

/-!
# The shapes of a service type

An object is visited once for itself and once more for every object around it.  A shape that has been added
changes nothing when it is added again (`Shapes.add_of_has`), so the visits come to one pass over the objects
in the order of the text (`Balanced.collect_eq`).  Such a pass keeps the first shape of every key and notes
every other shape of the key once (`foldl_add_eq`).
-/

namespace ClientBuild.Declaration

/-! ## Adding shapes -/

namespace Shapes

variable {r : Shapes} {p q : String × List Char}

/-- Does adding a shape change nothing? -/
def Has (r : Shapes) (p : String × List Char) : Prop :=
  ∃ stays, Assoc.get? p.1 r.first = some stays ∧ (stays = p.2 ∨ collision p.1 p.2 ∈ r.collisions)

theorem add_of_has (h : r.Has p) : r.add p.1 p.2 = r := by
  obtain ⟨stays, hget, hnoted⟩ := h
  rw [add, hget]
  exact if_pos hnoted

theorem add_of_none (h : Assoc.get? p.1 r.first = none) :
    r.add p.1 p.2 = { r with first := r.first ++ [p] } := by
  have hkey : p.1 ∉ Assoc.keys r.first := fun hmem => by
    obtain ⟨q, hq, hqp⟩ := List.mem_map.1 hmem
    exact Assoc.get?_ne_none hq (hqp ▸ h)
  rw [add, h, Assoc.insert_of_not_mem p.2 hkey]

theorem add_of_some {stays : List Char} (h : Assoc.get? p.1 r.first = some stays) (hne : stays ≠ p.2)
    (hnew : collision p.1 p.2 ∉ r.collisions) :
    r.add p.1 p.2 = { r with collisions := r.collisions ++ [collision p.1 p.2] } := by
  rw [add, h]
  exact if_neg (not_or.2 ⟨hne, hnew⟩)

/-- A shape that has been added is there. -/
theorem has_add (r : Shapes) (p : String × List Char) : (r.add p.1 p.2).Has p := by
  by_cases hhas : r.Has p
  · rw [add_of_has hhas]
    exact hhas
  · cases hget : Assoc.get? p.1 r.first with
    | none =>
      rw [add_of_none hget]
      refine ⟨p.2, ?_, Or.inl rfl⟩
      rw [Assoc.get?_append, hget]
      exact if_pos rfl
    | some stays =>
      have hneither : stays ≠ p.2 ∧ collision p.1 p.2 ∉ r.collisions :=
        not_or.1 fun h => hhas ⟨stays, hget, h⟩
      rw [add_of_some hget hneither.1 hneither.2]
      exact ⟨stays, hget, Or.inr (List.mem_append_right _ (List.mem_singleton_self _))⟩

/-- What is there stays there. -/
theorem Has.add (h : r.Has p) (q : String × List Char) : (r.add q.1 q.2).Has p := by
  by_cases hhas : r.Has q
  · rw [add_of_has hhas]
    exact h
  · obtain ⟨first, hfirst, hnoted⟩ := h
    cases hget : Assoc.get? q.1 r.first with
    | none =>
      rw [add_of_none hget]
      refine ⟨first, ?_, hnoted⟩
      rw [Assoc.get?_append, hfirst]
      rfl
    | some stays =>
      have hneither : stays ≠ q.2 ∧ collision q.1 q.2 ∉ r.collisions :=
        not_or.1 fun h => hhas ⟨stays, hget, h⟩
      rw [add_of_some hget hneither.1 hneither.2]
      exact ⟨first, hfirst, hnoted.imp_right (List.mem_append_left _)⟩

/-- Add the shapes of keys, one after the other. -/
def addAll (r : Shapes) (ps : List (String × List Char)) : Shapes := ps.foldl (fun r p => r.add p.1 p.2) r

variable {ps qs : List (String × List Char)}

theorem addAll_append (r : Shapes) (ps qs : List (String × List Char)) :
    r.addAll (ps ++ qs) = (r.addAll ps).addAll qs := List.foldl_append

theorem Has.addAll (h : r.Has p) (ps : List (String × List Char)) : (r.addAll ps).Has p := by
  induction ps generalizing r with
  | nil => exact h
  | cons q ps ih => exact ih (h.add q)

theorem has_addAll {ps : List (String × List Char)} (hp : p ∈ ps) : (r.addAll ps).Has p := by
  induction ps generalizing r with
  | nil => cases hp
  | cons q ps ih =>
    rcases List.mem_cons.1 hp with rfl | hp
    · exact (has_add r p).addAll ps
    · exact ih hp

/-- What is added again changes nothing. -/
theorem addAll_of_has (h : ∀ p ∈ ps, r.Has p) : r.addAll ps = r := by
  induction ps with
  | nil => rfl
  | cons p ps ih =>
    obtain ⟨hp, hps⟩ := List.forall_mem_cons.1 h
    have hfirst : r.addAll (p :: ps) = (r.add p.1 p.2).addAll ps := rfl
    rw [hfirst, add_of_has hp, ih hps]

end Shapes

/-! ## The visits -/

/-- The key of an object and its shape. -/
def keyedShape (o : NestedObject) : Except Failure (String × List Char) :=
  (currentLevel (Text.trim o.body)).map fun shape => (String.ofList o.key, shape)

/-- The key and the shape of an object whose braces are closed. -/
def shapeIn (o : NestedObject) : String × List Char :=
  (String.ofList o.key, oneLine (Text.trim o.body) (objectsIn (Text.trim o.body)))

theorem keyedShape_eq {o : NestedObject} (h : Balanced o.body) : keyedShape o = .ok (shapeIn o) := by
  rw [keyedShape, h.trim.currentLevel_eq]
  rfl

/-- What is added for an object: its shape, and those of the objects in it. -/
def visited (o : NestedObject) : List (String × List Char) := shapeIn o :: (objectsIn o.body).map shapeIn

/-- **Visiting the objects in others again changes nothing.** -/
theorem addAll_visited {s : List Char} (h : Closing s) (r : Shapes) :
    r.addAll ((objectsIn s).flatMap visited) = r.addAll ((objectsIn s).map shapeIn) := by
  have hrow := row_outermost h
  have hbodies : ∀ t ∈ outermost s, ∀ r : Shapes,
      r.addAll ((objectsIn t.body).flatMap visited) = r.addAll ((objectsIn t.body).map shapeIn) := by
    intro t ht r
    obtain ⟨⟨v, hv⟩, hshort⟩ := hrow.written t ht
    exact addAll_visited hv.balanced.closing r
  rw [objectsIn_eq_flatMap h]
  clear hrow
  generalize outermost s = ts at hbodies ⊢
  induction ts generalizing r with
  | nil => rfl
  | cons t ts ih =>
    obtain ⟨hbody, hbodies⟩ := List.forall_mem_cons.1 hbodies
    have hagain : (r.addAll (visited t)).addAll ((objectsIn t.body).map shapeIn) = r.addAll (visited t) :=
      Shapes.addAll_of_has fun p hp => Shapes.has_addAll (List.mem_cons_of_mem _ hp)
    rw [List.flatMap_cons, List.flatMap_append, List.flatMap_cons, List.map_append,
      List.map_cons, Shapes.addAll_append, Shapes.addAll_append, Shapes.addAll_append, hbody, hagain]
    exact ih (r.addAll (visited t)) hbodies
termination_by s.length

/-- **All visits come to one pass over the objects of a text**, in order. -/
theorem Balanced.collect_eq {content : List Char} (h : Balanced content) (r : Shapes) :
    Declaration.collect content r = .ok (r.addAll ((objectsIn content).map shapeIn)) := by
  have hvisit : ∀ o ∈ objectsIn content, ∀ r, collectObject r o = .ok (r.addAll (visited o)) := by
    intro o ho r
    obtain ⟨⟨v, hv⟩, hshort⟩ := written_of_mem_objectsIn ho
    have hshort := Nat.lt_of_le_of_lt (Text.length_trim_le o.body) hshort
    have hlevel := hv.balanced.trim.currentLevel_eq
    rw [collectObject, hlevel]
    have hinner := hv.balanced.trim.collect_eq (r.add (shapeIn o).1 (shapeIn o).2)
    rw [objectsIn_trim hv.balanced] at hinner
    exact hinner
  have hpass : ∀ {os : List NestedObject} (r : Shapes),
      (∀ o ∈ os, ∀ r, collectObject r o = .ok (r.addAll (visited o))) →
      os.foldlM collectObject r = .ok (r.addAll (os.flatMap visited)) := by
    intro os
    induction os with
    | nil => exact fun r _ => rfl
    | cons o os ih =>
      intro r hos
      obtain ⟨ho, hos⟩ := List.forall_mem_cons.1 hos
      rw [List.foldlM_cons, ho r, List.flatMap_cons, Shapes.addAll_append]
      exact ih _ hos
  rw [Declaration.collect_eq, h.closing.nestedObjects_eq]
  exact (hpass r hvisit).trans (congrArg _ (addAll_visited h.closing r))
termination_by content.length

/-! ## First shapes and collisions -/

/-- The first shape of every key, in the order in which the keys first appear. -/
def firstShapes (ps : List (String × List Char)) : List (String × List Char) :=
  (Text.distinct (ps.map Prod.fst)).filterMap fun key => (Assoc.get? key ps).map fun shape => (key, shape)

/-- The shapes that are not the first one of their key, each one once. -/
def otherShapes (ps : List (String × List Char)) : List (String × List Char) :=
  Text.distinct (ps.filter fun p => Assoc.get? p.1 ps ≠ some p.2)

section pass

variable {ps : List (String × List Char)} {p : String × List Char}

theorem mem_keys_iff {key : String} : key ∈ ps.map Prod.fst ↔ Assoc.get? key ps ≠ none := by
  constructor
  · intro h
    obtain ⟨q, hq, rfl⟩ := List.mem_map.1 h
    exact Assoc.get?_ne_none hq
  · intro h
    obtain ⟨shape, hshape⟩ := Option.ne_none_iff_exists'.1 h
    exact List.mem_map_of_mem (Assoc.mem_of_get? hshape)

theorem get?_concat_of_ne_none {key : String} (h : Assoc.get? key ps ≠ none) (p : String × List Char) :
    Assoc.get? key (ps ++ [p]) = Assoc.get? key ps := by
  obtain ⟨shape, hshape⟩ := Option.ne_none_iff_exists'.1 h
  rw [Assoc.get?_append, hshape]
  rfl

theorem get?_concat_of_none (h : Assoc.get? p.1 ps = none) : Assoc.get? p.1 (ps ++ [p]) = some p.2 := by
  rw [Assoc.get?_append, h]
  exact if_pos rfl

theorem firstShapes_concat (ps : List (String × List Char)) (p : String × List Char) :
    firstShapes (ps ++ [p]) =
      if Assoc.get? p.1 ps = none then firstShapes ps ++ [p] else firstShapes ps := by
  have hold : ∀ key ∈ Text.distinct (ps.map Prod.fst),
      (Assoc.get? key (ps ++ [p])).map (fun shape => (key, shape)) =
        (Assoc.get? key ps).map fun shape => (key, shape) := fun key hkey => by
    rw [get?_concat_of_ne_none (mem_keys_iff.1 (Text.mem_distinct.1 hkey))]
  rw [firstShapes, List.map_append, List.map_singleton, Text.distinct_concat]
  by_cases hnone : Assoc.get? p.1 ps = none
  · rw [if_neg fun hmem => mem_keys_iff.1 hmem hnone, if_pos hnone, List.filterMap_append,
      List.filterMap_congr hold]
    simp only [List.filterMap_cons, get?_concat_of_none hnone, Option.map_some, List.filterMap_nil]
    rfl
  · rw [if_pos (mem_keys_iff.2 hnone), if_neg hnone, List.filterMap_congr hold]
    rfl

theorem get?_firstShapes (key : String) (ps : List (String × List Char)) :
    Assoc.get? key (firstShapes ps) = Assoc.get? key ps := by
  induction ps using List.reverseRecOn with
  | nil => rfl
  | append_singleton ps p ih =>
    rw [firstShapes_concat, Assoc.get?_append]
    split
    next hnone => rw [Assoc.get?_append, ih]
    next hsome =>
      rw [ih]
      cases hkey : Assoc.get? key ps with
      | some shape => rfl
      | none =>
        have hne : p.1 ≠ key := fun heq => hsome (heq ▸ hkey)
        exact (if_neg hne).symm

theorem otherShapes_concat (ps : List (String × List Char)) (p : String × List Char) :
    otherShapes (ps ++ [p]) =
      if Assoc.get? p.1 ps = none ∨ Assoc.get? p.1 ps = some p.2 ∨ p ∈ otherShapes ps then otherShapes ps
      else otherShapes ps ++ [p] := by
  have hold : ps.filter (fun q => Assoc.get? q.1 (ps ++ [p]) ≠ some q.2) =
      ps.filter fun q => Assoc.get? q.1 ps ≠ some q.2 := List.filter_congr fun q hq => by
    rw [get?_concat_of_ne_none (Assoc.get?_ne_none hq)]
  have hmem : p ∈ otherShapes ps ↔ p ∈ ps.filter fun q => Assoc.get? q.1 ps ≠ some q.2 := Text.mem_distinct
  rw [otherShapes, List.filter_append, hold]
  by_cases hfirst : Assoc.get? p.1 (ps ++ [p]) = some p.2
  · -- It is the first shape of its key.
    have hkey : Assoc.get? p.1 ps = none ∨ Assoc.get? p.1 ps = some p.2 := by
      by_cases hnone : Assoc.get? p.1 ps = none
      · exact Or.inl hnone
      · exact Or.inr (get?_concat_of_ne_none hnone p ▸ hfirst)
    rw [List.filter_cons_of_neg (by simpa using hfirst), List.filter_nil, List.append_nil,
      if_pos (hkey.imp_right Or.inl)]
    rfl
  · have hnone : Assoc.get? p.1 ps ≠ none := fun h => hfirst (get?_concat_of_none h)
    have hother : Assoc.get? p.1 ps ≠ some p.2 := fun h => hfirst (get?_concat_of_ne_none hnone p ▸ h)
    rw [List.filter_cons_of_pos (by simpa using hfirst), List.filter_nil, Text.distinct_concat]
    simp only [hnone, hother, false_or, hmem]
    rfl

theorem collision_injective : Function.Injective fun p : String × List Char => Shapes.collision p.1 p.2 := by
  rintro ⟨key, shape⟩ ⟨key', shape'⟩ h
  simp only [Shapes.collision, Collision.mk.injEq, true_and] at h
  obtain ⟨rfl, htext⟩ := h
  have hshape := List.append_cancel_left (List.append_cancel_right (String.ofList_injective htext))
  rw [hshape]

/-- **A pass keeps the first shape of every key and notes every other one once.** -/
theorem addAll_eq (ps : List (String × List Char)) :
    Shapes.addAll {} ps = ⟨firstShapes ps, (otherShapes ps).map fun p => Shapes.collision p.1 p.2⟩ := by
  induction ps using List.reverseRecOn with
  | nil => rfl
  | append_singleton ps p ih =>
    have hstep : Shapes.addAll {} (ps ++ [p]) = (Shapes.addAll {} ps).add p.1 p.2 := Shapes.addAll_append _ _ _
    have hget := get?_firstShapes p.1 ps
    rw [hstep, ih, firstShapes_concat, otherShapes_concat]
    cases hkey : Assoc.get? p.1 ps with
    | none =>
      rw [hkey] at hget
      rw [Shapes.add_of_none hget, if_pos rfl, if_pos (Or.inl rfl)]
    | some stays =>
      rw [hkey] at hget
      have hmem : Shapes.collision p.1 p.2 ∈ (otherShapes ps).map (fun p => Shapes.collision p.1 p.2) ↔
          p ∈ otherShapes ps := List.mem_map_of_injective collision_injective
      by_cases hhas : stays = p.2 ∨ p ∈ otherShapes ps
      · rw [Shapes.add_of_has ⟨stays, hget, hhas.imp_right hmem.2⟩, if_neg (Option.some_ne_none _), if_pos]
        exact Or.inr (hhas.imp_left (congrArg some))
      · obtain ⟨hne, hnew⟩ := not_or.1 hhas
        rw [Shapes.add_of_some hget hne fun h => hnew (hmem.1 h), if_neg (Option.some_ne_none _), if_neg]
        · rw [List.map_append]
          rfl
        · rintro (h | h | h)
          · cases h
          · exact hne (Option.some.inj h)
          · exact hnew h

end pass

/-! ## Flattening -/

/-- What a service type with a text in front of it becomes. -/
def flattened (before body : List Char) : Flattened :=
  let ps := (objectsIn body).map shapeIn
  { text := before ++ ((firstShapes ps).flatMap fun (k, shape) => interfaceText k shape) ++
      "\nexport type Service = \x7b ".toList ++ oneLine (Text.trim body) (objectsIn body) ++ " \x7d".toList
    collisions := (otherShapes ps).map fun p => Shapes.collision p.1 p.2 }

/-- **What flattening does**, said without the visits: it succeeds on a text with a service type whose brace is
closed. -/
theorem flatten_eq_ok_iff {text : List Char} {flat : Flattened} : flatten text = .ok flat ↔
    ∃ before service body rest, Text.breakOn? serviceHeader text = some (before, service) ∧
      takeBraced? 0 (unbroken service) = some (body, rest) ∧ flat = flattened before body := by
  rw [flatten]
  cases hbreak : Text.breakOn? serviceHeader text with
  | none => simp
  | some p =>
    obtain ⟨before, service⟩ := p
    dsimp only
    rw [← unbroken]
    cases hbody : takeBraced? 0 (unbroken service) with
    | none => simp [hbody]
    | some p =>
      obtain ⟨body, rest⟩ := p
      have hbalanced : Balanced body := (takeBraced?_eq_some_iff.1 hbody).2
      have hlevel : currentLevel (Text.trim body) = .ok (oneLine (Text.trim body) (objectsIn body)) := by
        rw [hbalanced.trim.currentLevel_eq, objectsIn_trim hbalanced]
      have hshapes : collect (Text.trim body) {} = .ok (Shapes.addAll {} ((objectsIn body).map shapeIn)) := by
        rw [hbalanced.trim.collect_eq, objectsIn_trim hbalanced]
      dsimp only
      rw [hlevel, hshapes, addAll_eq]
      constructor
      · intro h
        cases h
        exact ⟨before, service, body, rest, rfl, hbody, rfl⟩
      · rintro ⟨before', service', body', rest', heq, hbody', rfl⟩
        cases heq
        rw [hbody] at hbody'
        cases hbody'
        rfl

/-- **Flattening reports collisions exactly.**  Take the objects of the service type that are not empty, at any
depth and in the order of the text, each one with its key and its shape.  The interfaces are one for each key,
in order of first appearance, with the first shape of the key, and the collisions are one for each pair of a
key and a shape that is not the first one of the key. -/
theorem flatten_collisions {text : List Char} {flat : Flattened} (h : flatten text = .ok flat) :
    ∃ before service body rest os ps level, Text.breakOn? serviceHeader text = some (before, service) ∧
      takeBraced? 0 (unbroken service) = some (body, rest) ∧ nestedObjects body = .ok os ∧
      os.mapM keyedShape = .ok ps ∧ currentLevel (Text.trim body) = .ok level ∧
      flat.text = before ++ ((firstShapes ps).flatMap fun (k, shape) => interfaceText k shape) ++
        "\nexport type Service = \x7b ".toList ++ level ++ " \x7d".toList ∧
      flat.collisions = (otherShapes ps).map (fun p => Shapes.collision p.1 p.2) ∧ flat.collisions.Nodup := by
  obtain ⟨before, service, body, rest, hbreak, hbody, rfl⟩ := flatten_eq_ok_iff.1 h
  have hbalanced : Balanced body := (takeBraced?_eq_some_iff.1 hbody).2
  have hkeyed : (objectsIn body).mapM keyedShape = .ok ((objectsIn body).map shapeIn) :=
    mapM_of_ok fun o ho => by
      obtain ⟨⟨v, hv⟩, -⟩ := written_of_mem_objectsIn ho
      exact keyedShape_eq hv.balanced
  have hlevel := hbalanced.trim.currentLevel_eq
  rw [objectsIn_trim hbalanced] at hlevel
  exact ⟨before, service, body, rest, objectsIn body, _, _, hbreak, hbody, hbalanced.closing.nestedObjects_eq,
    hkeyed, hlevel, rfl, rfl, List.Nodup.map collision_injective (Text.nodup_distinct _)⟩

/-- A key with two shapes, the second one under an object and at its side. -/
theorem flatten_collisions_twice :
    let body := " a: \x7b x: \x7b p: P; \x7d; \x7d; b: \x7b x: \x7b q: Q; \x7d; \x7d; x: \x7b q: Q; \x7d; ".toList
    let text := serviceHeader ++ body ++ ['}']
    let flat := flattened [] body
    (flatten text = .ok flat ∧ flat.collisions = [Shapes.collision "x" "q: Q;".toList]) ∧
    ∃ before service body rest os ps level, Text.breakOn? serviceHeader text = some (before, service) ∧
      takeBraced? 0 (unbroken service) = some (body, rest) ∧ nestedObjects body = .ok os ∧
      os.mapM keyedShape = .ok ps ∧ currentLevel (Text.trim body) = .ok level ∧
      flat.text = before ++ ((firstShapes ps).flatMap fun (k, shape) => interfaceText k shape) ++
        "\nexport type Service = \x7b ".toList ++ level ++ " \x7d".toList ∧
      flat.collisions = (otherShapes ps).map (fun p => Shapes.collision p.1 p.2) ∧ flat.collisions.Nodup := by
  intro body text flat
  have hflat : flatten text = .ok flat :=
    flatten_eq_ok_iff.2 ⟨[], body ++ ['}'], body, [], by decide, by decide, rfl⟩
  exact ⟨⟨hflat, by decide⟩, flatten_collisions hflat⟩

end ClientBuild.Declaration
