import ClientBuild.Proofs.Declaration.Unique

/-!
# What becomes of every entity

An entity is declared, is left out with one collision, or has no name; which of these it is depends
on the names of the entities in front of it (`outcome`).  The pass over the entities goes through
these outcomes one by one (`declaredEntities_eq`), so nothing is left out without a collision and
nothing is counted twice (`entities_accounted`).
-/

namespace ClientBuild.Declaration

/-! ## Outcomes -/

/-- What becomes of an entity. -/
inductive Outcome where
  /-- It gets an interface. -/
  | declared (e : Entity)
  /-- It is left out for a reason. -/
  | leftOut (c : Collision)
  /-- It has no name that could be declared or left out. -/
  | unnamed

namespace Outcome

/-- The entity that gets an interface. -/
def entity? : Outcome → Option Entity
  | declared e => some e
  | leftOut _ => none
  | unnamed => none

/-- The reason for which an entity is left out. -/
def collision? : Outcome → Option Collision
  | declared _ => none
  | leftOut c => some c
  | unnamed => none

/-- Has the entity no name? -/
def isUnnamed : Outcome → Bool
  | declared _ => false
  | leftOut _ => false
  | unnamed => true

/-- An outcome is of one kind only. -/
theorem length_eq (os : List Outcome) :
    os.length =
      (os.filterMap entity?).length + (os.filterMap collision?).length + os.countP isUnnamed := by
  induction os with
  | nil => rfl
  | cons o os ih =>
    rw [List.length_cons, ih, List.countP_cons]
    cases o with
    | declared e =>
      have hentities : (declared e :: os).filterMap entity? = e :: os.filterMap entity? := rfl
      have hcollisions : (declared e :: os).filterMap collision? = os.filterMap collision? := rfl
      rw [hentities, hcollisions, isUnnamed, if_neg Bool.false_ne_true, List.length_cons]
      omega
    | leftOut c =>
      have hentities : (leftOut c :: os).filterMap entity? = os.filterMap entity? := rfl
      have hcollisions : (leftOut c :: os).filterMap collision? = c :: os.filterMap collision? := rfl
      rw [hentities, hcollisions, isUnnamed, if_neg Bool.false_ne_true, List.length_cons]
      omega
    | unnamed =>
      have hentities : (unnamed :: os).filterMap entity? = os.filterMap entity? := rfl
      have hcollisions : (unnamed :: os).filterMap collision? = os.filterMap collision? := rfl
      rw [hentities, hcollisions, isUnnamed, if_pos rfl]
      omega

end Outcome

/-- Is the name of an entity declared for one in front of it? -/
def isTaken (earlier : List Entity) (e : Entity) : Bool :=
  earlier.any fun d => hasLawfulName d && entityName d == entityName e

/-- What becomes of an entity behind others.  A name is lawful if it can be declared both as it is
given and as it is written. -/
def outcome (earlier : List Entity) (e : Entity) : Outcome :=
  if e.name.isEmpty then .unnamed
  else if !hasLawfulName e then .leftOut ⟨.illegalName, e.name, e.route⟩
  else if isTaken earlier e then .leftOut ⟨.entityName, entityName e, e.route⟩
  else .declared e

theorem hasLawfulName_of_isEmpty {e : Entity} (h : e.name.isEmpty = true) :
    hasLawfulName e = false := by
  have hname : e.name.toList = [] := by
    rw [String.isEmpty_iff.1 h]
    rfl
  simp [hasLawfulName, isLawful, hname]

theorem outcome_of_lawful (earlier : List Entity) {e : Entity} (h : hasLawfulName e = true) :
    outcome earlier e =
      if isTaken earlier e then .leftOut ⟨.entityName, entityName e, e.route⟩ else .declared e := by
  have hname : ¬ e.name.isEmpty = true := fun hempty => by
    rw [hasLawfulName_of_isEmpty hempty] at h
    cases h
  rw [outcome, if_neg hname, if_neg (by simp [h])]

/-- What becomes of each entity behind others, in order. -/
def outcomesFrom (earlier : List Entity) : List Entity → List Outcome
  | [] => []
  | e :: es => outcome earlier e :: outcomesFrom (earlier ++ [e]) es

theorem length_outcomesFrom (earlier es : List Entity) :
    (outcomesFrom earlier es).length = es.length := by
  induction es generalizing earlier with
  | nil => rfl
  | cons e es ih => rw [outcomesFrom, List.length_cons, List.length_cons, ih]

theorem isUnnamed_outcome (earlier : List Entity) (e : Entity) :
    (outcome earlier e).isUnnamed = e.name.isEmpty := by
  rw [outcome]
  split
  next hname => exact hname.symm
  next hname =>
    have hnamed : e.name.isEmpty = false := Bool.eq_false_iff.2 hname
    rw [hnamed]
    split
    · rfl
    · split <;> rfl

theorem countP_outcomesFrom (earlier es : List Entity) :
    (outcomesFrom earlier es).countP Outcome.isUnnamed = es.countP (·.name.isEmpty) := by
  induction es generalizing earlier with
  | nil => rfl
  | cons e es ih => rw [outcomesFrom, List.countP_cons, List.countP_cons, ih, isUnnamed_outcome]

/-! ## The pass over the entities -/

/-- Are these the names that are declared for the entities? -/
def Seen (seen : List String) (earlier : List Entity) : Prop :=
  ∀ name, name ∈ seen ↔ ∃ d ∈ earlier, hasLawfulName d = true ∧ entityName d = name

section seen

variable {seen : List String} {earlier : List Entity} {e : Entity}

theorem Seen.isTaken (h : Seen seen earlier) :
    isTaken earlier e = seen.contains (entityName e) := by
  rw [Bool.eq_iff_iff, List.contains_iff_mem, h, Declaration.isTaken, List.any_eq_true]
  simp only [Bool.and_eq_true, beq_iff_eq]

theorem Seen.concat (h : Seen seen earlier) (he : hasLawfulName e = true) :
    Seen (entityName e :: seen) (earlier ++ [e]) := by
  intro name
  simp only [List.mem_cons, h name, List.mem_append, List.not_mem_nil, or_false]
  constructor
  · rintro (rfl | ⟨d, hd, hname⟩)
    · exact ⟨e, Or.inr rfl, he, rfl⟩
    · exact ⟨d, Or.inl hd, hname⟩
  · rintro ⟨d, hd | rfl, hlawful, rfl⟩
    · exact Or.inr ⟨d, hd, hlawful, rfl⟩
    · exact Or.inl rfl

/-- An entity that is left out changes nothing for those behind it. -/
theorem Seen.concat_of_left (h : Seen seen earlier)
    (he : hasLawfulName e = true → entityName e ∈ seen) : Seen seen (earlier ++ [e]) := by
  intro name
  simp only [h name, List.mem_append, List.mem_cons, List.not_mem_nil, or_false]
  constructor
  · rintro ⟨d, hd, hname⟩
    exact ⟨d, Or.inl hd, hname⟩
  · rintro ⟨d, hd | rfl, hlawful, rfl⟩
    · exact ⟨d, hd, hlawful, rfl⟩
    · exact (h _).1 (he hlawful)

end seen

/-- **The pass over the entities collects their outcomes.** -/
theorem declaredEntities_eq {seen : List String} {earlier : List Entity} (h : Seen seen earlier)
    (es : List Entity) :
    declaredEntities seen es = ((outcomesFrom earlier es).filterMap Outcome.entity?,
      (outcomesFrom earlier es).filterMap Outcome.collision?) := by
  induction es generalizing seen earlier with
  | nil => rfl
  | cons e es ih =>
    rw [declaredEntities, outcomesFrom]
    by_cases hlawful : hasLawfulName e = true
    · rw [if_neg (by simp [hlawful])]
      by_cases hseen : seen.contains (entityName e) = true
      · rw [if_pos hseen, ih (h.concat_of_left fun _ => List.contains_iff_mem.1 hseen),
          outcome_of_lawful earlier hlawful,
          if_pos (h.isTaken.trans hseen)]
        rfl
      · rw [if_neg hseen, ih (h.concat hlawful),
          outcome_of_lawful earlier hlawful, if_neg (h.isTaken ▸ hseen)]
        rfl
    · rw [if_pos (by simp [hlawful]), ih (h.concat_of_left fun he => absurd he hlawful)]
      by_cases hname : e.name.isEmpty = true
      · rw [outcome, if_pos hname]
        simp only [hname, if_true]
        rfl
      · rw [outcome, if_neg hname, if_pos (by simp [hlawful])]
        simp only [hname]
        rfl

/-- The names that are declared are the lawful ones, each where it first stands. -/
theorem names_declaredEntities (seen : List String) (es : List Entity) :
    (declaredEntities seen es).1.map entityName =
      Text.dedupFrom seen ((es.filter hasLawfulName).map entityName) := by
  induction es generalizing seen with
  | nil => rfl
  | cons e es ih =>
    rw [declaredEntities]
    by_cases hlawful : hasLawfulName e = true
    · rw [if_neg (by simp [hlawful]), List.filter_cons_of_pos hlawful, List.map_cons, Text.dedupFrom]
      by_cases hseen : seen.contains (entityName e) = true
      · rw [if_pos hseen, if_pos hseen]
        exact ih seen
      · rw [if_neg hseen, if_neg hseen]
        exact congrArg (entityName e :: ·) (ih (entityName e :: seen))
    · rw [if_pos (by simp [hlawful]), List.filter_cons_of_neg hlawful]
      exact ih seen

/-- The entity that is declared under a name is the first one that has it. -/
theorem find?_of_mem_declaredEntities {seen : List String} {es : List Entity} {e : Entity}
    (he : e ∈ (declaredEntities seen es).1) :
    es.find? (fun d => hasLawfulName d && entityName d == entityName e) = some e := by
  induction es generalizing seen with
  | nil => cases he
  | cons d es ih =>
    have hnot := (nodup_entityNames_from seen (d :: es)).2 (entityName e) (List.mem_map_of_mem he)
    rw [declaredEntities] at he
    by_cases hlawful : hasLawfulName d = true
    · rw [if_neg (by simp [hlawful])] at he
      by_cases hseen : seen.contains (entityName d) = true
      · rw [if_pos hseen] at he
        have hne : entityName d ≠ entityName e := fun heq => hnot (heq ▸ List.contains_iff_mem.1 hseen)
        rw [List.find?_cons_of_neg (by simp [hne])]
        exact ih he
      · rw [if_neg hseen] at he
        rcases List.mem_cons.1 he with rfl | he
        · rw [List.find?_cons_of_pos (by simp [hlawful])]
        · have hbehind := (nodup_entityNames_from (entityName d :: seen) es).2 (entityName e)
            (List.mem_map_of_mem he)
          have hne : entityName d ≠ entityName e := fun heq => hbehind (heq ▸ List.mem_cons_self)
          rw [List.find?_cons_of_neg (by simp [hne])]
          exact ih he
    · rw [if_pos (by simp [hlawful])] at he
      rw [List.find?_cons_of_neg (by simp [hlawful])]
      exact ih he

/-- **Every entity is accounted for.**  Each lawful name has one interface, in order of first
appearance, of the first entity that has the name; every other entity with a name has one collision
with its route, in the order of the list; and no entity is both. -/
theorem entities_accounted (t : Target) (types : TypeMap) (es : List Entity) :
    ∃ kept collisions, declaredEntities [] es = (kept, collisions) ∧
      entityTexts t types kept = .ok (String.join (kept.map fun e => entityText t types e ++ "\n")) ∧
      kept.map entityName = Text.distinct ((es.filter hasLawfulName).map entityName) ∧
      (∀ e ∈ kept, es.find? (fun d => hasLawfulName d && entityName d == entityName e) = some e) ∧
      kept = (outcomesFrom [] es).filterMap Outcome.entity? ∧
      collisions = (outcomesFrom [] es).filterMap Outcome.collision? ∧
      es.length = kept.length + collisions.length + es.countP (·.name.isEmpty) := by
  have hstart : Seen [] [] := fun name => by simp
  have hpass := declaredEntities_eq hstart es
  refine ⟨_, _, hpass, entityTexts_eq t types _, ?_, ?_, rfl, rfl, ?_⟩
  · have hnames := names_declaredEntities [] es
    rw [hpass] at hnames
    exact hnames
  · intro e he
    refine @find?_of_mem_declaredEntities [] es e ?_
    rw [hpass]
    exact he
  · rw [← countP_outcomesFrom [] es, ← Outcome.length_eq, length_outcomesFrom]

end ClientBuild.Declaration
