import ClientBuild.Proofs.Schema.Fields

/-!
# `null` and nothing

A backend writes `null` for what it does not know, and one such value that could not be read would lose a
whole entity.  So at every place of an entity where the value of a modelled key stands, however deep in its
records, `null` is as good as nothing, and any value may become `null` (`null_means_absent`).

A place is given by what stands around it (`Slot`, `Within`).  What is read at a place changes only by what
stands there: `Slot.ofJson?_congr` and `Slot.isSome_ofJson?` say so for the value of one key, and from there
it follows for any depth by induction on the way to the place.
-/

namespace ClientBuild

open Json

/-- With a value put in, a record that holds it under a modelled key.  In a record without extra members it
may also stand in the position of the key. -/
inductive Slot (k : RecordKind) (key : String) : (Json → Json) → Prop
  | member (before after : List (String × Json)) :
      Slot k key fun v => .object (before ++ (key, v) :: after)
  | position (before after : List Json) : k.keepsExtra = false →
      k.keys[before.length]? = some key → Slot k key fun v => .array (before ++ v :: after)

/-- With a record of the kind `inner` put in, a record that holds it at some depth. -/
inductive Within (inner : RecordKind) : RecordKind → (Json → Json) → Prop
  | here : Within inner inner id
  | record {k m : RecordKind} {x : Field} {C D : Json → Json} : x ∈ k.fields → x.content = .record m →
      Slot k x.key C → Within inner m D → Within inner k (C ∘ D)
  | item {k m : RecordKind} {x : Field} {C D : Json → Json} (before after : List Json) : x ∈ k.fields →
      x.content = .records m → Slot k x.key C → Within inner m D →
      Within inner k fun v => C (.array (before ++ D v :: after))

namespace Slot

variable {k : RecordKind} {x : Field} {C : Json → Json} {v w : Json}

theorem ne_null {key : String} (h : Slot k key C) (v : Json) : C v ≠ .null := by
  cases h with
  | member before after => nofun
  | position before after _ _ => nofun

/-- What stands under a modelled key is all that the record has under it, and nothing else of the record. -/
theorem open?_eq (h : Slot k x.key C) (hx : x ∈ k.fields) (v w : Json) :
    k.open? (C w) = (k.open? (C v)).map (·.withValue x.key w) ∧
      ∀ r ∈ k.open? (C v), r.get? x.key = some v := by
  cases h with
  | member before after =>
    simp only [RecordKind.open?, Record.open?, Record.closed?, ite_self]
    exact Record.ofMembers?_append_cons (RecordKind.key_mem_keys hx) v w
  | position before after hclosed hat =>
    simp only [RecordKind.open?, hclosed, Bool.false_eq_true, if_false]
    exact Record.closed?_append_cons (RecordKind.nodup_keys k) hat v w

/-- Where a record can be read, the value under each of its keys can. -/
theorem isSome_read (h : Slot k x.key C) (hx : x ∈ k.fields) (hv : v ≠ .null)
    (hsome : (k.ofJson? (C v)).isSome) : (x.content.read v).isSome := by
  obtain ⟨r, hr, hfields⟩ := RecordKind.isSome_ofJson?.1 hsome
  exact hfields x hx v (Record.present?_some ((h.open?_eq hx v v).2 r hr) hv)

/-- A record is read the same when the value under one of its keys is. -/
theorem ofJson?_congr (h : Slot k x.key C) (hx : x ∈ k.fields) (hv : v ≠ .null) (hw : w ≠ .null)
    (hread : x.content.read w = x.content.read v) : k.ofJson? (C w) = k.ofJson? (C v) := by
  obtain ⟨hopen, hget⟩ := h.open?_eq hx v w
  rw [RecordKind.ofJson?_eq, RecordKind.ofJson?_eq, hopen]
  cases hr : k.open? (C v) with
  | none => rfl
  | some r =>
    refine RecordKind.ofRecord?_congr rfl fun y hy => Field.ofRecord?_congr ?_
    by_cases hkey : y.key = x.key
    · obtain rfl := RecordKind.eq_of_key_eq hy hx hkey
      rw [Record.present?_withValue_self r y.key hw, Record.present?_some (hget r hr) hv, Option.map_some,
        Option.map_some, hread]
    · rw [Record.present?_withValue_of_ne r hkey]

/-- A record can be read when the value under one of its keys becomes `null`, or one that can be read. -/
theorem isSome_ofJson? (h : Slot k x.key C) (hx : x ∈ k.fields)
    (hw : w ≠ .null → v ≠ .null ∧ ((x.content.read v).isSome → (x.content.read w).isSome))
    (hsome : (k.ofJson? (C v)).isSome) : (k.ofJson? (C w)).isSome := by
  obtain ⟨hopen, hget⟩ := h.open?_eq hx v w
  obtain ⟨r, hr, hfields⟩ := RecordKind.isSome_ofJson?.1 hsome
  rw [hr, Option.map_some] at hopen
  refine RecordKind.isSome_ofJson?.2 ⟨_, hopen, fun y hy u hu => ?_⟩
  by_cases hkey : y.key = x.key
  · obtain rfl := RecordKind.eq_of_key_eq hy hx hkey
    by_cases hnull : w = .null
    · subst hnull
      rw [Record.present?_withValue_null] at hu
      cases hu
    · obtain ⟨hv, hfit⟩ := hw hnull
      rw [Record.present?_withValue_self r y.key hnull] at hu
      cases hu
      exact hfit (hfields y hy v (Record.present?_some (hget r hr) hv))
  · rw [Record.present?_withValue_of_ne r hkey] at hu
    exact hfields y hy u hu

end Slot

/-! ## Items -/

theorem Json.asList_congr {α : Type} {f : Json → Option α} {v w : Json} (before after : List Json)
    (h : f w = f v) : asList f (.array (before ++ w :: after)) = asList f (.array (before ++ v :: after)) := by
  simp only [asList, List.mapM_append, List.mapM_cons, h]

theorem Json.isSome_asList_iff {α : Type} {f : Json → Option α} {items : List Json} :
    (asList f (.array items)).isSome ↔ ∀ v ∈ items, (f v).isSome := by
  rw [asList]
  induction items with
  | nil => simp
  | cons v vs ih =>
    rw [List.forall_mem_cons, ← ih, List.mapM_cons]
    cases f v with
    | none => simp
    | some a =>
      cases vs.mapM f with
      | none => simp
      | some as => simp

/-! ## Any depth -/

namespace Within

variable {inner k : RecordKind} {C : Json → Json} {v w : Json}

theorem ne_null (h : Within inner k C) (hv : v ≠ .null) : C v ≠ .null := by
  cases h with
  | here => exact hv
  | record _ _ hC _ => exact hC.ne_null _
  | item before after _ _ hC _ => exact hC.ne_null _

/-- Where a record can be read, a record in it can. -/
theorem isSome_inner (h : Within inner k C) (hv : v ≠ .null) (hsome : (k.ofJson? (C v)).isSome) :
    (inner.ofJson? v).isSome := by
  induction h with
  | here => exact hsome
  | record hx hcontent hC hD ih =>
    have hread := hC.isSome_read hx (hD.ne_null hv) hsome
    rw [hcontent] at hread
    exact ih hread
  | item before after hx hcontent hC _ ih =>
    have hread := hC.isSome_read hx Json.noConfusion hsome
    rw [hcontent, Content.read, Json.isSome_asList_iff] at hread
    exact ih (hread _ (List.mem_append_right _ List.mem_cons_self))

/-- A record is read the same when a record in it is. -/
theorem ofJson?_congr (h : Within inner k C) (hv : v ≠ .null) (hw : w ≠ .null)
    (hread : inner.ofJson? w = inner.ofJson? v) : k.ofJson? (C w) = k.ofJson? (C v) := by
  induction h with
  | here => exact hread
  | record hx hcontent hC hD ih =>
    refine hC.ofJson?_congr hx (hD.ne_null hv) (hD.ne_null hw) ?_
    rw [hcontent]
    exact ih
  | item before after hx hcontent hC _ ih =>
    refine hC.ofJson?_congr hx Json.noConfusion Json.noConfusion ?_
    rw [hcontent]
    exact Json.asList_congr before after ih

/-- A record can be read when a record in it becomes one that can. -/
theorem isSome_ofJson? (h : Within inner k C) (hv : v ≠ .null)
    (hread : (inner.ofJson? v).isSome → (inner.ofJson? w).isSome)
    (hsome : (k.ofJson? (C v)).isSome) : (k.ofJson? (C w)).isSome := by
  induction h with
  | here => exact hread hsome
  | record hx hcontent hC hD ih =>
    refine hC.isSome_ofJson? hx (fun _ => ⟨hD.ne_null hv, ?_⟩) hsome
    rw [hcontent]
    exact ih
  | item before after hx hcontent hC _ ih =>
    refine hC.isSome_ofJson? hx (fun _ => ⟨Json.noConfusion, ?_⟩) hsome
    rw [hcontent, Content.read, Json.isSome_asList_iff, Json.isSome_asList_iff]
    intro hall u hu
    rcases List.mem_append.1 hu with hu | hu
    · exact hall u (List.mem_append_left _ hu)
    · rcases List.mem_cons.1 hu with rfl | hu
      · exact ih (hall _ (List.mem_append_right _ List.mem_cons_self))
      · exact hall u (List.mem_append_right _ (List.mem_cons_of_mem _ hu))

end Within

/-! ## `null` -/

namespace RecordKind

variable {k : RecordKind} {key : String} {before after : List (String × Json)} {v : Json}

/-- A record that can be read has no modelled key twice. -/
theorem not_mem_of_ofJson? (hkey : key ∈ k.keys)
    (hsome : (k.ofJson? (.object (before ++ (key, v) :: after))).isSome) : key ∉ Assoc.keys (before ++ after) := by
  rw [ofJson?_eq] at hsome
  refine Record.not_mem_of_ofMembers? hkey (v := v) ?_
  simpa only [open?, Record.open?, Record.closed?, ite_self] using Option.isSome_of_isSome_bind hsome

theorem ofJson?_null (hkey : key ∈ k.keys) (habsent : key ∉ Assoc.keys (before ++ after)) :
    k.ofJson? (.object (before ++ (key, .null) :: after)) = k.ofJson? (.object (before ++ after)) := by
  have hrecords := Record.ofMembers?_null hkey habsent
  rw [ofJson?_eq, ofJson?_eq]
  simp only [open?, Record.open?, Record.closed?, ite_self]
  generalize Record.ofMembers? k.keys (before ++ after) = without at hrecords ⊢
  generalize Record.ofMembers? k.keys (before ++ (key, .null) :: after) = given at hrecords ⊢
  cases hrecords with
  | none => rfl
  | some halike =>
    exact ofRecord?_congr halike.extra fun x _ => Field.ofRecord?_congr (by rw [halike.present])

end RecordKind

/-- **`null` means nothing.**  At every place in an entity where a record stands, and for each of its modelled
keys: with the key given as `null`, it is read as an entity if and only if it is read as the same entity without
the key, no other member having the key; and when the value of the key becomes `null`, what could be read can
still be. -/
theorem null_means_absent {k : RecordKind} {C : Json → Json} (hC : Within k .entity C) {key : String}
    (hkey : key ∈ k.keys) :
    (∀ before after e, Entity.ofJson? (C (.object (before ++ (key, .null) :: after))) = some e ↔
        key ∉ Assoc.keys (before ++ after) ∧ Entity.ofJson? (C (.object (before ++ after))) = some e) ∧
      ∀ D v, Slot k key D → (Entity.ofJson? (C (D v))).isSome → (Entity.ofJson? (C (D .null))).isSome := by
  constructor
  · intro before after e
    have hsame (habsent : key ∉ Assoc.keys (before ++ after)) :
        Entity.ofJson? (C (.object (before ++ (key, .null) :: after))) =
          Entity.ofJson? (C (.object (before ++ after))) :=
      hC.ofJson?_congr Json.noConfusion Json.noConfusion (RecordKind.ofJson?_null hkey habsent)
    constructor
    · intro hread
      have hinner := hC.isSome_inner Json.noConfusion (Option.isSome_of_eq_some hread)
      have habsent := RecordKind.not_mem_of_ofJson? hkey hinner
      exact ⟨habsent, hsame habsent ▸ hread⟩
    · rintro ⟨habsent, hread⟩
      exact (hsame habsent).trans hread
  · intro D v hD hsome
    obtain ⟨x, hx, rfl⟩ := List.mem_map.1 hkey
    exact hC.isSome_ofJson? (hD.ne_null v) (hD.isSome_ofJson? hx fun hne => absurd rfl hne) hsome

/-- A parameter without a schema, deep in an entity; its method gives its request as the array of its values. -/
theorem null_means_absent_schema :
    let C : Json → Json := fun v =>
      .object [("prefix", .string "/a"), ("api", .array [.object [("dts", .array [.array [v]])]]), ("x", .null)]
    let name : String × Json := ("name", .string "id")
    let D : Json → Json := fun v => .object [name, ("schema", v)]
    Within .parameter .entity C ∧ "schema" ∈ RecordKind.parameter.keys ∧ Slot .parameter "schema" D ∧
      (Entity.ofJson? (C (D (.object [])))).isSome ∧
      (∀ e, Entity.ofJson? (C (D .null)) = some e ↔
        "schema" ∉ Assoc.keys [name] ∧ Entity.ofJson? (C (.object [name])) = some e) ∧
      (Entity.ofJson? (C (D .null))).isSome := by
  intro C name D
  have hparameter : Within .parameter .request fun v => .array [.array [v]] :=
    .item (x := ⟨"parameters", .records .parameter, false⟩) [] [] (by decide) rfl
      (.position [] [] rfl rfl) .here
  have hC : Within .parameter .entity C :=
    .item (x := ⟨"api", .records .method, false⟩) [] [] (by decide) rfl
      (.member [("prefix", .string "/a")] [("x", .null)])
      (.record (x := ⟨"dts", .record .request, false⟩) (by decide) rfl (.member [] []) hparameter)
  have hkey : "schema" ∈ RecordKind.parameter.keys := by decide
  have hD : Slot .parameter "schema" D := .member [name] []
  have hsome : (Entity.ofJson? (C (D (.object [])))).isSome := by decide +kernel
  obtain ⟨hsame, hnull⟩ := null_means_absent hC hkey
  exact ⟨hC, hkey, hD, hsome, hsame [name] [], hnull D _ hD hsome⟩

end ClientBuild
