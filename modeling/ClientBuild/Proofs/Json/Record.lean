import ClientBuild.Json.Record
import ClientBuild.Proofs.Json.Kept

/-!
# Records and the values they were read from

A record takes an object apart into modelled and extra members.  Written back in that order they
make the same record (`Record.ofMembers?_append`), provided that the extra members are such as a
record can have: `ExtraFor`.  Whatever a record holds is part of the value it was read from, so it
reads back if that does.
-/

namespace ClientBuild.Json

variable {α : Type}

/-- Members that a record with the given modelled keys can hold as its extra members. -/
structure ExtraFor (keys : List String) (extra : List (String × Json)) : Prop where
  unmodelled : ∀ m ∈ extra, m.1 ∉ keys
  unique : (Assoc.keys extra).Nodup
  settled : settledMembers extra = extra

theorem extraFor_nil (keys : List String) : ExtraFor keys [] where
  unmodelled := fun _ h => absurd h List.not_mem_nil
  unique := List.nodup_nil
  settled := rfl

/-! ## Lists -/

theorem mapM_map_some {β : Type} {f : β → Option α} {g : α → β} {as : List α}
    (h : ∀ a ∈ as, f (g a) = some a) : (as.map g).mapM f = some as := by
  induction as with
  | nil => rfl
  | cons a as ih =>
    obtain ⟨ha, has⟩ := List.forall_mem_cons.1 h
    rw [List.map_cons, List.mapM_cons, ha, ih has]
    rfl

theorem exists_of_mem_mapM {β : Type} {f : β → Option α} {a : α} {bs : List β} {as : List α}
    (h : bs.mapM f = some as) (ha : a ∈ as) : ∃ b ∈ bs, f b = some a := by
  induction bs generalizing as with
  | nil =>
    cases h
    exact absurd ha List.not_mem_nil
  | cons b bs ih =>
    rw [List.mapM_cons] at h
    obtain ⟨x, hx, h⟩ := Option.bind_eq_some_iff.1 h
    obtain ⟨xs, hxs, h⟩ := Option.bind_eq_some_iff.1 h
    cases h
    rcases List.mem_cons.1 ha with rfl | ha
    · exact ⟨b, List.mem_cons_self, hx⟩
    · obtain ⟨c, hc, hfc⟩ := ih hxs ha
      exact ⟨c, List.mem_cons_of_mem b hc, hfc⟩

theorem asList_map {f : Json → Option α} {g : α → Json} {as : List α}
    (h : ∀ a ∈ as, f (g a) = some a) : asList f (.array (as.map g)) = some as :=
  mapM_map_some h

theorem exists_of_mem_asList {f : Json → Option α} {v : Json} {as : List α} {a : α}
    (h : asList f v = some as) (ha : a ∈ as) :
    ∃ items, v = .array items ∧ ∃ w ∈ items, f w = some a := by
  cases v with
  | array items => exact ⟨items, rfl, exists_of_mem_mapM h ha⟩
  | _ => cases h

namespace Record

/-! ## The members of a record -/

theorem keysUnique_iff {ms : List (String × Json)} :
    keysUnique ms = true ↔ (Assoc.keys ms).Nodup := by
  induction ms with
  | nil => simp [keysUnique, Assoc.keys]
  | cons m ms ih =>
    have ih : keysUnique ms = true ↔ (ms.map (·.1)).Nodup := ih
    simp only [keysUnique, Assoc.keys, Bool.and_eq_true, List.map_cons, List.nodup_cons, ih,
      Bool.not_eq_true', List.any_eq_false, beq_iff_eq, List.mem_map, not_exists, not_and]

/-- **Modelled members followed by extra members make the record of both.** -/
theorem ofMembers?_append {keys : List String} {known extra : List (String × Json)}
    (hk : ∀ m ∈ known, m.1 ∈ keys) (hu : (Assoc.keys known).Nodup) (he : ExtraFor keys extra) :
    ofMembers? keys (known ++ extra) = some ⟨known, extra⟩ := by
  have hknown : (known ++ extra).filter (fun m => keys.contains m.1) = known := by
    rw [List.filter_append, List.filter_eq_self.2, List.filter_eq_nil_iff.2, List.append_nil]
    · intro m hm
      simpa using he.unmodelled m hm
    · intro m hm
      simpa using hk m hm
  have hextra : (known ++ extra).filter (fun m => !keys.contains m.1) = extra := by
    rw [List.filter_append, List.filter_eq_nil_iff.2, List.filter_eq_self.2, List.nil_append]
    · intro m hm
      simpa using he.unmodelled m hm
    · intro m hm
      simpa using hk m hm
  simp only [ofMembers?, hknown, hextra]
  rw [if_pos (keysUnique_iff.2 hu), he.settled, Assoc.ofPairs_of_nodup he.unique]

/-- `ofMembers?_append` for modelled members in the order of the keys. -/
theorem ofMembers?_of_sublist {keys : List String} (known : List (String × Json))
    {extra : List (String × Json)} (hs : (Assoc.keys known).Sublist keys) (hn : keys.Nodup)
    (he : ExtraFor keys extra) :
    ofMembers? keys (known ++ extra) = some ⟨known, extra⟩ :=
  ofMembers?_append (fun _ hm => hs.subset (List.mem_map_of_mem hm)) (hs.nodup hn) he

theorem extraFor_of_ofMembers? {keys : List String} {ms : List (String × Json)} {r : Record}
    (h : ofMembers? keys ms = some r) : ExtraFor keys r.extra := by
  simp only [ofMembers?] at h
  split at h
  next =>
    cases h
    refine ⟨?_, Assoc.nodup_keys_ofPairs _, ?_⟩
    · intro m hm
      have hm := Assoc.mem_of_mem_ofPairs hm
      rw [settledMembers_eq] at hm
      obtain ⟨p, hp, rfl⟩ := List.mem_map.1 hm
      simpa using (List.mem_filter.1 hp).2
    · rw [settledMembers_ofPairs, settledMembers_settledMembers]
  next => cases h

/-- The extra members of a record are such as a record can hold. -/
theorem extraFor_of_open? {keys : List String} {v : Json} {r : Record}
    (h : open? keys v = some r) : ExtraFor keys r.extra := by
  cases v with
  | object ms => exact extraFor_of_ofMembers? h
  | _ => cases h

/-! ## Values by their keys -/

variable {r : Record} {key : String} {f : Json → Option α} {d : α}

theorem nullable_none (h : r.get? key = none) : r.nullable key f d = some d := by
  rw [nullable, h]

theorem nullable_some {v : Json} (h : r.get? key = some v) (hv : v ≠ .null) :
    r.nullable key f d = f v := by
  rw [nullable, h]
  cases v with
  | null => exact absurd rfl hv
  | _ => rfl

theorem optional_none (h : r.get? key = none) : r.optional key f = some none := by
  rw [optional, h]

theorem optional_map {o : Option α} {g : α → Json} (h : r.get? key = o.map g)
    (hg : ∀ a, g a ≠ .null) (hf : ∀ a, o = some a → f (g a) = some a) :
    r.optional key f = some o := by
  rw [optional, h]
  cases o with
  | none => rfl
  | some a =>
    have hv := hg a
    have hfa := hf a rfl
    simp only [Option.map_some]
    rw [hfa]
    rfl

theorem nullable_string {s d : String} (h : r.get? key = some (.string s)) :
    r.nullable key asString d = some s :=
  nullable_some h Json.noConfusion

theorem nullable_bool {b d : Bool} (h : r.get? key = some (.bool b)) :
    r.nullable key asBool d = some b :=
  nullable_some h Json.noConfusion

theorem optional_string {o : Option String} (h : r.get? key = o.map .string) :
    r.optional key asString = some o :=
  optional_map h (fun _ => Json.noConfusion) fun _ _ => rfl

theorem nullable_list {as : List α} {g : α → Json} {ds : List α}
    (h : r.get? key = some (.array (as.map g))) (hf : ∀ a ∈ as, f (g a) = some a) :
    r.nullable key (asList f) ds = some as := by
  rw [nullable_some h Json.noConfusion]
  exact asList_map hf

theorem eq_or_exists_of_nullable {a : α} (h : r.nullable key f d = some a) :
    a = d ∨ ∃ v, r.get? key = some v ∧ f v = some a := by
  simp only [nullable] at h
  split at h
  next => exact .inl (Option.some.inj h).symm
  next => exact .inl (Option.some.inj h).symm
  next v _ hv => exact .inr ⟨v, hv, h⟩

theorem exists_of_optional {a : α} (h : r.optional key f = some (some a)) :
    ∃ v, r.get? key = some v ∧ f v = some a := by
  simp only [optional] at h
  split at h
  next => cases h
  next => cases h
  next v _ hv =>
    obtain ⟨b, hb, he⟩ := Option.map_eq_some_iff.1 h
    cases he
    exact ⟨v, hv, hb⟩

theorem exists_of_mem_nullable {as : List α} {a : α}
    (h : r.nullable key (asList f) [] = some as) (ha : a ∈ as) :
    ∃ items, r.get? key = some (.array items) ∧ ∃ w ∈ items, f w = some a := by
  rcases eq_or_exists_of_nullable h with rfl | ⟨v, hv, hf⟩
  · exact absurd ha List.not_mem_nil
  · obtain ⟨items, rfl, hw⟩ := exists_of_mem_asList hf ha
    exact ⟨items, hv, hw⟩

/-! ## Parts of a value that reads back -/

variable {keys : List String} {room : Nat} {v w : Json}

theorem readsBack_of_ofMembers? {ms : List (String × Json)}
    (hms : ∀ m ∈ ms, m.2.ReadsBack room) (h : ofMembers? keys ms = some r) :
    (∀ m ∈ r.known, m.2.ReadsBack room) ∧ ∀ m ∈ r.extra, m.2.ReadsBack room := by
  simp only [ofMembers?] at h
  split at h
  next =>
    cases h
    refine ⟨fun m hm => hms m (List.mem_filter.1 hm).1, fun m hm => ?_⟩
    have hm := Assoc.mem_of_mem_ofPairs hm
    rw [settledMembers_eq] at hm
    obtain ⟨p, hp, rfl⟩ := List.mem_map.1 hm
    exact (hms p (List.mem_filter.1 hp).1).settled
  next => cases h

theorem readsBack_of_open? (hv : v.ReadsBack (room + 1)) (h : open? keys v = some r) :
    (∀ m ∈ r.known, m.2.ReadsBack room) ∧ ∀ m ∈ r.extra, m.2.ReadsBack room := by
  cases v with
  | object ms => exact readsBack_of_ofMembers? (readsBack_object.1 hv) h
  | _ => cases h

theorem readsBack_of_closed? (hv : v.ReadsBack (room + 1)) (h : closed? keys v = some r) :
    ∀ m ∈ r.known, m.2.ReadsBack room := by
  cases v with
  | object ms => exact (readsBack_of_ofMembers? (readsBack_object.1 hv) h).1
  | array items =>
    simp only [closed?] at h
    split at h
    next =>
      cases h
      exact fun m hm => readsBack_array.1 hv m.2 (List.of_mem_zip hm).2
    next => cases h
  | _ => cases h

theorem readsBack_of_get? (hr : ∀ m ∈ r.known, m.2.ReadsBack room) (h : r.get? key = some w) :
    w.ReadsBack room :=
  hr (key, w) (Assoc.mem_of_get? h)

/-- The items of a list that a record holds were read from values one level deeper. -/
theorem readsBack_of_mem_nullable {as : List α} {a : α}
    (hr : ∀ m ∈ r.known, m.2.ReadsBack (room + 1))
    (h : r.nullable key (asList f) [] = some as) (ha : a ∈ as) :
    ∃ w, w.ReadsBack room ∧ f w = some a := by
  obtain ⟨items, hget, w, hw, hf⟩ := exists_of_mem_nullable h ha
  exact ⟨w, readsBack_array.1 (readsBack_of_get? hr hget) w hw, hf⟩

end Record

end ClientBuild.Json
