import ClientBuild.Proofs.Json.Record
import Mathlib.Data.List.Nodup

/-!
# The members of a record, one by one

What a record holds under a key follows from the member with the key, wherever it stands
(`ofMembers?_append_cons`), or from the item in its position (`closed?_append_cons`).  To every reader of a
record, a member that is `null` is as good as none (`nullable_eq`, `optional_eq`, `ofMembers?_null`).
-/

namespace ClientBuild

namespace Json.Record

variable {α : Type} {r : Record} {keys : List String} {key k : String} {before after : List (String × Json)}
  {v w : Json}

/-! ## `null` and nothing -/

/-- The value of a modelled key, unless it is `null`. -/
def present? (r : Record) (key : String) : Option Json :=
  match r.get? key with
  | some .null => none
  | o => o

theorem present?_of_null (h : r.get? key = some .null) : r.present? key = none := by
  rw [present?, h]

theorem present?_of_ne (h : r.get? key ≠ some .null) : r.present? key = r.get? key := by
  rw [present?]
  split
  next hnull => exact absurd hnull h
  next => rfl

theorem present?_some (h : r.get? key = some v) (hv : v ≠ .null) : r.present? key = some v := by
  rw [present?_of_ne (by rw [h]; exact fun heq => hv (Option.some.inj heq)), h]

theorem present?_congr {r' : Record} (h : r'.get? key = r.get? key) : r'.present? key = r.present? key := by
  rw [present?, present?, h]

theorem nullable_eq (r : Record) (key : String) (f : Json → Option α) (d : α) :
    r.nullable key f d = (r.present? key).elim (some d) f := by
  rw [nullable, present?]
  split
  next h => rw [h]; rfl
  next h => rw [h]; rfl
  next v hnull h =>
    rw [h]
    cases v with
    | null => exact absurd rfl hnull
    | _ => rfl

theorem optional_eq (r : Record) (key : String) (f : Json → Option α) :
    r.optional key f = (r.present? key).elim (some none) fun v => (f v).map some := by
  rw [← nullable_eq, nullable, optional]

/-! ## Another value under a key -/

/-- The record with another value under a key. -/
def withValue (r : Record) (key : String) (v : Json) : Record :=
  { r with known := Assoc.insert key v r.known }

theorem get?_withValue (r : Record) (key k : String) (v : Json) :
    (r.withValue key v).get? k = if k = key then some v else r.get? k :=
  Assoc.get?_alter key k (fun _ => v) r.known

/-- The members with modelled keys. -/
def modelled (keys : List String) (members : List (String × Json)) : List (String × Json) :=
  members.filter fun m => keys.contains m.1

/-- The members with other keys. -/
def unmodelled (keys : List String) (members : List (String × Json)) : List (String × Json) :=
  members.filter fun m => !keys.contains m.1

theorem present?_withValue_self (r : Record) (key : String) (hv : v ≠ .null) :
    (r.withValue key v).present? key = some v :=
  present?_some (by rw [get?_withValue, if_pos rfl]) hv

theorem present?_withValue_null (r : Record) (key : String) : (r.withValue key .null).present? key = none :=
  present?_of_null (by rw [get?_withValue, if_pos rfl])

theorem present?_withValue_of_ne (r : Record) (hk : k ≠ key) (v : Json) :
    (r.withValue key v).present? k = r.present? k :=
  present?_congr (by rw [get?_withValue, if_neg hk])

theorem ofMembers?_eq (keys : List String) (members : List (String × Json)) :
    ofMembers? keys members =
      if (Assoc.keys (modelled keys members)).Nodup then
        some ⟨modelled keys members, Assoc.ofPairs (settledMembers (unmodelled keys members))⟩
      else none := by
  simp only [ofMembers?, keysUnique_iff, modelled, unmodelled]
  rfl

theorem modelled_append_cons (hkey : key ∈ keys) (v : Json) : modelled keys (before ++ (key, v) :: after) =
    modelled keys before ++ (key, v) :: modelled keys after := by
  have hmem : keys.contains key = true := List.contains_iff_mem.2 hkey
  simp only [modelled, List.filter_append, List.filter_cons, hmem, if_true]

theorem unmodelled_append_cons (hkey : key ∈ keys) (v : Json) : unmodelled keys (before ++ (key, v) :: after) =
    unmodelled keys (before ++ after) := by
  have hmem : keys.contains key = true := List.contains_iff_mem.2 hkey
  simp only [unmodelled, List.filter_append, List.filter_cons, hmem, Bool.not_true, Bool.false_eq_true, if_false]

/-- A member with a modelled key gives the record its value, and nothing else. -/
theorem ofMembers?_append_cons (hkey : key ∈ keys) (v w : Json) :
    ofMembers? keys (before ++ (key, w) :: after) =
        (ofMembers? keys (before ++ (key, v) :: after)).map (·.withValue key w) ∧
      ∀ r ∈ ofMembers? keys (before ++ (key, v) :: after), r.get? key = some v := by
  have hkeys (u : Json) : Assoc.keys (modelled keys before ++ (key, u) :: modelled keys after) =
      Assoc.keys (modelled keys before) ++ key :: Assoc.keys (modelled keys after) := Assoc.keys_append _ _
  simp only [ofMembers?_eq, modelled_append_cons hkey, unmodelled_append_cons hkey, hkeys]
  split
  next hunique =>
    have hbefore : key ∉ Assoc.keys (modelled keys before) :=
      fun h => (List.nodup_append.1 hunique).2.2 key h key List.mem_cons_self rfl
    constructor
    · rw [Option.map_some, withValue, Assoc.insert_append_cons hbefore]
    · rintro r ⟨⟩
      exact Assoc.get?_append_cons hbefore
  next => exact ⟨rfl, fun r h => absurd h (Option.not_mem_none r)⟩

/-- No other member of a record has the same modelled key. -/
theorem not_mem_of_ofMembers? (hkey : key ∈ keys) (h : (ofMembers? keys (before ++ (key, v) :: after)).isSome) :
    key ∉ Assoc.keys (before ++ after) := by
  rw [ofMembers?_eq, modelled_append_cons hkey] at h
  split at h
  next hunique =>
    rw [Assoc.keys_append] at hunique
    have hknown : key ∉ Assoc.keys (modelled keys before) ++ Assoc.keys (modelled keys after) :=
      (List.nodup_cons.1 (List.nodup_middle.1 hunique)).1
    rw [← Assoc.keys_append] at hknown
    intro hmem
    obtain ⟨m, hm, rfl⟩ := List.mem_map.1 hmem
    have hmodelled : m ∈ modelled keys before ++ modelled keys after := by
      rw [modelled, modelled, ← List.filter_append]
      exact List.mem_filter.2 ⟨hm, List.contains_iff_mem.2 hkey⟩
    exact hknown (List.mem_map_of_mem hmodelled)
  next => cases h

/-- An item in the position of a key gives the record its value, and nothing else. -/
theorem closed?_append_cons (hn : keys.Nodup) {before after : List Json}
    (hat : keys[before.length]? = some key) (v w : Json) :
    closed? keys (.array (before ++ w :: after)) =
        (closed? keys (.array (before ++ v :: after))).map (·.withValue key w) ∧
      ∀ r ∈ closed? keys (.array (before ++ v :: after)), r.get? key = some v := by
  obtain ⟨hlt, hkey⟩ := List.getElem?_eq_some_iff.1 hat
  have hkeys : keys = keys.take before.length ++ key :: keys.drop (before.length + 1) := by
    rw [← hkey, List.getElem_cons_drop, List.take_append_drop]
  have hzip (u : Json) : keys.zip (before ++ u :: after) =
      (keys.take before.length).zip before ++ (key, u) :: (keys.drop (before.length + 1)).zip after := by
    conv => lhs; rw [hkeys]
    rw [List.zip_append (by simp; omega), List.zip_cons_cons]
  have hbefore : key ∉ Assoc.keys ((keys.take before.length).zip before) := by
    intro h
    obtain ⟨m, hm, hkey⟩ := List.mem_map.1 h
    rw [hkeys] at hn
    exact (List.nodup_append.1 hn).2.2 key (hkey ▸ (List.of_mem_zip hm).1) key List.mem_cons_self rfl
  simp only [closed?, hzip, List.length_append, List.length_cons]
  split
  next =>
    constructor
    · rw [Option.map_some, withValue, Assoc.insert_append_cons hbefore]
    · rintro r ⟨⟩
      exact Assoc.get?_append_cons hbefore
  next => exact ⟨rfl, fun r h => absurd h (Option.not_mem_none r)⟩

/-! ## A `null` more -/

/-- Two records hold the same, `null` being as good as nothing. -/
structure Alike (r r' : Record) : Prop where
  extra : r'.extra = r.extra
  present : ∀ key, r'.present? key = r.present? key

/-- **A member that is `null` makes the same record as no member.** -/
theorem ofMembers?_null (hkey : key ∈ keys) (habsent : key ∉ Assoc.keys (before ++ after)) :
    Option.Rel Alike (ofMembers? keys (before ++ after))
      (ofMembers? keys (before ++ (key, .null) :: after)) := by
  have hsplit : modelled keys (before ++ after) = modelled keys before ++ modelled keys after :=
    List.filter_append before after
  have hknown : key ∉ Assoc.keys (modelled keys before ++ modelled keys after) := by
    rw [← hsplit]
    exact fun h => habsent ((List.filter_sublist.map Prod.fst).subset h)
  have hbefore : key ∉ Assoc.keys (modelled keys before) := by
    rw [Assoc.keys_append] at hknown
    exact fun h => hknown (List.mem_append_left _ h)
  have hunique : (Assoc.keys (modelled keys before ++ (key, Json.null) :: modelled keys after)).Nodup ↔
      (Assoc.keys (modelled keys before ++ modelled keys after)).Nodup := by
    rw [Assoc.keys_append] at hknown
    rw [Assoc.keys_append, Assoc.keys_append]
    exact List.nodup_middle.trans (List.nodup_cons.trans (and_iff_right hknown))
  simp only [ofMembers?_eq, modelled_append_cons hkey, unmodelled_append_cons hkey, hsplit, hunique]
  split
  next =>
    refine .some ⟨rfl, fun k => ?_⟩
    by_cases hk : k = key
    · subst hk
      have hnone : get? ⟨modelled keys before ++ modelled keys after,
          Assoc.ofPairs (settledMembers (unmodelled keys (before ++ after)))⟩ k = none :=
        Assoc.get?_of_not_mem hknown
      have hnull : get? ⟨modelled keys before ++ (k, .null) :: modelled keys after,
          Assoc.ofPairs (settledMembers (unmodelled keys (before ++ after)))⟩ k = some .null :=
        Assoc.get?_append_cons hbefore
      rw [present?_of_null hnull, present?_of_ne (by rw [hnone]; nofun), hnone]
    · refine present?_congr ?_
      simp only [get?, Assoc.get?_append, Assoc.get?_cons, if_neg (Ne.symm hk)]
  next => exact .none

end Json.Record

end ClientBuild
