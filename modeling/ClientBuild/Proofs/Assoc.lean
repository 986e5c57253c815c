import ClientBuild.Assoc
import ClientBuild.Proofs.Text.Distinct
import Mathlib.Data.List.Induction

/-!
# The laws of ordered maps

Inserting keeps the keys in the order in which they first came, so a map made from pairs never
holds a key twice (`nodup_keys_ofPairs`), under each it holds what was inserted last (`get?_ofPairs`), and pairs
without repeated keys are their own map (`ofPairs_of_nodup`).  Making a map commutes with changing the values
(`ofPairs_mapValues`).
-/

namespace ClientBuild.Assoc

variable {α β : Type}

/-! ## Looking up -/

@[simp] theorem get?_nil (key : String) : get? key ([] : List (String × α)) = none := rfl

@[simp] theorem get?_cons (key k : String) (v : α) (m : List (String × α)) :
    get? key ((k, v) :: m) = if k = key then some v else get? key m := rfl

theorem get?_append (key : String) (m n : List (String × α)) :
    get? key (m ++ n) = (get? key m).or (get? key n) := by
  induction m with
  | nil => rfl
  | cons p m ih =>
    obtain ⟨k, v⟩ := p
    simp only [List.cons_append, get?_cons]
    split
    · rfl
    · exact ih

theorem get?_alter (key k : String) (f : Option α → α) (m : List (String × α)) :
    get? k (alter key f m) = if k = key then some (f (get? key m)) else get? k m := by
  induction m with
  | nil => simp only [alter, get?_cons, get?_nil, eq_comm (a := key)]
  | cons p m ih =>
    obtain ⟨k', v⟩ := p
    rw [alter]
    by_cases hkey : k' = key
    · subst hkey
      by_cases hk : k = k'
      · subst hk
        simp only [get?_cons, if_true]
      · simp only [get?_cons, if_true, if_neg hk, if_neg (Ne.symm hk)]
    · rw [if_neg hkey, get?_cons, ih]
      by_cases hk : k = k'
      · subst hk
        simp only [get?_cons, if_true, if_neg hkey]
      · simp only [get?_cons, if_neg hkey, if_neg (Ne.symm hk)]

theorem mem_of_get? {key : String} {v : α} {m : List (String × α)} (h : get? key m = some v) :
    (key, v) ∈ m := by
  induction m with
  | nil => cases h
  | cons p m ih =>
    obtain ⟨k, w⟩ := p
    simp only [get?_cons] at h
    split at h
    next hk =>
      cases h
      exact hk ▸ List.mem_cons_self
    next => exact List.mem_cons_of_mem _ (ih h)

theorem get?_ne_none {p : String × α} {m : List (String × α)} (h : p ∈ m) : get? p.1 m ≠ none := by
  induction m with
  | nil => cases h
  | cons q m ih =>
    rw [get?_cons]
    split
    next => exact Option.some_ne_none _
    next hkey =>
      rcases List.mem_cons.1 h with rfl | h
      · exact absurd rfl hkey
      · exact ih h

theorem get?_of_not_mem {key : String} {m : List (String × α)} (h : key ∉ keys m) : get? key m = none := by
  cases hfind : get? key m with
  | none => rfl
  | some v => exact absurd (List.mem_map_of_mem (mem_of_get? hfind)) h

theorem get?_append_cons {key : String} {v : α} {m n : List (String × α)} (h : key ∉ keys m) :
    get? key (m ++ (key, v) :: n) = some v := by
  rw [get?_append, get?_of_not_mem h, get?_cons, if_pos rfl, Option.none_or]

/-! ## Inserting -/

theorem keys_append (m n : List (String × α)) : keys (m ++ n) = keys m ++ keys n := List.map_append

theorem nodup_keys_left {m n : List (String × α)} (h : (keys (m ++ n)).Nodup) : (keys m).Nodup := by
  rw [keys, List.map_append, List.nodup_append] at h
  exact h.1

/-- In a list without repeated keys, every pair is found. -/
theorem get?_of_mem {key : String} {v : α} {m : List (String × α)} (h : (keys m).Nodup)
    (hmem : (key, v) ∈ m) : get? key m = some v := by
  induction m with
  | nil => cases hmem
  | cons p m ih =>
    obtain ⟨hp, hm⟩ := List.nodup_cons.1 h
    rcases List.mem_cons.1 hmem with rfl | hmem
    · rw [get?_cons, if_pos rfl]
    · have hkey : key ∈ m.map Prod.fst := List.mem_map_of_mem hmem
      have hne : p.1 ≠ key := by
        rintro rfl
        exact hp hkey
      rw [get?_cons, if_neg hne, ih hm hmem]

/-- Altering the value of a key keeps the keys, and puts a new one behind them. -/
theorem keys_alter (key : String) (f : Option α → α) (m : List (String × α)) :
    keys (alter key f m) = if key ∈ keys m then keys m else keys m ++ [key] := by
  induction m with
  | nil => rfl
  | cons p m ih =>
    obtain ⟨k, w⟩ := p
    by_cases hk : k = key
    · subst hk
      simp [alter, keys]
    · have hstep : keys (alter key f ((k, w) :: m)) = k :: keys (alter key f m) := by
        simp [alter, if_neg hk, keys]
      have hcons : keys ((k, w) :: m) = k :: keys m := rfl
      rw [hstep, ih, hcons]
      simp only [List.mem_cons, Ne.symm hk, false_or]
      split
      next => rfl
      next => rfl

theorem mem_keys_insert {k key : String} {v : α} {m : List (String × α)} :
    k ∈ keys (insert key v m) ↔ k ∈ keys m ∨ k = key := by
  rw [insert, keys_alter]
  split
  next h => exact ⟨Or.inl, fun hk => hk.elim id fun heq => heq ▸ h⟩
  next => rw [List.mem_append, List.mem_singleton]

theorem insert_of_mem {key : String} (v : α) {m : List (String × α)} (h : key ∈ keys m) :
    keys (insert key v m) = keys m := by
  rw [insert, keys_alter, if_pos h]

/-- A key that is there keeps its place. -/
theorem insert_append_cons {key : String} {v : α} {m n : List (String × α)} (h : key ∉ keys m) (w : α) :
    insert key w (m ++ (key, v) :: n) = m ++ (key, w) :: n := by
  induction m with
  | nil => simp [insert, alter]
  | cons p m ih =>
    have hp : p.1 ≠ key := fun heq => h (heq ▸ List.mem_cons_self)
    have hm : key ∉ keys m := fun hm => h (List.mem_cons_of_mem _ hm)
    rw [List.cons_append, List.cons_append, ← ih hm]
    simp [insert, alter, hp]

theorem insert_of_not_mem {key : String} (v : α) {m : List (String × α)} (h : key ∉ keys m) :
    insert key v m = m ++ [(key, v)] := by
  induction m with
  | nil => rfl
  | cons p m ih =>
    obtain ⟨k, w⟩ := p
    have hk : k ≠ key := fun he => h (he ▸ List.mem_cons_self)
    have hm : key ∉ keys m := fun hm => h (List.mem_cons_of_mem _ hm)
    simp only [insert, alter, if_neg hk, List.cons_append]
    exact congrArg ((k, w) :: ·) (ih hm)

theorem nodup_keys_insert (key : String) (v : α) {m : List (String × α)} (h : (keys m).Nodup) :
    (keys (insert key v m)).Nodup := by
  by_cases hm : key ∈ keys m
  · rw [insert_of_mem v hm]
    exact h
  · rw [insert_of_not_mem v hm]
    simp only [keys, List.map_append, List.map_cons, List.map_nil]
    refine List.nodup_append.2 ⟨h, List.pairwise_singleton _ _, ?_⟩
    intro a ha b hb
    rw [List.mem_singleton.1 hb]
    exact fun he => hm (he ▸ ha)

theorem mem_insert {key : String} {v : α} {p : String × α} {m : List (String × α)}
    (h : p ∈ insert key v m) : p ∈ m ∨ p = (key, v) := by
  induction m with
  | nil => exact .inr (List.mem_singleton.1 h)
  | cons q m ih =>
    obtain ⟨k, w⟩ := q
    simp only [insert, alter] at h
    split at h
    next hk =>
      rcases List.mem_cons.1 h with h | h
      · exact .inr (hk ▸ h)
      · exact .inl (List.mem_cons_of_mem _ h)
    next =>
      rcases List.mem_cons.1 h with h | h
      · exact .inl (h ▸ List.mem_cons_self)
      · rcases ih h with h | h
        · exact .inl (List.mem_cons_of_mem _ h)
        · exact .inr h

/-! ## Maps of pairs -/

/-- Inserting pairs one after the other. -/
def insertAll (m ps : List (String × α)) : List (String × α) :=
  ps.foldl (fun m p => insert p.1 p.2 m) m

theorem nodup_keys_insertAll (ps : List (String × α)) {m : List (String × α)}
    (h : (keys m).Nodup) : (keys (insertAll m ps)).Nodup := by
  induction ps generalizing m with
  | nil => exact h
  | cons p ps ih => exact ih (nodup_keys_insert p.1 p.2 h)

theorem mem_keys_insertAll {k : String} (ps : List (String × α)) {m : List (String × α)} :
    k ∈ keys (insertAll m ps) ↔ k ∈ keys m ∨ k ∈ keys ps := by
  induction ps generalizing m with
  | nil => exact (or_iff_left List.not_mem_nil).symm
  | cons p ps ih =>
    have hcons : keys (p :: ps) = p.1 :: keys ps := rfl
    rw [insertAll, List.foldl_cons, ← insertAll, ih, mem_keys_insert, hcons, List.mem_cons, or_assoc]

/-- A map holds no key twice. -/
theorem nodup_keys_ofPairs (ps : List (String × α)) : (keys (ofPairs ps)).Nodup :=
  nodup_keys_insertAll ps List.nodup_nil

theorem mem_insertAll {p : String × α} (ps : List (String × α)) {m : List (String × α)}
    (h : p ∈ insertAll m ps) : p ∈ m ∨ p ∈ ps := by
  induction ps generalizing m with
  | nil => exact .inl h
  | cons q ps ih =>
    rcases ih h with h | h
    · rcases mem_insert h with h | h
      · exact .inl h
      · exact .inr (h ▸ List.mem_cons_self)
    · exact .inr (List.mem_cons_of_mem _ h)

/-- A map holds only the pairs that it was made of. -/
theorem mem_of_mem_ofPairs {ps : List (String × α)} {p : String × α} (h : p ∈ ofPairs ps) :
    p ∈ ps := by
  rcases mem_insertAll ps h with h | h
  · exact absurd h List.not_mem_nil
  · exact h

theorem ofPairs_concat (ps : List (String × α)) (p : String × α) :
    ofPairs (ps ++ [p]) = insert p.1 p.2 (ofPairs ps) := List.foldl_append

/-- The keys of a map are those of the pairs, in order of first appearance. -/
theorem keys_ofPairs (ps : List (String × α)) : keys (ofPairs ps) = Text.distinct (ps.map Prod.fst) := by
  induction ps using List.reverseRecOn with
  | nil => rfl
  | append_singleton ps p ih =>
    rw [ofPairs_concat, insert, keys_alter, ih, List.map_append, List.map_singleton, Text.distinct_concat]
    simp only [Text.mem_distinct]

/-- Under each key, a map holds what was inserted last. -/
theorem get?_ofPairs (key : String) (ps : List (String × α)) : get? key (ofPairs ps) = get? key ps.reverse := by
  induction ps using List.reverseRecOn with
  | nil => rfl
  | append_singleton ps p ih =>
    rw [ofPairs_concat, insert, get?_alter, ih, List.reverse_append, List.reverse_singleton,
      List.singleton_append, get?_cons]
    simp only [eq_comm (a := key)]

theorem insertAll_of_nodup (ps m : List (String × α)) (h : (keys (m ++ ps)).Nodup) :
    insertAll m ps = m ++ ps := by
  induction ps generalizing m with
  | nil => exact (List.append_nil m).symm
  | cons p ps ih =>
    have hp : p.1 ∉ keys m := by
      simp only [keys, List.map_append, List.map_cons] at h
      intro hm
      exact (List.nodup_append.1 h).2.2 p.1 hm p.1 List.mem_cons_self rfl
    have hassoc : m ++ p :: ps = (m ++ [p]) ++ ps := by simp
    have hstep : insertAll m (p :: ps) = insertAll (m ++ [p]) ps := by
      simp only [insertAll, List.foldl_cons, insert_of_not_mem p.2 hp]
    rw [hstep, hassoc, ih (m ++ [p]) (hassoc ▸ h)]

/-- Pairs without repeated keys are their own map. -/
theorem ofPairs_of_nodup {ps : List (String × α)} (h : (keys ps).Nodup) : ofPairs ps = ps :=
  insertAll_of_nodup ps [] h

/-- Change all values. -/
def mapValues (f : α → β) (m : List (String × α)) : List (String × β) :=
  m.map fun p => (p.1, f p.2)

theorem keys_mapValues (f : α → β) (m : List (String × α)) : keys (mapValues f m) = keys m := by
  simp [keys, mapValues]

theorem insert_mapValues (f : α → β) (key : String) (v : α) (m : List (String × α)) :
    insert key (f v) (mapValues f m) = mapValues f (insert key v m) := by
  induction m with
  | nil => rfl
  | cons p m ih =>
    obtain ⟨k, w⟩ := p
    simp only [insert, mapValues, alter, List.map_cons] at ih ⊢
    split
    · rfl
    · exact congrArg ((k, f w) :: ·) ih

theorem insertAll_mapValues (f : α → β) (ps m : List (String × α)) :
    insertAll (mapValues f m) (mapValues f ps) = mapValues f (insertAll m ps) := by
  induction ps generalizing m with
  | nil => rfl
  | cons p ps ih =>
    have hps := ih (insert p.1 p.2 m)
    rw [← insert_mapValues] at hps
    exact hps

/-- Making a map commutes with changing the values. -/
theorem ofPairs_mapValues (f : α → β) (ps : List (String × α)) :
    ofPairs (mapValues f ps) = mapValues f (ofPairs ps) :=
  insertAll_mapValues f ps []

end ClientBuild.Assoc
