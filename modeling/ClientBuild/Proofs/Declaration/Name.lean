import ClientBuild.Declaration.Synthesis

/-!
# Names of declarations

What is declared under a name made from a lawful text has neither blanks nor braces in its name
(`IsName`), whichever source the name comes from: an entity, the nodes of the tree above a leaf, or a
method.  Raising letters changes word characters only, and into word characters.
-/

namespace ClientBuild.Declaration

/-! ## Word characters -/

theorem isWordAscii_iff {c : Char} : Text.isWordAscii c = true ↔
    (48 ≤ c.toNat ∧ c.toNat ≤ 57) ∨ (65 ≤ c.toNat ∧ c.toNat ≤ 90) ∨ c.toNat = 95 ∨
      (97 ≤ c.toNat ∧ c.toNat ≤ 122) := by
  have hline : c = '_' ↔ c.toNat = 95 := by
    rw [← Char.toNat_inj]
    rfl
  delta Text.isWordAscii Char.isAlphanum Char.isAlpha Char.isUpper Char.isLower Char.isDigit
  simp only [Bool.or_eq_true, Bool.and_eq_true, decide_eq_true_eq, beq_iff_eq, ge_iff_le,
    UInt32.le_iff_toNat_le, hline]
  simp only [Char.toNat]
  simp
  omega

theorem isBlank_of_word {c : Char} (h : Text.isWordAscii c = true) : Text.isBlank c = false := by
  have hrange := isWordAscii_iff.1 h
  rw [← Bool.not_eq_true]
  simp only [Text.isBlank, Bool.or_eq_true, Bool.and_eq_true, decide_eq_true_eq, beq_iff_eq,
    UInt32.le_iff_toNat_le, ← UInt32.toNat_inj, Char.toNat] at *
  simp only [UInt32.toNat_ofNat] at *
  omega

theorem toNat_toUpper (c : Char) : c.toUpper.toNat = c.toNat ∨
    (97 ≤ c.toNat ∧ c.toNat ≤ 122 ∧ c.toUpper.toNat + 32 = c.toNat) := by
  delta Char.toUpper
  split
  next h =>
    refine Or.inr ?_
    simp only [UInt32.le_iff_toNat_le] at h
    simp only [Char.toNat, UInt32.toNat_add] at *
    simp at *
    omega
  next => exact Or.inl rfl

theorem isWordAscii_toUpper {c : Char} (h : Text.isWordAscii c = true) :
    Text.isWordAscii c.toUpper = true := by
  have hrange := isWordAscii_iff.1 h
  have hupper := toNat_toUpper c
  rw [isWordAscii_iff]
  omega

/-! ## Names -/

/-- Can the character stand in a name? -/
def IsNameChar (c : Char) : Prop := isNameNoise c = false ∧ c ≠ '{' ∧ c ≠ '}'

instance (c : Char) : Decidable (IsNameChar c) := inferInstanceAs (Decidable (_ ∧ _ ∧ _))

/-- A text of at least one character, all of which can stand in a name. -/
def IsName (s : List Char) : Prop := s ≠ [] ∧ ∀ c ∈ s, IsNameChar c

instance (s : List Char) : Decidable (∀ c ∈ s, IsNameChar c) := List.decidableBAll _ s

instance (s : List Char) : Decidable (IsName s) := inferInstanceAs (Decidable (_ ∧ _))

theorem isNameChar_of_word {c : Char} (h : Text.isWordAscii c = true) : IsNameChar c := by
  have hne : ∀ d, Text.isWordAscii d = false → c ≠ d := by
    rintro d hd rfl
    exact Bool.noConfusion (h.symm.trans hd)
  refine ⟨?_, hne '{' (by decide), hne '}' (by decide)⟩
  simp [isNameNoise, isBlank_of_word h, hne ':' (by decide), hne ',' (by decide),
    hne '/' (by decide), hne '-' (by decide)]

theorem IsNameChar.isBlank {c : Char} (h : IsNameChar c) : Text.isBlank c = false := by
  have := h.1
  simp only [isNameNoise, Bool.or_eq_false_iff] at this
  exact this.2

theorem IsNameChar.ne {c d : Char} (h : IsNameChar c) (hd : isNameNoise d = true) : c ≠ d := by
  rintro rfl
  exact Bool.noConfusion (hd.symm.trans h.1)

theorem IsName.append {s t : List Char} (hs : IsName s) (ht : ∀ c ∈ t, IsNameChar c) :
    IsName (s ++ t) :=
  ⟨fun h => hs.1 (List.append_eq_nil_iff.1 h).1,
    fun c hc => (List.mem_append.1 hc).elim (hs.2 c) (ht c)⟩

/-- A name does not have what never stands in one. -/
theorem IsName.not_mem {s : List Char} (h : IsName s) {c : Char} (hc : ¬ IsNameChar c) : c ∉ s :=
  fun hmem => hc (h.2 c hmem)

theorem not_isNameChar_open : ¬ IsNameChar '{' := fun h => h.2.1 rfl

theorem not_isNameChar_close : ¬ IsNameChar '}' := fun h => h.2.2 rfl

theorem not_isNameChar_of_noise {c : Char} (h : isNameNoise c = true) : ¬ IsNameChar c :=
  fun hc => hc.ne h rfl

theorem isLawful_iff {s : List Char} :
    isLawful s = true ↔ s ≠ [] ∧ ∀ c ∈ s, c ≠ '{' ∧ c ≠ '}' ∧ c ≠ ':' := by
  simp [isLawful, and_assoc]

/-- A lawful text without noise is a name. -/
theorem IsName.of_isLawful {s : List Char} (hlawful : isLawful s = true)
    (h : ∀ c ∈ s, isNameNoise c = false) : IsName s := by
  obtain ⟨hne, hall⟩ := isLawful_iff.1 hlawful
  exact ⟨hne, fun c hc => ⟨h c hc, (hall c hc).1, (hall c hc).2.1⟩⟩

theorem isNameNoise_of_mem_plainName {s : List Char} {c : Char} (h : c ∈ plainName s) :
    isNameNoise c = false := by
  have := (List.mem_filter.1 h).2
  simpa using this

/-- A name without dashes is in camel case. -/
theorem toCamel_of_not_mem {s : List Char} (h : '-' ∉ s) : toCamel s = s := by
  induction s with
  | nil => rfl
  | cons c s ih =>
    obtain ⟨hc, hs⟩ := List.ne_and_not_mem_of_not_mem_cons h
    have hnone : dashRun (c :: s) = none := by
      cases s with
      | nil => simp [dashRun]
      | cons d s =>
        have hd : (d == '-') = false := by simpa using (List.ne_and_not_mem_of_not_mem_cons hs).1.symm
        simp [dashRun, hd]
    rw [toCamel, Text.replaceMatches, Text.replaceMatchesFrom, hnone]
    exact congrArg (c :: ·) (ih hs)

theorem toCamel_of_noiseless {s : List Char} (h : ∀ c ∈ s, isNameNoise c = false) :
    toCamel s = s :=
  toCamel_of_not_mem fun hmem => absurd (h '-' hmem) (by decide)

/-! ## Raised letters -/

theorem mem_of_mem_raiseFrom {c : Char} {inWord : Bool} {s : List Char}
    (h : c ∈ raiseFrom inWord s) : c ∈ s ∨ Text.isWordAscii c = true := by
  induction s generalizing inWord with
  | nil => exact Or.inl h
  | cons d s ih =>
    rw [raiseFrom, List.mem_cons] at h
    rcases h with rfl | h
    · split
      next hd => exact Or.inr (isWordAscii_toUpper (Bool.and_eq_true_iff.1 hd).1)
      next => exact Or.inl List.mem_cons_self
    · exact (ih h).imp_left (List.mem_cons_of_mem d)

/-- Only word characters are raised. -/
theorem mem_raiseFrom {c : Char} (hc : Text.isWordAscii c = false) {inWord : Bool} {s : List Char}
    (h : c ∈ s) : c ∈ raiseFrom inWord s := by
  induction s generalizing inWord with
  | nil => exact h
  | cons d s ih =>
    rw [raiseFrom]
    rcases List.mem_cons.1 h with rfl | h
    · simp [hc]
    · exact List.mem_cons_of_mem _ (ih h)

theorem raiseFrom_ne_nil {inWord : Bool} {s : List Char} (h : s ≠ []) : raiseFrom inWord s ≠ [] := by
  cases s with
  | nil => exact absurd rfl h
  | cons c s => exact List.cons_ne_nil _ _

theorem isNameNoise_of_mem_capitalize {s : List Char} (h : ∀ c ∈ s, isNameNoise c = false) :
    ∀ c ∈ capitalize s, isNameNoise c = false :=
  fun c hc => (mem_of_mem_raiseFrom hc).elim (h c) fun hword => (isNameChar_of_word hword).1

theorem isNameChar_of_mem_capitalize {s : List Char} (h : ∀ c ∈ s, IsNameChar c) :
    ∀ c ∈ capitalize s, IsNameChar c :=
  fun c hc => (mem_of_mem_raiseFrom hc).elim (h c) isNameChar_of_word

/-! ## The names of declarations -/

/-- The name of a node is that of the node above with its own key raised. -/
theorem nodeName_eq (above : List Char) (key : String) :
    nodeName above key = above ++ capitalize (plainName key.toList) := by
  rw [nodeName, toCamel_of_noiseless]
  exact isNameNoise_of_mem_capitalize fun c => isNameNoise_of_mem_plainName

theorem isNameNoise_of_mem_nodeName {above : List Char} {key : String}
    (h : ∀ c ∈ above, isNameNoise c = false) : ∀ c ∈ nodeName above key, isNameNoise c = false := by
  intro c hc
  rw [nodeName_eq] at hc
  rcases List.mem_append.1 hc with hc | hc
  · exact h c hc
  · exact isNameNoise_of_mem_capitalize (fun d => isNameNoise_of_mem_plainName) c hc

/-- The key of a node with a lawful name has no braces. -/
theorem isNameChar_of_mem_key {above : List Char} {key : String}
    (h : isLawful (nodeName above key) = true) : ∀ c ∈ plainName key.toList, IsNameChar c := by
  obtain ⟨_, hall⟩ := isLawful_iff.1 h
  have hraised : ∀ c ∈ plainName key.toList, Text.isWordAscii c = false → c ∈ nodeName above key :=
    fun c hc hword => by
      rw [nodeName_eq]
      exact List.mem_append_right _ (mem_raiseFrom hword hc)
  refine fun c hc => ⟨isNameNoise_of_mem_plainName hc, ?_, ?_⟩
  · rintro rfl
    exact (hall _ (hraised _ hc (by decide))).1 rfl
  · rintro rfl
    exact (hall _ (hraised _ hc (by decide))).2.1 rfl

/-- The name of a method is its own without noise. -/
theorem methodName_eq (m : Method) : methodName m = plainName m.displayName.toList :=
  toCamel_of_noiseless fun _ => isNameNoise_of_mem_plainName

theorem isName_methodName {e : Entity} {m : Method} (h : m ∈ declaredMethods e) :
    IsName (methodName m) := by
  refine IsName.of_isLawful (List.mem_filter.1 h).2 fun c hc => ?_
  rw [methodName_eq] at hc
  exact isNameNoise_of_mem_plainName hc

theorem isName_entityName {e : Entity} (h : hasLawfulName e = true) :
    IsName (entityName e).toList := by
  rw [entityName, ofChars, String.toList_ofList]
  exact IsName.of_isLawful (Bool.and_eq_true_iff.1 h).2 fun c => isNameNoise_of_mem_plainName

theorem isName_entityType (e : Entity) : IsName (entityType e).toList := by
  rw [entityType]
  split
  next h => exact isName_entityName h
  next => decide

/-- The entities that get an interface have lawful names. -/
theorem hasLawfulName_of_mem_declaredEntities {seen : List String} {es : List Entity} {e : Entity}
    (h : e ∈ (declaredEntities seen es).1) : hasLawfulName e = true ∧ e ∈ es := by
  induction es generalizing seen with
  | nil => cases h
  | cons d es ih =>
    rw [declaredEntities] at h
    split at h
    next => exact ⟨(ih h).1, List.mem_cons_of_mem d (ih h).2⟩
    next hlawful =>
      split at h
      next => exact ⟨(ih h).1, List.mem_cons_of_mem d (ih h).2⟩
      next =>
        rcases List.mem_cons.1 h with rfl | h
        · exact ⟨by simpa using hlawful, List.mem_cons_self⟩
        · exact ⟨(ih h).1, List.mem_cons_of_mem d (ih h).2⟩

end ClientBuild.Declaration
