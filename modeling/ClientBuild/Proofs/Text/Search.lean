import ClientBuild.Text.Blank
import ClientBuild.Text.Search

/-!
# Searching, replacing and trimming

What the searches of `Text.Search` find, said without their scans: a text contains another one if it
is a part of it (`contains_iff`), the first place of a text is where nothing before has it
(`breakOn?_append`), and a scan goes on behind what it has passed (`findAllFrom_eq_drop`,
`replaceMatchesFrom_eq_drop`).  A character that a text does not have separates its occurrences
(`infix_append_cons_iff`).
-/

namespace ClientBuild.Text

/-- What is said of the characters of a text is decided by going through the text, not through all
characters. -/
instance (priority := high) decidableForallMem {p : Char → Prop} [DecidablePred p] (s : List Char) :
    Decidable (∀ c ∈ s, p c) :=
  List.decidableBAll p s

/-! ## The beginning of a text -/

/-- A list that two begin with ends in the first one or in the second one. -/
theorem prefix_append_cases {α : Type} {a s t : List α} (h : a <+: s ++ t) :
    a <+: s ∨ ∃ b, a = s ++ b ∧ b <+: t := by
  obtain ⟨r, hr⟩ := h
  rcases List.append_eq_append_iff.1 hr with ⟨x, rfl, _⟩ | ⟨x, rfl, rfl⟩
  · exact Or.inl ⟨x, rfl⟩
  · exact Or.inr ⟨x, rfl, r, rfl⟩

theorem after?_eq_some_iff {p s r : List Char} : after? p s = some r ↔ s = p ++ r := by
  induction p generalizing s with
  | nil => simp [after?, eq_comm]
  | cons c p ih =>
    cases s with
    | nil => simp [after?]
    | cons d s =>
      by_cases h : c = d
      · simp [after?, h, ih]
      · simp [after?, h, Ne.symm h]

@[simp] theorem after?_append (p s : List Char) : after? p (p ++ s) = some s :=
  after?_eq_some_iff.2 rfl

theorem after?_eq_none_iff {p s : List Char} : after? p s = none ↔ ¬ p <+: s := by
  rw [Option.eq_none_iff_forall_ne_some]
  constructor
  · rintro h ⟨r, hr⟩
    exact h r (after?_eq_some_iff.2 hr.symm)
  · intro h r hr
    exact h ⟨r, (after?_eq_some_iff.1 hr).symm⟩

/-! ## The first occurrence -/

theorem eq_of_breakOn? {p s before rest : List Char} (h : breakOn? p s = some (before, rest)) :
    s = before ++ p ++ rest := by
  induction s generalizing before with
  | nil =>
    rw [breakOn?] at h
    split at h
    next hp =>
      cases h
      simp [List.isEmpty_iff.1 hp]
    next => cases h
  | cons c s ih =>
    rw [breakOn?] at h
    split at h
    next r hr =>
      cases h
      exact after?_eq_some_iff.1 hr
    next =>
      obtain ⟨⟨before, rest⟩, hs, heq⟩ := Option.map_eq_some_iff.1 h
      cases heq
      simpa using ih hs

theorem breakOn?_eq_none_iff {p s : List Char} : breakOn? p s = none ↔ ¬ p <:+: s := by
  induction s with
  | nil => cases p <;> simp [breakOn?]
  | cons c s ih =>
    rw [breakOn?, List.infix_cons_iff, not_or]
    split
    next r hr => simp [(after?_eq_some_iff.1 hr)]
    next hr => simp [after?_eq_none_iff.1 hr, ih]

theorem contains_iff {p s : List Char} : contains p s = true ↔ p <:+: s := by
  rw [contains, Option.isSome_iff_ne_none, ne_eq, breakOn?_eq_none_iff, Classical.not_not]

theorem contains_eq_false_iff {p s : List Char} : contains p s = false ↔ ¬ p <:+: s := by
  rw [← contains_iff, Bool.not_eq_true]

/-- The first occurrence of a text is where it does not occur any earlier. -/
theorem breakOn?_append {p : List Char} (b : List Char) :
    ∀ {a : List Char}, ¬ p <:+: a ++ p.dropLast → breakOn? p (a ++ p ++ b) = some (a, b)
  | [], _ => by
    cases p with
    | nil => cases b <;> simp [breakOn?, after?]
    | cons c p =>
      rw [List.nil_append, List.cons_append, breakOn?, ← List.cons_append, after?_append]
  | c :: a, h => by
    have hstart : after? p (c :: (a ++ p ++ b)) = none := by
      refine after?_eq_none_iff.2 fun hp => h ?_
      -- An occurrence at the front is over before the last character of `p` behind `a`.
      have hshort : p <+: c :: (a ++ p.dropLast) := by
        refine List.prefix_of_prefix_length_le hp ?_ ?_
        · exact (List.prefix_cons_inj c).2
            ((List.prefix_append_right_inj a).2 (List.dropLast_prefix p) |>.trans
              (List.prefix_append _ _))
        · simp only [List.length_cons, List.length_append, List.length_dropLast]
          omega
      exact hshort.isInfix
    have hrest : ¬ p <:+: a ++ p.dropLast := fun hp =>
      h (hp.trans (List.suffix_cons c _).isInfix)
    rw [List.cons_append, List.cons_append, breakOn?, hstart]
    simp only [breakOn?_append b hrest, Option.map_some]

theorem breakOn?_singleton {a : List Char} {c : Char} (hc : c ∉ a) (b : List Char) :
    breakOn? [c] (a ++ c :: b) = some (a, b) := by
  have hnone : ¬ [c] <:+: a ++ [c].dropLast := fun h => hc (by simpa using h.subset List.mem_cons_self)
  simpa using breakOn?_append b hnone

/-- A text is broken at the first occurrence of another one. -/
theorem breakOn?_eq_some_iff {p s a b : List Char} (hp : p ≠ []) :
    breakOn? p s = some (a, b) ↔ s = a ++ p ++ b ∧ ¬ p <:+: a ++ p.dropLast := by
  refine ⟨fun h => ⟨eq_of_breakOn? h, ?_⟩, fun ⟨hs, hnone⟩ => hs ▸ breakOn?_append b hnone⟩
  induction s generalizing a with
  | nil => cases p with
    | nil => exact absurd rfl hp
    | cons c p => cases h
  | cons c s ih =>
    have hsplit := eq_of_breakOn? h
    rw [breakOn?] at h
    split at h
    next =>
      cases h
      intro hinside
      have hlength := hinside.length_le
      have hpos := List.length_pos_iff.2 hp
      rw [List.nil_append, List.length_dropLast] at hlength
      omega
    next hnone =>
      obtain ⟨⟨a, b⟩, hbreak, heq⟩ := Option.map_eq_some_iff.1 h
      cases heq
      rw [List.cons_append, List.infix_cons_iff]
      rintro (hfront | hinside)
      · refine after?_eq_none_iff.1 hnone (hfront.trans ?_)
        rw [hsplit, List.append_assoc, List.cons_append, List.prefix_cons_inj, List.prefix_append_right_inj]
        exact (List.dropLast_prefix p).trans (List.prefix_append p _)
      · exact ih hbreak hinside

/-- What is searched does not occur in front of its first place. -/
theorem not_infix_of_breakOn? {p s a b : List Char} (hp : p ≠ []) (h : breakOn? p s = some (a, b)) :
    s = a ++ (p ++ b) ∧ ¬ p <:+: a := by
  obtain ⟨hs, hnone⟩ := (breakOn?_eq_some_iff hp).1 h
  exact ⟨by rw [hs, List.append_assoc], fun hinside => hnone (hinside.trans (List.prefix_append a _).isInfix)⟩

/-! ## Occurrences on both sides of a character -/

/-- A beginning does not reach over a character that it does not have. -/
theorem prefix_append_cons_iff {p a b : List Char} {c : Char} (hc : c ∉ p) : p <+: a ++ c :: b ↔ p <+: a := by
  constructor
  · rintro ⟨t, ht⟩
    rcases List.append_eq_append_iff.1 ht with ⟨u, ha, -⟩ | ⟨u, hu, hrest⟩
    · exact ⟨u, ha.symm⟩
    · cases u with
      | nil => exact ⟨[], by simpa using hu⟩
      | cons d u =>
        cases hrest
        exact absurd (by rw [hu]; simp) hc
  · exact fun h => h.trans (List.prefix_append a _)

/-- A text does not reach over a character that it does not have. -/
theorem infix_append_cons_iff {p a b : List Char} {c : Char} (hc : c ∉ p) :
    p <:+: a ++ c :: b ↔ p <:+: a ∨ p <:+: b := by
  constructor
  · rintro ⟨x, y, h⟩
    rw [List.append_assoc, List.append_eq_append_iff] at h
    rcases h with ⟨a', rfl, h⟩ | ⟨x', rfl, h⟩
    · rw [List.append_eq_append_iff] at h
      rcases h with ⟨p', rfl, h⟩ | ⟨q, rfl, h⟩
      · exact Or.inl ⟨x, p', by simp⟩
      · cases q with
        | nil => exact Or.inl ⟨x, [], by simp⟩
        | cons d q =>
          cases h
          exact absurd (List.mem_append_right _ List.mem_cons_self) hc
    · cases x' with
      | nil =>
        cases p with
        | nil => exact Or.inr (List.nil_infix)
        | cons d p =>
          cases h
          exact absurd List.mem_cons_self hc
      | cons d x' =>
        cases h
        exact Or.inr ⟨x', y, by simp⟩
  · rintro (h | h)
    · exact h.trans (List.prefix_append _ _).isInfix
    · exact h.trans ((List.suffix_cons c b).trans (List.suffix_append a _)).isInfix

/-! ## Scans -/

theorem findAllFrom_eq_drop {α : Type} (m : Pattern α) :
    ∀ (k : Nat) (s : List Char), findAllFrom m k s = findAllFrom m 0 (s.drop k)
  | 0, _ => rfl
  | k + 1, [] => by simp [findAllFrom]
  | k + 1, c :: s => by
    rw [findAllFrom, List.drop_succ_cons]
    exact findAllFrom_eq_drop m k s

theorem findAll_cons_of_none {α : Type} {m : Pattern α} {c : Char} {s : List Char}
    (h : m (c :: s) = none) : findAll m (c :: s) = findAll m s := by
  rw [findAll, findAllFrom, h]
  rfl

theorem findAll_of_some {α : Type} {m : Pattern α} {a : α} {n : Nat} {s : List Char}
    (h : m s = some (a, n + 1)) (hs : s ≠ []) : findAll m s = a :: findAll m (s.drop (n + 1)) := by
  cases s with
  | nil => exact absurd rfl hs
  | cons c s =>
    rw [findAll, findAllFrom, h]
    simp only [Nat.add_sub_cancel, List.drop_succ_cons, findAllFrom_eq_drop m n s]
    rfl

/-- Where the pattern is found nowhere in front, the scan begins behind. -/
theorem findAll_append_of_none {α : Type} {m : Pattern α} (b : List Char) :
    ∀ {a : List Char}, (∀ x c y, a = x ++ c :: y → m (c :: y ++ b) = none) →
      findAll m (a ++ b) = findAll m b
  | [], _ => rfl
  | c :: a, h => by
    have hhere : m (c :: (a ++ b)) = none := h [] c a rfl
    have hrest : findAll m (a ++ b) = findAll m b :=
      findAll_append_of_none b fun x d y hxy => h (c :: x) d y (by rw [hxy, List.cons_append])
    rw [List.cons_append, findAll_cons_of_none hhere, hrest]

theorem findAll_eq_nil {α : Type} {m : Pattern α} {s : List Char} (h : ∀ x c y, s = x ++ c :: y → m (c :: y) = none) :
    findAll m s = [] := by
  have hscan := findAll_append_of_none (m := m) [] (a := s) fun x c y hs => by rw [List.append_nil, h x c y hs]
  rwa [List.append_nil] at hscan

theorem replaceMatchesFrom_eq_drop (m : Pattern (List Char)) :
    ∀ (k : Nat) (s : List Char), replaceMatchesFrom m k s = replaceMatchesFrom m 0 (s.drop k)
  | 0, _ => rfl
  | k + 1, [] => by simp [replaceMatchesFrom]
  | k + 1, c :: s => by
    rw [replaceMatchesFrom, List.drop_succ_cons]
    exact replaceMatchesFrom_eq_drop m k s

theorem replaceMatches_cons_of_none {m : Pattern (List Char)} {c : Char} {s : List Char}
    (h : m (c :: s) = none) : replaceMatches m (c :: s) = c :: replaceMatches m s := by
  rw [replaceMatches, replaceMatchesFrom, h]
  rfl

theorem replaceMatches_of_some {m : Pattern (List Char)} {t : List Char} {n : Nat}
    {s : List Char} (h : m s = some (t, n + 1)) (hs : s ≠ []) :
    replaceMatches m s = t ++ replaceMatches m (s.drop (n + 1)) := by
  cases s with
  | nil => exact absurd rfl hs
  | cons c s =>
    rw [replaceMatches, replaceMatchesFrom, h]
    simp only [Nat.add_sub_cancel, List.drop_succ_cons, replaceMatchesFrom_eq_drop m n s]
    rfl

/-- Where the pattern is found nowhere in front, the front stays. -/
theorem replaceMatches_append_of_none {m : Pattern (List Char)} (b : List Char) :
    ∀ {a : List Char}, (∀ x c y, a = x ++ c :: y → m (c :: y ++ b) = none) →
      replaceMatches m (a ++ b) = a ++ replaceMatches m b
  | [], _ => rfl
  | c :: a, h => by
    have hhere : m (c :: (a ++ b)) = none := h [] c a rfl
    have hrest : replaceMatches m (a ++ b) = a ++ replaceMatches m b :=
      replaceMatches_append_of_none b fun x d y hxy =>
        h (c :: x) d y (by rw [hxy, List.cons_append])
    rw [List.cons_append, replaceMatches_cons_of_none hhere, hrest, List.cons_append]

/-- Every character that is left by a replacement comes from a text that was put in or is one that
the pattern was not found at. -/
theorem mem_replaceMatchesFrom {m : Pattern (List Char)} {P : Char → Prop} :
    ∀ (k : Nat) (s : List Char), (∀ r t n, r <:+ s → m r = some (t, n) → ∀ c ∈ t, P c) →
      (∀ c r, c :: r <:+ s → m (c :: r) = none → P c) → ∀ c ∈ replaceMatchesFrom m k s, P c
  | _, [], _, _, _, hc => by simp [replaceMatchesFrom] at hc
  | k + 1, d :: s, hsome, hnone, c, hc =>
    mem_replaceMatchesFrom k s (fun r t n hr => hsome r t n (hr.trans (List.suffix_cons d s)))
      (fun c r hr => hnone c r (hr.trans (List.suffix_cons d s))) c hc
  | 0, d :: s, hsome, hnone, c, hc => by
    have hrest : ∀ k, ∀ c ∈ replaceMatchesFrom m k s, P c := fun k =>
      mem_replaceMatchesFrom k s (fun r t n hr => hsome r t n (hr.trans (List.suffix_cons d s)))
        (fun c r hr => hnone c r (hr.trans (List.suffix_cons d s)))
    rw [replaceMatchesFrom] at hc
    split at hc
    next t n hfound =>
      exact (List.mem_append.1 hc).elim (hsome _ t n (List.suffix_refl _) hfound c)
        (hrest (n - 1) c)
    next hfound =>
      rcases List.mem_cons.1 hc with rfl | hc
      · exact hnone c s (List.suffix_refl _) hfound
      · exact hrest 0 c hc

theorem replaceFirst_nil_subset (p s : List Char) : replaceFirst p [] s ⊆ s := by
  rw [replaceFirst]
  split
  next before rest h =>
    rw [eq_of_breakOn? h]
    intro c hc
    simp only [List.append_nil, List.mem_append] at hc ⊢
    rcases hc with hc | hc
    · exact Or.inl (Or.inl hc)
    · exact Or.inr hc
  next => exact List.Subset.refl s

/-! ## Trimming -/

theorem exists_eq_append_trimRight (s : List Char) :
    ∃ r, (∀ c ∈ r, isBlank c = true) ∧ s = trimRight s ++ r := by
  induction s with
  | nil => exact ⟨[], by simp, rfl⟩
  | cons c s ih =>
    obtain ⟨r, hr, hs⟩ := ih
    rw [trimRight]
    split
    next hnil =>
      rw [hnil, List.nil_append] at hs
      subst hs
      by_cases hc : isBlank c = true
      · exact ⟨c :: s, List.forall_mem_cons.2 ⟨hc, hr⟩, by simp [hc]⟩
      · exact ⟨s, hr, by simp [hc]⟩
    next => exact ⟨r, hr, congrArg (c :: ·) hs⟩

theorem trimRight_concat {c : Char} (hc : isBlank c = false) (s : List Char) :
    trimRight (s ++ [c]) = s ++ [c] := by
  induction s with
  | nil => simp [trimRight, hc]
  | cons d s ih =>
    rw [List.cons_append, trimRight, ih]
    split
    next h => exact absurd h (by simp)
    next => rfl

/-- A text between two characters that are not blank has nothing to trim. -/
theorem trim_eq_self {c d : Char} {s r : List Char} (hc : isBlank c = false) (hd : isBlank d = false)
    (h : c :: s = r ++ [d]) : trim (c :: s) = c :: s := by
  rw [trim, trimLeft, List.dropWhile_cons_of_neg (by simp [hc]), h, trimRight_concat hd]

theorem trimLeft_append_of_blank {a b : List Char} (h : ∀ c ∈ a, isBlank c = true) :
    trimLeft (a ++ b) = trimLeft b :=
  List.dropWhile_append_of_pos h

theorem trimLeft_append {a b r : List Char} {c : Char} (h : trimLeft a = c :: r) :
    trimLeft (a ++ b) = c :: (r ++ b) := by
  rw [trimLeft] at h
  rw [trimLeft, List.dropWhile_append, h]
  rfl

theorem exists_trimLeft_eq {s u : List Char} (h : trimLeft s = u) : ∃ b, s = b ++ u ∧ ∀ c ∈ b, isBlank c = true :=
  ⟨s.takeWhile isBlank, by rw [← h, trimLeft, List.takeWhile_append_dropWhile], List.all_eq_true.1 List.all_takeWhile⟩

/-- Trimming takes blanks off both ends. -/
theorem exists_eq_append_trim (s : List Char) :
    ∃ l r, (∀ c ∈ l, isBlank c = true) ∧ (∀ c ∈ r, isBlank c = true) ∧ s = l ++ trim s ++ r := by
  obtain ⟨r, hr, hs⟩ := exists_eq_append_trimRight (trimLeft s)
  refine ⟨s.takeWhile isBlank, r, List.all_eq_true.1 List.all_takeWhile, hr, ?_⟩
  rw [List.append_assoc, trim, ← hs, trimLeft, List.takeWhile_append_dropWhile]

/-! ## Pieces between separators -/

theorem splitOnFrom_append {sep : Char → Bool} {c : Char} (hc : sep c = true)
    (b a run : List Char) :
    splitOnFrom sep run (a ++ c :: b) = splitOnFrom sep run a ++ splitOn sep b := by
  induction a generalizing run with
  | nil => simp only [List.nil_append, splitOnFrom, if_pos hc, splitOn, List.singleton_append]
  | cons d a ih =>
    simp only [List.cons_append, splitOnFrom]
    split
    · rw [ih []]
      rfl
    · exact ih (d :: run)

theorem splitOnFrom_of_forall {sep : Char → Bool} {s : List Char} (run : List Char)
    (h : ∀ c ∈ s, sep c = false) : splitOnFrom sep run s = [run.reverse ++ s] := by
  induction s generalizing run with
  | nil => simp only [splitOnFrom, List.append_nil]
  | cons c s ih =>
    obtain ⟨hc, hs⟩ := List.forall_mem_cons.1 h
    have hc : ¬ sep c = true := by simp [hc]
    simp only [splitOnFrom, if_neg hc]
    rw [ih (c :: run) hs]
    simp

theorem eq_append_of_endsWith {c : Char} {s : List Char} (h : endsWith [c] s = true) :
    ∃ a, s = a ++ [c] := by
  simp only [endsWith, startsWith, List.reverse_singleton] at h
  cases hs : s.reverse with
  | nil =>
    rw [hs] at h
    cases h
  | cons d t =>
    rw [hs] at h
    simp only [after?] at h
    split at h
    next hd =>
      refine ⟨t.reverse, ?_⟩
      rw [← List.reverse_reverse s, hs, List.reverse_cons, hd]
    next => cases h

theorem splitOn_append {sep : Char → Bool} {c : Char} (hc : sep c = true) (a b : List Char) :
    splitOn sep (a ++ c :: b) = splitOn sep a ++ splitOn sep b :=
  splitOnFrom_append hc b a []

theorem splitOn_of_forall {sep : Char → Bool} {s : List Char} (h : ∀ c ∈ s, sep c = false) :
    splitOn sep s = [s] :=
  splitOnFrom_of_forall [] h

theorem mem_splitOnFrom {sep : Char → Bool} {s run p : List Char} {c : Char}
    (hrun : ∀ c ∈ run, sep c = false) (hp : p ∈ splitOnFrom sep run s) (hc : c ∈ p) :
    (c ∈ run ∨ c ∈ s) ∧ sep c = false := by
  induction s generalizing run with
  | nil =>
    rw [splitOnFrom, List.mem_singleton] at hp
    have hmem : c ∈ run := by simpa [hp] using hc
    exact ⟨Or.inl hmem, hrun c hmem⟩
  | cons d s ih =>
    rw [splitOnFrom] at hp
    split at hp
    next =>
      rcases List.mem_cons.1 hp with rfl | hp
      · have hmem : c ∈ run := by simpa using hc
        exact ⟨Or.inl hmem, hrun c hmem⟩
      · obtain ⟨hmem, hsep⟩ := ih (List.forall_mem_nil _) hp
        exact ⟨Or.inr (List.mem_cons_of_mem d (hmem.resolve_left List.not_mem_nil)), hsep⟩
    next hd =>
      have hd : sep d = false := by simpa using hd
      obtain ⟨hmem, hsep⟩ := ih (List.forall_mem_cons.2 ⟨hd, hrun⟩) hp
      refine ⟨?_, hsep⟩
      simp only [List.mem_cons] at hmem ⊢
      rcases hmem with (hmem | hmem) | hmem
      · exact Or.inr (Or.inl hmem)
      · exact Or.inl hmem
      · exact Or.inr (Or.inr hmem)

/-- The pieces have the characters of the text that do not separate. -/
theorem mem_splitOn {sep : Char → Bool} {s p : List Char} {c : Char} (hp : p ∈ splitOn sep s)
    (hc : c ∈ p) : c ∈ s ∧ sep c = false := by
  obtain ⟨hmem, hsep⟩ := mem_splitOnFrom (List.forall_mem_nil _) hp hc
  exact ⟨hmem.resolve_left List.not_mem_nil, hsep⟩

end ClientBuild.Text
