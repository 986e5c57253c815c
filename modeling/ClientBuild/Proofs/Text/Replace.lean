import ClientBuild.Proofs.Text.Search
import Mathlib.Data.List.Infix

/-!
# Replacing one text by another

What `replaceAll` does is said by one induction (`replaceAll_induction`): an occurrence at the front is
replaced, and any other character stays.  A character that does not occur in the text that is replaced keeps
both sides apart (`replaceAll_append_cons`), and a part that no occurrence cuts is still there afterwards
(`infix_replaceAll`).
-/

namespace ClientBuild.Text

variable {p r : List Char}

/-- A text is split at the first occurrence of a character in one way. -/
theorem append_cons_inj {c : Char} {b b' : List Char} : ∀ {a a' : List Char}, c ∉ a → c ∉ a' →
    a ++ c :: b = a' ++ c :: b' → a = a' ∧ b = b'
  | [], [], _, _, h => ⟨rfl, (List.cons.inj h).2⟩
  | [], d :: a', _, ha', h => absurd (by rw [(List.cons.inj h).1]; exact List.mem_cons_self) ha'
  | d :: a, [], ha, _, h => absurd (by rw [← (List.cons.inj h).1]; exact List.mem_cons_self) ha
  | d :: a, e :: a', ha, ha', h => by
    obtain ⟨rfl, hrest⟩ := List.cons.inj h
    obtain ⟨rfl, hb⟩ := append_cons_inj (fun hm => ha (List.mem_cons_of_mem _ hm))
      (fun hm => ha' (List.mem_cons_of_mem _ hm)) hrest
    exact ⟨rfl, hb⟩

/-- A text is split at an occurrence of a character in one way, by the number of those in front. -/
theorem append_cons_inj_of_count {c : Char} {b b' : List Char} : ∀ {a a' : List Char},
    a.count c = a'.count c → a ++ c :: b = a' ++ c :: b' → a = a' ∧ b = b'
  | [], [], _, h => ⟨rfl, (List.cons.inj h).2⟩
  | [], d :: a', hcount, h => by
    rw [← (List.cons.inj h).1, List.count_nil, List.count_cons_self] at hcount
    exact absurd hcount (by omega)
  | d :: a, [], hcount, h => by
    rw [(List.cons.inj h).1, List.count_nil, List.count_cons_self] at hcount
    exact absurd hcount (by omega)
  | d :: a, e :: a', hcount, h => by
    obtain ⟨rfl, hrest⟩ := List.cons.inj h
    rw [List.count_cons, List.count_cons, Nat.add_right_cancel_iff] at hcount
    obtain ⟨rfl, hb⟩ := append_cons_inj_of_count hcount hrest
    exact ⟨rfl, hb⟩

/-- A text is split at the last occurrence of a character in one way. -/
theorem append_cons_inj_right {c : Char} {a a' b b' : List Char} (hb : c ∉ b) (hb' : c ∉ b')
    (h : a ++ c :: b = a' ++ c :: b') : a = a' ∧ b = b' := by
  have hreverse : b.reverse ++ c :: a.reverse = b'.reverse ++ c :: a'.reverse := by
    simpa using congrArg List.reverse h
  obtain ⟨hrest, hfront⟩ := append_cons_inj (by simpa using hb) (by simpa using hb') hreverse
  exact ⟨List.reverse_injective hfront, List.reverse_injective hrest⟩

theorem startsWith_iff {p s : List Char} : startsWith p s = true ↔ p <+: s := by
  rw [startsWith, Option.isSome_iff_ne_none, ne_eq, after?_eq_none_iff, Classical.not_not]

theorem endsWith_iff {p s : List Char} : endsWith p s = true ↔ p <:+ s := by
  rw [endsWith, startsWith_iff, List.reverse_prefix]

theorem literally_of_isPrefix (hp : p ≠ []) (s : List Char) : literally p r (p ++ s) = some (r, p.length) := by
  rw [literally, if_neg (by simpa using hp), after?_append]
  rfl

theorem literally_of_not_isPrefix {s : List Char} (h : ¬ p <+: s) : literally p r s = none := by
  rw [literally]
  split
  next => rfl
  next => rw [after?_eq_none_iff.2 h, Option.map_none]

theorem replaceAll_nil (r s : List Char) : replaceAll [] r s = s := by
  induction s with
  | nil => rfl
  | cons c s ih => exact (replaceMatches_cons_of_none rfl).trans (congrArg (c :: ·) ih)

theorem replaceAll_append (hp : p ≠ []) (s : List Char) :
    replaceAll p r (p ++ s) = r ++ replaceAll p r s := by
  have hlength : p.length = p.length - 1 + 1 := by
    have := List.length_pos_iff.2 hp
    omega
  have hfound := literally_of_isPrefix (r := r) hp s
  rw [hlength] at hfound
  rw [replaceAll, replaceMatches_of_some hfound (by simp [hp]), ← hlength, List.drop_left]
  rfl

theorem replaceAll_self (hp : p ≠ []) : replaceAll p r p = r := by
  have hwhole := replaceAll_append (r := r) hp []
  rwa [List.append_nil, show replaceAll p r [] = [] from rfl, List.append_nil] at hwhole

theorem replaceAll_cons {c : Char} {s : List Char} (h : ¬ p <+: c :: s) :
    replaceAll p r (c :: s) = c :: replaceAll p r s :=
  replaceMatches_cons_of_none (literally_of_not_isPrefix h)

/-- The text that is replaced stands in front, or the first character stays. -/
theorem replaceAll_induction (hp : p ≠ []) {P : List Char → Prop} (nil : P [])
    (found : ∀ s, P s → P (p ++ s)) (step : ∀ c s, ¬ p <+: c :: s → P s → P (c :: s))
    (s : List Char) : P s := by
  cases s with
  | nil => exact nil
  | cons c s =>
    by_cases h : p <+: c :: s
    · obtain ⟨t, ht⟩ := h
      have hshort : t.length < (c :: s).length := by
        have := List.length_pos_iff.2 hp
        rw [← ht, List.length_append]
        omega
      rw [← ht]
      exact found t (replaceAll_induction hp nil found step t)
    · exact step c s h (replaceAll_induction hp nil found step s)
termination_by s.length
decreasing_by
  · exact hshort
  · exact Nat.lt_succ_self _

theorem mem_replaceAll {c : Char} {s : List Char} (h : c ∈ replaceAll p r s) : c ∈ s ∨ c ∈ r := by
  by_cases hp : p = []
  · rw [hp, replaceAll_nil] at h
    exact Or.inl h
  induction s using replaceAll_induction hp with
  | nil => exact Or.inl h
  | found s ih =>
    rw [replaceAll_append hp] at h
    rcases List.mem_append.1 h with h | h
    · exact Or.inr h
    · exact (ih h).imp_left (List.mem_append_right p)
  | step d s hfront ih =>
    rw [replaceAll_cons hfront] at h
    rcases List.mem_cons.1 h with rfl | h
    · exact Or.inl List.mem_cons_self
    · exact (ih h).imp_left (List.mem_cons_of_mem d)

/-- What is put in and what is looked for having none of a character, their number stays. -/
theorem count_replaceAll {c : Char} (hp : c ∉ p) (hr : c ∉ r) (s : List Char) :
    (replaceAll p r s).count c = s.count c := by
  by_cases hnil : p = []
  · rw [hnil, replaceAll_nil]
  induction s using replaceAll_induction hnil with
  | nil => rfl
  | found s ih =>
    rw [replaceAll_append hnil, List.count_append, List.count_append, ih, List.count_eq_zero_of_not_mem hp,
      List.count_eq_zero_of_not_mem hr]
  | step d s hfront ih => rw [replaceAll_cons hfront, List.count_cons, List.count_cons, ih]

/-- A text in which nothing is found stays. -/
theorem replaceAll_eq_self {s : List Char} (h : ¬ p <:+: s) : replaceAll p r s = s := by
  induction s with
  | nil => rfl
  | cons c s ih =>
    rw [replaceAll_cons fun hp => h hp.isInfix, ih fun hs => h (hs.trans (List.suffix_cons c s).isInfix)]

/-- Texts are replaced apart where no occurrence lies across their border. -/
theorem replaceAll_append_of_not_across (hp : p ≠ []) {s : List Char} {a : List Char}
    (h : ∀ x y, p = x ++ y → x ≠ [] → y ≠ [] → x <:+ a → ¬ y <+: s) :
    replaceAll p r (a ++ s) = replaceAll p r a ++ replaceAll p r s := by
  induction a using replaceAll_induction hp with
  | nil => rfl
  | found a ih =>
    have hrest := ih fun x y hxy hx hy hsuffix => h x y hxy hx hy (hsuffix.trans (List.suffix_append p a))
    rw [List.append_assoc, replaceAll_append hp, replaceAll_append hp, hrest, List.append_assoc]
  | step d a hfront ih =>
    have hrest := ih fun x y hxy hx hy hsuffix => h x y hxy hx hy (hsuffix.trans (List.suffix_cons d a))
    have hstart : ¬ p <+: d :: (a ++ s) := by
      rintro ⟨t, ht⟩
      rw [← List.cons_append, List.append_eq_append_iff] at ht
      rcases ht with ⟨u, hu, -⟩ | ⟨u, hu, hs⟩
      · exact hfront ⟨u, hu.symm⟩
      · by_cases hnil : u = []
        · exact hfront ⟨[], by rw [hu, hnil, List.append_nil, List.append_nil]⟩
        · exact h (d :: a) u hu (List.cons_ne_nil d a) hnil (List.suffix_refl _) ⟨t, hs.symm⟩
    rw [List.cons_append, replaceAll_cons hstart, replaceAll_cons hfront, hrest, List.cons_append]

/-- The texts on both sides of a character that is not looked for are replaced apart. -/
theorem replaceAll_append_cons {c : Char} (hc : c ∉ p) (b a : List Char) :
    replaceAll p r (a ++ c :: b) = replaceAll p r a ++ c :: replaceAll p r b := by
  by_cases hp : p = []
  · rw [hp, replaceAll_nil, replaceAll_nil, replaceAll_nil]
  have hborder {y : List Char} (hy : y ≠ []) (hfront : y <+: c :: b) : c ∈ y := by
    obtain ⟨d, y, rfl⟩ := List.exists_cons_of_ne_nil hy
    obtain ⟨t, ht⟩ := hfront
    rw [(List.cons.inj ht).1]
    exact List.mem_cons_self
  have hfront : ¬ p <+: c :: b := fun h => hc (hborder hp h)
  rw [replaceAll_append_of_not_across hp, replaceAll_cons hfront]
  rintro x y rfl - hy - hfront
  exact hc (List.mem_append_right x (hborder hy hfront))

/-- A text in which no occurrence begins stays in front. -/
theorem replaceAll_append_of_not_start {e : List Char}
    (hstart : ∀ y t, y ≠ [] → y <:+ e → ¬ p <+: y ++ t) (s : List Char) :
    replaceAll p r (e ++ s) = e ++ replaceAll p r s :=
  replaceMatches_append_of_none s fun x c y hx =>
    literally_of_not_isPrefix (hstart (c :: y) s (List.cons_ne_nil c y) ⟨x, hx.symm⟩)

end ClientBuild.Text
