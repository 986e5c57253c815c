import ClientBuild.Declaration.Flatten
import ClientBuild.Proofs.Text.Search

/-!
# Balanced texts

A text is balanced when its braces open and close each other.  The brace that closes a block is the
first one by which the text closes more than it opens (`takeBraced?_eq_some_iff`), and there is none
exactly if the text never does (`takeBraced?_eq_none_iff`).  So every brace that a balanced text opens
is closed in it, with a balanced text between (`Balanced.exists_takeBraced?`).
-/

namespace ClientBuild

namespace Declaration

/-! ## By how much a text opens more braces than it closes -/

def rise (s : List Char) : Int := (s.count '{' : Int) - s.count '}'

@[simp] theorem rise_nil : rise [] = 0 := rfl

@[simp] theorem rise_append (s t : List Char) : rise (s ++ t) = rise s + rise t := by
  simp only [rise, List.count_append, Int.natCast_add]
  omega

theorem rise_open (s : List Char) : rise ('{' :: s) = rise s + 1 := by
  simp only [rise, List.count_cons_self, List.count_cons_of_ne (show '{' ≠ '}' by decide)]
  omega

theorem rise_close (s : List Char) : rise ('}' :: s) = rise s - 1 := by
  simp only [rise, List.count_cons_self, List.count_cons_of_ne (show '}' ≠ '{' by decide)]
  omega

theorem rise_cons_of_ne {c : Char} (hopen : c ≠ '{') (hclose : c ≠ '}') (s : List Char) :
    rise (c :: s) = rise s := by
  simp only [rise, List.count_cons_of_ne hopen, List.count_cons_of_ne hclose]

/-- Has the text no braces? -/
def BraceFree (s : List Char) : Prop := '{' ∉ s ∧ '}' ∉ s

theorem BraceFree.append {s t : List Char} (hs : BraceFree s) (ht : BraceFree t) :
    BraceFree (s ++ t) :=
  ⟨fun h => (List.mem_append.1 h).elim hs.1 ht.1, fun h => (List.mem_append.1 h).elim hs.2 ht.2⟩

theorem BraceFree.of_subset {s t : List Char} (ht : BraceFree t) (h : s ⊆ t) : BraceFree s :=
  ⟨fun hs => ht.1 (h hs), fun hs => ht.2 (h hs)⟩

theorem BraceFree.rise {s : List Char} (h : BraceFree s) : rise s = 0 := by
  rw [Declaration.rise, List.count_eq_zero.2 h.1, List.count_eq_zero.2 h.2]
  rfl

/-! ## The closing brace -/

/-- What a scan has passed in front of a closing brace, `d` more braces having been open. -/
def Closes (d : Nat) (body : List Char) : Prop :=
  rise body = -d ∧ ∀ a, a <+: body → -(d : Int) ≤ rise a

theorem closes_nil {d : Nat} : Closes d [] ↔ d = 0 := by
  constructor
  · intro ⟨h, _⟩
    simp only [rise_nil] at h
    omega
  · rintro rfl
    refine ⟨rfl, fun a ha => ?_⟩
    rw [List.prefix_nil.1 ha]
    exact Int.le_refl 0

/-- A first character moves the count for the rest. -/
theorem closes_cons {c : Char} {d e : Nat} {s : List Char}
    (hc : ∀ t, rise (c :: t) + d = rise t + e) : Closes d (c :: s) ↔ Closes e s := by
  constructor
  · rintro ⟨hlevel, habove⟩
    refine ⟨by have := hc s; omega, fun a ha => ?_⟩
    have := habove (c :: a) ((List.prefix_cons_inj c).2 ha)
    have := hc a
    omega
  · rintro ⟨hlevel, habove⟩
    refine ⟨by have := hc s; omega, fun a ha => ?_⟩
    rcases List.prefix_cons_iff.1 ha with rfl | ⟨b, rfl, hb⟩
    · simp only [rise_nil]
      omega
    · have := habove b hb
      have := hc b
      omega

theorem not_closes_close (s : List Char) : ¬ Closes 0 ('}' :: s) := by
  rintro ⟨_, habove⟩
  have := habove ['}'] ((List.prefix_cons_inj '}').2 (List.nil_prefix))
  simp [rise_close] at this

/-- **The closing brace is the first one by which more is closed than opened.** -/
theorem takeBraced?_eq_some_iff {d : Nat} {s body rest : List Char} :
    takeBraced? d s = some (body, rest) ↔ s = body ++ '}' :: rest ∧ Closes d body := by
  induction s generalizing d body with
  | nil => simp [takeBraced?]
  | cons c s ih =>
    -- Where the scan goes on, the character is the first one of the body.
    have through {e : Nat} (hne : c = '}' → 0 < d) (hc : ∀ t, rise (c :: t) + d = rise t + e) :
        (takeBraced? e s).map (fun p => (c :: p.1, p.2)) = some (body, rest) ↔
          c :: s = body ++ '}' :: rest ∧ Closes d body := by
      constructor
      · intro h
        obtain ⟨⟨b, r⟩, hp, heq⟩ := Option.map_eq_some_iff.1 h
        obtain ⟨rfl, rfl⟩ := Prod.mk.inj heq
        obtain ⟨rfl, hb⟩ := ih.1 hp
        exact ⟨rfl, (closes_cons hc).2 hb⟩
      · rintro ⟨heq, hb⟩
        cases body with
        | nil =>
          have := hne (List.cons.inj heq).1
          rw [closes_nil.1 hb] at this
          exact absurd this (Nat.lt_irrefl 0)
        | cons b body =>
          obtain ⟨rfl, rfl⟩ := List.cons.inj heq
          rw [ih.2 ⟨rfl, (closes_cons hc).1 hb⟩]
          rfl
    rw [takeBraced?.eq_def]
    dsimp only
    split
    next hopen =>
      subst hopen
      exact through (fun h => absurd h (by decide)) fun t => by rw [rise_open]; omega
    next hopen =>
      split
      next hclose =>
        subst hclose
        cases d with
        | zero =>
          constructor
          · intro h
            cases h
            exact ⟨rfl, closes_nil.2 rfl⟩
          · rintro ⟨heq, hb⟩
            cases body with
            | nil => cases heq; rfl
            | cons b body =>
              obtain ⟨rfl, rfl⟩ := List.cons.inj heq
              exact absurd hb (not_closes_close body)
        | succ d =>
          exact through (fun _ => Nat.succ_pos d) fun t => by rw [rise_close]; omega
      next hclose =>
        exact through (fun h => absurd h hclose) fun t => by rw [rise_cons_of_ne hopen hclose]

/-- **There is no closing brace exactly if never more is closed than opened.** -/
theorem takeBraced?_eq_none_iff {d : Nat} {s : List Char} :
    takeBraced? d s = none ↔ ∀ a, a <+: s → -(d : Int) ≤ rise a := by
  induction s generalizing d with
  | nil =>
    refine ⟨fun _ a ha => ?_, fun _ => rfl⟩
    rw [List.prefix_nil.1 ha, rise_nil]
    omega
  | cons c s ih =>
    have through {e : Nat} (hc : ∀ t, rise (c :: t) + d = rise t + e) :
        (takeBraced? e s).map (fun p => (c :: p.1, p.2)) = none ↔
          ∀ a, a <+: c :: s → -(d : Int) ≤ rise a := by
      rw [Option.map_eq_none_iff, ih]
      constructor
      · intro h a ha
        rcases List.prefix_cons_iff.1 ha with rfl | ⟨b, rfl, hb⟩
        · rw [rise_nil]
          omega
        · have := h b hb
          have := hc b
          omega
      · intro h a ha
        have := h (c :: a) ((List.prefix_cons_inj c).2 ha)
        have := hc a
        omega
    rw [takeBraced?.eq_def]
    dsimp only
    split
    next hopen =>
      subst hopen
      exact through fun t => by rw [rise_open]; omega
    next hopen =>
      split
      next hclose =>
        subst hclose
        cases d with
        | zero =>
          refine ⟨fun h => (Option.some_ne_none _ h).elim, fun h => ?_⟩
          have := h ['}'] ((List.prefix_cons_inj '}').2 List.nil_prefix)
          simp [rise_close] at this
        | succ d => exact through fun t => by rw [rise_close]; omega
      next hclose => exact through fun t => by rw [rise_cons_of_ne hopen hclose]

/-! ## Balanced texts -/

/-- Do the braces of the text open and close each other? -/
def Balanced (s : List Char) : Prop := Closes 0 s

theorem BraceFree.balanced {s : List Char} (h : BraceFree s) : Balanced s := by
  refine ⟨by rw [h.rise]; rfl, fun a ha => ?_⟩
  rw [(h.of_subset ha.subset).rise]
  exact Int.le_refl 0

theorem Balanced.append {s t : List Char} (hs : Balanced s) (ht : Balanced t) :
    Balanced (s ++ t) := by
  refine ⟨by rw [rise_append, hs.1, ht.1]; rfl, fun a ha => ?_⟩
  rcases Text.prefix_append_cases ha with ha | ⟨b, rfl, hb⟩
  · exact hs.2 a ha
  · have := ht.2 b hb
    rw [rise_append, hs.1]
    omega

/-- A balanced text in braces. -/
theorem Balanced.braced {s : List Char} (hs : Balanced s) : Balanced ('{' :: s ++ ['}']) := by
  refine ⟨?_, fun a ha => ?_⟩
  · rw [rise_append, rise_open, rise_close, hs.1]
    rfl
  · rcases Text.prefix_append_cases ha with ha | ⟨b, rfl, hb⟩
    · rcases List.prefix_cons_iff.1 ha with rfl | ⟨x, rfl, hx⟩
      · exact Int.le_refl 0
      · have := hs.2 x hx
        rw [rise_open]
        omega
    · rcases List.prefix_cons_iff.1 hb with rfl | ⟨x, rfl, hx⟩
      · rw [List.append_nil, rise_open, hs.1]
        decide
      · rw [List.prefix_nil.1 hx, rise_append, rise_open, rise_close, hs.1]
        decide

/-- The closing brace behind a balanced text is the one that is found. -/
theorem Balanced.takeBraced? {s : List Char} (hs : Balanced s) (rest : List Char) :
    takeBraced? 0 (s ++ '}' :: rest) = some (s, rest) :=
  takeBraced?_eq_some_iff.2 ⟨rfl, hs⟩

theorem Balanced.takeBraced?_eq_none {s : List Char} (h : Balanced s) :
    Declaration.takeBraced? 0 s = none :=
  takeBraced?_eq_none_iff.2 fun a ha => by simpa using h.2 a ha

theorem balanced_nil : Balanced [] := BraceFree.balanced ⟨List.not_mem_nil, List.not_mem_nil⟩

/-- A block of plain text, with plain text in front of it. -/
theorem Balanced.block {a b s : List Char} (ha : BraceFree a) (hb : BraceFree b)
    (hs : Balanced s) : Balanced (a ++ '{' :: (b ++ '}' :: s)) := by
  have hall := (ha.balanced.append hb.balanced.braced).append hs
  simpa using hall

/-- **Every brace that a balanced text opens is closed**, with a balanced text between. -/
theorem Balanced.exists_takeBraced? {a b : List Char} (h : Balanced (a ++ '{' :: b)) :
    ∃ body rest, Declaration.takeBraced? 0 b = some (body, rest) ∧ Balanced body := by
  cases hb : Declaration.takeBraced? 0 b with
  | some p =>
    obtain ⟨body, rest⟩ := p
    exact ⟨body, rest, rfl, (takeBraced?_eq_some_iff.1 hb).2⟩
  | none =>
    -- The rest would close nothing, but all of the text closes what it opens.
    have hrest : 0 ≤ rise b := by simpa using takeBraced?_eq_none_iff.1 hb b (List.prefix_refl b)
    have hfront : 0 ≤ rise a := by simpa using h.2 a (List.prefix_append _ _)
    have hall := h.1
    rw [rise_append, rise_open] at hall
    omega

theorem braceFree_of_blank {s : List Char} (h : ∀ c ∈ s, Text.isBlank c = true) : BraceFree s :=
  ⟨fun hs => absurd (h _ hs) (by decide), fun hs => absurd (h _ hs) (by decide)⟩

theorem Balanced.trim {s : List Char} (h : Balanced s) : Balanced (Text.trim s) := by
  obtain ⟨l, r, hl, hr, hs⟩ := Text.exists_eq_append_trim s
  have hleft := (braceFree_of_blank hl).rise
  have hright := (braceFree_of_blank hr).rise
  rw [hs] at h
  refine ⟨?_, fun a ha => ?_⟩
  · have := h.1
    simp only [rise_append] at this
    omega
  · have := h.2 (l ++ a) ((List.append_assoc l _ r) ▸
      (List.prefix_append_right_inj l).2 (ha.trans (List.prefix_append _ r)))
    simp only [rise_append] at this
    omega

end Declaration

end ClientBuild
