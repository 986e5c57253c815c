import ClientBuild.Proofs.Declaration.Outermost
import ClientBuild.Proofs.Text.Words

/-!
# One level on one line

Runs of semicolons and of blanks are replaced by fixed texts.  What the replacement of one run keeps, that of
all runs keeps (`Text.replaceMatches_run_keeps`): braces stay balanced (`Balanced.oneLine`), and no object comes
up in a gap (`Spent.oneLine`).  A text on one line has single blanks, one behind every semicolon, and putting
it on one line again changes nothing (`oneLine_oneLine`).
-/

namespace ClientBuild

namespace Text

/-! ## Runs -/

/-- A run of characters becomes a text. -/
def run (p : Char → Bool) (r : List Char) : Pattern (List Char) := fun s =>
  let n := (s.takeWhile p).length
  if n = 0 then none else some (r, n)

section run

variable {p : Char → Bool} {r : List Char}

theorem run_cons_of_neg {c : Char} (hc : p c = false) (s : List Char) : run p r (c :: s) = none := by
  simp [run, hc]

/-- A run goes up to a character of another kind. -/
theorem run_append {u s : List Char} (hne : u ≠ []) (hu : ∀ c ∈ u, p c = true)
    (hs : ∀ c, s.head? = some c → p c = false) : run p r (u ++ s) = some (r, u.length) := by
  have htake : (u ++ s).takeWhile p = u := by
    rw [List.takeWhile_append_of_pos hu]
    cases s with
    | nil => simp
    | cons c s => simp [hs c rfl]
  rw [run, htake]
  exact if_neg (by simpa using hne)

theorem replaceMatches_run_cons {c : Char} (hc : p c = false) (s : List Char) :
    replaceMatches (run p r) (c :: s) = c :: replaceMatches (run p r) s :=
  replaceMatches_cons_of_none (run_cons_of_neg hc s)

theorem replaceMatches_run_append {u s : List Char} (hne : u ≠ []) (hu : ∀ c ∈ u, p c = true)
    (hs : ∀ c, s.head? = some c → p c = false) :
    replaceMatches (run p r) (u ++ s) = r ++ replaceMatches (run p r) s := by
  obtain ⟨c, u, rfl⟩ := List.exists_cons_of_ne_nil hne
  rw [replaceMatches_of_some (run_append hne hu hs) (by simp), ← List.length_cons, List.drop_left]

/-- A text begins with a run and goes on with another character. -/
theorem exists_run_append (p : Char → Bool) (s : List Char) : ∃ u t, s = u ++ t ∧ (∀ c ∈ u, p c = true) ∧
    ∀ c, t.head? = some c → p c = false := by
  obtain ⟨u, t, hs, hu, -, ht⟩ := exists_run p s
  refine ⟨u, t, hs, hu, fun c hc => ?_⟩
  have hhead := List.head?_dropWhile_not p s
  rw [ht, hc] at hhead
  simpa using hhead

/-- A text is empty, begins with a character that is none of a run, or begins with a run. -/
theorem run_induction (p : Char → Bool) {P : List Char → Prop} (nil : P [])
    (cons : ∀ c s, p c = false → P s → P (c :: s))
    (append : ∀ u s, u ≠ [] → (∀ c ∈ u, p c = true) → (∀ c, s.head? = some c → p c = false) → P s → P (u ++ s))
    (s : List Char) : P s := by
  obtain ⟨u, t, hs, hu, ht⟩ := exists_run_append p s
  have hshort : t.length ≤ s.length := by
    rw [hs, List.length_append]
    omega
  have hrest : P t := by
    cases t with
    | nil => exact nil
    | cons c t => exact cons c t (ht c rfl) (run_induction p nil cons append t)
  rw [hs]
  cases u with
  | nil => exact hrest
  | cons c u => exact append (c :: u) t (List.cons_ne_nil c u) hu ht hrest
termination_by s.length
decreasing_by exact hshort

/-- **What the replacement of one run keeps, that of all runs keeps.** -/
theorem replaceMatches_run_keeps {P : List Char → Prop}
    (h : ∀ x u y, u ≠ [] → (∀ c ∈ u, p c = true) → P (x ++ (u ++ y)) → P (x ++ (r ++ y))) {s : List Char}
    (hs : P s) : P (replaceMatches (run p r) s) := by
  have hpass : ∀ x, P (x ++ s) → P (x ++ replaceMatches (run p r) s) := by
    clear hs
    induction s using run_induction p with
    | nil => exact fun x hx => hx
    | cons c s hc ih =>
      intro x hx
      rw [replaceMatches_run_cons hc, List.append_cons]
      exact ih (x ++ [c]) (by rwa [List.append_cons] at hx)
    | append u s hne hu hhead ih =>
      intro x hx
      rw [replaceMatches_run_append hne hu hhead, ← List.append_assoc]
      exact ih (x ++ r) (by rw [List.append_assoc]; exact h x u s hne hu hx)
  exact hpass [] hs

end run

end Text

namespace Declaration

theorem semicolonRun_eq : semicolonRun = Text.run (· == ';') [';', ' '] := rfl

theorem blankRun_eq : blankRun = Text.run Text.isBlank [' '] := rfl

/-! ## Braces -/

/-- A text that opens as much as it closes can be replaced by one without braces. -/
theorem Balanced.replace {x u y r : List Char} (h : Balanced (x ++ (u ++ y))) (hu : rise u = 0)
    (hr : BraceFree r) : Balanced (x ++ (r ++ y)) := by
  refine ⟨?_, fun a ha => ?_⟩
  · have hall := h.1
    simp only [rise_append, hu, hr.rise] at hall ⊢
    exact hall
  · rcases Text.prefix_append_cases ha with ha | ⟨b, rfl, hb⟩
    · exact h.2 a (ha.trans (List.prefix_append _ _))
    · rcases Text.prefix_append_cases hb with hb | ⟨c, rfl, hc⟩
      · have := h.2 x (List.prefix_append _ _)
        rw [rise_append, (hr.of_subset hb.subset).rise]
        omega
      · have := h.2 (x ++ (u ++ c))
          ((List.prefix_append_right_inj x).2 ((List.prefix_append_right_inj u).2 hc))
        simp only [rise_append, hu, hr.rise] at this ⊢
        exact this

theorem Balanced.refer {s v : List Char} {o : NestedObject} (h : Balanced s) (ho : o.Written v) :
    Balanced (refer s o) := by
  cases hbreak : Text.breakOn? o.written s with
  | none =>
    rw [Declaration.refer, Text.replaceFirst, hbreak]
    exact h
  | some p =>
    obtain ⟨a, b⟩ := p
    rw [Text.eq_of_breakOn? hbreak, List.append_assoc] at h
    have hwritten : rise o.written = 0 := by
      rw [ho.eq]
      exact (ho.label.braceFree.balanced.append ho.balanced.braced).1
    have hreference : BraceFree (reference o ++ [';']) := by
      have hkey := braceFree_of_word ho.label.1
      have hname := braceFree_of_word (isWord_interfaceName ho.label.1)
      exact ((hkey.append (by constructor <;> decide)).append hname).append (by constructor <;> decide)
    have := h.replace hwritten hreference
    rw [refer_of_breakOn? hbreak]
    simpa using this

theorem Balanced.foldl_refer {os : List NestedObject} (hos : ∀ o ∈ os, ∃ v, o.Written v) {s : List Char}
    (h : Balanced s) : Balanced (os.foldl Declaration.refer s) := by
  induction os generalizing s with
  | nil => exact h
  | cons o os ih =>
    obtain ⟨⟨v, ho⟩, hos⟩ := List.forall_mem_cons.1 hos
    exact ih hos (h.refer ho)

theorem Balanced.run {p : Char → Bool} {r s : List Char} (h : Balanced s)
    (hp : ∀ c, p c = true → c ≠ '{' ∧ c ≠ '}') (hr : BraceFree r) :
    Balanced (Text.replaceMatches (Text.run p r) s) := by
  refine Text.replaceMatches_run_keeps (fun x u y _ hu hs => hs.replace ?_ hr) h
  exact BraceFree.rise ⟨fun h => (hp _ (hu _ h)).1 rfl, fun h => (hp _ (hu _ h)).2 rfl⟩

/-- **A balanced text stays balanced** when objects of it are replaced and it is put on one line. -/
theorem Balanced.oneLine {os : List NestedObject} (hos : ∀ o ∈ os, ∃ v, o.Written v) {s : List Char}
    (h : Balanced s) : Balanced (oneLine s os) := by
  have hstops := (h.foldl_refer hos).run (p := (· == ';')) (r := [';', ' '])
    (fun c hc => by rw [beq_iff_eq.1 hc]; decide) (by constructor <;> decide)
  refine Balanced.trim
    (hstops.run (p := Text.isBlank) (r := [' ']) (fun c hc => ⟨?_, ?_⟩) (by constructor <;> decide))
  · rintro rfl
    exact absurd hc (by decide)
  · rintro rfl
    exact absurd hc (by decide)

/-! ## Gaps -/

/-- A brace behind a label closes in front of any text that does not close it. -/
theorem Spent.of_left {x t a key v w : List Char} (h : Spent (x ++ t)) (hlabel : IsLabel key v)
    (hx : x = a ++ (v ++ '{' :: w)) (ht : ∀ t', t ≠ '}' :: t') : ∃ w', w = '}' :: w' := by
  obtain ⟨b', hb'⟩ := h a key v (w ++ t) hlabel (by rw [hx]; simp)
  cases w with
  | nil => exact absurd hb' (ht b')
  | cons d w => exact ⟨w, by rw [(List.cons.inj hb').1]⟩

/-- The blanks of a label can be any blanks. -/
theorem IsLabel.blanks {key w w' u : List Char} (h : IsLabel key (w ++ ' ' :: w'))
    (hu : ∀ c ∈ u, Text.isBlank c = true) : IsLabel key (w ++ (u ++ w')) := by
  obtain ⟨hkey, b, c, hb, hc, hsplit⟩ := h
  have hspace : ' ' ∉ key := fun hmem => absurd (hkey.2 _ hmem) (by decide)
  obtain ⟨y, rfl, hrest⟩ := Text.exists_of_append_eq_right hsplit.symm hspace
  rcases Text.append_eq_append_cons hrest with ⟨z, rfl, rfl⟩ | ⟨z, rfl, hz⟩
  · refine ⟨hkey, y ++ (u ++ z), c, ?_, hc, by simp⟩
    simp only [List.forall_mem_append, List.forall_mem_cons] at hb ⊢
    exact ⟨hb.1, hu, hb.2.2⟩
  · cases z with
    | nil => exact absurd (List.cons.inj hz).1 (by decide)
    | cons d z =>
      obtain ⟨rfl, rfl⟩ := List.cons.inj hz
      have hc : ∀ d ∈ z ++ ' ' :: w', Text.isBlank d = true := hc
      refine ⟨hkey, b, z ++ (u ++ w'), hb, ?_, by simp⟩
      simp only [List.forall_mem_append, List.forall_mem_cons] at hc ⊢
      exact ⟨hc.1, hu, hc.2.2⟩

/-- A run of blanks in a gap can be a single one. -/
theorem Spent.replace_blanks {x u y : List Char} (h : Spent (x ++ (u ++ y))) (hne : u ≠ [])
    (hu : ∀ c ∈ u, Text.isBlank c = true) : Spent (x ++ ([' '] ++ y)) := by
  intro a key v b hlabel hsplit
  have hopen : ∀ t', u ++ y ≠ '}' :: t' := by
    obtain ⟨c, u, rfl⟩ := List.exists_cons_of_ne_nil hne
    intro t' ht'
    have := hu c List.mem_cons_self
    rw [(List.cons.inj ht').1] at this
    exact absurd this (by decide)
  rcases Text.append_eq_append_cons hsplit.symm with ⟨w, rfl, rfl⟩ | ⟨w, rfl, hw⟩
  · -- The label stands behind the blank.
    exact h (x ++ (u ++ w)) key v b hlabel (by simp)
  · rcases Text.append_eq_append_cons hw with ⟨z, rfl, rfl⟩ | ⟨z, rfl, hz⟩
    · -- The blank is one of the label.
      exact h a key _ b (hlabel.blanks hu) (by simp)
    · cases z with
      | nil => exact absurd (List.cons.inj hz).1 (by decide)
      | cons d z =>
        -- The brace stands in front of the blank.
        obtain ⟨rfl, rfl⟩ := List.cons.inj hz
        obtain ⟨b', rfl⟩ := h.of_left hlabel rfl hopen
        exact ⟨_, rfl⟩

/-- A run of semicolons in a gap can be a single one with a blank behind it. -/
theorem Spent.replace_stops {x u y : List Char} (h : Spent (x ++ (u ++ y))) (hne : u ≠ [])
    (hu : ∀ c ∈ u, (c == ';') = true) : Spent (x ++ ([';', ' '] ++ y)) := by
  intro a key v b hlabel hsplit
  have hstop : ';' ∉ v := hlabel.not_mem (by decide) (by decide) (by decide)
  have hopen : ∀ t', u ++ y ≠ '}' :: t' := by
    obtain ⟨c, u, rfl⟩ := List.exists_cons_of_ne_nil hne
    intro t' ht'
    have := hu c List.mem_cons_self
    rw [(List.cons.inj ht').1] at this
    exact absurd this (by decide)
  rcases Text.append_eq_append_cons hsplit.symm with ⟨w, rfl, hw⟩ | ⟨w, rfl, hw⟩
  · -- The label stands behind the semicolon, and does not begin with the blank.
    cases w with
    | nil =>
      obtain ⟨d, v, rfl, hd⟩ := hlabel.exists_cons
      rw [← (List.cons.inj hw).1] at hd
      exact absurd hd (by decide)
    | cons d w =>
      obtain ⟨rfl, rfl⟩ := List.cons.inj hw
      exact h (x ++ (u ++ w)) key v b hlabel (by simp)
  · obtain ⟨z, rfl, hz⟩ := Text.exists_of_append_eq_right hw hstop
    cases z with
    | nil => exact absurd (List.cons.inj hz).1 (by decide)
    | cons d z =>
      obtain ⟨rfl, rfl⟩ := List.cons.inj hz
      obtain ⟨b', rfl⟩ := h.of_left hlabel rfl hopen
      exact ⟨_, rfl⟩

theorem Spent.trim {s : List Char} (h : Spent s) : Spent (Text.trim s) := by
  obtain ⟨l, r, hl, hr, hs⟩ := Text.exists_eq_append_trim s
  have hopen : ∀ t', r ≠ '}' :: t' := by
    rintro t' rfl
    exact absurd (hr _ List.mem_cons_self) (by decide)
  rw [hs] at h
  intro a key v b hlabel hsplit
  exact h.of_left hlabel (a := l ++ a) (by rw [hsplit, List.append_assoc]) hopen

/-- **No object comes up in a gap** that is put on one line. -/
theorem Spent.oneLine {os : List NestedObject} {s : List Char} (h : Spent (os.foldl refer s)) :
    Spent (oneLine s os) := by
  have hstops : Spent (Text.replaceMatches semicolonRun (os.foldl refer s)) :=
    Text.replaceMatches_run_keeps (fun _ _ _ hne hu hs => hs.replace_stops hne hu) h
  have hblanks : Spent (Text.replaceMatches blankRun (Text.replaceMatches semicolonRun (os.foldl refer s))) :=
    Text.replaceMatches_run_keeps (fun _ _ _ hne hu hs => hs.replace_blanks hne hu) hstops
  exact hblanks.trim

/-! ## Putting a text on one line again -/

/-- A text with single blanks, one of them behind every semicolon but at the end. -/
inductive Neat : List Char → Prop where
  | nil : Neat []
  | stop : Neat [';']
  | stopped {s : List Char} : (∀ c, s.head? = some c → Text.isBlank c = false) → Neat s → Neat (';' :: ' ' :: s)
  | blank {s : List Char} : (∀ c, s.head? = some c → Text.isBlank c = false) → Neat s → Neat (' ' :: s)
  | char {c : Char} {s : List Char} : c ≠ ';' → Text.isBlank c = false → Neat s → Neat (c :: s)

/-- A text with its runs of semicolons and of blanks replaced. -/
def spaced (s : List Char) : List Char :=
  Text.replaceMatches blankRun (Text.replaceMatches semicolonRun s)

section spaced

variable {s : List Char}

theorem spaced_char {c : Char} (hstop : c ≠ ';') (hblank : Text.isBlank c = false) (s : List Char) :
    spaced (c :: s) = c :: spaced s := by
  rw [spaced, semicolonRun_eq, Text.replaceMatches_run_cons (by simp [hstop]), blankRun_eq,
    Text.replaceMatches_run_cons hblank]
  rfl

/-- No blank is put in front. -/
theorem head?_semicolons (h : ∀ c, s.head? = some c → Text.isBlank c = false) :
    ∀ c, (Text.replaceMatches semicolonRun s).head? = some c → Text.isBlank c = false := by
  rw [semicolonRun_eq]
  induction s using Text.run_induction (· == ';') with
  | nil => exact h
  | cons c s hc _ =>
    rw [Text.replaceMatches_run_cons (p := (· == ';')) hc]
    exact h
  | append u s hne hu hs _ =>
    rw [Text.replaceMatches_run_append (p := (· == ';')) hne hu hs]
    intro c hc
    cases hc
    decide

theorem semicolons_blanks {u : List Char} (hu : ∀ c ∈ u, Text.isBlank c = true) (s : List Char) :
    Text.replaceMatches semicolonRun (u ++ s) = u ++ Text.replaceMatches semicolonRun s := by
  induction u with
  | nil => rfl
  | cons c u ih =>
    obtain ⟨hc, hu⟩ := List.forall_mem_cons.1 hu
    have hstop : (c == ';') = false := by
      rw [beq_eq_false_iff_ne]
      rintro rfl
      exact absurd hc (by decide)
    rw [List.cons_append, semicolonRun_eq, Text.replaceMatches_run_cons (p := (· == ';')) hstop,
      ← semicolonRun_eq, ih hu]
    rfl

theorem spaced_blanks {u : List Char} (hne : u ≠ []) (hu : ∀ c ∈ u, Text.isBlank c = true)
    (hs : ∀ c, s.head? = some c → Text.isBlank c = false) : spaced (u ++ s) = ' ' :: spaced s := by
  rw [spaced, semicolons_blanks hu, blankRun_eq, Text.replaceMatches_run_append hne hu (head?_semicolons hs)]
  rfl

theorem spaced_stops {u b : List Char} (hne : u ≠ []) (hu : ∀ c ∈ u, (c == ';') = true)
    (hb : ∀ c ∈ b, Text.isBlank c = true) (hs : ∀ c, s.head? = some c → Text.isBlank c = false)
    (hbs : ∀ c, (b ++ s).head? = some c → (c == ';') = false) :
    spaced (u ++ (b ++ s)) = ';' :: ' ' :: spaced s := by
  have hrun : ∀ c ∈ ' ' :: b, Text.isBlank c = true := List.forall_mem_cons.2 ⟨by decide, hb⟩
  have hstops : Text.replaceMatches semicolonRun (u ++ (b ++ s)) =
      ';' :: (' ' :: b ++ Text.replaceMatches semicolonRun s) := by
    rw [semicolonRun_eq, Text.replaceMatches_run_append hne hu hbs, ← semicolonRun_eq, semicolons_blanks hb]
    rfl
  rw [spaced, hstops, blankRun_eq, Text.replaceMatches_run_cons (by decide),
    Text.replaceMatches_run_append (List.cons_ne_nil _ _) hrun (head?_semicolons hs)]
  rfl

theorem head?_spaced (hs : ∀ c, s.head? = some c → Text.isBlank c = false) :
    ∀ c, (spaced s).head? = some c → Text.isBlank c = false := by
  have hhead := head?_semicolons hs
  rw [spaced]
  generalize Text.replaceMatches semicolonRun s = t at hhead ⊢
  cases t with
  | nil => exact hhead
  | cons d t =>
    rw [blankRun_eq, Text.replaceMatches_run_cons (hhead d rfl)]
    exact hhead

/-- Every text is neat when its runs are replaced. -/
theorem neat_spaced (s : List Char) : Neat (spaced s) := by
  cases s with
  | nil => exact .nil
  | cons c s =>
    by_cases hstop : c = ';'
    · obtain ⟨u, t, hu', hu, ht⟩ := Text.exists_run_append (· == ';') s
      obtain ⟨b, t, rfl, hb, hs⟩ := Text.exists_run_append Text.isBlank t
      have hall : ∀ d ∈ c :: u, (d == ';') = true := List.forall_mem_cons.2 ⟨by simpa using hstop, hu⟩
      have hshort : t.length < (c :: s).length := by
        rw [hu']
        simp only [List.length_append, List.length_cons]
        omega
      rw [hu', ← List.cons_append, spaced_stops (List.cons_ne_nil c u) hall hb hs ht]
      exact .stopped (head?_spaced hs) (neat_spaced t)
    · cases hblank : Text.isBlank c with
      | false =>
        rw [spaced_char hstop hblank]
        exact .char hstop hblank (neat_spaced s)
      | true =>
        obtain ⟨u, t, hu', hu, ht⟩ := Text.exists_run_append Text.isBlank s
        have hshort : t.length < (c :: s).length := by
          rw [hu']
          simp only [List.length_append, List.length_cons]
          omega
        rw [hu', ← List.cons_append, spaced_blanks (List.cons_ne_nil c u) (List.forall_mem_cons.2 ⟨hblank, hu⟩) ht]
        exact .blank (head?_spaced ht) (neat_spaced t)
termination_by s.length

theorem Neat.eq_blank (h : Neat s) : ∀ c ∈ s, Text.isBlank c = true → c = ' ' := by
  induction h with
  | nil => exact fun c hc => nomatch hc
  | stop => exact List.forall_mem_singleton.2 (by decide)
  | stopped _ _ ih => exact List.forall_mem_cons.2 ⟨by decide, List.forall_mem_cons.2 ⟨fun _ => rfl, ih⟩⟩
  | blank _ _ ih => exact List.forall_mem_cons.2 ⟨fun _ => rfl, ih⟩
  | char _ hblank _ ih =>
    refine List.forall_mem_cons.2 ⟨fun h => ?_, ih⟩
    rw [hblank] at h
    cases h

theorem Neat.trimLeft (h : Neat s) : Neat (Text.trimLeft s) := by
  cases h with
  | nil => exact .nil
  | stop => exact .stop
  | stopped hs h =>
    rw [Text.trimLeft, List.dropWhile_cons_of_neg (by decide)]
    exact .stopped hs h
  | @blank t hs h =>
    have hleft : Text.trimLeft t = t := by
      cases t with
      | nil => rfl
      | cons c t => exact List.dropWhile_cons_of_neg (by simp [hs c rfl])
    rw [Text.trimLeft, List.dropWhile_cons_of_pos (by decide), ← Text.trimLeft, hleft]
    exact h
  | char hstop hblank h =>
    rw [Text.trimLeft, List.dropWhile_cons_of_neg (by simp [hblank])]
    exact .char hstop hblank h

theorem head?_trimRight {c : Char} (h : (Text.trimRight s).head? = some c) : s.head? = some c := by
  obtain ⟨r, -, hs⟩ := Text.exists_eq_append_trimRight s
  rw [hs, List.head?_append, h]
  rfl

theorem Neat.trimRight (h : Neat s) : Neat (Text.trimRight s) := by
  induction h with
  | nil => exact .nil
  | stop => exact .stop
  | @stopped t hs _ ih =>
    cases ht : Text.trimRight t with
    | nil =>
      simp only [Text.trimRight, ht, show Text.isBlank ' ' = true by decide, show Text.isBlank ';' = false by decide]
      exact .stop
    | cons c u =>
      simp only [Text.trimRight, ht]
      rw [ht] at ih
      exact .stopped (fun d hd => hs d (head?_trimRight (ht ▸ hd))) ih
  | @blank t hs _ ih =>
    cases ht : Text.trimRight t with
    | nil =>
      simp only [Text.trimRight, ht, show Text.isBlank ' ' = true by decide]
      exact .nil
    | cons c u =>
      simp only [Text.trimRight, ht]
      rw [ht] at ih
      exact .blank (fun d hd => hs d (head?_trimRight (ht ▸ hd))) ih
  | @char c t hstop hblank _ ih =>
    cases ht : Text.trimRight t with
    | nil =>
      simp only [Text.trimRight, ht, hblank]
      exact .char hstop hblank .nil
    | cons d u =>
      simp only [Text.trimRight, ht]
      rw [ht] at ih
      exact .char hstop hblank ih

/-- A neat text stays, with a blank behind its last semicolon. -/
theorem Neat.spaced (h : Neat s) : spaced s = s ∨ spaced s = s ++ [' '] := by
  induction h with
  | nil => exact Or.inl rfl
  | stop => exact Or.inr (by decide)
  | @stopped t hs _ ih =>
    have hstep := spaced_stops (u := [';']) (b := [' ']) (List.cons_ne_nil _ _)
      (List.forall_mem_singleton.2 (by decide)) (List.forall_mem_singleton.2 (by decide)) hs
      (fun c hc => by cases hc; decide)
    rw [show ';' :: ' ' :: t = [';'] ++ ([' '] ++ t) from rfl, hstep]
    exact ih.imp (fun h => by rw [h]; rfl) fun h => by rw [h]; rfl
  | @blank t hs _ ih =>
    have hstep := spaced_blanks (u := [' ']) (List.cons_ne_nil _ _) (List.forall_mem_singleton.2 (by decide)) hs
    rw [show ' ' :: t = [' '] ++ t from rfl, hstep]
    exact ih.imp (fun h => by rw [h]; rfl) fun h => by rw [h]; rfl
  | char hstop hblank _ ih =>
    rw [spaced_char hstop hblank]
    exact ih.imp (fun h => by rw [h]) fun h => by rw [h]; rfl

end spaced

theorem neat_oneLine (s : List Char) (os : List NestedObject) : Neat (oneLine s os) :=
  (neat_spaced (os.foldl refer s)).trimLeft.trimRight

/-- **A text on one line stays** when it is put on one line again. -/
theorem oneLine_oneLine (s : List Char) (os : List NestedObject) : oneLine (oneLine s os) [] = oneLine s os := by
  have htrim : Text.trim (oneLine s os) = oneLine s os := Text.trim_trim _
  have hagain : oneLine (oneLine s os) [] = Text.trim (spaced (oneLine s os)) := rfl
  rw [hagain]
  rcases (neat_oneLine s os).spaced with h | h
  · rw [h, htrim]
  · have hblank := Text.trim_append_of_blank (l := []) (r := [' ']) (fun c hc => nomatch hc)
      (List.forall_mem_singleton.2 (by decide)) (oneLine s os)
    rw [h]
    exact hblank.trans htrim

end Declaration

end ClientBuild
