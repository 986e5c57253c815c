import ClientBuild.Proofs.Markup.Nesting
import ClientBuild.Proofs.Text.Offsets

/-!
# Template blocks by offsets

The scans for template blocks and for tags, and the replacing of tags, with the offsets that they go by.  The end of a
block is searched in rounds, one for each mark (`blockRound`), and the blocks in rounds of their own (`rangesRound`).
Every round moves on, whatever the page, so that the searches come to an end with what `templateRanges` and
`templateNodes` find (`ranges?_eq`, `nodes?_eq`).  What they find stands in the page in order, so the parts that are
copied between tags never run backwards (`templateNodes_in_order`).
-/

namespace ClientBuild.Markup

open Text (Round StandsAt loop offsetOf? slice? back?)

/-! ## The end of a block -/

variable {page rest a b t u v x z : List Char} {i : Nat}

/-- The search for the end of a block: how many blocks are open, and the offset that the search is at. -/
structure BlockSearch where
  depth : Nat
  cursor : Nat

/-- A round of the search for the end of a block, which goes on behind the next mark. -/
def blockRound (page : List Char) (t : BlockSearch) : Option (Round BlockSearch BlockSearch) :=
  if t.depth = 0 then some (.done t)
  else do
    match ← offsetOf? templateClose page t.cursor with
    | none => some (.done t)
    | some close =>
      match (← offsetOf? templateOpen page t.cursor).filter (· < close) with
      | some nested =>
        match ← offsetOf? ['>'] page nested with
        | none => some (.done t)
        | some bracket => some (.next ⟨t.depth + 1, bracket + 1⟩)
      | none =>
        let depth ← back? t.depth 1
        some (.next ⟨depth, close + Text.byteSize templateClose⟩)

/-- Every round of the search for the end of a block moves on, wherever it is. -/
theorem advances_blockRound (page : List Char) : Text.Advances page BlockSearch.cursor (blockRound page) := by
  intro t u h
  rw [blockRound] at h
  split at h
  next => cases h
  next =>
    obtain ⟨close?, hclose, h⟩ := Option.bind_eq_some_iff.1 h
    cases close? with
    | none => cases h
    | some close =>
      refine ⟨Text.lt_byteSize_of_offsetOf? (by decide) hclose, ?_⟩
      obtain ⟨open?, hopen, h⟩ := Option.bind_eq_some_iff.1 h
      split at h
      next nested hnested =>
        obtain ⟨bracket?, hbracket, h⟩ := Option.bind_eq_some_iff.1 h
        cases bracket? with
        | none => cases h
        | some bracket =>
          cases h
          obtain rfl := (Option.filter_eq_some_iff.1 hnested).1
          exact Nat.lt_succ_of_le ((Text.standsAt_of_offsetOf? hopen).1.trans (Text.standsAt_of_offsetOf? hbracket).1)
      next =>
        obtain ⟨depth, -, h⟩ := Option.bind_eq_some_iff.1 h
        cases h
        have hsize : 0 < Text.byteSize templateClose := by decide
        exact Nat.lt_of_le_of_lt (Text.standsAt_of_offsetOf? hclose).1 (Nat.lt_add_of_pos_right hsize)

theorem takeTemplate?_eq_none {s : List Char} (h : ¬ templateClose <:+: s) (inTag : Bool) (d : Nat) :
    takeTemplate? inTag d s = none := by
  rw [Option.eq_none_iff_forall_ne_some]
  rintro ⟨content, rest⟩ hfound
  exact h ⟨content, rest, (eq_of_takeTemplate? hfound).symm⟩

/-- Of two beginnings of a text the one with fewer bytes begins the other one. -/
theorem exists_append_of_byteSize (h : a ++ u = b ++ v) (hsize : Text.byteSize a ≤ Text.byteSize b) :
    ∃ w, b = a ++ w ∧ u = w ++ v := by
  rcases List.append_eq_append_iff.1 h with ⟨w, hb, hu⟩ | ⟨w, rfl, hv⟩
  · exact ⟨w, hb, hu⟩
  · rw [Text.byteSize_append] at hsize
    obtain rfl := Text.eq_nil_of_byteSize (u := w) (by omega)
    exact ⟨[], by simp, hv.symm⟩

/-- The first mark of a text that has an end of a block: what stands in front of it has neither mark. -/
theorem exists_first_mark (hclose : Text.breakOn? templateClose rest = some (a, b)) :
    (∃ x y, Text.breakOn? templateOpen rest = some (x, y) ∧ Text.byteSize x < Text.byteSize a ∧
        rest = x ++ (templateOpen ++ y) ∧ IsFree x) ∨
      ((∀ p, Text.breakOn? templateOpen rest = some p → ¬ Text.byteSize p.1 < Text.byteSize a) ∧
        rest = a ++ (templateClose ++ b) ∧ IsFree a) := by
  obtain ⟨hrest, hfree⟩ := Text.not_infix_of_breakOn? (by decide) hclose
  cases hopen : Text.breakOn? templateOpen rest with
  | none =>
    refine Or.inr ⟨fun _ h => (nomatch h), hrest, fun hinside => ?_, hfree⟩
    exact Text.breakOn?_eq_none_iff.1 hopen (hrest ▸ hinside.trans (List.prefix_append a _).isInfix)
  | some p =>
    obtain ⟨x, y⟩ := p
    obtain ⟨hrest', hfree'⟩ := Text.not_infix_of_breakOn? (by decide) hopen
    by_cases hlt : Text.byteSize x < Text.byteSize a
    · refine Or.inl ⟨x, y, rfl, hlt, hrest', hfree', fun hinside => hfree ?_⟩
      obtain ⟨w, rfl, -⟩ := exists_append_of_byteSize (hrest'.symm.trans hrest) (Nat.le_of_lt hlt)
      exact hinside.trans (List.prefix_append x w).isInfix
    · refine Or.inr ⟨fun p h => ?_, hrest, fun hinside => hfree' ?_, hfree⟩
      · cases h
        exact hlt
      · obtain ⟨w, rfl, -⟩ := exists_append_of_byteSize (hrest.symm.trans hrest') (Nat.le_of_not_lt hlt)
        exact hinside.trans (List.prefix_append a w).isInfix

/-- Is the search for the end of a block over where the scan says?  Without an end, blocks are left open. -/
def IsAnswer (i : Nat) (taken : Option (List Char × List Char)) (found : BlockSearch) : Prop :=
  i ≤ found.cursor ∧
    match taken with
    | some (content, _) => found = ⟨0, i + Text.byteSize (content ++ templateClose)⟩
    | none => found.depth ≠ 0

/-- What a scan has passed belongs to the content that it takes. -/
theorem IsAnswer.passed {taken : Option (List Char × List Char)} {found : BlockSearch} {m : List Char}
    (h : IsAnswer (i + Text.byteSize m) taken found) : IsAnswer i (taken.map fun p => (m ++ p.1, p.2)) found := by
  obtain ⟨hle, hfound⟩ := h
  refine ⟨Nat.le_trans (Nat.le_add_right i _) hle, ?_⟩
  cases taken with
  | none => exact hfound
  | some p =>
    obtain ⟨content, rest⟩ := p
    simp only [Option.map_some] at hfound ⊢
    rw [hfound, List.append_assoc, Text.byteSize_append m, Nat.add_assoc]

/-- The tag of a block is over with its first closing bracket. -/
theorem breakOn?_templateOpen (ht : '>' ∉ t) (z : List Char) :
    Text.breakOn? ['>'] (templateOpen ++ (t ++ '>' :: z)) = some (templateOpen ++ t, z) := by
  rw [← List.append_assoc]
  exact Text.breakOn?_singleton (List.not_mem_append (by decide) ht) z

theorem breakOn?_templateOpen_of_unclosed {y : List Char} (hy : '>' ∉ y) :
    Text.breakOn? ['>'] (templateOpen ++ y) = none :=
  Text.breakOn?_eq_none_iff.2 fun hinside =>
    List.not_mem_append (by decide) hy (hinside.subset List.mem_cons_self)

/-- A round at a block that begins in the block: the search goes on behind the tag, with one more block open. -/
theorem blockRound_opening (h : StandsAt page i rest) (hclose : Text.breakOn? templateClose rest = some (a, b))
    (hopen : Text.breakOn? templateOpen rest = some (x, t ++ '>' :: z)) (ht : '>' ∉ t)
    (hlt : Text.byteSize x < Text.byteSize a) (d : Nat) :
    blockRound page ⟨d + 1, i⟩ =
      some (.next ⟨d + 1 + 1, i + Text.byteSize (x ++ (templateOpen ++ (t ++ ['>'])))⟩) := by
  obtain ⟨rfl, -⟩ := Text.not_infix_of_breakOn? (by decide) hopen
  have hearlier : i + Text.byteSize x < i + Text.byteSize a := Nat.add_lt_add_left hlt i
  simp only [blockRound, if_neg (Nat.succ_ne_zero d), h.offsetOf?, hclose, hopen, Option.bind_eq_bind,
    Option.bind_some, Option.map_some, Option.filter, hearlier, decide_true, if_true, h.append.offsetOf?,
    breakOn?_templateOpen ht, Text.byteSize_append, Text.byteSize_singleton, Nat.add_assoc]
  rfl

/-- A round at a block that begins in the block with no end of its tag: the search is over. -/
theorem blockRound_unclosed {y : List Char} (h : StandsAt page i rest)
    (hclose : Text.breakOn? templateClose rest = some (a, b)) (hopen : Text.breakOn? templateOpen rest = some (x, y))
    (hy : '>' ∉ y) (hlt : Text.byteSize x < Text.byteSize a) (d : Nat) :
    blockRound page ⟨d + 1, i⟩ = some (.done ⟨d + 1, i⟩) := by
  obtain ⟨rfl, -⟩ := Text.not_infix_of_breakOn? (by decide) hopen
  have hearlier : i + Text.byteSize x < i + Text.byteSize a := Nat.add_lt_add_left hlt i
  simp only [blockRound, if_neg (Nat.succ_ne_zero d), h.offsetOf?, hclose, hopen, Option.bind_eq_bind,
    Option.bind_some, Option.map_some, Option.filter, hearlier, decide_true, if_true, h.append.offsetOf?,
    breakOn?_templateOpen_of_unclosed hy, Option.map_none]

/-- A round at the end of a block: the search goes on behind it, with one block less open. -/
theorem blockRound_closing (h : StandsAt page i rest) (hclose : Text.breakOn? templateClose rest = some (a, b))
    (hlater : ∀ p, Text.breakOn? templateOpen rest = some p → ¬ Text.byteSize p.1 < Text.byteSize a) (d : Nat) :
    blockRound page ⟨d + 1, i⟩ = some (.next ⟨d, i + Text.byteSize (a ++ templateClose)⟩) := by
  have hnested : ((Text.breakOn? templateOpen rest).map fun p => i + Text.byteSize p.1).filter
      (fun n => decide (n < i + Text.byteSize a)) = none := by
    rw [Option.filter_eq_none_iff]
    intro n hn
    obtain ⟨p, hp, rfl⟩ := Option.map_eq_some_iff.1 hn
    have := hlater p hp
    simpa using this
  simp only [blockRound, if_neg (Nat.succ_ne_zero d), h.offsetOf?, hclose, Option.bind_eq_bind, Option.bind_some,
    Option.map_some, hnested, Text.byteSize_append, ← Nat.add_assoc]
  rfl

/-- A block that begins behind a text without marks is taken with the text and the tag that opens it. -/
theorem takeTemplate?_opening_behind (hx : IsFree x) (ht : '>' ∉ t) (d : Nat) (z : List Char) :
    takeTemplate? false d (x ++ (templateOpen ++ (t ++ '>' :: z))) =
      (takeTemplate? false (d + 1) z).map fun p => (x ++ (templateOpen ++ (t ++ ['>'])) ++ p.1, p.2) := by
  have hfront : takeTemplate? false d (x ++ (templateOpen ++ (t ++ '>' :: z))) =
      (takeTemplate? false d (templateOpen ++ (t ++ '>' :: z))).map fun p => (x ++ p.1, p.2) := hx.takeTemplate? d _
  rw [hfront, takeTemplate?_opening ht, Option.map_map]
  simp only [List.append_assoc, List.cons_append, List.nil_append]
  rfl

/-- So is the end of a block within another one. -/
theorem takeTemplate?_closing_behind (hx : IsFree x) (d : Nat) (b : List Char) :
    takeTemplate? false (d + 1) (x ++ (templateClose ++ b)) =
      (takeTemplate? false d b).map fun p => (x ++ templateClose ++ p.1, p.2) := by
  have hfront : takeTemplate? false (d + 1) (x ++ (templateClose ++ b)) =
      (takeTemplate? false (d + 1) (templateClose ++ b)).map fun p => (x ++ p.1, p.2) := hx.takeTemplate? (d + 1) _
  rw [hfront, takeTemplate?_closing, Option.map_map]
  simp only [List.append_assoc]
  rfl

/-- **The search for the end of a block comes to an end**, with what the scan takes. -/
theorem exists_loop_blockRound (h : StandsAt page i rest) (d : Nat) :
    ∃ found, loop (advances_blockRound page) ⟨d + 1, i⟩ = some found ∧
      IsAnswer i (takeTemplate? false d rest) found := by
  induction hn : rest.length using Nat.strong_induction_on generalizing rest i d with | _ n ih
  have hdepth : ¬ (d + 1 = 0) := Nat.succ_ne_zero d
  cases hclose : Text.breakOn? templateClose rest with
  | none =>
    refine ⟨⟨d + 1, i⟩, Text.loop_of_done ?_, Nat.le_refl i, ?_⟩
    · simp only [blockRound, if_neg hdepth, h.offsetOf?, hclose]
      rfl
    · rw [takeTemplate?_eq_none (Text.breakOn?_eq_none_iff.1 hclose)]
      exact hdepth
  | some p =>
    obtain ⟨a, b⟩ := p
    rcases exists_first_mark hclose with ⟨x, y, hopen, hlt, rfl, hfree⟩ | ⟨hlater, rfl, hfree⟩
    · -- A further block begins: the search goes on behind the tag that opens it.
      by_cases hbracket : '>' ∈ y
      · obtain ⟨t, z, rfl, ht⟩ := List.eq_append_cons_of_mem hbracket
        have hbehind : StandsAt page (i + Text.byteSize (x ++ (templateOpen ++ (t ++ ['>'])))) z :=
          StandsAt.append (by simpa using h)
        have hshort : z.length < n := by
          rw [← hn]
          simp only [List.length_append, List.length_cons]
          omega
        obtain ⟨found, hfound, hanswer⟩ := ih _ hshort hbehind (d + 1) rfl
        refine ⟨found, (Text.loop_of_next (blockRound_opening h hclose hopen ht hlt d)).trans hfound, ?_⟩
        rw [takeTemplate?_opening_behind hfree ht]
        exact hanswer.passed
      · have hfront : takeTemplate? false d (x ++ (templateOpen ++ y)) =
            (takeTemplate? false d (templateOpen ++ y)).map fun p => (x ++ p.1, p.2) := hfree.takeTemplate? d _
        have hnone : ¬ templateClose <:+: templateOpen ++ y := fun hinside =>
          List.not_mem_append (by decide) hbracket (hinside.subset (by decide))
        refine ⟨⟨d + 1, i⟩, Text.loop_of_done (blockRound_unclosed h hclose hopen hbracket hlt d), Nat.le_refl i, ?_⟩
        rw [hfront, takeTemplate?_eq_none hnone]
        exact hdepth
    · -- A block ends.
      have hround := blockRound_closing h hclose hlater d
      have hbehind : StandsAt page (i + Text.byteSize (a ++ templateClose)) b := StandsAt.append (by simpa using h)
      cases d with
      | zero =>
        have hfront : takeTemplate? false 0 (a ++ (templateClose ++ b)) =
            (takeTemplate? false 0 (templateClose ++ b)).map fun p => (a ++ p.1, p.2) := hfree.takeTemplate? 0 _
        refine ⟨_, (Text.loop_of_next hround).trans (Text.loop_of_done rfl), Nat.le_add_right i _, ?_⟩
        rw [hfront, takeTemplate?_close]
        simp
      | succ d =>
        have hshort : b.length < n := by
          rw [← hn, List.length_append, List.length_append, show templateClose.length = 11 from rfl]
          omega
        obtain ⟨found, hfound, hanswer⟩ := ih _ hshort hbehind d rfl
        refine ⟨found, (Text.loop_of_next hround).trans hfound, ?_⟩
        rw [takeTemplate?_closing_behind hfree]
        exact hanswer.passed

/-! ## All blocks -/

/-- A round of the search for blocks, which goes on behind the next block, or behind the tag that opens it if the block
has no end. -/
def rangesRound (page : List Char) (t : Nat × List (Nat × Nat)) :
    Option (Round (Nat × List (Nat × Nat)) (List (Nat × Nat))) := do
  match ← offsetOf? templateOpen page t.1 with
  | none => some (.done t.2)
  | some opening =>
    match ← offsetOf? ['>'] page opening with
    | none => some (.done t.2)
    | some bracket =>
      let found ← loop (advances_blockRound page) ⟨1, bracket + 1⟩
      if found.depth = 0 then
        let stop ← back? found.cursor (Text.byteSize templateClose)
        some (.next (found.cursor, t.2 ++ [(bracket + 1, stop)]))
      else some (.next (bracket + 1, t.2))

/-- Every round of the search for blocks moves on, wherever it is. -/
theorem advances_rangesRound (page : List Char) : Text.Advances page Prod.fst (rangesRound page) := by
  intro t u h
  obtain ⟨open?, hopen, h⟩ := Option.bind_eq_some_iff.1 h
  cases open? with
  | none => cases h
  | some opening =>
    obtain ⟨bracket?, hbracket, h⟩ := Option.bind_eq_some_iff.1 h
    cases bracket? with
    | none => cases h
    | some bracket =>
      obtain ⟨hle, behind, hplace⟩ := Text.standsAt_of_offsetOf? hbracket
      have hlt : t.1 < bracket + 1 := Nat.lt_succ_of_le ((Text.standsAt_of_offsetOf? hopen).1.trans hle)
      obtain ⟨found, hfound, hanswer⟩ := exists_loop_blockRound hplace.append 0
      obtain ⟨answer, hanswer', h⟩ := Option.bind_eq_some_iff.1 h
      obtain rfl : found = answer := Option.some.inj (hfound.symm.trans hanswer')
      refine ⟨Text.lt_byteSize_of_offsetOf? (by decide) hopen, ?_⟩
      split at h
      next =>
        obtain ⟨stop, -, h⟩ := Option.bind_eq_some_iff.1 h
        cases h
        exact hlt.trans_le hanswer.1
      next =>
        cases h
        exact hlt

/-- Where the contents of the outermost template blocks begin and end. -/
def ranges? (page : List Char) : Option (List (Nat × Nat)) := loop (advances_rangesRound page) (0, [])

/-- The offsets between which a part stands. -/
def Located.span (l : Located) : Nat × Nat := (l.start, l.stop)

theorem templateRangesFrom_of_unclosed {s : List Char} (hs : '>' ∉ s) (o : Nat) : templateRangesFrom 0 o s = [] := by
  induction s generalizing o with
  | nil => rfl
  | cons c s ih =>
    have hnone : Text.breakOn? ['>'] (c :: s) = none :=
      Text.breakOn?_eq_none_iff.2 fun hinside => hs (hinside.subset List.mem_cons_self)
    rw [templateRangesFrom, hnone]
    split
    · rfl
    · exact ih (fun hmem => hs (List.mem_cons_of_mem c hmem)) _

/-- A round at a tag that begins a block: the search goes on behind the block, or behind the tag. -/
theorem rangesRound_tag (h : StandsAt page i rest)
    (hopen : Text.breakOn? templateOpen rest = some (x, t ++ '>' :: z)) (ht : '>' ∉ t) {e : Nat}
    (he : e = i + Text.byteSize (x ++ (templateOpen ++ t ++ ['>']))) (before : List (Nat × Nat)) :
    rangesRound page (i, before) = some (.next (match takeTemplate? false 0 z with
      | some (content, _) =>
        (e + Text.byteSize (content ++ templateClose), before ++ [(e, e + Text.byteSize content)])
      | none => (e, before))) := by
  obtain ⟨rfl, -⟩ := Text.not_infix_of_breakOn? (by decide) hopen
  have hbracket : i + Text.byteSize x + Text.byteSize (templateOpen ++ t) + 1 = e := by
    simp only [he, Text.byteSize_append, Text.byteSize_singleton, Nat.add_assoc]
    rfl
  have hbehind : StandsAt page e z := by
    rw [he]
    exact StandsAt.append (by simpa using h)
  obtain ⟨found, hfound, -, hanswer⟩ := exists_loop_blockRound hbehind 0
  cases htaken : takeTemplate? false 0 z with
  | none =>
    rw [htaken] at hanswer
    simp only [rangesRound, h.offsetOf?, hopen, Option.bind_eq_bind, Option.bind_some, Option.map_some,
      h.append.offsetOf?, breakOn?_templateOpen ht, hbracket, hfound, if_neg hanswer]
  | some p =>
    obtain ⟨content, behind⟩ := p
    rw [htaken] at hanswer
    subst hanswer
    have hback : back? (e + Text.byteSize (content ++ templateClose)) (Text.byteSize templateClose) =
        some (e + Text.byteSize content) := by
      rw [Text.byteSize_append, ← Nat.add_assoc]
      exact Text.back?_add _ _
    simp only [rangesRound, h.offsetOf?, hopen, Option.bind_eq_bind, Option.bind_some, Option.map_some,
      h.append.offsetOf?, breakOn?_templateOpen ht, hbracket, hfound, if_true, hback]

/-- The search for blocks from an offset on comes to an end, with the blocks that the scan finds. -/
theorem loop_rangesRound (h : StandsAt page i rest) (before : List (Nat × Nat)) :
    loop (advances_rangesRound page) (i, before) = some (before ++ (templateRangesFrom 0 i rest).map Located.span) := by
  induction hn : rest.length using Nat.strong_induction_on generalizing rest i before with | _ n ih
  cases hopen : Text.breakOn? templateOpen rest with
  | none =>
    have hround : rangesRound page (i, before) = some (.done before) := by
      simp only [rangesRound, h.offsetOf?, hopen]
      rfl
    rw [Text.loop_of_done hround, templateRangesFrom_of_not_infix (Text.breakOn?_eq_none_iff.1 hopen), List.map_nil,
      List.append_nil]
  | some p =>
    obtain ⟨x, y⟩ := p
    obtain ⟨rfl, hfree⟩ := Text.not_infix_of_breakOn? (by decide) hopen
    have hfront : templateRangesFrom 0 i (x ++ (templateOpen ++ y)) =
        templateRangesFrom 0 (i + Text.byteSize x) (templateOpen ++ y) := templateRangesFrom_front hfree i _
    rw [hfront]
    by_cases hbracket : '>' ∈ y
    · obtain ⟨t, z, rfl, ht⟩ := List.eq_append_cons_of_mem hbracket
      obtain ⟨e, he⟩ : ∃ e, e = i + Text.byteSize (x ++ (templateOpen ++ t ++ ['>'])) := ⟨_, rfl⟩
      have hround := rangesRound_tag h hopen ht he before
      have hbehind : StandsAt page e z := by
        rw [he]
        exact StandsAt.append (by simpa using h)
      have hshort : z.length < n := by
        rw [← hn]
        simp only [List.length_append, List.length_cons]
        omega
      have hranges := @templateRangesFrom_of_open _ z (List.prefix_append templateOpen t)
        (List.not_mem_append (by decide) ht) (i + Text.byteSize x)
      rw [Text.byteSize_append, ← Nat.add_assoc] at he
      rw [List.append_assoc, ← he] at hranges
      rw [Text.loop_of_next hround, hranges]
      cases htaken : takeTemplate? false 0 z with
      | none => exact ih _ hshort hbehind before rfl
      | some p =>
        obtain ⟨content, behind⟩ := p
        have hz : z = content ++ templateClose ++ behind := eq_of_takeTemplate? htaken
        have hrest : StandsAt page (e + Text.byteSize (content ++ templateClose)) behind := (hz ▸ hbehind).append
        have hshorter : behind.length < n := by
          rw [hz, List.length_append] at hshort
          omega
        have hstop : i + Text.byteSize x + Text.byteSize (templateOpen ++ t ++ ['>'] ++ content ++ templateClose) =
            e + Text.byteSize (content ++ templateClose) := by
          rw [List.append_assoc _ content, Text.byteSize_append _ (content ++ _), he, ← Nat.add_assoc]
        dsimp only
        rw [ih _ hshorter hrest _ rfl, hstop, List.map_cons, List.append_assoc]
        rfl
    · have hround : rangesRound page (i, before) = some (.done before) := by
        simp only [rangesRound, h.offsetOf?, hopen, Option.bind_eq_bind, Option.bind_some, Option.map_some,
          h.append.offsetOf?, breakOn?_templateOpen_of_unclosed hbracket, Option.map_none]
      rw [Text.loop_of_done hround, templateRangesFrom_of_unclosed (List.not_mem_append (by decide) hbracket),
        List.map_nil, List.append_nil]

theorem ranges?_eq (page : List Char) : ranges? page = some ((templateRanges page).map Located.span) :=
  loop_rangesRound (StandsAt.start page) []

/-! ## Tags in order -/

/-- Does each part end before the next ones begin? -/
def InOrder (ls : List Located) : Prop := ls.Pairwise fun a b => a.stop ≤ b.start

theorem Cut.inOrder_nodes (c : Cut) (o : Nat) : InOrder (c.nodes o) := by
  obtain ⟨ps, last⟩ := c
  induction ps generalizing o with
  | nil => exact List.Pairwise.nil
  | cons p ps ih =>
    refine List.Pairwise.cons (fun n hn => ?_) (ih _)
    obtain ⟨front, -, -, hstart⟩ := Cut.exists_of_mem_nodes (c := ⟨ps, last⟩) hn
    exact hstart ▸ Nat.le_add_right _ _

/-- The offsets of a cut count from where the text stands. -/
theorem Cut.nodes_eq_map (c : Cut) (o : Nat) : c.nodes o = (c.nodes 0).map fun n => ⟨o + n.start, n.text⟩ := by
  obtain ⟨ps, last⟩ := c
  suffices h : ∀ k, locate (o + k) ps = (locate k ps).map fun n => ⟨o + n.start, n.text⟩ from h 0
  induction ps with
  | nil => exact fun _ => rfl
  | cons p ps ih =>
    intro k
    have hrest := ih (k + Text.byteSize p.1 + Text.byteSize p.2)
    rw [← Nat.add_assoc, ← Nat.add_assoc] at hrest
    rw [locate, locate, hrest, List.map_cons, Nat.add_assoc o k]

variable {r n : Located}

/-- A part that is found stands in the text at its offset. -/
theorem slice?_of_exists (h : ∃ front back, page = front ++ (n.text ++ back) ∧ n.start = Text.byteSize front) :
    slice? page n.start n.stop = some n.text ∧ n.stop ≤ Text.byteSize page := by
  obtain ⟨front, back, rfl, hstart⟩ := h
  refine ⟨Text.slice?_eq_some_iff.2 ⟨front, back, rfl, hstart, rfl⟩, ?_⟩
  rw [Located.stop, hstart, Text.byteSize_append, Text.byteSize_append]
  omega

theorem inOrder_templateRanges (page : List Char) : InOrder (templateRanges page) := by
  obtain ⟨c, -, hranges⟩ := exists_cut_templateRangesFrom page
  rw [templateRanges, hranges]
  exact c.inOrder_nodes 0

/-- A tag stands within the block that it is found in. -/
theorem within_of_mem_tagsFrom (h : n ∈ tagsFrom 0 r.start r.text) : r.start ≤ n.start ∧ n.stop ≤ r.stop := by
  obtain ⟨c, hsource, hnodes⟩ := exists_cut_nodes r.text
  rw [hnodes] at h
  obtain ⟨front, back, htext, hstart⟩ := Cut.exists_of_mem_nodes h
  rw [hsource] at htext
  refine ⟨hstart ▸ Nat.le_add_right _ _, ?_⟩
  rw [Located.stop, Located.stop, htext, hstart, Text.byteSize_append, Text.byteSize_append]
  omega

/-- The tags of a block are in order, and those of a block end before the next block begins. -/
theorem inOrder_templateNodes (page : List Char) : InOrder (templateNodes page) := by
  refine List.pairwise_flatMap.2 ⟨fun r _ => ?_, (inOrder_templateRanges page).imp fun hstop m hm n hn => ?_⟩
  · obtain ⟨c, -, hnodes⟩ := exists_cut_nodes r.text
    rw [hnodes]
    exact c.inOrder_nodes r.start
  · exact (within_of_mem_tagsFrom hm).2.trans (hstop.trans (within_of_mem_tagsFrom hn).1)

/-- The tags between two offsets, cut out of the page. -/
def nodesBetween? (page : List Char) (span : Nat × Nat) : Option (List Located) := do
  let content ← slice? page span.1 span.2
  (tagsFrom 0 0 content).mapM fun tag => do
    let text ← slice? page (span.1 + tag.start) (span.1 + tag.stop)
    some ⟨span.1 + tag.start, text⟩

/-- The tags in the template blocks of a page. -/
def nodes? (page : List Char) : Option (List Located) := do
  let spans ← ranges? page
  let found ← spans.mapM (nodesBetween? page)
  some found.flatten

/-- The tags of a block are cut out of the page as they are found in the block. -/
theorem nodesBetween?_eq (hr : r ∈ templateRanges page) :
    nodesBetween? page r.span = some (tagsFrom 0 r.start r.text) := by
  have hcontent := (slice?_of_exists (exists_of_mem_templateRanges hr)).1
  obtain ⟨c, -, hnodes⟩ := exists_cut_nodes r.text
  have htags : (tagsFrom 0 0 r.text).mapM (fun tag => do
        let text ← slice? page (r.start + tag.start) (r.start + tag.stop)
        some (⟨r.start + tag.start, text⟩ : Located)) =
      some ((tagsFrom 0 0 r.text).map fun n => ⟨r.start + n.start, n.text⟩) := by
    refine Text.mapM_of_some fun tag htag => ?_
    have hmem : ⟨r.start + tag.start, tag.text⟩ ∈ templateNodes page := by
      refine List.mem_flatMap.2 ⟨r, hr, ?_⟩
      rw [hnodes] at htag ⊢
      rw [c.nodes_eq_map]
      exact List.mem_map_of_mem htag
    have hstop : r.start + tag.stop = Located.stop ⟨r.start + tag.start, tag.text⟩ :=
      (Nat.add_assoc r.start tag.start _).symm
    rw [hstop, (slice?_of_exists (exists_of_mem_templateNodes hmem)).1]
    rfl
  rw [nodesBetween?, Located.span, hcontent, Option.bind_eq_bind, Option.bind_some, htags, hnodes, hnodes,
    ← c.nodes_eq_map]

theorem nodes?_eq (page : List Char) : nodes? page = some (templateNodes page) := by
  have hfound : ((templateRanges page).map Located.span).mapM (nodesBetween? page) =
      some ((templateRanges page).map fun r => tagsFrom 0 r.start r.text) := by
    rw [List.mapM_map]
    exact Text.mapM_of_some fun r hr => nodesBetween?_eq hr
  rw [nodes?, ranges?_eq, Option.bind_eq_bind, Option.bind_some, hfound, Option.bind_eq_bind, Option.bind_some,
    ← List.flatMap_def]
  rfl

/-! ## Replacing tags -/

/-- A page with parts replaced, the texts between them copied from offset to offset. -/
def splice? (f : List Char → List Char) (page : List Char) : (last : Nat) → List Located → Option (List Char)
  | last, [] => slice? page last (Text.byteSize page)
  | last, n :: ns => do
    let front ← slice? page last n.start
    let rest ← splice? f page n.stop ns
    some (front ++ (f n.text ++ rest))

/-- The texts between the tags of a cut are copied as they stand in the page. -/
theorem splice?_nodes (f : List Char → List Char) {c : Cut} {last : Nat} (h : StandsAt page last c.source) :
    splice? f page last (c.nodes last) = some (c.image f) := by
  obtain ⟨ps, behind⟩ := c
  induction ps generalizing last with
  | nil => exact h.slice?_end
  | cons p ps ih =>
    obtain ⟨t, g⟩ := p
    have hsplit (f : List Char → List Char) : Cut.image f ⟨(t, g) :: ps, behind⟩ =
        t ++ (f g ++ Cut.image f ⟨ps, behind⟩) := by
      simp [Cut.image]
    have hplace : StandsAt page last (t ++ (g ++ Cut.source ⟨ps, behind⟩)) := hsplit id ▸ h
    have hrest : splice? f page (last + Text.byteSize t + Text.byteSize g) (Cut.locate _ ps) = _ :=
      ih hplace.append.append
    rw [Cut.nodes, Cut.locate, splice?, hplace.slice?, Located.stop, hrest, hsplit]
    rfl

/-- A page with safe class names, by offsets. -/
def transformed? (st : StyleSettings) (page : List Char) : Option (Option (List Char)) := do
  let nodes ← nodes? page
  if nodes.isEmpty then some none
  else
    let replaced ← splice? (transformNode st.darkTextClass.toList) page 0
      (nodes.filter fun n => !Text.startsWith "<!--".toList n.text)
    let out := dropEmptyAttributes replaced
    some (if out = page then none else some (withDarkImport out))

theorem transformed?_eq (st : StyleSettings) (page : List Char) : transformed? st page = some (transform? st page) := by
  obtain ⟨c, hcut⟩ := exists_isCut page
  have hsplice (f : List Char → List Char) :
      splice? f page 0 ((templateNodes page).filter fun n => !Text.startsWith "<!--".toList n.text) =
        some (spliceFrom f ((templateNodes page).filter fun n => !Text.startsWith "<!--".toList n.text) 0 0 page) := by
    rw [hcut.splice f, hcut.nodes]
    exact splice?_nodes f (hcut.source ▸ StandsAt.start page)
  rw [transformed?, nodes?_eq, transform?, Option.bind_eq_bind, Option.bind_some]
  dsimp only
  split
  · rfl
  · rw [hsplice]
    rfl

/-- **The searches come to an end and what is copied never runs backwards**, whatever the page.  Every round of a
search moves on.  The contents of template blocks stand in the page one behind the other, and so do the tags in them,
each with its brackets; so the page with its tags replaced is put together from parts of the page that can be cut out
of it. -/
theorem templateNodes_in_order (page : List Char) :
    Text.Advances page BlockSearch.cursor (blockRound page) ∧ Text.Advances page Prod.fst (rangesRound page) ∧
      ranges? page = some ((templateRanges page).map Located.span) ∧
      (∀ r ∈ templateRanges page, r.start ≤ r.stop ∧ r.stop ≤ Text.byteSize page ∧
        slice? page r.start r.stop = some r.text) ∧
      InOrder (templateRanges page) ∧
      nodes? page = some (templateNodes page) ∧
      (∀ n ∈ templateNodes page, n.start < n.stop ∧ n.stop ≤ Text.byteSize page ∧
        slice? page n.start n.stop = some n.text ∧ n.text.head? = some '<' ∧ n.text.getLast? = some '>') ∧
      InOrder (templateNodes page) ∧
      ∀ st, transformed? st page = some (transform? st page) := by
  refine ⟨advances_blockRound page, advances_rangesRound page, ranges?_eq page, fun r hr => ?_,
    inOrder_templateRanges page, nodes?_eq page, fun n hn => ?_, inOrder_templateNodes page,
    fun st => transformed?_eq st page⟩
  · obtain ⟨hslice, hstop⟩ := slice?_of_exists (exists_of_mem_templateRanges hr)
    exact ⟨Nat.le_add_right _ _, hstop, hslice⟩
  · obtain ⟨hslice, hstop⟩ := slice?_of_exists (exists_of_mem_templateNodes hn)
    obtain ⟨r, -, htag⟩ := List.mem_flatMap.1 hn
    obtain ⟨x, htext, -⟩ := isNode_of_mem_tagsFrom htag
    have hsize : 0 < Text.byteSize n.text := by
      rw [htext, Text.byteSize_cons]
      exact Nat.add_pos_left '<'.utf8Size_pos _
    refine ⟨Nat.lt_add_of_pos_right hsize, hstop, hslice, by rw [htext]; rfl, ?_⟩
    rw [htext, ← List.cons_append, List.getLast?_concat]

/-- A block with no end, in which another one stands, and a tag that is not closed. -/
theorem templateNodes_in_order_unclosed :
    let page := "é<template><i><template><text é></template><b".toList
    ranges? page = some [(25, 34)] ∧ nodes? page = some [⟨25, "<text é>".toList⟩] ∧
      slice? page 25 34 = some "<text é>".toList := by
  intro page
  obtain ⟨-, -, hranges, -, -, hnodes, hall, -⟩ := templateNodes_in_order page
  have htags : templateNodes page = [⟨25, "<text é>".toList⟩] := by decide +kernel
  refine ⟨hranges.trans (by decide +kernel), hnodes.trans (congrArg some htags), ?_⟩
  exact (hall _ (htags ▸ List.mem_cons_self)).2.2.1

end ClientBuild.Markup
