import ClientBuild.Declaration.Layout
import ClientBuild.Proofs.Text.Words

/-!
# What a laid out text looks like

The layout writes the lines of a text anew and knows no more than what the lines in front of them opened
and closed.  `Laid` says which lines it writes from a state on: each behind the tabs of its depth, and a
blank one only where the next line may have it.  The layout of any text has such lines
(`exists_laid`), and it leaves such lines as they are (`Laid.layoutFrom_eq`), so that laying out twice is
laying out once (`layout_settles`).
-/

namespace ClientBuild

/-! ## Lines -/

namespace Text

/-- The lines of a text; a line break at its end begins no further line. -/
def lines (s : List Char) : List (List Char) :=
  let pieces := splitOn (· == '\n') s
  if pieces.getLast? = some [] then pieces.dropLast else pieces

/-- The text of lines. -/
def unlines (ls : List (List Char)) : List Char := ls.flatMap (· ++ ['\n'])

/-- The lines with something in them, without the blanks around it. -/
def contents (ls : List (List Char)) : List (List Char) := (ls.map trim).filter (!·.isEmpty)

theorem splitOn_unlines {ls : List (List Char)} (h : ∀ l ∈ ls, '\n' ∉ l) :
    splitOn (· == '\n') (unlines ls) = ls ++ [[]] := by
  induction ls with
  | nil => rfl
  | cons l ls ih =>
    obtain ⟨hl, hls⟩ := List.forall_mem_cons.1 h
    have hline : splitOn (· == '\n') l = [l] :=
      splitOn_of_forall fun c hc => by
        rw [beq_eq_false_iff_ne]
        rintro rfl
        exact hl hc
    rw [unlines, List.flatMap_cons, List.append_assoc, List.singleton_append,
      splitOn_append (by decide), hline, ← unlines, ih hls]
    rfl

theorem lines_unlines {ls : List (List Char)} (h : ∀ l ∈ ls, '\n' ∉ l) : lines (unlines ls) = ls := by
  simp only [lines, splitOn_unlines h, List.getLast?_concat, List.dropLast_concat, if_true]

theorem contents_lines (s : List Char) : contents (lines s) = contents (splitOn (· == '\n') s) := by
  rw [lines]
  split
  next hlast =>
    obtain ⟨pieces, hpieces⟩ := List.getLast?_eq_some_iff.1 hlast
    have hblank : trim [] = [] := rfl
    rw [hpieces, List.dropLast_concat]
    simp [contents, hblank]
  next => rfl

theorem contents_blank {l : List Char} (h : trim l = []) (ls : List (List Char)) :
    contents (l :: ls) = contents ls := by
  simp [contents, h]

theorem contents_append (a b : List (List Char)) : contents (a ++ b) = contents a ++ contents b := by
  simp [contents]

theorem contents_cons {l : List Char} (h : trim l ≠ []) (ls : List (List Char)) :
    contents (l :: ls) = trim l :: contents ls := by
  simp [contents, h]

theorem trim_blanks_append {a b : List Char} (ha : ∀ c ∈ a, isBlank c = true) (hb : trim b = b) :
    trim (a ++ b) = b := by
  rw [trim, trimLeft_append_of_blank ha, ← trim, hb]

end Text

namespace Declaration

/-! ## The state behind lines -/

namespace LayoutState

/-- What a line does to the braces. -/
def scan (st : LayoutState) (line : List Char) : LineScan := scanLine st.inComment (Text.trim line)

/-- The state behind one more line. -/
def read (st : LayoutState) (line : List Char) : LayoutState :=
  if Text.trim line = [] then st.blank else st.next (st.scan line)

/-- The blank in front of a line that goes on with a comment, where it begins with a star. -/
def padding (st : LayoutState) (content : List Char) : List Char :=
  if st.inComment && content.head? == some '*' then [' '] else []

/-- A line behind its tabs. -/
def indented (st : LayoutState) (content : List Char) : List Char :=
  List.replicate (st.depth - (scanLine st.inComment content).leading).toNat '\t' ++
    (st.padding content ++ content)

end LayoutState

/-- The state behind the lines in front of a text: how many braces they leave open, and whether they
leave a comment open. -/
def behind (front : List (List Char)) : LayoutState := front.foldl LayoutState.read {}

variable {st : LayoutState} {content : List Char}

theorem LayoutState.lineText_eq (st : LayoutState) (content : List Char) :
    st.lineText (scanLine st.inComment content) content =
      (if st.blankPending && (scanLine st.inComment content).leading == 0 then ['\n'] else []) ++
        (st.indented content ++ ['\n']) := by
  simp only [LayoutState.lineText, LayoutState.indented, LayoutState.padding, List.append_assoc]

theorem LayoutState.trim_indented (h : Text.trim content = content) :
    Text.trim (st.indented content) = content := by
  rw [LayoutState.indented, ← List.append_assoc]
  refine Text.trim_blanks_append ?_ h
  intro c hc
  rcases List.mem_append.1 hc with hc | hc
  · rw [List.eq_of_mem_replicate hc]
    decide
  · rw [LayoutState.padding] at hc
    split at hc
    · rw [List.mem_singleton.1 hc]
      decide
    · cases hc

theorem LayoutState.newline_not_mem_indented (st : LayoutState) (h : '\n' ∉ content) :
    '\n' ∉ st.indented content := by
  rw [LayoutState.indented, LayoutState.padding]
  split <;> simp [List.mem_replicate, h]

/-! ## Laid out lines -/

/-- Lines as they are written from a state on, up to where everything is closed. -/
inductive Laid : LayoutState → List (List Char) → Prop
  | done {st : LayoutState} : st.depth = 0 → st.inComment = false → st.blankPending = false →
      Laid st []
  | gap {st : LayoutState} {ls : List (List Char)} : st.atStart = false → st.afterOpen = false →
      st.blankPending = false → Laid st.blank ls → Laid st ([] :: ls)
  | line {st : LayoutState} {content : List Char} {ls : List (List Char)} : content ≠ [] →
      Text.trim content = content → (scanLine st.inComment content).leading ≤ st.depth →
      0 ≤ st.depth + (scanLine st.inComment content).delta →
      (st.blankPending = true → (scanLine st.inComment content).leading = 0) →
      Laid (st.next (scanLine st.inComment content)) ls → Laid st (st.indented content :: ls)

theorem Laid.read {l : List Char} {ls : List (List Char)} (h : Laid st (l :: ls)) :
    Laid (st.read l) ls := by
  cases h with
  | gap _ _ _ hrest => exact hrest
  | line hne htrim _ _ _ hrest =>
    rw [LayoutState.read, LayoutState.scan, LayoutState.trim_indented htrim, if_neg hne]
    exact hrest

/-- What is said of the first line is said of each, from the state behind those in front of it. -/
theorem Laid.foldl_read {front ls : List (List Char)} (h : Laid st (front ++ ls)) :
    Laid (front.foldl LayoutState.read st) ls := by
  induction front generalizing st with
  | nil => exact h
  | cons l front ih => exact ih h.read

/-- **The layout leaves laid out lines as they are.**  A blank line is only written together with the
line behind it, so that the state of the scan may still have one to write. -/
theorem Laid.layoutFrom_eq {ls : List (List Char)} (h : Laid st ls) (number : Nat) :
    layoutFrom st number (ls ++ [[]]) =
      .ok ((if st.blankPending then ['\n'] else []) ++ Text.unlines ls) := by
  have hblank : (Text.trim []).isEmpty = true := rfl
  induction h generalizing number with
  | done hdepth hcomment hpending =>
    rw [List.nil_append, layoutFrom]
    simp only [hblank, if_true]
    rw [layoutFrom, if_pos ⟨hdepth, by simp [LayoutState.blank, hcomment]⟩, hpending]
    rfl
  | gap hstart hopen hpending _ ih =>
    rw [List.cons_append, layoutFrom]
    simp only [hblank, if_true]
    rw [ih, hpending]
    simp [LayoutState.blank, hstart, hopen, Text.unlines]
  | @line st content ls hne htrim hleading hdelta hgap _ ih =>
    have hempty : content.isEmpty = false := by simpa using hne
    have hgap : (st.blankPending && (scanLine st.inComment content).leading == 0) = st.blankPending := by
      cases hpending : st.blankPending with
      | false => rfl
      | true => rw [hgap hpending]; rfl
    rw [List.cons_append, layoutFrom]
    simp only [LayoutState.trim_indented htrim, hempty, Bool.false_eq_true, if_false]
    rw [if_neg (by omega), if_neg (by omega), ih, LayoutState.lineText_eq, hgap]
    simp [Except.map, LayoutState.next, Text.unlines]

/-- A line is written in front of laid out lines, with the blank one that may be still to be written. -/
theorem Laid.exists_written {ls : List (List Char)} (h : Laid (st.next (scanLine st.inComment content)) ls)
    (hne : content ≠ []) (htrim : Text.trim content = content) (hline : '\n' ∉ content)
    (hleading : (scanLine st.inComment content).leading ≤ st.depth)
    (hdelta : 0 ≤ st.depth + (scanLine st.inComment content).delta)
    (hpending : st.blankPending = true → st.atStart = false ∧ st.afterOpen = false) :
    ∃ front, st.lineText (scanLine st.inComment content) content = Text.unlines front ∧
      (∀ l ∈ front, '\n' ∉ l) ∧ Text.contents front = [content] ∧
      Laid { st with blankPending := false } (front ++ ls) := by
  have hbreak := LayoutState.newline_not_mem_indented st hline
  have hshown : Text.contents [st.indented content] = [content] := by
    have htrim := @LayoutState.trim_indented st content htrim
    rw [Text.contents_cons (htrim.symm ▸ hne), htrim]
    rfl
  by_cases hgap : st.blankPending = true ∧ (scanLine st.inComment content).leading = 0
  · obtain ⟨hstart, hopen⟩ := hpending hgap.1
    have hblank : LayoutState.blank { st with blankPending := false } = st := by
      cases st
      simp_all [LayoutState.blank]
    refine ⟨[[], st.indented content], ?_, by simp [hbreak], ?_, .gap hstart hopen rfl ?_⟩
    · rw [LayoutState.lineText_eq, hgap.1, hgap.2]
      simp [Text.unlines]
    · rw [Text.contents_blank rfl, hshown]
    · rw [hblank]
      exact .line hne htrim hleading hdelta (fun _ => hgap.2) h
  · refine ⟨[st.indented content], ?_, by simp [hbreak], hshown, ?_⟩
    · rw [LayoutState.lineText_eq, if_neg (by simpa using hgap)]
      simp [Text.unlines]
    · exact @Laid.line { st with blankPending := false } content ls hne htrim hleading hdelta nofun h

theorem exists_of_map_ok {ε α β : Type} {f : α → β} {x : Except ε α} {b : β} (h : x.map f = .ok b) :
    ∃ a, x = .ok a ∧ f a = b := by
  cases x with
  | error e => cases h
  | ok a => exact ⟨a, rfl, Except.ok.inj h⟩

/-- **The layout of lines is laid out.**  A blank line that is still to be written stands behind a line
that does not open a block. -/
theorem exists_laid {raws : List (List Char)} {number : Nat} {out : List Char}
    (h : layoutFrom st number raws = .ok out)
    (hpending : st.blankPending = true → st.atStart = false ∧ st.afterOpen = false)
    (hraws : ∀ l ∈ raws, '\n' ∉ l) :
    ∃ ls, out = Text.unlines ls ∧ (∀ l ∈ ls, '\n' ∉ l) ∧ Text.contents ls = Text.contents raws ∧
      Laid { st with blankPending := false } ls := by
  induction raws generalizing st number out with
  | nil =>
    rw [layoutFrom] at h
    split at h
    next hclosed =>
      cases h
      exact ⟨[], rfl, by simp, rfl, .done hclosed.1 (by simpa using hclosed.2) rfl⟩
    next => cases h
  | cons raw raws ih =>
    obtain ⟨hraw, hraws⟩ := List.forall_mem_cons.1 hraws
    rw [layoutFrom] at h
    by_cases hempty : Text.trim raw = []
    · simp only [hempty, List.isEmpty_nil, if_true] at h
      obtain ⟨ls, hout, hlines, hcontents, hlaid⟩ := ih h (by simp [LayoutState.blank]) hraws
      refine ⟨ls, hout, hlines, ?_, hlaid⟩
      rw [hcontents, Text.contents_blank hempty]
    · have htrim : Text.trim (Text.trim raw) = Text.trim raw := Text.trim_trim raw
      have hline : '\n' ∉ Text.trim raw := fun hmem => hraw ((Text.trim_isInfix raw).subset hmem)
      simp only [List.isEmpty_iff, hempty, if_false] at h
      rw [Text.contents_cons hempty]
      generalize Text.trim raw = content at h hempty htrim hline ⊢
      split at h
      next => cases h
      next hleading =>
        split at h
        next => cases h
        next hdelta =>
          obtain ⟨rest, hrest, rfl⟩ := exists_of_map_ok h
          obtain ⟨ls, rfl, hlines, hcontents, hlaid⟩ := ih hrest (by simp [LayoutState.next]) hraws
          obtain ⟨front, hfront, hbreaks, hshown, hwhole⟩ :=
            hlaid.exists_written hempty htrim hline (by omega) (by omega) hpending
          refine ⟨front ++ ls, ?_, ?_, ?_, hwhole⟩
          · rw [hfront, Text.unlines, Text.unlines, Text.unlines, List.flatMap_append]
          · exact fun l hl => (List.mem_append.1 hl).elim (hbreaks l) (hlines l)
          · rw [Text.contents_append, hshown, hcontents, List.singleton_append]

/-! ## Laid out texts -/

/-- How a laid out text looks: its lines are those of `Text.lines`, and what stands in front of a line
has opened and closed what `behind` says. -/
structure IsLaidOut (u : List Char) : Prop where
  /-- The first line is not blank. -/
  first : ∀ l rest, Text.lines u = l :: rest → Text.trim l ≠ []
  /-- No two lines in a row are blank. -/
  single : ∀ front a b rest, Text.lines u = front ++ a :: b :: rest → Text.trim a = [] → Text.trim b ≠ []
  /-- No line is blank behind one that opens more braces than it closes. -/
  opened : ∀ front a b rest, Text.lines u = front ++ a :: b :: rest →
    0 < ((behind front).scan a).delta → Text.trim b ≠ []
  /-- No line is blank in front of one that begins outside comments with a closing brace. -/
  closed : ∀ front a b rest, Text.lines u = front ++ a :: b :: rest →
    (behind (front ++ [a])).inComment = false → (Text.trim b).head? = some '}' → Text.trim a ≠ []
  /-- In front of what a line holds stand as many tabs as braces are open there, less those that the
  line closes first, and one more blank where a star goes on with a comment. -/
  indented : ∀ front l rest, Text.lines u = front ++ l :: rest → Text.trim l ≠ [] →
    ∃ tabs : Nat, (tabs : Int) = (behind front).depth - ((behind front).scan l).leading ∧
      l = List.replicate tabs '\t' ++ ((behind front).padding (Text.trim l) ++ Text.trim l)

theorem delta_nil (inComment : Bool) : (scanLine inComment []).delta = 0 := by
  cases inComment <;> rfl

theorem leading_pos_of_head {line : List Char} (h : line.head? = some '}') :
    0 < (scanLine false line).leading := by
  obtain ⟨rest, rfl⟩ := List.head?_eq_some_iff.1 h
  simp [scanLine, scanFrom]

theorem Laid.behind {front ls : List (List Char)} (h : Laid {} (front ++ ls)) : Laid (behind front) ls :=
  h.foldl_read

/-- A blank line leaves the state with a blank line to be written. -/
theorem Laid.exists_gap {a : List Char} {ls : List (List Char)} (h : Laid st (a :: ls))
    (ha : Text.trim a = []) : st.atStart = false ∧ st.afterOpen = false ∧ st.blankPending = false ∧
      (st.read a).blankPending = true := by
  cases h with
  | gap hstart hopen hpending _ =>
    exact ⟨hstart, hopen, hpending, by simp [LayoutState.read, ha, LayoutState.blank, hstart, hopen]⟩
  | line hne htrim =>
    rw [LayoutState.trim_indented htrim] at ha
    exact absurd ha hne

theorem behind_concat (front : List (List Char)) (a : List Char) :
    Declaration.behind (front ++ [a]) = (Declaration.behind front).read a := by
  rw [Declaration.behind, List.foldl_append]
  rfl

theorem isLaidOut_of_laid {u : List Char} (h : Laid {} (Text.lines u)) : IsLaidOut u where
  first l rest hlines hblank := by
    rw [hlines] at h
    exact Bool.noConfusion (h.exists_gap hblank).1
  single front a b rest hlines ha hb := by
    rw [hlines] at h
    have hpending := (h.behind.exists_gap ha).2.2.2
    rw [(h.behind.read.exists_gap hb).2.2.1] at hpending
    cases hpending
  opened front a b rest hlines hdelta hb := by
    rw [hlines] at h
    have hopen := (h.behind.read.exists_gap hb).2.1
    by_cases ha : Text.trim a = []
    · rw [LayoutState.scan, ha] at hdelta
      exact absurd hdelta (by rw [delta_nil]; decide)
    · rw [LayoutState.read, if_neg ha] at hopen
      exact absurd hdelta (by simpa [LayoutState.next] using hopen)
  closed front a b rest hlines hcomment hbrace ha := by
    rw [hlines] at h
    have hpending := (h.behind.exists_gap ha).2.2.2
    rw [behind_concat] at hcomment
    cases h.behind.read with
    | gap => cases hbrace
    | line hne htrim hleading hdelta hgap =>
      rw [LayoutState.trim_indented htrim] at hbrace
      have hnone := hgap hpending
      rw [hcomment] at hnone
      exact absurd hnone (leading_pos_of_head hbrace).ne'
  indented front l rest hlines hl := by
    rw [hlines] at h
    cases h.behind with
    | gap => exact absurd rfl hl
    | line hne htrim hleading =>
      rw [LayoutState.scan, LayoutState.trim_indented htrim]
      exact ⟨_, Int.toNat_of_nonneg (by omega), rfl⟩

/-- **Laying out twice is laying out once.**  Where a text can be laid out, its layout is its own layout,
has the same lines but for the blanks around them and the blank lines, and looks as `IsLaidOut` says. -/
theorem layout_settles {t u : List Char} (h : layout t = .ok u) :
    layout u = .ok u ∧ Text.contents (Text.lines u) = Text.contents (Text.lines t) ∧ IsLaidOut u := by
  have hpieces : ∀ l ∈ Text.splitOn (· == '\n') t, '\n' ∉ l := fun l hl hmem =>
    absurd (Text.mem_splitOn hl hmem).2 (by decide)
  obtain ⟨ls, rfl, hbreaks, hcontents, hlaid⟩ := exists_laid h nofun hpieces
  have hlines : Text.lines (Text.unlines ls) = ls := Text.lines_unlines hbreaks
  refine ⟨?_, ?_, isLaidOut_of_laid (hlines.symm ▸ hlaid)⟩
  · rw [layout, Text.splitOn_unlines hbreaks]
    exact hlaid.layoutFrom_eq 1
  · rw [hlines, hcontents, Text.contents_lines]

/-- A block with a comment in it and a brace in a string, as it is laid out. -/
theorem layout_settles_block :
    layout "a \x7b\n\t/**\n\t * \x7d\n\t */\n\n\tb: \"\x7d\";\n\x7d\n".toList =
        .ok "a \x7b\n\t/**\n\t * \x7d\n\t */\n\n\tb: \"\x7d\";\n\x7d\n".toList ∧
      Text.contents (Text.lines "a \x7b\n\t/**\n\t * \x7d\n\t */\n\n\tb: \"\x7d\";\n\x7d\n".toList) =
        Text.contents (Text.lines "\n a \x7b\n\n/**\n* \x7d\n*/\n\n\n  b: \"\x7d\";\n\n\x7d".toList) ∧
      IsLaidOut "a \x7b\n\t/**\n\t * \x7d\n\t */\n\n\tb: \"\x7d\";\n\x7d\n".toList :=
  layout_settles (t := "\n a \x7b\n\n/**\n* \x7d\n*/\n\n\n  b: \"\x7d\";\n\n\x7d".toList) (by rfl)

end Declaration

end ClientBuild
