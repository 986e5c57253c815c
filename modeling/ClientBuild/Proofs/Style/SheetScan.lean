import ClientBuild.Proofs.Markup.AttributeScan
import ClientBuild.Proofs.Style.ByteScan

/-!
# Stylesheets by offsets

The scans for declarations and for the items of a stylesheet with the offsets that they go by.  They find what the
library finds (`declarations?_eq`, `adaptedSheet?_eq`), so they come to an end and cut between characters only.
-/

namespace ClientBuild.Style

open Text (Round StandsAt loop slice? from? back? byteSize)

variable {text rest : List Char} {c : Char} {i j : Nat}

/-! ## Declarations -/

/-- The scan for declarations: the offset that it is at, how many parentheses are open, what has been read of the
current declaration, and the declarations in front of it. -/
structure DeclarationScan where
  offset : Nat
  depth : Nat
  current : List Char
  found : List (List Char)

/-- How many parentheses are open behind a character. -/
def depthBehind (depth : Nat) (c : Char) : Nat :=
  if c = '(' then depth + 1 else if c = ')' then depth - 1 else depth

/-- A round of the scan for declarations.  Characters are copied one by one, strings as a whole. -/
def declarationsRound (body : List Char) (t : DeclarationScan) :
    Option (Round DeclarationScan (List (List Char))) :=
  match startAt? body t.offset with
  | none => some (.done (t.found ++ addDeclaration t.current []))
  | some .comment => do
    let stop ← commentEnd? body t.offset
    some (.next { t with offset := stop })
  | some (.string q) => do
    let stop ← stringEnd? body q t.offset
    let text ← slice? body t.offset stop
    some (.next { t with offset := stop, current := t.current ++ text })
  | some (.other b) =>
    if b = ';' ∧ t.depth = 0 then
      some (.next ⟨t.offset + 1, t.depth, [], t.found ++ addDeclaration t.current []⟩)
    else do
      let behind ← from? body t.offset
      let stop := t.offset + (behind.head?.map Char.utf8Size).getD 1
      let text ← slice? body t.offset stop
      some (.next ⟨stop, depthBehind t.depth b, t.current ++ text, t.found⟩)

/-- Every round of the scan for declarations moves on, wherever it is. -/
theorem advances_declarationsRound (body : List Char) :
    Text.Advances body DeclarationScan.offset (declarationsRound body) := by
  intro t u h
  rw [declarationsRound] at h
  split at h
  next => cases h
  next hstart =>
    obtain ⟨stop, hstop, hlt, -⟩ := isBoundary_commentEnd? hstart
    rw [hstop] at h
    cases h
    exact ⟨lt_byteSize_of_startAt? hstart, hlt⟩
  next q hstart =>
    obtain ⟨stop, hstop, hlt, -⟩ := isBoundary_stringEnd? hstart
    rw [hstop, Option.bind_eq_bind, Option.bind_some] at h
    obtain ⟨text, -, h⟩ := Option.bind_eq_some_iff.1 h
    cases h
    exact ⟨lt_byteSize_of_startAt? hstart, hlt⟩
  next hstart =>
    refine ⟨lt_byteSize_of_startAt? hstart, ?_⟩
    split at h
    next =>
      cases h
      exact Nat.lt_succ_self t.offset
    next =>
      obtain ⟨behind, -, h⟩ := Option.bind_eq_some_iff.1 h
      obtain ⟨text, -, h⟩ := Option.bind_eq_some_iff.1 h
      cases h
      refine Nat.lt_add_of_pos_right ?_
      cases behind with
      | nil => exact Nat.one_pos
      | cons c s => exact c.utf8Size_pos

/-- The declarations of a body, cut out of it. -/
def declarations? (body : List Char) : Option (List (List Char)) :=
  loop (advances_declarationsRound body) ⟨0, 0, [], []⟩

theorem addDeclaration_append (t : List Char) (ds : List (List Char)) :
    addDeclaration t [] ++ ds = addDeclaration t ds := by
  rw [addDeclaration, addDeclaration]
  split
  next => rfl
  next => rfl

/-- The scan for declarations from an offset on comes to an end, with the declarations that the body is split into. -/
theorem loop_declarationsRound {body : List Char} (h : StandsAt body i rest) (depth : Nat) (current : List Char)
    (found : List (List Char)) :
    loop (advances_declarationsRound body) ⟨i, depth, current, found⟩ =
      some (found ++ splitDeclarationsFrom .code depth current.reverse rest) := by
  induction rest using scan_induction generalizing i depth current found with
  | nil =>
    have hround : declarationsRound body ⟨i, depth, current, found⟩ =
        some (.done (found ++ addDeclaration current [])) := by
      simp only [declarationsRound, startAt?_end h (Nat.le_refl i)]
    rw [Text.loop_of_done hround, splitDeclarationsFrom, List.reverse_reverse]
  | comment s ih =>
    have hround : declarationsRound body ⟨i, depth, current, found⟩ =
        some (.next ⟨i + byteSize ('/' :: '*' :: (takeComment s).1), depth, current, found⟩) := by
      simp only [declarationsRound, startAt?_comment h, commentEnd?_eq h]
      rfl
    rw [Text.loop_of_next hround, ih (standsAt_takeComment h), splitDeclarationsFrom_takeComment]
  | string q s hq ih =>
    have hslice : slice? body i (i + byteSize (q :: (takeString q s).1)) = some (q :: (takeString q s).1) := by
      have hplace := h
      rw [← takeString_append q s] at hplace
      exact StandsAt.slice? (t := q :: (takeString q s).1) hplace
    have hround : declarationsRound body ⟨i, depth, current, found⟩ =
        some (.next ⟨i + byteSize (q :: (takeString q s).1), depth, current ++ q :: (takeString q s).1, found⟩) := by
      simp only [declarationsRound, startAt?_string hq h, stringEnd?_eq hq h, Option.bind_eq_bind, Option.bind_some,
        hslice]
    rw [Text.loop_of_next hround, ih (standsAt_takeString h), splitDeclarationsFrom_takeString hq,
      List.reverse_append]
  | other c s hquote hcomment ih =>
    obtain ⟨d, hstart, halike⟩ := exists_startAt?_other hquote hcomment h
    have hdepth : depthBehind depth d = depthBehind depth c := by
      simp only [depthBehind, halike '(' (by decide), halike ')' (by decide)]
    rw [splitDeclarationsFrom_code hcomment, if_neg (Bool.eq_false_iff.1 hquote)]
    by_cases hend : c = ';' ∧ depth = 0
    · have hround : declarationsRound body ⟨i, depth, current, found⟩ =
          some (.next ⟨i + 1, depth, [], found ++ addDeclaration current []⟩) := by
        simp only [declarationsRound, hstart, halike ';' (by decide), if_pos hend]
      obtain ⟨rfl, rfl⟩ := hend
      rw [Text.loop_of_next hround, ih s (Nat.le_refl _) (h.cons_ascii (by decide)), List.append_assoc,
        addDeclaration_append, List.reverse_reverse]
      rfl
    · have hslice : slice? body i (i + c.utf8Size) = some [c] := by
        have hplace : slice? body i (i + byteSize [c]) = some [c] := StandsAt.slice? (t := [c]) h
        rwa [Text.byteSize_singleton] at hplace
      have hround : declarationsRound body ⟨i, depth, current, found⟩ =
          some (.next ⟨i + c.utf8Size, depthBehind depth c, current ++ [c], found⟩) := by
        simp only [declarationsRound, hstart, halike ';' (by decide), if_neg hend, h.from?, Option.bind_eq_bind,
          Option.bind_some, List.head?_cons, Option.map_some, Option.getD_some, hslice, hdepth]
      have hread : splitDeclarationsFrom .code (depthBehind depth c) (c :: current.reverse) s =
          if c = '(' then splitDeclarationsFrom .code (depth + 1) (c :: current.reverse) s
          else if c = ')' then splitDeclarationsFrom .code (depth - 1) (c :: current.reverse) s
          else splitDeclarationsFrom .code depth (c :: current.reverse) s := by
        rw [depthBehind]
        split
        next => rfl
        next => split <;> rfl
      rw [Text.loop_of_next hround, ih s (Nat.le_refl _) h.cons, List.reverse_concat, hread, if_neg hend]

theorem declarations?_eq (body : List Char) : declarations? body = some (splitDeclarations body) :=
  loop_declarationsRound (StandsAt.start body) 0 [] []

/-! ## Items -/

/-- What a stylesheet falls into at its top: text that stays as it is, and blocks with what stands in front of them. -/
inductive Item where
  | verbatim (text : List Char)
  | block (prelude body raw : List Char)

/-- The scan for items: where the current item begins, the offset that the scan is at, and the items in front. -/
structure SheetScan where
  start : Nat
  offset : Nat
  items : List Item

/-- A round of the scan for items.  A block that is not closed is the last item, with all that follows it. -/
def sheetRound (text : List Char) (t : SheetScan) : Option (Round SheetScan (List Item)) :=
  match startAt? text t.offset with
  | none => do
    let left ← slice? text t.start (byteSize text)
    some (.done (t.items ++ [.verbatim left]))
  | some .comment => do
    let stop ← commentEnd? text t.offset
    let left ← slice? text t.start stop
    if Text.startsWith ['/', '*'] (Text.trimLeft left) then
      some (.next ⟨stop, stop, t.items ++ [.verbatim left]⟩)
    else some (.next { t with offset := stop })
  | some (.string q) => do
    let stop ← stringEnd? text q t.offset
    some (.next { t with offset := stop })
  | some (.other b) =>
    if b = ';' then do
      let left ← slice? text t.start (t.offset + 1)
      some (.next ⟨t.offset + 1, t.offset + 1, t.items ++ [.verbatim left]⟩)
    else if b = '{' then do
      match ← blockEnd? text (t.offset + 1) with
      | none =>
        let left ← slice? text t.start (byteSize text)
        some (.done (t.items ++ [.verbatim left]))
      | some close =>
        let prelude ← slice? text t.start t.offset
        let body ← slice? text (t.offset + 1) close
        let raw ← slice? text t.start (close + 1)
        some (.next ⟨close + 1, close + 1, t.items ++ [.block prelude body raw]⟩)
    else some (.next { t with offset := t.offset + 1 })

/-- Every round of the scan for items moves on, wherever it is. -/
theorem advances_sheetRound (text : List Char) : Text.Advances text SheetScan.offset (sheetRound text) := by
  intro t u h
  rw [sheetRound] at h
  split at h
  next =>
    obtain ⟨left, -, h⟩ := Option.bind_eq_some_iff.1 h
    cases h
  next hstart =>
    obtain ⟨stop, hstop, hlt, -⟩ := isBoundary_commentEnd? hstart
    rw [hstop, Option.bind_eq_bind, Option.bind_some] at h
    refine ⟨lt_byteSize_of_startAt? hstart, ?_⟩
    obtain ⟨left, -, h⟩ := Option.bind_eq_some_iff.1 h
    split at h
    next =>
      cases h
      exact hlt
    next =>
      cases h
      exact hlt
  next q hstart =>
    obtain ⟨stop, hstop, hlt, -⟩ := isBoundary_stringEnd? hstart
    rw [hstop] at h
    cases h
    exact ⟨lt_byteSize_of_startAt? hstart, hlt⟩
  next b hstart =>
    refine ⟨lt_byteSize_of_startAt? hstart, ?_⟩
    split at h
    next =>
      obtain ⟨left, -, h⟩ := Option.bind_eq_some_iff.1 h
      cases h
      exact Nat.lt_succ_self t.offset
    next =>
      split at h
      next hopen =>
        obtain ⟨close?, hclose, h⟩ := Option.bind_eq_some_iff.1 h
        cases close? with
        | none =>
          obtain ⟨left, -, h⟩ := Option.bind_eq_some_iff.1 h
          cases h
        | some close =>
          obtain ⟨prelude, -, h⟩ := Option.bind_eq_some_iff.1 h
          obtain ⟨body, -, h⟩ := Option.bind_eq_some_iff.1 h
          obtain ⟨raw, -, h⟩ := Option.bind_eq_some_iff.1 h
          cases h
          obtain ⟨s, hplace⟩ := exists_standsAt_other (hopen ▸ hstart) (by decide)
          have hle := (isBoundary_blockEnd? (hplace.cons_ascii (by decide)).isBoundary hclose).1
          exact Nat.lt_succ_of_lt (Nat.lt_of_succ_le hle)
      next =>
        cases h
        exact Nat.lt_succ_self t.offset

/-- The items of a stylesheet, cut out of it. -/
def items? (text : List Char) : Option (List Item) := loop (advances_sheetRound text) ⟨0, 0, []⟩

/-- The pieces of an item. -/
def Item.pieces : Item → List Piece
  | verbatim text => [.verbatim text]
  | block prelude body _ => blockPieces prelude body

/-- Does a block stand as a whole in a text of a length? -/
def Item.IsWithin (length : Nat) : Item → Prop
  | verbatim _ => True
  | block prelude body raw => raw = prelude ++ '{' :: body ++ ['}'] ∧ body.length < length

theorem standsAt_length_le (h : StandsAt text i rest) : rest.length ≤ text.length := by
  obtain ⟨front, rfl, -⟩ := h
  rw [List.length_append]
  exact Nat.le_add_left _ _

/-- A block stands in a text with the brace that closes it. -/
theorem standsAt_takeBlock? {pending s body r : List Char} {start : Nat}
    (hblock : takeBlock? .code 0 s = some (body, r)) (h : StandsAt text start (pending ++ '{' :: s)) :
    StandsAt text start ((pending ++ '{' :: body ++ ['}']) ++ r) := by
  rw [eq_of_takeBlock? hblock] at h
  simpa using h

theorem isWithin_takeBlock? {pending s body r : List Char} {start : Nat}
    (hblock : takeBlock? .code 0 s = some (body, r)) (h : StandsAt text start (pending ++ '{' :: s)) :
    (Item.block pending body (pending ++ '{' :: body ++ ['}'])).IsWithin text.length := by
  have hlength : body.length + r.length + 1 = s.length := length_takeBlock? hblock
  have hle := standsAt_length_le h
  rw [List.length_append, List.length_cons] at hle
  exact ⟨rfl, by omega⟩

/-- At the end of the text what is left is the last item. -/
theorem sheetRound_end {pending : List Char} {start : Nat} (h : StandsAt text start pending) (items : List Item) :
    sheetRound text ⟨start, start + byteSize pending, items⟩ = some (.done (items ++ [.verbatim pending])) := by
  have hend : StandsAt text (start + byteSize pending) [] := StandsAt.append (by rwa [List.append_nil])
  simp only [sheetRound, startAt?_end hend (Nat.le_refl _), h.slice?_end]
  rfl

/-- A round passes a comment as a whole.  With nothing but blanks in front of it, it is an item. -/
theorem sheetRound_comment {pending s left : List Char} {start : Nat}
    (hleft : left = pending ++ '/' :: '*' :: (takeComment s).1)
    (h : StandsAt text start (pending ++ '/' :: '*' :: s)) (items : List Item) :
    sheetRound text ⟨start, start + byteSize pending, items⟩ =
      some (.next (if Text.startsWith ['/', '*'] (Text.trimLeft left) then
          ⟨start + byteSize left, start + byteSize left, items ++ [.verbatim left]⟩
        else ⟨start, start + byteSize left, items⟩)) := by
  have hplace := h.append
  have hstop : start + byteSize pending + byteSize ('/' :: '*' :: (takeComment s).1) = start + byteSize left := by
    rw [hleft, Text.byteSize_append, Nat.add_assoc]
  have hslice : slice? text start (start + byteSize left) = some left := by
    have hcut : StandsAt text start (left ++ (takeComment s).2) := by
      rwa [hleft, List.append_assoc, List.cons_append, List.cons_append, takeComment_append]
    exact hcut.slice?
  simp only [sheetRound, startAt?_comment hplace, commentEnd?_eq hplace, Option.bind_eq_bind, Option.bind_some, hstop,
    hslice]
  split <;> rfl

/-- A round passes a string as a whole. -/
theorem sheetRound_string {pending s : List Char} {q : Char} {start : Nat} (hq : isSheetQuote q = true)
    (h : StandsAt text start (pending ++ q :: s)) (items : List Item) :
    sheetRound text ⟨start, start + byteSize pending, items⟩ =
      some (.next ⟨start, start + byteSize (pending ++ q :: (takeString q s).1), items⟩) := by
  have hplace := h.append
  simp only [sheetRound, startAt?_string hq hplace, stringEnd?_eq hq hplace, Text.byteSize_append, Nat.add_assoc]
  rfl

theorem sheetRound_of_large {t : SheetScan} {d : Char} (hbyte : Text.byteAt? text t.offset = some d)
    (hd : 128 ≤ d.toNat) :
    sheetRound text t = some (.next { t with offset := t.offset + 1 }) := by
  have hend : d ≠ ';' := Text.ne_of_large hd (by decide)
  have hopen : d ≠ '{' := Text.ne_of_large hd (by decide)
  simp only [sheetRound, startAt?_of_large hbyte hd, if_neg hend, if_neg hopen]

/-- At a character that begins no comment and no string a round goes by the character. -/
theorem sheetRound_other {s pending : List Char} {start : Nat} (hquote : isSheetQuote c = false)
    (hcomment : ¬ ['/', '*'] <+: c :: s) (h : StandsAt text start (pending ++ c :: s)) (items : List Item) :
    sheetRound text ⟨start, start + byteSize pending, items⟩ =
      some (if c = ';' then .next ⟨start + byteSize pending + 1, start + byteSize pending + 1,
          items ++ [.verbatim (pending ++ [c])]⟩
        else if c = '{' then
          match takeBlock? .code 0 s with
          | none => .done (items ++ [.verbatim (pending ++ c :: s)])
          | some (body, _) =>
            .next ⟨start + byteSize (pending ++ '{' :: body ++ ['}']),
              start + byteSize (pending ++ '{' :: body ++ ['}']),
              items ++ [.block pending body (pending ++ '{' :: body ++ ['}'])]⟩
        else .next ⟨start, start + byteSize pending + 1, items⟩) := by
  have hplace := h.append
  obtain ⟨d, hstart, halike⟩ := exists_startAt?_other hquote hcomment hplace
  simp only [sheetRound, hstart, halike ';' (by decide), halike '{' (by decide)]
  split
  next hend =>
    subst hend
    have hslice : slice? text start (start + byteSize pending + 1) = some (pending ++ [';']) := by
      have hcut : StandsAt text start ((pending ++ [';']) ++ s) := by rwa [List.append_assoc]
      have hleft := hcut.slice?
      rwa [Text.byteSize_append, ← Nat.add_assoc] at hleft
    rw [hslice]
    rfl
  next =>
    split
    next hopen =>
      subst hopen
      have hbehind := hplace.cons_ascii (by decide)
      rw [blockEnd?_eq hbehind]
      cases hblock : takeBlock? .code 0 s with
      | none =>
        rw [h.slice?_end]
        rfl
      | some p =>
        obtain ⟨body, r⟩ := p
        have hsize : start + byteSize pending + 1 + byteSize body + 1 =
            start + byteSize (pending ++ '{' :: body ++ ['}']) := by
          simp only [Text.byteSize_append, Text.byteSize_cons, ← Nat.add_assoc]
          rfl
        have hbody : slice? text (start + byteSize pending + 1) (start + byteSize pending + 1 + byteSize body) =
            some body :=
          StandsAt.slice? (eq_of_takeBlock? hblock ▸ hbehind)
        have hraw : slice? text start (start + byteSize (pending ++ '{' :: body ++ ['}'])) =
            some (pending ++ '{' :: body ++ ['}']) :=
          (standsAt_takeBlock? hblock h).slice?
        simp only [Option.map_some, Option.bind_eq_bind, Option.bind_some, h.slice?, hbody, hsize, hraw]
    next => rfl

/-- Does the scan come to an end from a state on, with items that have the given pieces? -/
def Scans (text : List Char) (t : SheetScan) (ps : List Piece) : Prop :=
  ∃ items, loop (advances_sheetRound text) t = some (t.items ++ items) ∧ items.flatMap Item.pieces = ps ∧
    ∀ item ∈ items, item.IsWithin text.length

namespace Scans

variable {t u : SheetScan} {ps : List Piece}

theorem last (item : Item) (hround : sheetRound text t = some (.done (t.items ++ [item])))
    (hitem : item.IsWithin text.length) :
    Scans text t item.pieces := by
  refine ⟨[item], Text.loop_of_done hround, List.append_nil _, fun i hi => ?_⟩
  rwa [List.mem_singleton.1 hi]

theorem pass (hpass : loop (advances_sheetRound text) t = loop (advances_sheetRound text) u)
    (hitems : u.items = t.items) (h : Scans text u ps) : Scans text t ps := by
  obtain ⟨items, hloop, h⟩ := h
  exact ⟨items, by rw [hpass, hloop, hitems], h⟩

theorem push (item : Item) (hround : sheetRound text t = some (.next u)) (hitems : u.items = t.items ++ [item])
    (hitem : item.IsWithin text.length) (h : Scans text u ps) : Scans text t (item.pieces ++ ps) := by
  obtain ⟨items, hloop, rfl, hall⟩ := h
  refine ⟨item :: items, ?_, rfl, List.forall_mem_cons.2 ⟨hitem, hall⟩⟩
  rw [Text.loop_of_next hround, hloop, hitems, List.append_assoc, List.singleton_append]

end Scans

theorem piecesFrom_takeComment (pending s : List Char) :
    piecesFrom pending ('/' :: '*' :: s) =
      if Text.startsWith ['/', '*'] (Text.trimLeft (pending.reverse ++ '/' :: '*' :: (takeComment s).1)) then
        .verbatim (pending.reverse ++ '/' :: '*' :: (takeComment s).1) :: piecesFrom [] (takeComment s).2
      else piecesFrom (pending.reverse ++ '/' :: '*' :: (takeComment s).1).reverse (takeComment s).2 := by
  rw [piecesFrom]

theorem piecesFrom_takeString {q : Char} (hq : isSheetQuote q = true) (pending s : List Char) :
    piecesFrom pending (q :: s) = piecesFrom ((takeString q s).1.reverse ++ q :: pending) (takeString q s).2 := by
  rw [piecesFrom]
  · rw [if_pos hq]
  · rintro _ rfl _
    exact ne_slash_of_quote hq rfl

/-- **The scan for items comes to an end**, with the items that have the pieces of the sheet; `pending` is what has been
read of the current one. -/
theorem scans_piecesFrom (pending : List Char) {start : Nat} (h : StandsAt text start (pending ++ rest))
    (before : List Item) :
    Scans text ⟨start, start + byteSize pending, before⟩ (piecesFrom pending.reverse rest) := by
  induction rest using scan_induction generalizing pending start before with
  | nil =>
    rw [List.append_nil] at h
    rw [piecesFrom, List.reverse_reverse]
    exact .last (.verbatim pending) (sheetRound_end h before) True.intro
  | comment s ih =>
    obtain ⟨left, hleft⟩ : ∃ left, left = pending ++ '/' :: '*' :: (takeComment s).1 := ⟨_, rfl⟩
    have hround := sheetRound_comment hleft h before
    have hbehind : StandsAt text start (left ++ (takeComment s).2) := by
      rwa [hleft, List.append_assoc, List.cons_append, List.cons_append, takeComment_append]
    rw [piecesFrom_takeComment, List.reverse_reverse, ← hleft]
    split
    next hblank =>
      rw [if_pos hblank] at hround
      exact .push (.verbatim left) hround rfl True.intro (ih [] hbehind.append _)
    next hblank =>
      rw [if_neg hblank] at hround
      exact .pass (Text.loop_of_next hround) rfl (ih left hbehind before)
  | string q s hq ih =>
    have hbehind : StandsAt text start ((pending ++ q :: (takeString q s).1) ++ (takeString q s).2) := by
      rwa [List.append_assoc, List.cons_append, takeString_append]
    have hread : (pending ++ q :: (takeString q s).1).reverse = (takeString q s).1.reverse ++ q :: pending.reverse := by
      simp
    rw [piecesFrom_takeString hq, ← hread]
    exact .pass (Text.loop_of_next (sheetRound_string hq h before)) rfl (ih _ hbehind before)
  | other c s hquote hcomment ih =>
    have hround := sheetRound_other hquote hcomment h before
    by_cases hend : c = ';'
    · rw [if_pos hend] at hround
      subst hend
      rw [piecesFrom_semicolon, List.reverse_reverse]
      exact .push (.verbatim _) hround rfl True.intro
        (ih s (Nat.le_refl _) [] (h.append.cons_ascii (by decide)) _)
    · rw [if_neg hend] at hround
      by_cases hopen : c = '{'
      · rw [if_pos hopen] at hround
        subst hopen
        cases hblock : takeBlock? .code 0 s with
        | none =>
          rw [hblock] at hround
          rw [piecesFrom_unclosed _ hblock, List.reverse_reverse]
          exact .last (.verbatim _) hround True.intro
        | some p =>
          obtain ⟨body, r⟩ := p
          rw [hblock] at hround
          have hlength : body.length + r.length + 1 = s.length := length_takeBlock? hblock
          rw [piecesFrom_closed _ hblock, List.reverse_reverse]
          exact .push _ hround rfl (isWithin_takeBlock? hblock h)
            (ih r (by omega) [] (standsAt_takeBlock? hblock h).append _)
      · rw [if_neg hopen] at hround
        have hinside : loop (advances_sheetRound text) ⟨start, start + byteSize pending + 1, before⟩ =
            loop (advances_sheetRound text) ⟨start, start + byteSize pending + c.utf8Size, before⟩ :=
          h.append.loop_inside (fun j => SheetScan.mk start j before)
            (fun _ _ hbyte hlarge => sheetRound_of_large hbyte hlarge) (Nat.lt_add_one _)
            (Nat.add_le_add_left c.utf8Size_pos _)
        have hchar : endsPrelude c = false := by
          simp only [endsPrelude, Bool.or_eq_false_iff, beq_eq_false_iff_ne]
          exact ⟨hend, hopen⟩
        have hbehind : StandsAt text start ((pending ++ [c]) ++ s) := by
          rw [List.append_assoc]
          exact h
        have hrest := ih s (Nat.le_refl _) _ hbehind before
        rw [Text.byteSize_append, Text.byteSize_singleton, ← Nat.add_assoc, List.reverse_concat] at hrest
        rw [piecesFrom_char _ hquote hchar hcomment]
        exact .pass ((Text.loop_of_next hround).trans hinside) rfl hrest

/-- The items of a stylesheet are found, each block as a whole, and have its pieces. -/
theorem exists_items? (text : List Char) :
    ∃ items, items? text = some items ∧ items.flatMap Item.pieces = pieces text ∧
      ∀ item ∈ items, item.IsWithin text.length := by
  obtain ⟨items, hloop, h⟩ := scans_piecesFrom [] (StandsAt.start text) []
  exact ⟨items, hloop, h⟩

theorem isWithin_of_items? {items : List Item} {item : Item} (h : items? text = some items) (hitem : item ∈ items) :
    item.IsWithin text.length := by
  obtain ⟨found, hfound, -, hall⟩ := exists_items? text
  cases hfound.symm.trans h
  exact hall item hitem

/-! ## Adapted sheets -/

/-- The adapted body of a rule, its declarations cut out of it. -/
def adaptedBody? (st : StyleSettings) (selector body : List Char) : Option (Option (List Char)) := do
  let (lines, changed) := adaptAll st selector [] (← declarations? body)
  some (if changed then some ((lines.flatMap fun l => '\n' :: '\t' :: l ++ [';']) ++ ['\n']) else none)

/-- A style rule adapted, the blanks around its selector cut out of its prelude. -/
def adaptedRule? (st : StyleSettings) (prelude body raw : List Char) : Option (List Char) := do
  let selector := Text.trim prelude
  let safe := safeSelector selector
  let start ← back? (byteSize prelude) (byteSize (Text.trimLeft prelude))
  let lead ← slice? prelude 0 start
  let tail ← slice? prelude (byteSize lead + byteSize selector) (byteSize prelude)
  match ← adaptedBody? st safe body with
  | some lines => some (lead ++ safe ++ " \x7b".toList ++ lines ++ ['}'])
  | none => some (if safe = selector then raw else lead ++ safe ++ tail ++ '{' :: body ++ ['}'])

/-- A stylesheet adapted, item by item; an at-rule in whose block there are blocks has a stylesheet again. -/
def adaptedSheet? (st : StyleSettings) (text : List Char) : Option (List Char) :=
  match hitems : items? text with
  | none => none
  | some items => do
    let adapted ← items.attach.mapM fun ⟨item, hitem⟩ =>
      match item with
      | .verbatim left => some left
      | .block prelude body raw =>
        if (Text.trim prelude).head? == some '@' then
          if body.contains '{' then do
            have := (isWithin_of_items? hitems hitem).2
            let inner ← adaptedSheet? st body
            some (prelude ++ '{' :: inner ++ ['}'])
          else some raw
        else adaptedRule? st prelude body raw
    some adapted.flatten
termination_by text.length

theorem adaptedBody?_eq (st : StyleSettings) (selector body : List Char) :
    adaptedBody? st selector body = some (adaptBody? st selector body) := by
  rw [adaptedBody?, declarations?_eq]
  rfl

/-- The blanks around a selector are cut out of the prelude that it stands in. -/
theorem adaptedRule?_eq (st : StyleSettings) (prelude body : List Char) :
    adaptedRule? st prelude body (prelude ++ '{' :: body ++ ['}']) = some (adaptRule st prelude body) := by
  have hleft : prelude = leadingBlanks prelude ++ Text.trimLeft prelude := List.takeWhile_append_dropWhile.symm
  have hright : Text.trimLeft prelude = Text.trim prelude ++ trailingBlanks prelude := by
    obtain ⟨r, -, hr⟩ := Text.exists_eq_append_trimRight (Text.trimLeft prelude)
    have hdrop : trailingBlanks prelude = r := by
      rw [trailingBlanks, hr]
      exact List.drop_left
    rw [hdrop]
    exact hr
  have hsplit : StandsAt prelude 0 (leadingBlanks prelude ++ (Text.trim prelude ++ trailingBlanks prelude)) := by
    rw [← hright, ← hleft]
    exact StandsAt.start prelude
  have hstart : back? (byteSize prelude) (byteSize (Text.trimLeft prelude)) =
      some (byteSize (leadingBlanks prelude)) := by
    have hback := Text.back?_add (byteSize (leadingBlanks prelude)) (byteSize (Text.trimLeft prelude))
    rwa [← Text.byteSize_append, ← hleft] at hback
  have hlead := hsplit.slice?
  have htail := hsplit.append.append.slice?_end
  rw [Nat.zero_add] at hlead htail
  simp only [adaptedRule?, hstart, hlead, htail, adaptedBody?_eq, adaptRule, Option.bind_eq_bind, Option.bind_some]
  cases adaptBody? st (safeSelector (Text.trim prelude)) body with
  | some lines => rfl
  | none => rw [apply_ite some]

/-- **A stylesheet is adapted as the library adapts it**, whatever it is. -/
theorem adaptedSheet?_eq (st : StyleSettings) (text : List Char) :
    adaptedSheet? st text = some (adaptSheet st text) := by
  induction hn : text.length using Nat.strong_induction_on generalizing text with | _ n ih
  subst hn
  obtain ⟨found, hfound, hpieces, -⟩ := exists_items? text
  rw [adaptedSheet?]
  split
  next hnone => cases hfound.symm.trans hnone
  next items hitems =>
    obtain rfl : items = found := Option.some.inj (hitems.symm.trans hfound)
    refine Option.bind_eq_some_iff.2 ⟨items.attach.map fun item => item.1.pieces.flatMap (Piece.adapt st),
      Text.mapM_of_some fun ⟨item, hitem⟩ _ => ?_, ?_⟩
    · have hwithin := isWithin_of_items? hitems hitem
      cases item with
      | verbatim left => exact congrArg some (List.append_nil left).symm
      | block prelude body raw =>
        obtain ⟨rfl, hshort⟩ := hwithin
        rw [Item.pieces, blockPieces]
        dsimp only
        split
        next =>
          split
          next =>
            rw [ih _ hshort body rfl, Option.bind_eq_bind, Option.bind_some, adaptSheet]
            simp [Piece.adapt]
          next => exact congrArg some (List.append_nil _).symm
        next =>
          rw [adaptedRule?_eq]
          exact congrArg some (List.append_nil _).symm
    · rw [adaptSheet, ← hpieces, List.flatMap_assoc, List.flatMap_def,
        List.attach_map_val (f := fun item : Item => item.pieces.flatMap (Piece.adapt st))]

/-! ## All scans -/

/-- Is an offset one behind `i` at which a character begins or the text ends? -/
def IsStop (text : List Char) (i j : Nat) : Prop := i < j ∧ j ≤ byteSize text ∧ Text.IsBoundary text j

theorem isStop_of_isBoundary (hlt : i < j) (h : Text.IsBoundary text j) : IsStop text i j := ⟨hlt, h.le_byteSize, h⟩

/-- **The scans of bytes never cut through a character**, whatever the text.  The scans for class attributes, for
declarations and for the items of a stylesheet find what the library finds, though a backslash takes a byte along that
may be one of several of its character.  Every round of a search moves on.  From between characters on, each search ends
between characters: a closing quote or brace, if there is one, is a character of its own, and a comment or string is
over in front of a character or at the end of the text. -/
theorem scans_between_characters (text : List Char) :
    (Markup.attributes? text = some (Markup.classAttributes text) ∧
      declarations? text = some (splitDeclarations text) ∧
      ∀ st, adaptedSheet? st text = some (adaptSheet st text)) ∧
      ((∀ q, Text.Advances text id (Markup.closingRound text q)) ∧
        Text.Advances text Prod.fst (Markup.attributesRound text) ∧
        (∀ q, Text.Advances text id (stringRound text q)) ∧
        Text.Advances text Prod.fst (closeRound text) ∧
        Text.Advances text DeclarationScan.offset (declarationsRound text) ∧
        Text.Advances text SheetScan.offset (sheetRound text)) ∧
      (∀ q i, Markup.isQuote q = true → Text.IsBoundary text i →
        ∃ found, Markup.closingQuote? text q i = some found ∧
          ∀ close ∈ found, i ≤ close ∧ Text.IsBoundary text close ∧ IsStop text close (close + 1)) ∧
      (∀ i, Text.IsBoundary text i →
        ∃ found, blockEnd? text i = some found ∧
          ∀ close ∈ found, i ≤ close ∧ Text.IsBoundary text close ∧ IsStop text close (close + 1)) ∧
      (∀ i, startAt? text i = some .comment → ∃ stop, commentEnd? text i = some stop ∧ IsStop text i stop) ∧
      ∀ i q, startAt? text i = some (.string q) → ∃ stop, stringEnd? text q i = some stop ∧ IsStop text i stop := by
  refine ⟨⟨Markup.attributes?_eq text, declarations?_eq text, fun st => adaptedSheet?_eq st text⟩,
    ⟨Markup.advances_closingRound text, Markup.advances_attributesRound text, advances_stringRound text,
      advances_closeRound text, advances_declarationsRound text, advances_sheetRound text⟩,
    fun q i hq hi => ?_, fun i hi => ?_, fun i h => ?_, fun i q h => ?_⟩
  · obtain ⟨rest, hplace⟩ := id hi
    refine ⟨_, Markup.closingQuote?_eq hq hplace, fun close hclose => ?_⟩
    obtain ⟨hle, hclose, hbehind⟩ := Markup.isBoundary_of_closingQuote? hq hi
      ((Markup.closingQuote?_eq hq hplace).trans (congrArg some hclose))
    exact ⟨hle, hclose, isStop_of_isBoundary (Nat.lt_succ_self close) hbehind⟩
  · obtain ⟨rest, hplace⟩ := id hi
    refine ⟨_, blockEnd?_eq hplace, fun close hclose => ?_⟩
    obtain ⟨hle, hclose, hbehind⟩ := isBoundary_blockEnd? hi ((blockEnd?_eq hplace).trans (congrArg some hclose))
    exact ⟨hle, hclose, isStop_of_isBoundary (Nat.lt_succ_self close) hbehind⟩
  · obtain ⟨stop, hstop, hlt, hbehind⟩ := isBoundary_commentEnd? h
    exact ⟨stop, hstop, isStop_of_isBoundary hlt hbehind⟩
  · obtain ⟨stop, hstop, hlt, hbehind⟩ := isBoundary_stringEnd? h
    exact ⟨stop, hstop, isStop_of_isBoundary hlt hbehind⟩

/-- A backslash in front of a character of three bytes, in a value, and in a string that is not closed, with a comment
between them. -/
theorem scans_between_characters_escaped :
    let text := "class=\"\\€\"/*€*/a\x7bb:'\\€;c".toList
    Markup.attributes? text = some [⟨.static, "\\€".toList⟩] ∧
      declarations? text = some ["class=\"\\€\"a\x7bb:'\\€;c".toList] ∧
      (Markup.isQuote '"' = true ∧ Text.IsBoundary text 7 ∧ ∃ found, Markup.closingQuote? text '"' 7 = some found) ∧
      (Text.IsBoundary text 21 ∧ ∃ found, blockEnd? text 21 = some found) ∧
      (startAt? text 12 = some .comment ∧ ∃ stop, commentEnd? text 12 = some stop ∧ IsStop text 12 stop) ∧
      (startAt? text 23 = some (.string '\'') ∧ ∃ stop, stringEnd? text '\'' 23 = some stop ∧ IsStop text 23 stop) := by
  intro text
  obtain ⟨⟨hattributes, hdeclarations, -⟩, -, hquote, hblock, hcomment, hstring⟩ := scans_between_characters text
  have hvalue : Text.IsBoundary text 7 := ⟨_, "class=\"".toList, rfl, rfl⟩
  have hbody : Text.IsBoundary text 21 := ⟨_, "class=\"\\€\"/*€*/a\x7b".toList, rfl, rfl⟩
  have hstart : startAt? text 12 = some .comment := rfl
  have hopen : startAt? text 23 = some (.string '\'') := rfl
  obtain ⟨quote, hquote, -⟩ := hquote '"' 7 (by decide) hvalue
  obtain ⟨brace, hbrace, -⟩ := hblock 21 hbody
  exact ⟨hattributes.trans (by decide +kernel), hdeclarations.trans (by decide +kernel),
    ⟨by decide, hvalue, quote, hquote⟩, ⟨hbody, brace, hbrace⟩, ⟨hstart, hcomment 12 hstart⟩,
    ⟨hopen, hstring 23 '\'' hopen⟩⟩

end ClientBuild.Style
