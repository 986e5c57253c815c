import ClientBuild.Style.Declaration
import ClientBuild.Style.SafeName

/-!
# Stylesheets

A stylesheet falls into pieces: style rules, and the text between them, which stays as it is.
Comments and statements up to their semicolon stand alone; an at-rule is opened up, so that the
rules in its block are pieces of their own.  Selectors get safe names and declarations are
adapted; a rule in which nothing changes keeps its spelling.
-/

namespace ClientBuild.Style

/-- A piece of a stylesheet. -/
inductive Piece where
  /-- Text that stays as it is. -/
  | verbatim (text : List Char)
  /-- A style rule: what stands in front of its block, and what stands in it. -/
  | rule (prelude body : List Char)
deriving DecidableEq, Repr, Inhabited

/-- The pieces of a stylesheet; `pending` is what has been read of the current one, reversed. -/
def piecesFrom (pending : List Char) : List Char → List Piece
  | [] => [.verbatim pending.reverse]
  | '/' :: '*' :: s =>
    let text := pending.reverse ++ '/' :: '*' :: (takeComment s).1
    have := length_takeComment_snd s
    if Text.startsWith ['/', '*'] (Text.trimLeft text) then
      .verbatim text :: piecesFrom [] (takeComment s).2
    else piecesFrom text.reverse (takeComment s).2
  | c :: s =>
    if isSheetQuote c then
      have := length_takeString_snd c s
      piecesFrom ((takeString c s).1.reverse ++ c :: pending) (takeString c s).2
    else if c = ';' then .verbatim (c :: pending).reverse :: piecesFrom [] s
    else if c = '{' then
      match h : takeBlock? .code 0 s with
      | none => [.verbatim (pending.reverse ++ c :: s)]
      | some (body, rest) =>
        have := length_takeBlock? h
        let prelude := pending.reverse
        if (Text.trim prelude).head? == some '@' then
          if body.contains '{' then
            .verbatim (prelude ++ ['{']) :: piecesFrom [] body ++ .verbatim ['}'] ::
              piecesFrom [] rest
          else .verbatim (prelude ++ '{' :: body ++ ['}']) :: piecesFrom [] rest
        else .rule prelude body :: piecesFrom [] rest
    else piecesFrom (c :: pending) s
termination_by s => s.length

/-- The pieces of a stylesheet. -/
def pieces (sheet : List Char) : List Piece := piecesFrom [] sheet

/-- The safe form of a selector; those of the platform stay. -/
def safeSelector (selector : List Char) : List Char :=
  if Text.contains "uni-".toList selector || Text.contains ".button-hover".toList selector then
    selector
  else SafeName.encode selector

/-- The blanks in front of a text. -/
def leadingBlanks (s : List Char) : List Char := s.takeWhile Text.isBlank

/-- The blanks behind the text that is not blank. -/
def trailingBlanks (s : List Char) : List Char :=
  (Text.trimLeft s).drop (Text.trim s).length

/-- A style rule adapted: its prelude, which is the selector with the blanks around it, and its
body. -/
def adaptRule (st : StyleSettings) (prelude body : List Char) : List Char :=
  let selector := Text.trim prelude
  let safe := safeSelector selector
  match adaptBody? st safe body with
  | some lines => leadingBlanks prelude ++ safe ++ " \x7b".toList ++ lines ++ ['}']
  | none =>
    if safe = selector then prelude ++ '{' :: body ++ ['}']
    else leadingBlanks prelude ++ safe ++ trailingBlanks prelude ++ '{' :: body ++ ['}']

namespace Piece

/-- The text that a piece stands for. -/
def source : Piece → List Char
  | verbatim text => text
  | rule prelude body => prelude ++ '{' :: body ++ ['}']

/-- A piece adapted to the style engine. -/
def adapt (st : StyleSettings) : Piece → List Char
  | verbatim text => text
  | rule prelude body => adaptRule st prelude body

/-- The numbers of the lengths that are converted in a piece. -/
def numbers : Piece → List (List Char)
  | verbatim _ => []
  | rule prelude body => convertedNumbers (safeSelector (Text.trim prelude)) body

end Piece

/-- A stylesheet adapted to the style engine. -/
def adaptSheet (st : StyleSettings) (sheet : List Char) : List Char :=
  (pieces sheet).flatMap (Piece.adapt st)

/-- A stylesheet adapted to the style engine, or `none` if nothing changes.  It fails if a length
cannot be written. -/
def adaptSheet? (st : StyleSettings) (sheet : List Char) : Except Failure (Option (List Char)) :=
  let out := adaptSheet st sheet
  (checkPlaces st ((pieces sheet).flatMap Piece.numbers)).map fun _ =>
    if out = sheet then none else some out

/-- Nothing of a stylesheet is lost between its pieces. -/
theorem source_piecesFrom (pending s : List Char) :
    (piecesFrom pending s).flatMap Piece.source = pending.reverse ++ s := by
  fun_induction piecesFrom pending s with
  | case1 => simp [Piece.source]
  | case2 _ _ text _ h ih =>
    simp [text] at h
    simp [h, Piece.source, ih, takeComment_append]
  | case3 _ _ text _ h ih =>
    simp [text] at h ih
    simp [h, ih, takeComment_append]
  | case4 => simp_all [takeString_append]
  | case7 _ _ _ _ hb _ p => simp_all [p, Piece.source, eq_of_takeBlock? hb]
  | case8 _ _ _ _ hb _ p => simp_all [p, Piece.source, eq_of_takeBlock? hb]
  | case9 _ _ _ _ hb _ p => simp_all [p, Piece.source, eq_of_takeBlock? hb]
  | _ => simp_all [Piece.source]

end ClientBuild.Style
