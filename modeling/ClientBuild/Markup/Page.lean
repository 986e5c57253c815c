import ClientBuild.Text.Blank
import ClientBuild.Text.Search
import ClientBuild.Text.WordTable

/-!
# Pages

A page holds template blocks and a script block.  `templateRanges` finds the contents of the
outermost template blocks and `templateNodes` the tags in them; both count offsets in bytes.
-/

namespace ClientBuild.Markup

/-- The beginning of a template block. -/
def templateOpen : List Char := "<template".toList

/-- The end of a template block. -/
def templateClose : List Char := "</template>".toList

/-- Split around the end of a template block, `depth` further blocks being open; `inTag` while the
tag that opens a nested block is not over. -/
def takeTemplate? : (inTag : Bool) → (depth : Nat) → List Char →
    Option (List Char × List Char)
  | _, _, [] => none
  | true, d, c :: s =>
    (if c = '>' then takeTemplate? false (d + 1) s else takeTemplate? true d s).map
      fun p => (c :: p.1, p.2)
  | false, d, c :: s =>
    match Text.after? templateClose (c :: s), d with
    | some rest, 0 => some ([], rest)
    | some _, d + 1 => (takeTemplate? false d s).map fun p => (c :: p.1, p.2)
    | none, d =>
      (takeTemplate? (Text.startsWith templateOpen (c :: s)) d s).map fun p => (c :: p.1, p.2)

/-- A part of a text and its offset in bytes. -/
structure Located where
  start : Nat
  text : List Char
deriving DecidableEq, Repr, Inhabited

/-- The offset behind a part. -/
def Located.stop (l : Located) : Nat := l.start + Text.byteSize l.text

/-- The contents of the outermost template blocks behind `skip` more characters. -/
def templateRangesFrom : (skip offset : Nat) → List Char → List Located
  | _, _, [] => []
  | k + 1, o, c :: s => templateRangesFrom k (o + c.utf8Size) s
  | 0, o, c :: s =>
    if Text.startsWith templateOpen (c :: s) then
      match Text.breakOn? ['>'] (c :: s) with
      | none => []
      | some (tag, behind) =>
        match takeTemplate? false 0 behind with
        | some (content, _) =>
          ⟨o + Text.byteSize tag + 1, content⟩ ::
            templateRangesFrom (tag.length + content.length + templateClose.length)
              (o + c.utf8Size) s
        | none => templateRangesFrom tag.length (o + c.utf8Size) s
    else templateRangesFrom 0 (o + c.utf8Size) s

/-- The contents of the outermost template blocks, in order. -/
def templateRanges (code : List Char) : List Located := templateRangesFrom 0 0 code

/-- What stands between the angle brackets of a tag. -/
def tagInner? : List Char → Option (List Char)
  | '<' :: s =>
    let inner := s.takeWhile (· != '>')
    if inner.isEmpty || (s.dropWhile (· != '>')).isEmpty then none else some inner
  | _ => none

/-- Is the tag one that ends an element or belongs to a template block? -/
def isSkippedTag (inner : List Char) : Bool :=
  Text.startsWith ['/'] inner || Text.startsWith "template".toList inner

/-- The tags behind `skip` more characters. -/
def tagsFrom : (skip offset : Nat) → List Char → List Located
  | _, _, [] => []
  | k + 1, o, c :: s => tagsFrom k (o + c.utf8Size) s
  | 0, o, c :: s =>
    match tagInner? (c :: s) with
    | none => tagsFrom 0 (o + c.utf8Size) s
    | some inner =>
      let rest := tagsFrom (inner.length + 1) (o + c.utf8Size) s
      if isSkippedTag inner then rest else ⟨o, '<' :: inner ++ ['>']⟩ :: rest

/-- The tags in the template blocks of a page, in order. -/
def templateNodes (code : List Char) : List Located :=
  (templateRanges code).flatMap fun r => tagsFrom 0 r.start r.text

/-- Replace located parts of a text: the parts in `nodes` come in order and do not overlap. -/
def spliceFrom (f : List Char → List Char) : (nodes : List Located) → (skip offset : Nat) →
    List Char → List Char
  | _, _, _, [] => []
  | ns, k + 1, o, c :: s => spliceFrom f ns k (o + c.utf8Size) s
  | [], 0, _, s => s
  | n :: ns, 0, o, c :: s =>
    if n.start = o then f n.text ++ spliceFrom f ns (n.text.length - 1) (o + c.utf8Size) s
    else c :: spliceFrom f (n :: ns) 0 (o + c.utf8Size) s

/-- The content of a script block at the start of a text: what stands in front of the content, the
content, and the rest. -/
def scriptAt? (s : List Char) : Option (List Char × List Char × List Char) := do
  let behind ← Text.after? "<script".toList s
  if (behind.head?.map Text.isWordChar).getD false then none
  else
    let (attributes, rest) ← Text.breakOn? ['>'] behind
    let (content, _) ← Text.breakOn? "</script>".toList rest
    pure ("<script".toList ++ attributes ++ ['>'], content, rest.drop content.length)

/-- Put a line at the beginning of the first script block, whose content is trimmed. -/
def addToScript? (line : List Char) : List Char → Option (List Char)
  | [] => none
  | c :: s =>
    match scriptAt? (c :: s) with
    | some (head, content, rest) =>
      some (head ++ '\n' :: line ++ '\n' :: Text.trim content ++ rest)
    | none => (addToScript? line s).map (c :: ·)

end ClientBuild.Markup
