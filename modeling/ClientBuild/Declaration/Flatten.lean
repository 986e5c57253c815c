import ClientBuild.Assoc
import ClientBuild.Declaration.Brace
import ClientBuild.Declaration.Collision
import ClientBuild.Declaration.Name

/-!
# Flattening the service type

The type of the service is a tree of object types.  Every object type below it gets an interface
of its own, named for its key; of different types under one key the first one stays.
-/

namespace ClientBuild.Declaration

/-- A flattened text and what was left out of it. -/
structure Flattened where
  text : List Char
  collisions : List Collision

/-- The line that the service type begins with. -/
def serviceHeader : List Char := "export type Service = \x7b".toList

/-- A key with an object type behind it. -/
structure NestedObject where
  key : List Char
  /-- What stands between the braces; it is not empty. -/
  body : List Char
  /-- The key, the colon and the object as they are written. -/
  written : List Char

/-- A key, a colon and an opening brace: the key and the length. -/
def objectStart? : Text.Pattern (List Char) := fun s =>
  let key := s.takeWhile Text.isWordAscii
  if key.isEmpty then none
  else
    let rest := s.dropWhile Text.isWordAscii
    match Text.trimLeft rest with
    | ':' :: t =>
      match Text.trimLeft t with
      | '{' :: _ => some (key, key.length + Text.blanksBefore rest + Text.blanksBefore t + 2)
      | _ => none
    | _ => none

/-- A nested object at the start of a text, with nothing where it is empty; the length reaches behind
its opening brace only, so that the objects inside are found as well.  An object that does not close
is a failure; `size` is the number of bytes of the text that is searched. -/
def nestedObject? (size : Nat) : Text.Pattern (Except Failure (Option NestedObject)) := fun s =>
  (objectStart? s).map fun (key, n) =>
    match takeBraced? 0 (s.drop n) with
    | some ([], _) => (.ok none, n)
    | some (body, _) => (.ok (some ⟨key, body, s.take (n + body.length + 1)⟩), n)
    | none => (.error (.unbalancedBraces (size - Text.byteSize (s.drop n))), n)

/-- The nested objects of a text at any depth that are not empty, in the order of the text. -/
def nestedObjects (content : List Char) : Except Failure (List NestedObject) := do
  let found ← (Text.findAll (nestedObject? (Text.byteSize content)) content).mapM id
  pure (found.filterMap id)

/-- A run of semicolons becomes one with a blank. -/
def semicolonRun : Text.Pattern (List Char) := fun s =>
  let n := (s.takeWhile (· == ';')).length
  if n = 0 then none else some ([';', ' '], n)

/-- A run of blanks becomes a space. -/
def blankRun : Text.Pattern (List Char) := fun s =>
  let n := (s.takeWhile Text.isBlank).length
  if n = 0 then none else some ([' '], n)

/-- Put the name of its interface in place of a nested object, where it first stands. -/
def refer (content : List Char) (o : NestedObject) : List Char :=
  Text.replaceFirst o.written (o.key ++ ": ".toList ++ interfaceName o.key ++ [';']) content

/-- A text with objects in it replaced by the names of their interfaces, on one line. -/
def oneLine (content : List Char) (os : List NestedObject) : List Char :=
  Text.trim (Text.replaceMatches blankRun (Text.replaceMatches semicolonRun (os.foldl refer content)))

/-- A text with its nested objects replaced by the names of their interfaces. -/
def currentLevel (content : List Char) : Except Failure (List Char) :=
  (nestedObjects content).map (oneLine content)

/-- The shapes found so far, one for every key in order of first appearance, and the collisions. -/
structure Shapes where
  first : List (String × List Char) := []
  collisions : List Collision := []
deriving Inhabited

namespace Shapes

/-- The collision of a key whose shape is not the one that stays. -/
def collision (key : String) (shape : List Char) : Collision :=
  ⟨.flattenKey, key, String.ofList ("dropped shape \x7b ".toList ++ shape ++ " \x7d".toList)⟩

/-- Add the shape of a key.  The first shape of a key stays; another one is a collision, once. -/
def add (r : Shapes) (key : String) (shape : List Char) : Shapes :=
  match Assoc.get? key r.first with
  | none => { r with first := Assoc.insert key shape r.first }
  | some stays =>
    if stays = shape ∨ collision key shape ∈ r.collisions then r
    else { r with collisions := r.collisions ++ [collision key shape] }

end Shapes

/-! ### Nested objects are shorter than the text around them -/

theorem length_nestedObject? {size n : Nat} {s : List Char} {o : NestedObject}
    (h : nestedObject? size s = some (.ok (some o), n)) : o.body.length < s.length := by
  obtain ⟨⟨key, m⟩, _, heq⟩ := Option.map_eq_some_iff.1 h
  dsimp only at heq
  split at heq
  · cases heq
  · next hbody =>
    cases heq
    exact Nat.lt_of_lt_of_le (length_takeBraced? hbody) (by simp)
  · cases heq

theorem mem_of_mapM_id {ε α : Type} {y : α} : ∀ {xs : List (Except ε α)} {ys : List α},
    xs.mapM id = .ok ys → y ∈ ys → .ok y ∈ xs
  | [], _, h, hy => by cases h; cases hy
  | .error e :: xs, _, h, _ => by simp [List.mapM_cons, bind, Except.bind] at h
  | .ok x :: xs, _, h, hy => by
    cases hxs : xs.mapM id with
    | error e => simp [List.mapM_cons, hxs, bind, Except.bind] at h
    | ok zs =>
      simp only [List.mapM_cons, hxs, id, bind, Except.bind, pure, Except.pure,
        Except.ok.injEq] at h
      subst h
      rcases List.mem_cons.1 hy with rfl | hy
      · exact List.mem_cons_self
      · exact List.mem_cons_of_mem _ (mem_of_mapM_id hxs hy)

theorem nestedObjects_eq_ok {content : List Char} {os : List NestedObject} :
    nestedObjects content = .ok os ↔ ∃ found,
      (Text.findAll (nestedObject? (Text.byteSize content)) content).mapM id = .ok found ∧
        found.filterMap id = os := by
  rw [nestedObjects]
  cases (Text.findAll (nestedObject? (Text.byteSize content)) content).mapM id with
  | error e => simp [bind, Except.bind]
  | ok found => simp [bind, Except.bind, pure, Except.pure]

theorem length_of_mem_nestedObjects {content : List Char} {os : List NestedObject}
    {o : NestedObject} (h : nestedObjects content = .ok os) (ho : o ∈ os) :
    (Text.trim o.body).length < content.length := by
  obtain ⟨found, hfound, rfl⟩ := nestedObjects_eq_ok.1 h
  obtain ⟨_, hmem, rfl⟩ := List.mem_filterMap.1 ho
  obtain ⟨front, rest, n, rfl, hrest⟩ := Text.exists_of_mem_findAll (mem_of_mapM_id hfound hmem)
  have hbody := length_nestedObject? hrest
  have htrim := Text.length_trim_le o.body
  rw [List.length_append]
  omega

/-- Add the shapes of the nested objects of a text, and behind each one those of the objects in
it once more. -/
def collect (content : List Char) (r : Shapes) : Except Failure Shapes :=
  match _hos : nestedObjects content with
  | .error e => .error e
  | .ok os =>
    os.attach.foldlM (fun r ⟨o, _ho⟩ => do
      let inner := Text.trim o.body
      let shape ← currentLevel inner
      collect inner (r.add (String.ofList o.key) shape)) r
termination_by content.length
decreasing_by exact length_of_mem_nestedObjects _hos _ho

/-- The interface of a key. -/
def interfaceText (key : String) (shape : List Char) : List Char :=
  "\nexport interface ".toList ++ interfaceName key.toList ++ " \x7b ".toList ++ shape ++
    " \x7d\n".toList

/-- Lift the nested objects of the service type, which is the last declaration of a text. -/
def flatten (text : List Char) : Except Failure Flattened :=
  match Text.breakOn? serviceHeader text with
  | none => .error .missingServiceBlock
  | some (before, service) =>
    match takeBraced? 0 (service.filter fun c => c != '\n' && c != '\t') with
    | none => .error (.unbalancedBraces (Text.byteSize serviceHeader))
    | some (body, _) => do
      let inner := Text.trim body
      let level ← currentLevel inner
      let shapes ← collect inner {}
      pure
        { text := before ++ (shapes.first.flatMap fun (k, shape) => interfaceText k shape) ++
            "\nexport type Service = \x7b ".toList ++ level ++ " \x7d".toList
          collisions := shapes.collisions }

/-- Split a declared name around what it extends: the text and what stands behind it. -/
def extendsPart? (s : List Char) : Option (List Char × List Char) := do
  let blanks := s.takeWhile Text.isBlank
  let behind ← Text.after? "extends".toList (s.dropWhile Text.isBlank)
  let gap := behind.takeWhile Text.isBlank
  let base := (behind.dropWhile Text.isBlank).takeWhile Text.isWordAscii
  if gap.isEmpty || base.isEmpty then none
  else
    pure (blanks ++ "extends".toList ++ gap ++ base,
      (behind.dropWhile Text.isBlank).dropWhile Text.isWordAscii)

/-- What stands between braces that hold no closing brace, behind any blanks. -/
def plainBlock? : Text.Pattern (List Char) := fun s =>
  match Text.trimLeft s with
  | '{' :: t =>
    let body := t.takeWhile (· != '}')
    if (t.dropWhile (· != '}')).isEmpty then none
    else some (body, Text.blanksBefore s + body.length + 2)
  | _ => none

/-- The pattern of an interface behind its keyword, the name being the first `size` characters. -/
def interfaceNamed? (size : Nat) : Text.Pattern (List Char) := fun s => do
  let name := s.take size
  let behind := s.drop size
  let withBase := (extendsPart? behind).bind fun (base, rest) =>
    (plainBlock? rest).map fun (body, n) => (base, body, base.length + n)
  let plain := (plainBlock? behind).map fun (body, n) => ([], body, n)
  let (base, body, n) ← withBase <|> plain
  pure ("type ".toList ++ name ++ base ++ " = \x7b".toList ++ body ++ ['}'], size + n)

/-- The pattern of an interface without nested braces.  Its name is as long as possible; it is
shorter than the word only when the word ends in `extends`. -/
def plainInterface : Text.Pattern (List Char) := fun s => do
  let behind ← Text.after? "interface".toList s
  let blanks := Text.blanksBefore behind
  let nameAt := Text.trimLeft behind
  let word := nameAt.takeWhile Text.isWordAscii
  if blanks = 0 || word.isEmpty then none
  else
    let short := word.length - "extends".length
    let found := interfaceNamed? word.length nameAt <|>
      (if 0 < short then interfaceNamed? short nameAt else none)
    found.map fun (text, n) => (text, "interface".length + blanks + n)

/-- Interfaces become types.  One with braces inside or with type parameters stays. -/
def interfacesToTypes (code : List Char) : List Char := Text.replaceMatches plainInterface code

end ClientBuild.Declaration
