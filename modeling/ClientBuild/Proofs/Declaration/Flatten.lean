import ClientBuild.Proofs.Declaration.Brace
import ClientBuild.Proofs.Text.Words

/-!
# Flattening a balanced service type

Wherever an object starts in a balanced text it closes there, around a balanced text again
(`Balanced.nestedObjects`).  So neither one level (`Balanced.currentLevel`) nor the objects inside
others, however deep (`Balanced.collect`), run into a brace without its partner, and flattening a
text whose service type is balanced succeeds (`flatten_of_balanced`).
-/

namespace ClientBuild.Declaration

/-! ## Objects of a balanced text -/

/-- The start of an object reaches behind an opening brace. -/
theorem exists_of_objectStart? {s key : List Char} {n : Nat}
    (h : objectStart? s = some (key, n)) : ∃ w u, s = w ++ '{' :: u ∧ n = w.length + 1 := by
  rw [objectStart?] at h
  dsimp only at h
  split at h
  · cases h
  · split at h
    next t ht =>
      split at h
      next u hu =>
        cases h
        have hs : s = s.takeWhile Text.isWordAscii ++
            ((s.dropWhile Text.isWordAscii).takeWhile Text.isBlank ++
              ':' :: (t.takeWhile Text.isBlank ++ '{' :: u)) := by
          rw [← hu, Text.trimLeft, List.takeWhile_append_dropWhile, ← ht, Text.trimLeft,
            List.takeWhile_append_dropWhile, List.takeWhile_append_dropWhile]
        refine ⟨s.takeWhile Text.isWordAscii ++ (s.dropWhile Text.isWordAscii).takeWhile Text.isBlank
          ++ ':' :: t.takeWhile Text.isBlank, u, ?_, ?_⟩
        · simpa using hs
        · simp only [Text.blanksBefore, List.length_append, List.length_cons]
          omega
      next => cases h
    next => cases h

/-- Everything that the search finds in a balanced text is an object that closes. -/
theorem Balanced.nestedObject? {size n : Nat} {a s : List Char}
    {x : Except Failure (Option NestedObject)} (h : Balanced (a ++ s))
    (hx : nestedObject? size s = some (x, n)) :
    ∃ found, x = .ok found ∧ ∀ o ∈ found, Balanced o.body := by
  obtain ⟨⟨key, m⟩, hstart, heq⟩ := Option.map_eq_some_iff.1 hx
  obtain ⟨w, u, rfl, rfl⟩ := exists_of_objectStart? hstart
  rw [← List.append_assoc] at h
  obtain ⟨body, rest, hbody, hbalanced⟩ := h.exists_takeBraced?
  have hdrop : (w ++ '{' :: u).drop (w.length + 1) = u := by simp
  dsimp only at heq
  rw [hdrop, hbody] at heq
  cases body with
  | nil =>
    cases heq
    exact ⟨none, rfl, fun o ho => nomatch ho⟩
  | cons c body =>
    cases heq
    refine ⟨some _, rfl, fun o ho => ?_⟩
    cases ho
    exact hbalanced

theorem exists_mapM_id {ε α : Type} {P : α → Prop} : ∀ {xs : List (Except ε α)},
    (∀ x ∈ xs, ∃ y, x = .ok y ∧ P y) → ∃ ys, xs.mapM id = .ok ys ∧ ∀ y ∈ ys, P y
  | [], _ => ⟨[], rfl, fun _ h => nomatch h⟩
  | x :: xs, h => by
    obtain ⟨hx, hxs⟩ := List.forall_mem_cons.1 h
    obtain ⟨y, rfl, hy⟩ := hx
    obtain ⟨ys, hok, hys⟩ := exists_mapM_id hxs
    exact ⟨y :: ys, by rw [List.mapM_cons, hok]; rfl, List.forall_mem_cons.2 ⟨hy, hys⟩⟩

/-- **The objects of a balanced text close, and what they hold is balanced.** -/
theorem Balanced.nestedObjects {content : List Char} (h : Balanced content) :
    ∃ os, nestedObjects content = .ok os ∧ ∀ o ∈ os, Balanced o.body := by
  have hfind : ∀ x ∈ Text.findAll (Declaration.nestedObject? (Text.byteSize content)) content,
      ∃ found, x = .ok found ∧ ∀ o ∈ found, Balanced o.body := by
    intro x hx
    obtain ⟨a, s, n, rfl, hs⟩ := Text.exists_of_mem_findAll hx
    exact h.nestedObject? hs
  obtain ⟨found, hfound, hall⟩ := exists_mapM_id hfind
  refine ⟨found.filterMap id, nestedObjects_eq_ok.2 ⟨found, hfound, rfl⟩, fun o ho => ?_⟩
  obtain ⟨x, hx, rfl⟩ := List.mem_filterMap.1 ho
  exact hall _ hx o rfl

theorem Balanced.currentLevel {content : List Char} (h : Balanced content) :
    ∃ level, currentLevel content = .ok level := by
  obtain ⟨os, hos, _⟩ := h.nestedObjects
  exact ⟨oneLine content os, by rw [Declaration.currentLevel, hos]; rfl⟩

/-! ## Objects inside objects -/

/-- One object of a text: its own shape, and those of the objects in it. -/
def collectObject (r : Shapes) (o : NestedObject) : Except Failure Shapes := do
  let shape ← currentLevel (Text.trim o.body)
  collect (Text.trim o.body) (r.add (String.ofList o.key) shape)

theorem collect_eq (content : List Char) (r : Shapes) :
    collect content r = (nestedObjects content).bind fun os => os.foldlM collectObject r := by
  rw [collect]
  split
  next e he => rw [he]; rfl
  next os hos =>
    have hattach : os.attach.foldlM (fun r o => collectObject r o.1) r =
        os.foldlM collectObject r := by
      rw [List.foldlM_subtype (fun _ _ _ => rfl), List.unattach_attach]
    rw [hos]
    exact hattach

theorem exists_foldlM {ε α β : Type} {f : β → α → Except ε β} : ∀ {xs : List α} (b : β),
    (∀ a ∈ xs, ∀ b, ∃ b', f b a = .ok b') → ∃ b', xs.foldlM f b = .ok b'
  | [], b, _ => ⟨b, rfl⟩
  | a :: xs, b, h => by
    obtain ⟨ha, hxs⟩ := List.forall_mem_cons.1 h
    obtain ⟨b', hb'⟩ := ha b
    obtain ⟨last, hlast⟩ := exists_foldlM b' hxs
    exact ⟨last, by rw [List.foldlM_cons, hb']; exact hlast⟩

/-- **The objects inside others close as well, at any depth.** -/
theorem Balanced.collect {content : List Char} (h : Balanced content) (r : Shapes) :
    ∃ r', collect content r = .ok r' := by
  obtain ⟨os, hos, hbodies⟩ := h.nestedObjects
  rw [collect_eq, hos]
  refine exists_foldlM r fun o ho r => ?_
  have hinner := (hbodies o ho).trim
  obtain ⟨level, hlevel⟩ := hinner.currentLevel
  obtain ⟨r', hr'⟩ := hinner.collect (r.add (String.ofList o.key) level)
  exact ⟨r', by rw [collectObject, hlevel]; exact hr'⟩
termination_by content.length
decreasing_by exact length_of_mem_nestedObjects hos ho

/-! ## The service type -/

/-- The text of a type behind its braces without line breaks and tabs. -/
def unbroken (s : List Char) : List Char := s.filter fun c => c != '\n' && c != '\t'

theorem rise_unbroken (s : List Char) : rise (unbroken s) = rise s := by
  simp [rise, unbroken, List.count_filter]

theorem Balanced.unbroken {s : List Char} (h : Balanced s) : Balanced (unbroken s) := by
  refine ⟨by rw [rise_unbroken, h.1], fun a ha => ?_⟩
  obtain ⟨b, hb, rfl⟩ := List.prefix_filter_iff.1 ha
  exact rise_unbroken b ▸ h.2 b hb

/-- The service type of a text is the one behind the first header. -/
theorem breakOn?_serviceHeader {before : List Char} (hbefore : ¬ serviceHeader <:+: before)
    (service : List Char) :
    Text.breakOn? serviceHeader (before ++ serviceHeader ++ service) = some (before, service) := by
  have hend : serviceHeader = serviceHeader.dropLast ++ ['{'] := by decide
  have hopen : '{' ∉ serviceHeader.dropLast := by decide
  refine Text.breakOn?_append service fun h => hbefore ?_
  rw [hend] at h ⊢
  rw [List.dropLast_concat] at h
  exact Text.infix_of_infix_append hopen h

/-- **A balanced service type is lifted**, where its header stands for the first time. -/
theorem flatten_of_balanced {before service body rest : List Char}
    (hbefore : ¬ serviceHeader <:+: before) (hbody : Balanced body)
    (hservice : unbroken service = body ++ '}' :: rest) :
    ∃ level shapes, currentLevel (Text.trim body) = .ok level ∧
      Declaration.collect (Text.trim body) {} = .ok shapes ∧
      flatten (before ++ serviceHeader ++ service) = .ok
        { text := before ++ (shapes.first.flatMap fun (k, shape) => interfaceText k shape) ++
            "\nexport type Service = \x7b ".toList ++ level ++ " \x7d".toList
          collisions := shapes.collisions } := by
  obtain ⟨level, hlevel⟩ := hbody.trim.currentLevel
  obtain ⟨shapes, hshapes⟩ := hbody.trim.collect {}
  refine ⟨level, shapes, hlevel, hshapes, ?_⟩
  have hblock : takeBraced? 0 (unbroken service) = some (body, rest) :=
    hservice ▸ hbody.takeBraced? rest
  rw [flatten, breakOn?_serviceHeader hbefore]
  dsimp only
  rw [← unbroken, hblock]
  dsimp only
  rw [hlevel, hshapes]
  rfl

/-- The service type on a line of its own. -/
theorem flatten_eq_ok {before service body rest : List Char}
    (hbefore : ¬ serviceHeader <:+: before) (hbody : Balanced body)
    (hservice : unbroken service = body ++ '}' :: rest) :
    ∃ level shapes, currentLevel (Text.trim body) = .ok level ∧
      Declaration.collect (Text.trim body) {} = .ok shapes ∧
      flatten (before ++ '\n' :: serviceHeader ++ service) = .ok
        { text := before ++ ['\n'] ++
            (shapes.first.flatMap fun (k, shape) => interfaceText k shape) ++
            "\nexport type Service = \x7b ".toList ++ level ++ " \x7d".toList
          collisions := shapes.collisions } := by
  have hbreak : ¬ serviceHeader <:+: before ++ ['\n'] := by
    rw [Text.infix_append_cons_iff (by decide)]
    rintro (h | h)
    · exact hbefore h
    · exact absurd h (by decide)
  have hsplit : before ++ '\n' :: serviceHeader ++ service = before ++ ['\n'] ++ serviceHeader ++ service := by
    simp
  rw [hsplit]
  exact flatten_of_balanced hbreak hbody hservice

end ClientBuild.Declaration
