import ClientBuild.Proofs.Declaration.Groups
import ClientBuild.Proofs.Text.Apart

/-!
# The objects of a text

An object is a label, that is a key with a colon behind it, and a balanced text in braces that is not
empty (`NestedObject.Written`).  Where every brace of a text is closed, the search for objects goes through
the text without failures (`Balanced.nestedObjects_eq`).  It finds an object in front of those in it and
these in front of the ones behind it (`objectsIn_of_written`), so the objects of a text come in groups, one
for each object that stands in no other one (`Row`, `exists_row`).
-/

namespace ClientBuild

namespace Text

variable {α : Type} {m : Pattern α}

/-- A scan goes through two texts one after the other where the first one is read as if it stood alone. -/
theorem findAll_append {b : List Char} : ∀ {a : List Char},
    (∀ x y, a = x ++ y → y ≠ [] → m (y ++ b) = m y) →
    (∀ x y p n, a = x ++ y → m y = some (p, n) → 0 < n ∧ n ≤ y.length) →
      findAll m (a ++ b) = findAll m a ++ findAll m b
  | [], _, _ => rfl
  | c :: s, h, hn => by
    have hhere := h [] (c :: s) rfl (List.cons_ne_nil c s)
    cases hfound : m (c :: s) with
    | none =>
      have hrest : findAll m (s ++ b) = findAll m s ++ findAll m b :=
        findAll_append (fun x y hy => h (c :: x) y (congrArg (c :: ·) hy))
          fun x y p n hy => hn (c :: x) y p n (congrArg (c :: ·) hy)
      rw [hfound, List.cons_append] at hhere
      rw [List.cons_append, findAll_cons_of_none hhere, findAll_cons_of_none hfound, hrest]
    | some p =>
      obtain ⟨p, n⟩ := p
      obtain ⟨hpos, hle⟩ := hn [] (c :: s) p n rfl hfound
      obtain ⟨n, rfl⟩ := Nat.exists_eq_succ_of_ne_zero (Nat.ne_of_gt hpos)
      have hsplit (x y : List Char) (hy : s.drop n = x ++ y) : c :: s = c :: s.take n ++ x ++ y := by
        rw [List.append_assoc, ← hy, List.cons_append, List.take_append_drop]
      have hrest : findAll m (s.drop n ++ b) = findAll m (s.drop n) ++ findAll m b :=
        findAll_append (fun x y hy => h _ y (hsplit x y hy)) fun x y p k hy => hn _ y p k (hsplit x y hy)
      rw [findAll_of_some (hhere.trans hfound) (List.cons_ne_nil c (s ++ b)),
        findAll_of_some hfound (List.cons_ne_nil c s), List.drop_append_of_le_length hle,
        List.drop_succ_cons, hrest, List.cons_append]
termination_by a => a.length
decreasing_by
  · exact Nat.lt_succ_self _
  · simp only [List.length_drop, List.length_cons]
    omega

end Text

namespace Declaration

/-! ## Labels -/

/-- A key and a colon, with blanks behind each. -/
def IsLabel (key v : List Char) : Prop :=
  IsWord key ∧ ∃ b c, (∀ d ∈ b, Text.isBlank d = true) ∧ (∀ d ∈ c, Text.isBlank d = true) ∧
    v = key ++ (b ++ ':' :: c)

section label

variable {key v : List Char}

theorem IsLabel.mem (h : IsLabel key v) {d : Char} (hd : d ∈ v) :
    Text.isWordAscii d = true ∨ Text.isBlank d = true ∨ d = ':' := by
  obtain ⟨hkey, b, c, hb, hc, rfl⟩ := h
  simp only [List.mem_append, List.mem_cons] at hd
  rcases hd with hd | hd | rfl | hd
  · exact Or.inl (hkey.2 d hd)
  · exact Or.inr (Or.inl (hb d hd))
  · exact Or.inr (Or.inr rfl)
  · exact Or.inr (Or.inl (hc d hd))

theorem IsLabel.not_mem (h : IsLabel key v) {d : Char} (hword : Text.isWordAscii d = false)
    (hblank : Text.isBlank d = false) (hcolon : d ≠ ':') : d ∉ v := by
  intro hd
  rcases h.mem hd with hd | hd | hd
  · rw [hd] at hword
    cases hword
  · rw [hd] at hblank
    cases hblank
  · exact hcolon hd

theorem IsLabel.braceFree (h : IsLabel key v) : BraceFree v :=
  ⟨h.not_mem (by decide) (by decide) (by decide), h.not_mem (by decide) (by decide) (by decide)⟩

/-- A label begins with a character of its key. -/
theorem IsLabel.exists_cons (h : IsLabel key v) : ∃ c w, v = c :: w ∧ Text.isWordAscii c = true := by
  obtain ⟨hkey, b, c, _, _, rfl⟩ := h
  obtain ⟨d, key, rfl⟩ := List.exists_cons_of_ne_nil hkey.1
  exact ⟨d, _, rfl, hkey.2 d List.mem_cons_self⟩

theorem takeWhile_blank_append {b : List Char} {c : Char} (hb : ∀ d ∈ b, Text.isBlank d = true)
    (hc : Text.isBlank c = false) (s : List Char) :
    (b ++ c :: s).takeWhile Text.isBlank = b ∧ (b ++ c :: s).dropWhile Text.isBlank = c :: s := by
  rw [List.takeWhile_append_of_pos hb, List.dropWhile_append_of_pos hb]
  simp [hc]

/-- An object starts where a brace is behind a label. -/
theorem objectStart?_of_label (h : IsLabel key v) (s : List Char) :
    objectStart? (v ++ '{' :: s) = some (key, v.length + 1) := by
  obtain ⟨hkey, b, c, hb, hc, rfl⟩ := h
  have hsplit : key ++ (b ++ ':' :: c) ++ '{' :: s = key ++ (b ++ ':' :: (c ++ '{' :: s)) := by simp
  obtain ⟨htake, hdrop⟩ : (key ++ (b ++ ':' :: (c ++ '{' :: s))).takeWhile Text.isWordAscii = key ∧
      (key ++ (b ++ ':' :: (c ++ '{' :: s))).dropWhile Text.isWordAscii = b ++ ':' :: (c ++ '{' :: s) := by
    cases b with
    | nil => exact takeWhile_word_append hkey.2 (by decide) _
    | cons d b =>
      have hd : Text.isWordAscii d = false := by
        cases hword : Text.isWordAscii d with
        | false => rfl
        | true => exact absurd (hb d List.mem_cons_self) (by simp [isBlank_of_word hword])
      exact takeWhile_word_append hkey.2 hd _
  obtain ⟨hcolonTake, hcolon⟩ := takeWhile_blank_append hb (c := ':') (by decide) (c ++ '{' :: s)
  obtain ⟨hopenTake, hopen⟩ := takeWhile_blank_append hc (c := '{') (by decide) s
  have hempty : key.isEmpty = false := by simpa using hkey.1
  rw [hsplit, objectStart?]
  simp only [htake, hdrop, hempty, Text.trimLeft, hcolon, hopen, Text.blanksBefore, hcolonTake, hopenTake]
  simp
  omega

/-- Where an object starts, a label stands in front of a brace. -/
theorem exists_label {s : List Char} {n : Nat} (h : objectStart? s = some (key, n)) :
    ∃ v u, IsLabel key v ∧ s = v ++ '{' :: u ∧ n = v.length + 1 := by
  rw [objectStart?] at h
  dsimp only at h
  split at h
  next => cases h
  next hne =>
    split at h
    next t ht =>
      split at h
      next u hu =>
        cases h
        obtain ⟨b, hb, hblank⟩ := Text.exists_trimLeft_eq ht
        obtain ⟨c, hc, hblank'⟩ := Text.exists_trimLeft_eq hu
        have hword : IsWord (s.takeWhile Text.isWordAscii) :=
          ⟨by simpa using hne, List.all_eq_true.1 List.all_takeWhile⟩
        refine ⟨_, u, ⟨hword, b, c, hblank, hblank', rfl⟩, ?_, ?_⟩
        · conv_lhs => rw [← List.takeWhile_append_dropWhile (p := Text.isWordAscii) (l := s), hb, hc]
          simp
        · have hbefore : Text.blanksBefore (s.dropWhile Text.isWordAscii) = b.length := by
            rw [hb, Text.blanksBefore, (takeWhile_blank_append hblank (by decide) t).1]
          have hbefore' : Text.blanksBefore t = c.length := by
            rw [hc, Text.blanksBefore, (takeWhile_blank_append hblank' (by decide) u).1]
          simp only [hbefore, hbefore', List.length_append, List.length_cons]
          omega
      next => cases h
    next => cases h

end label

/-! ## Objects -/

namespace NestedObject

/-- Is the object written as a label and a balanced text in braces? -/
structure Written (o : NestedObject) (v : List Char) : Prop where
  label : IsLabel o.key v
  balanced : Balanced o.body
  ne_nil : o.body ≠ []
  eq : o.written = v ++ '{' :: (o.body ++ ['}'])

variable {o : NestedObject} {v : List Char}

theorem Written.eq_append (h : o.Written v) (s : List Char) :
    o.written ++ s = v ++ '{' :: (o.body ++ '}' :: s) := by
  rw [h.eq]
  simp

/-- An object does not close at once. -/
theorem Written.body_append_ne (h : o.Written v) (s t : List Char) : o.body ++ s ≠ '}' :: t := by
  intro heq
  have hbalanced := h.balanced
  obtain ⟨c, body, hbody⟩ := List.exists_cons_of_ne_nil h.ne_nil
  rw [hbody] at heq hbalanced
  rw [(List.cons.inj heq).1] at hbalanced
  exact not_closes_close body hbalanced

theorem Written.length_lt (h : o.Written v) : o.body.length < o.written.length := by
  rw [h.eq]
  simp only [List.length_append, List.length_cons]
  omega

theorem Written.drop (h : o.Written v) (s : List Char) :
    (o.written ++ s).drop (v.length + 1) = o.body ++ '}' :: s := by
  rw [h.eq_append]
  simp

theorem Written.take (h : o.Written v) (s : List Char) :
    (o.written ++ s).take (v.length + 1 + o.body.length + 1) = o.written := by
  have hlength : v.length + 1 + o.body.length + 1 = o.written.length := by
    rw [h.eq]
    simp only [List.length_append, List.length_cons, List.length_nil]
    omega
  rw [hlength, List.take_left]

end NestedObject

section object

variable {o : NestedObject} {v : List Char} {n size : Nat}

theorem nestedObject?_of_written (h : o.Written v) (s : List Char) :
    nestedObject? size (o.written ++ s) = some (.ok (some o), v.length + 1) := by
  have hstart : objectStart? (o.written ++ s) = some (o.key, v.length + 1) := by
    rw [h.eq_append]
    exact objectStart?_of_label h.label _
  have htake := h.take s
  rw [nestedObject?, hstart, Option.map_some]
  dsimp only
  rw [h.drop, h.balanced.takeBraced?]
  obtain ⟨c, body, hbody⟩ := List.exists_cons_of_ne_nil h.ne_nil
  rw [hbody] at htake ⊢
  dsimp only
  rw [htake, ← hbody]

theorem nestedObject?_of_empty {key : List Char} (h : IsLabel key v) (s : List Char) :
    nestedObject? size (v ++ '{' :: '}' :: s) = some (.ok none, v.length + 1) := by
  have hdrop : (v ++ '{' :: '}' :: s).drop (v.length + 1) = '}' :: s := by simp
  rw [nestedObject?, objectStart?_of_label h, Option.map_some]
  dsimp only
  rw [hdrop]
  rfl

theorem written_of_nestedObject? {s : List Char} (h : nestedObject? size s = some (.ok (some o), n)) :
    ∃ v rest, o.Written v ∧ s = o.written ++ rest ∧ n = v.length + 1 := by
  obtain ⟨⟨key, m⟩, hstart, heq⟩ := Option.map_eq_some_iff.1 h
  obtain ⟨v, u, hlabel, rfl, rfl⟩ := exists_label hstart
  have hdrop : (v ++ '{' :: u).drop (v.length + 1) = u := by simp
  dsimp only at heq
  rw [hdrop] at heq
  split at heq
  next => cases heq
  next body rest hnot hbody =>
    cases heq
    obtain ⟨rfl, hbalanced⟩ := takeBraced?_eq_some_iff.1 hbody
    have hne : body ≠ [] := hnot
    have hsplit : v ++ '{' :: (body ++ '}' :: rest) = v ++ '{' :: (body ++ ['}']) ++ rest := by simp
    have hwritten : NestedObject.Written ⟨key, body, v ++ '{' :: (body ++ ['}'])⟩ v :=
      ⟨hlabel, hbalanced, hne, rfl⟩
    have htake := hwritten.take rest
    rw [hsplit, htake]
    exact ⟨v, rest, hwritten, rfl, rfl⟩
  next => cases heq

/-- The object that a text begins with, when it closes and is not empty.  The length reaches behind its
opening brace, so that the objects inside are found as well. -/
def object? : Text.Pattern NestedObject := fun s =>
  match nestedObject? 0 s with
  | some (.ok (some o), n) => some (o, n)
  | _ => none

/-- The objects of a text, at any depth, in order. -/
def objectsIn (s : List Char) : List NestedObject := Text.findAll object? s

theorem object?_of_written (h : o.Written v) (s : List Char) :
    object? (o.written ++ s) = some (o, v.length + 1) := by
  rw [object?, nestedObject?_of_written h]

theorem written_of_object? {s : List Char} (h : object? s = some (o, n)) :
    ∃ v rest, o.Written v ∧ s = o.written ++ rest ∧ n = v.length + 1 := by
  rw [object?] at h
  split at h
  next o' n' hfound =>
    cases h
    exact written_of_nestedObject? hfound
  next => cases h

theorem object?_of_none {s : List Char} (h : objectStart? s = none) : object? s = none := by
  rw [object?, nestedObject?_of_none h]

/-- A brace that a balanced text opens is not closed behind it. -/
theorem Balanced.exists_append {x z r body b : List Char} (h : Balanced (x ++ '{' :: z)) (hbody : Balanced body)
    (heq : z ++ r = body ++ '}' :: b) : ∃ t, z = body ++ '}' :: t := by
  obtain ⟨inner, t, hinner, -⟩ := h.exists_takeBraced?
  obtain ⟨rfl, hcloses⟩ := takeBraced?_eq_some_iff.1 hinner
  have hfirst : Declaration.takeBraced? 0 (body ++ '}' :: b) = some (inner, t ++ r) :=
    takeBraced?_eq_some_iff.2 ⟨by rw [← heq]; simp, hcloses⟩
  rw [hbody.takeBraced?] at hfirst
  cases hfirst
  exact ⟨t, rfl⟩

/-- An object in a balanced text is not changed by what is behind the text, where no brace opens before one
closes. -/
theorem object?_append {x y b : List Char} (hxy : Balanced (x ++ y))
    (hb : ∀ u t, b = u ++ '{' :: t → '}' ∈ u) : object? (y ++ b) = object? y := by
  refine Option.ext fun p => ?_
  obtain ⟨o, n⟩ := p
  constructor
  · intro h
    obtain ⟨v, rest, ho, hsplit, rfl⟩ := written_of_object? h
    rw [ho.eq_append] at hsplit
    rcases Text.append_eq_append_cons hsplit with ⟨w, rfl, hw⟩ | ⟨w, hv, hw⟩
    · rw [← List.append_assoc] at hxy
      obtain ⟨tail, rfl⟩ := hxy.exists_append ho.balanced hw.symm
      rw [← ho.eq_append]
      exact object?_of_written ho tail
    · have hclose : '}' ∈ v := hv ▸ List.mem_append_right y (hb w _ hw)
      exact absurd hclose ho.label.braceFree.2
  · intro h
    obtain ⟨v, rest, ho, rfl, rfl⟩ := written_of_object? h
    rw [List.append_assoc]
    exact object?_of_written ho _

theorem le_of_object? {s : List Char} (h : object? s = some (o, n)) : 0 < n ∧ n ≤ s.length := by
  obtain ⟨v, rest, ho, rfl, rfl⟩ := written_of_object? h
  rw [ho.eq_append]
  simp only [List.length_append, List.length_cons]
  omega

theorem objectsIn_append {a b : List Char} (ha : Balanced a) (hb : ∀ u t, b = u ++ '{' :: t → '}' ∈ u) :
    objectsIn (a ++ b) = objectsIn a ++ objectsIn b :=
  Text.findAll_append (fun _ _ hxy _ => object?_append (hxy ▸ ha) hb) fun _ _ _ _ _ h => le_of_object? h

theorem objectsIn_cons {c : Char} {s : List Char} (h : object? (c :: s) = none) :
    objectsIn (c :: s) = objectsIn s :=
  Text.findAll_cons_of_none h

theorem written_of_mem_objectsIn {s : List Char} (h : o ∈ objectsIn s) :
    (∃ v, o.Written v) ∧ o.body.length < s.length := by
  obtain ⟨front, rest, n, rfl, hfound⟩ := Text.exists_of_mem_findAll h
  obtain ⟨v, t, ho, rfl, -⟩ := written_of_object? hfound
  have hlength := ho.length_lt
  refine ⟨⟨v, ho⟩, ?_⟩
  simp only [List.length_append]
  omega

theorem infix_of_mem_objectsIn {s : List Char} (h : o ∈ objectsIn s) : o.body <:+: s := by
  obtain ⟨front, rest, n, rfl, hfound⟩ := Text.exists_of_mem_findAll h
  obtain ⟨v, t, ho, rfl, -⟩ := written_of_object? hfound
  exact ⟨front ++ (v ++ ['{']), '}' :: t, by rw [ho.eq]; simp⟩

/-- **The search finds an object, then the objects in it, then those behind it.** -/
theorem objectsIn_of_written (h : o.Written v) (s : List Char) :
    objectsIn (o.written ++ s) = o :: (objectsIn o.body ++ objectsIn s) := by
  have hne : o.written ++ s ≠ [] := by simp [h.eq]
  have hclose : objectsIn ('}' :: s) = objectsIn s :=
    objectsIn_cons (object?_of_none (objectStart?_of_not_word (by decide) s))
  have hbehind : ∀ u t, '}' :: s = u ++ '{' :: t → '}' ∈ u := by
    intro u t hu
    cases u with
    | nil => exact absurd (List.cons.inj hu).1 (by decide)
    | cons c u => exact (List.cons.inj hu).1 ▸ List.mem_cons_self
  rw [objectsIn, Text.findAll_of_some (object?_of_written h s) hne, h.drop]
  exact congrArg (o :: ·) ((objectsIn_append h.balanced hbehind).trans (by rw [hclose]))

theorem objectsIn_blank_append {b : List Char} (hb : ∀ c ∈ b, Text.isBlank c = true) (s : List Char) :
    objectsIn (b ++ s) = objectsIn s := by
  refine Text.findAll_append_of_none s fun x c y hxy => ?_
  have hc : Text.isWordAscii c = false := by
    cases hword : Text.isWordAscii c with
    | false => rfl
    | true => exact absurd (hb c (by rw [hxy]; simp)) (by simp [isBlank_of_word hword])
  exact object?_of_none (objectStart?_of_not_word hc _)

theorem objectsIn_trim {s : List Char} (h : Balanced s) : objectsIn (Text.trim s) = objectsIn s := by
  obtain ⟨l, r, hl, hr, hs⟩ := Text.exists_eq_append_trim s
  have hr' : ∀ u t, r = u ++ '{' :: t → '}' ∈ u := by
    rintro u t rfl
    exact absurd (hr '{' (by simp)) (by decide)
  have hnone : objectsIn r = [] := by
    have := objectsIn_blank_append hr []
    rwa [List.append_nil] at this
  conv_rhs => rw [hs, List.append_assoc, objectsIn_blank_append hl, objectsIn_append h.trim hr', hnone]
  exact (List.append_nil _).symm

end object

/-! ## The search -/

/-- Is every brace closed that opens in the text? -/
def Closing (s : List Char) : Prop := ∀ a b, s = a ++ '{' :: b → ∃ p, takeBraced? 0 b = some p

theorem Balanced.closing {s : List Char} (h : Balanced s) : Closing s := by
  rintro a b rfl
  obtain ⟨body, rest, hbody, -⟩ := h.exists_takeBraced?
  exact ⟨_, hbody⟩

theorem Closing.of_append {x y : List Char} (h : Closing (x ++ y)) : Closing y := by
  rintro a b rfl
  exact h (x ++ a) b (List.append_assoc x a _).symm

/-- Where a brace closes at once, no object begins in front of it. -/
theorem object?_of_empty {x y s : List Char} (hopen : '{' ∉ x) (hy : y <:+ x ++ ['{']) :
    object? (y ++ '}' :: s) = none := by
  rw [Option.eq_none_iff_forall_ne_some]
  rintro ⟨o, n⟩ h
  obtain ⟨v, rest, ho, hsplit, rfl⟩ := written_of_object? h
  have hclose : '}' ∉ v ++ ['{'] := by simp [ho.label.braceFree.2]
  have hsplit : v ++ ['{'] ++ (o.body ++ '}' :: rest) = y ++ '}' :: s := by
    rw [hsplit, ho.eq_append, ← List.append_cons]
  obtain ⟨w, rfl, hbody⟩ := Text.exists_of_append_eq_right hsplit hclose
  obtain ⟨z, hz⟩ := hy
  have hz : x ++ ['{'] = (z ++ v) ++ '{' :: w := by simpa using hz.symm
  obtain ⟨w', -, hend⟩ := Text.exists_of_append_eq_right hz hopen
  have hw : w = [] := by
    cases w' with
    | nil => exact (List.cons.inj hend).2.symm
    | cons d w' => exact absurd (List.cons.inj hend).2 (by simp)
  rw [hw] at hbody
  exact ho.body_append_ne _ _ hbody

/-- The two searches find the same objects, where every brace is closed. -/
theorem findAll_nestedObject? (size : Nat) : ∀ {s : List Char}, Closing s →
    ∃ found : List (Option NestedObject),
      Text.findAll (nestedObject? size) s = found.map Except.ok ∧ found.filterMap id = objectsIn s
  | [], _ => ⟨[], rfl, rfl⟩
  | c :: s, h => by
    cases hstart : objectStart? (c :: s) with
    | none =>
      obtain ⟨found, hfound, hobjects⟩ := findAll_nestedObject? size (Closing.of_append (x := [c]) h)
      refine ⟨found, (Text.findAll_cons_of_none (nestedObject?_of_none hstart)).trans hfound, ?_⟩
      rw [objectsIn_cons (object?_of_none hstart), hobjects]
    | some p =>
      obtain ⟨key, n⟩ := p
      obtain ⟨v, u, hlabel, hsplit, rfl⟩ := exists_label hstart
      obtain ⟨⟨body, rest⟩, hbody⟩ := h v u hsplit
      obtain ⟨rfl, hbalanced⟩ := takeBraced?_eq_some_iff.1 hbody
      have hdrop : (c :: s).drop (v.length + 1) = body ++ '}' :: rest := by
        rw [hsplit]
        simp
      have hshort : (body ++ '}' :: rest).length < (c :: s).length := by
        rw [← hdrop, List.length_drop, List.length_cons]
        omega
      have hclosing : Closing (body ++ '}' :: rest) := by
        rw [hsplit, List.append_cons] at h
        exact h.of_append
      obtain ⟨found, hfound, hobjects⟩ := findAll_nestedObject? size hclosing
      by_cases hnil : body = []
      · -- The object is empty, and none begins inside its label.
        subst hnil
        have hempty : nestedObject? size (c :: s) = some (.ok none, v.length + 1) :=
          hsplit ▸ nestedObject?_of_empty hlabel rest
        refine ⟨none :: found, ?_, ?_⟩
        · rw [Text.findAll_of_some hempty (List.cons_ne_nil c s), hdrop, hfound, List.map_cons]
        · have hskip : objectsIn (v ++ ['{'] ++ ([] ++ '}' :: rest)) = objectsIn ([] ++ '}' :: rest) :=
            Text.findAll_append_of_none _ fun x d y hxy =>
              object?_of_empty hlabel.braceFree.1 (hxy ▸ List.suffix_append x (d :: y))
          rw [hsplit, List.append_cons, hskip, ← hobjects]
          rfl
      · have hwritten : NestedObject.Written ⟨key, body, v ++ '{' :: (body ++ ['}'])⟩ v :=
          ⟨hlabel, hbalanced, hnil, rfl⟩
        have hobject := @nestedObject?_of_written _ v size hwritten rest
        have hfirst := object?_of_written hwritten rest
        rw [hwritten.eq_append, ← hsplit] at hobject hfirst
        refine ⟨some ⟨key, body, v ++ '{' :: (body ++ ['}'])⟩ :: found, ?_, ?_⟩
        · rw [Text.findAll_of_some hobject (List.cons_ne_nil c s), hdrop, hfound, List.map_cons]
        · rw [objectsIn, Text.findAll_of_some hfirst (List.cons_ne_nil c s), hdrop]
          exact congrArg (_ :: ·) hobjects
termination_by s => s.length
decreasing_by
  · exact Nat.lt_succ_self _
  · exact hshort

theorem Closing.nestedObjects_eq {s : List Char} (h : Closing s) : nestedObjects s = .ok (objectsIn s) := by
  obtain ⟨found, hfound, hobjects⟩ := findAll_nestedObject? (Text.byteSize s) h
  refine nestedObjects_eq_ok.2 ⟨found, ?_, hobjects⟩
  rw [hfound, List.mapM_map]
  exact (mapM_of_ok fun _ _ => rfl).trans (congrArg Except.ok (List.map_id found))

theorem Balanced.currentLevel_eq {s : List Char} (h : Balanced s) :
    Declaration.currentLevel s = .ok (oneLine s (objectsIn s)) := by
  rw [Declaration.currentLevel, h.closing.nestedObjects_eq]
  rfl

end Declaration

end ClientBuild
