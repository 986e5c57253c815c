import ClientBuild.Proofs.Assoc
import ClientBuild.Proofs.Declaration.Chain

/-!
# The groups that are lifted out of the service type

Flattening searches the service type for keys in front of braces.  Names have neither colons nor blanks,
so it finds the groups and nothing else; but it takes for the key the word characters in front of the
colon only, and an object with nothing in it is not lifted.  Where keys are words and groups are not
empty, every group gets the interface of its key (`mem_keys_of_collect_lines`).
-/

namespace ClientBuild.Declaration

/-! ## Groups -/

mutual

/-- The keys of the groups of a part, at any depth. -/
def Part.groupKeys : Part → List String
  | .leaf _ _ => []
  | .group key _ parts => key :: groupKeysOf parts

def groupKeysOf : List Part → List String
  | [] => []
  | p :: ps => p.groupKeys ++ groupKeysOf ps

end

/-- A text of at least one character, all of which are word characters. -/
def IsWord (s : List Char) : Prop := s ≠ [] ∧ ∀ c ∈ s, Text.isWordAscii c = true

instance (s : List Char) : Decidable (IsWord s) :=
  @instDecidableAnd _ _ _ (List.decidableBAll _ s)

theorem IsWord.isName {s : List Char} (h : IsWord s) : IsName s :=
  ⟨h.1, fun c hc => isNameChar_of_word (h.2 c hc)⟩

theorem IsWord.append {s t : List Char} (hs : IsWord s) (ht : ∀ c ∈ t, Text.isWordAscii c = true) : IsWord (s ++ t) :=
  ⟨List.append_ne_nil_of_left_ne_nil hs.1 t, fun c hc => (List.mem_append.1 hc).elim (hs.2 c) (ht c)⟩

theorem braceFree_of_word {s : List Char} (h : IsWord s) : BraceFree s :=
  braceFree_of_names h.isName.2

mutual

/-- Has every group of the part a word for its key, the interface of that key, and something below
it? -/
def Part.Liftable : Part → Prop
  | .leaf _ _ => True
  | .group key type parts =>
    IsWord key.toList ∧ type = ofChars (interfaceName key.toList) ∧ parts ≠ [] ∧
      LiftableParts parts

def LiftableParts : List Part → Prop
  | [] => True
  | p :: ps => p.Liftable ∧ LiftableParts ps

end

/-! ## Where an object starts -/

theorem objectStart?_of_not_word {c : Char} (hc : Text.isWordAscii c = false) (s : List Char) :
    objectStart? (c :: s) = none := by
  simp [objectStart?, hc]

theorem takeWhile_word_append {w : List Char} {c : Char}
    (hw : ∀ d ∈ w, Text.isWordAscii d = true) (hc : Text.isWordAscii c = false) (s : List Char) :
    (w ++ c :: s).takeWhile Text.isWordAscii = w ∧
      (w ++ c :: s).dropWhile Text.isWordAscii = c :: s := by
  rw [List.takeWhile_append_of_pos hw, List.dropWhile_append_of_pos hw]
  simp [hc]

/-- A word without a colon behind it starts no object. -/
theorem objectStart?_of_word {w : List Char} {c : Char} (hw : ∀ d ∈ w, Text.isWordAscii d = true)
    (hc : Text.isWordAscii c = false) (hblank : Text.isBlank c = false) (hcolon : c ≠ ':')
    (s : List Char) : objectStart? (w ++ c :: s) = none := by
  obtain ⟨htake, hdrop⟩ := takeWhile_word_append hw hc s
  have htrim : Text.trimLeft (c :: s) = c :: s := List.dropWhile_cons_of_neg (by simp [hblank])
  simp only [objectStart?, htake, hdrop, htrim]
  split
  · rfl
  · split
    next t ht => exact absurd (List.cons.inj ht).1 hcolon
    next => rfl

/-- In a name, a word goes up to its end or to a character that is none of a word. -/
theorem objectStart?_of_name {t : List Char} (ht : ∀ c ∈ t, IsNameChar c) {s : List Char}
    (hword : (∀ c ∈ t, Text.isWordAscii c = true) → objectStart? (t ++ s) = none) :
    objectStart? (t ++ s) = none := by
  cases hrest : t.dropWhile Text.isWordAscii with
  | nil =>
    have hall : t.takeWhile Text.isWordAscii = t := by
      rw [← List.append_nil (t.takeWhile _), ← hrest, List.takeWhile_append_dropWhile]
    exact hword (hall ▸ List.all_eq_true.1 List.all_takeWhile)
  | cons c u =>
    have hsplit : t = t.takeWhile Text.isWordAscii ++ c :: u := by
      rw [← hrest, List.takeWhile_append_dropWhile]
    have hc : Text.isWordAscii c = false := by
      have := List.head?_dropWhile_not Text.isWordAscii t
      rw [hrest] at this
      simpa using this
    have hname : IsNameChar c := ht c (by rw [hsplit]; simp)
    rw [hsplit, List.append_assoc, List.cons_append]
    exact objectStart?_of_word (List.all_eq_true.1 List.all_takeWhile) hc hname.isBlank
      (hname.ne (by decide)) _

theorem objectStart?_of_stop {t : List Char} (ht : ∀ c ∈ t, IsNameChar c) (s : List Char) :
    objectStart? (t ++ ';' :: s) = none :=
  objectStart?_of_name ht fun hword =>
    objectStart?_of_word hword (by decide) (by decide) (by decide) s

/-- A key with a name behind it starts no object. -/
theorem objectStart?_of_key {t name : List Char} (ht : ∀ c ∈ t, IsNameChar c) (hname : IsName name)
    (s : List Char) : objectStart? (t ++ ':' :: ' ' :: (name ++ s)) = none := by
  obtain ⟨d, name, rfl⟩ := List.exists_cons_of_ne_nil hname.1
  have hd := hname.2 d List.mem_cons_self
  rw [List.cons_append]
  refine objectStart?_of_name ht fun hword => ?_
  obtain ⟨htake, hdrop⟩ :=
    takeWhile_word_append hword (c := ':') (by decide) (' ' :: d :: (name ++ s))
  have hcolon : Text.trimLeft (':' :: ' ' :: d :: (name ++ s)) = ':' :: ' ' :: d :: (name ++ s) :=
    List.dropWhile_cons_of_neg (by decide)
  have hspace : Text.trimLeft (' ' :: d :: (name ++ s)) = d :: (name ++ s) := by
    rw [Text.trimLeft, List.dropWhile_cons_of_pos (by decide),
      List.dropWhile_cons_of_neg (by simp [hd.isBlank])]
  simp only [objectStart?, htake, hdrop, hcolon, hspace]
  split
  · rfl
  · split
    next heq => exact absurd (List.cons.inj heq).1 hd.2.1
    next => rfl

theorem objectStart?_of_group {key : List Char} (hkey : IsWord key) (s : List Char) :
    objectStart? (key ++ ':' :: ' ' :: '{' :: s) = some (key, key.length + 3) := by
  obtain ⟨htake, hdrop⟩ := takeWhile_word_append hkey.2 (c := ':') (by decide) (' ' :: '{' :: s)
  have hcolon : Text.trimLeft (':' :: ' ' :: '{' :: s) = ':' :: ' ' :: '{' :: s :=
    List.dropWhile_cons_of_neg (by decide)
  have hspace : Text.trimLeft (' ' :: '{' :: s) = '{' :: s := by
    rw [Text.trimLeft, List.dropWhile_cons_of_pos (by decide),
      List.dropWhile_cons_of_neg (by decide)]
  have hblanks : Text.blanksBefore (':' :: ' ' :: '{' :: s) = 0 ∧
      Text.blanksBefore (' ' :: '{' :: s) = 1 := by
    constructor <;> simp [Text.blanksBefore, show Text.isBlank ':' = false by decide,
      show Text.isBlank ' ' = true by decide, show Text.isBlank '{' = false by decide]
  have hempty : key.isEmpty = false := by simpa using hkey.1
  simp only [objectStart?, htake, hdrop, hcolon, hspace, hblanks, hempty]
  rfl

theorem nestedObject?_of_none {size : Nat} {s : List Char} (h : objectStart? s = none) :
    nestedObject? size s = none := by
  rw [nestedObject?, h]
  rfl

/-! ## The scan of the service type -/

variable {size : Nat}

/-- The scan passes a leaf. -/
theorem findAll_leaf {key name : List Char} (hkey : ∀ c ∈ key, IsNameChar c) (hname : IsName name)
    (rest : List Char) : Text.findAll (nestedObject? size) (key ++ ": ".toList ++ name ++ [';'] ++ rest) =
      Text.findAll (nestedObject? size) rest := by
  have hsplit : key ++ ": ".toList ++ name ++ [';'] ++ rest =
      key ++ (':' :: ' ' :: (name ++ ';' :: rest)) := by simp
  have hend : ∀ {t : List Char}, (∀ x c y, t = x ++ c :: y → ∀ d ∈ c :: y, d ∈ t) := by
    rintro t x c y rfl d hd
    exact List.mem_append_right x hd
  rw [hsplit, Text.findAll_append_of_none, Text.findAll_cons_of_none, Text.findAll_cons_of_none,
    Text.findAll_append_of_none, Text.findAll_cons_of_none]
  · exact nestedObject?_of_none (objectStart?_of_not_word (by decide) _)
  · intro x c y hxy
    exact nestedObject?_of_none (objectStart?_of_stop (fun d hd => hname.2 d (hend x c y hxy d hd)) _)
  · exact nestedObject?_of_none (objectStart?_of_not_word (by decide) _)
  · exact nestedObject?_of_none (objectStart?_of_not_word (by decide) _)
  · intro x c y hxy
    exact nestedObject?_of_none
      (objectStart?_of_key (fun d hd => hkey d (hend x c y hxy d hd)) hname _)

/-- A key with an object behind it, as it is written. -/
def objectText (key body : List Char) : List Char := key ++ ": ".toList ++ ('{' :: body ++ ['}'])

/-- The scan finds a group and goes on behind its opening brace. -/
theorem findAll_group {key body : List Char} (hword : IsWord key) (hbody : Balanced body)
    (hbodyne : body ≠ []) (rest : List Char) :
    Text.findAll (nestedObject? size) (objectText key body ++ [';'] ++ rest) =
      .ok (some ⟨key, body, objectText key body⟩) ::
        Text.findAll (nestedObject? size) (body ++ '}' :: ';' :: rest) := by
  have hsplit : objectText key body ++ [';'] ++ rest =
      key ++ ':' :: ' ' :: '{' :: (body ++ '}' :: ';' :: rest) := by simp [objectText]
  have hdrop : (key ++ ':' :: ' ' :: '{' :: (body ++ '}' :: ';' :: rest)).drop (key.length + 3) =
      body ++ '}' :: ';' :: rest := by
    rw [List.drop_append]
    simp
  have htake : (objectText key body ++ [';'] ++ rest).take (key.length + 3 + body.length + 1) =
      objectText key body := by
    have hlength : key.length + 3 + body.length + 1 = (objectText key body).length := by
      simp [objectText]
      omega
    rw [List.append_assoc, hlength, List.take_left']
    rfl
  have hfound : nestedObject? size (objectText key body ++ [';'] ++ rest) =
      some (.ok (some ⟨key, body, objectText key body⟩), key.length + 2 + 1) := by
    rw [nestedObject?, hsplit, objectStart?_of_group hword, Option.map_some]
    dsimp only
    rw [hdrop, hbody.takeBraced?]
    cases body with
    | nil => exact absurd rfl hbodyne
    | cons c body =>
      dsimp only
      rw [← hsplit, htake]
  have hne : objectText key body ++ [';'] ++ rest ≠ [] := by simp [objectText]
  rw [Text.findAll_of_some hfound hne, hsplit, hdrop]

theorem findAll_close (rest : List Char) :
    Text.findAll (nestedObject? size) ('}' :: ';' :: rest) =
      Text.findAll (nestedObject? size) rest := by
  rw [Text.findAll_cons_of_none, Text.findAll_cons_of_none]
  · exact nestedObject?_of_none (objectStart?_of_not_word (by decide) _)
  · exact nestedObject?_of_none (objectStart?_of_not_word (by decide) _)

theorem Part.line_ne_nil : ∀ p : Part, p.line ≠ []
  | .leaf _ _ => by simp [Part.line]
  | .group _ _ _ => by simp [Part.line]

theorem linesOf_ne_nil {ps : List Part} (h : ps ≠ []) : linesOf ps ≠ [] := by
  obtain ⟨p, ps, rfl⟩ := List.exists_cons_of_ne_nil h
  simp [linesOf, p.line_ne_nil]

mutual

theorem Part.Named.mem_findAll : ∀ {p : Part}, p.Named → p.Liftable → ∀ rest,
    Text.findAll (nestedObject? size) rest ⊆ Text.findAll (nestedObject? size) (p.line ++ rest) ∧
      ∀ key ∈ p.groupKeys, ∃ o, o.key = key.toList ∧
        .ok (some o) ∈ Text.findAll (nestedObject? size) (p.line ++ rest)
  | .leaf key c, h, _, rest => by
      rw [Part.line, findAll_leaf h.1 h.2]
      exact ⟨List.Subset.refl _, fun _ hk => nomatch hk⟩
  | .group key _ ps, h, ⟨hword, _, hps, hlift⟩, rest => by
      have hfind := @findAll_group size _ _ hword (balanced_linesOf h.2) (linesOf_ne_nil hps) rest
      obtain ⟨hbehind, hinner⟩ := NamedParts.mem_findAll h.2 hlift ('}' :: ';' :: rest)
      rw [findAll_close] at hbehind
      rw [objectText] at hfind
      rw [Part.line, hfind]
      refine ⟨List.Subset.trans hbehind (List.subset_cons_self _ _), fun k hk => ?_⟩
      rcases List.mem_cons.1 hk with rfl | hk
      · exact ⟨_, rfl, List.mem_cons_self⟩
      · obtain ⟨o', hkey', ho'⟩ := hinner k hk
        exact ⟨o', hkey', List.mem_cons_of_mem _ ho'⟩

/-- **The scan finds every group**, at any depth. -/
theorem NamedParts.mem_findAll : ∀ {ps : List Part}, NamedParts ps → LiftableParts ps → ∀ rest,
    Text.findAll (nestedObject? size) rest ⊆ Text.findAll (nestedObject? size) (linesOf ps ++ rest) ∧
      ∀ key ∈ groupKeysOf ps, ∃ o, o.key = key.toList ∧
        .ok (some o) ∈ Text.findAll (nestedObject? size) (linesOf ps ++ rest)
  | [], _, _, rest => ⟨List.Subset.refl _, fun _ hk => nomatch hk⟩
  | p :: ps, h, hlift, rest => by
      obtain ⟨hskip, hfirst⟩ := Part.Named.mem_findAll h.1 hlift.1 (linesOf ps ++ rest)
      obtain ⟨hbehind, hothers⟩ := NamedParts.mem_findAll h.2 hlift.2 rest
      rw [linesOf, List.append_assoc]
      refine ⟨List.Subset.trans hbehind hskip, fun k hk => ?_⟩
      rcases List.mem_append.1 hk with hk | hk
      · exact hfirst k hk
      · obtain ⟨o, hkey, ho⟩ := hothers k hk
        exact ⟨o, hkey, hskip ho⟩

end

/-! ## The keys that are collected -/

theorem mem_of_mapM_ok {ε α : Type} {y : α} : ∀ {xs : List (Except ε α)} {ys : List α},
    xs.mapM id = .ok ys → .ok y ∈ xs → y ∈ ys
  | [], _, _, hy => nomatch hy
  | .error e :: xs, _, h, _ => by simp [List.mapM_cons, bind, Except.bind] at h
  | .ok x :: xs, _, h, hy => by
    cases hxs : xs.mapM id with
    | error e => simp [List.mapM_cons, hxs, bind, Except.bind] at h
    | ok zs =>
      simp only [List.mapM_cons, hxs, id, bind, Except.bind, pure, Except.pure,
        Except.ok.injEq] at h
      subst h
      rcases List.mem_cons.1 hy with heq | hy
      · cases heq
        exact List.mem_cons_self
      · exact List.mem_cons_of_mem _ (mem_of_mapM_ok hxs hy)

/-- The nested objects of the lines of a service type have the keys of its groups. -/
theorem exists_nestedObject {ps : List Part} (hnamed : NamedParts ps) (hlift : LiftableParts ps)
    {os : List NestedObject} (hos : nestedObjects (linesOf ps) = .ok os) :
    ∀ key ∈ groupKeysOf ps, ∃ o ∈ os, o.key = key.toList := by
  intro key hkey
  obtain ⟨found, hfound, rfl⟩ := nestedObjects_eq_ok.1 hos
  obtain ⟨o, ho, hmem⟩ := (hnamed.mem_findAll hlift []).2 key hkey
  rw [List.append_nil] at hmem
  exact ⟨o, List.mem_filterMap.2 ⟨some o, mem_of_mapM_ok hfound hmem, rfl⟩, ho⟩

theorem Shapes.keys_add (r : Shapes) (key : String) (shape : List Char) :
    Assoc.keys r.first ⊆ Assoc.keys (r.add key shape).first ∧
      key ∈ Assoc.keys (r.add key shape).first := by
  rw [Shapes.add]
  split
  next hnone =>
    have hkey : key ∉ Assoc.keys r.first := fun h => by
      obtain ⟨p, hp, rfl⟩ := List.mem_map.1 h
      exact Assoc.get?_ne_none hp hnone
    dsimp only
    rw [Assoc.insert_of_not_mem shape hkey, Assoc.keys, Assoc.keys, List.map_append]
    exact ⟨List.subset_append_left _ _, List.mem_append_right _ (List.mem_singleton.2 rfl)⟩
  next stays hstays =>
    have hkey : key ∈ Assoc.keys r.first := List.mem_map_of_mem (Assoc.mem_of_get? hstays)
    split <;> exact ⟨List.Subset.refl _, hkey⟩

theorem foldlM_invariant {ε α β : Type} {f : β → α → Except ε β} {P : β → Prop} :
    ∀ {xs : List α}, (∀ a ∈ xs, ∀ b b', f b a = .ok b' → P b → P b') →
      ∀ {b b' : β}, P b → xs.foldlM f b = .ok b' → P b'
  | [], _, b, b', hb, h => by
    cases h
    exact hb
  | a :: xs, hstep, b, b', hb, h => by
    obtain ⟨hfirst, hothers⟩ := List.forall_mem_cons.1 hstep
    rw [List.foldlM_cons] at h
    cases ha : f b a with
    | error e => rw [ha] at h; cases h
    | ok c =>
      rw [ha] at h
      exact foldlM_invariant hothers (hfirst b c ha hb) h

theorem of_collectObject {r r' : Shapes} {o : NestedObject} (h : collectObject r o = .ok r') :
    ∃ shape, currentLevel (Text.trim o.body) = .ok shape ∧
      collect (Text.trim o.body) (r.add (String.ofList o.key) shape) = .ok r' := by
  rw [collectObject] at h
  cases hlevel : currentLevel (Text.trim o.body) with
  | error e => rw [hlevel] at h; cases h
  | ok shape =>
    rw [hlevel] at h
    exact ⟨shape, rfl, h⟩

theorem isWord_of_mem_nestedObjects {content : List Char} {os : List NestedObject} {o : NestedObject}
    (hos : nestedObjects content = .ok os) (ho : o ∈ os) : IsWord o.key := by
  obtain ⟨found, hfound, rfl⟩ := nestedObjects_eq_ok.1 hos
  obtain ⟨_, hmem, rfl⟩ := List.mem_filterMap.1 ho
  obtain ⟨front, s, n, _, hs⟩ := Text.exists_of_mem_findAll (mem_of_mapM_id hfound hmem)
  obtain ⟨⟨key, m⟩, hstart, heq⟩ := Option.map_eq_some_iff.1 hs
  have hkey : IsWord key := by
    rw [objectStart?] at hstart
    dsimp only at hstart
    split at hstart
    next => cases hstart
    next hne =>
      have hword : IsWord (s.takeWhile Text.isWordAscii) :=
        ⟨by simpa using hne, List.all_eq_true.1 List.all_takeWhile⟩
      split at hstart
      next =>
        split at hstart
        next =>
          cases hstart
          exact hword
        next => cases hstart
      next => cases hstart
  dsimp only at heq
  split at heq
  next => cases heq
  next =>
    cases heq
    exact hkey
  next => cases heq

/-- **What adding an object to the shapes keeps, collecting keeps.** -/
theorem collect_induction {P : Shapes → Prop}
    (hadd : ∀ (r : Shapes) (o : NestedObject) (shape : List Char), IsWord o.key →
      currentLevel (Text.trim o.body) = .ok shape → P r → P (r.add (String.ofList o.key) shape))
    {content : List Char} {r r' : Shapes} (hr : P r) (h : collect content r = .ok r') : P r' := by
  rw [collect_eq] at h
  cases hos : nestedObjects content with
  | error e => rw [hos] at h; cases h
  | ok os =>
    rw [hos] at h
    refine foldlM_invariant (fun o ho r r' hstep hr => ?_) hr h
    obtain ⟨shape, hshape, hinner⟩ := of_collectObject hstep
    exact collect_induction hadd (hadd r o shape (isWord_of_mem_nestedObjects hos ho) hshape hr) hinner
termination_by content.length
decreasing_by exact length_of_mem_nestedObjects hos ho

/-- No key is lost again. -/
theorem mem_keys_of_collect {content : List Char} {r r' : Shapes} {key : String}
    (hkey : key ∈ Assoc.keys r.first) (h : collect content r = .ok r') :
    key ∈ Assoc.keys r'.first :=
  collect_induction (P := fun r => key ∈ Assoc.keys r.first)
    (fun r o shape _ _ hr => (r.keys_add (String.ofList o.key) shape).1 hr) hkey h

/-- **Every object that is found has its key among the shapes.** -/
theorem keys_of_collect {content : List Char} {os : List NestedObject} {r r' : Shapes}
    (hos : nestedObjects content = .ok os) (h : collect content r = .ok r') :
    ∀ o ∈ os, String.ofList o.key ∈ Assoc.keys r'.first := by
  intro o ho
  rw [collect_eq, hos] at h
  obtain ⟨before, after, rfl⟩ := List.append_of_mem ho
  have h : (before ++ o :: after).foldlM collectObject r = .ok r' := h
  rw [List.foldlM_append] at h
  cases hbefore : before.foldlM collectObject r with
  | error e => rw [hbefore] at h; cases h
  | ok r₁ =>
    rw [hbefore] at h
    have h : (o :: after).foldlM collectObject r₁ = .ok r' := h
    rw [List.foldlM_cons] at h
    cases hobject : collectObject r₁ o with
    | error e => rw [hobject] at h; cases h
    | ok r₂ =>
      rw [hobject] at h
      obtain ⟨shape, _, hinner⟩ := of_collectObject hobject
      refine foldlM_invariant (P := fun r => String.ofList o.key ∈ Assoc.keys r.first) ?_
        (mem_keys_of_collect (r₁.keys_add _ shape).2 hinner) h
      intro o' _ r r' hstep hr
      obtain ⟨shape', _, hinner'⟩ := of_collectObject hstep
      exact mem_keys_of_collect ((r.keys_add _ shape').1 hr) hinner'

theorem Part.exists_line_eq : ∀ p : Part, ∃ a, p.line = a ++ [';']
  | .leaf _ _ => ⟨_, rfl⟩
  | .group _ _ _ => ⟨_, rfl⟩

theorem exists_linesOf_eq : ∀ {ps : List Part}, ps ≠ [] → ∃ a, linesOf ps = a ++ [';']
  | [p], _ => by
    obtain ⟨a, ha⟩ := p.exists_line_eq
    exact ⟨a, by rw [linesOf, linesOf, List.append_nil, ha]⟩
  | p :: q :: ps, _ => by
    obtain ⟨a, ha⟩ := exists_linesOf_eq (List.cons_ne_nil q ps)
    exact ⟨p.line ++ a, by rw [linesOf, ha, List.append_assoc]⟩

theorem Part.Named.exists_cons : ∀ {p : Part}, p.Named →
    ∃ c s, p.line = c :: s ∧ Text.isBlank c = false := by
  have hkey : ∀ {key s : List Char}, (∀ c ∈ key, IsNameChar c) →
      ∃ c s', key ++ ':' :: s = c :: s' ∧ Text.isBlank c = false := by
    intro key s h
    cases key with
    | nil => exact ⟨':', s, rfl, by decide⟩
    | cons c key => exact ⟨c, _, rfl, (h c List.mem_cons_self).isBlank⟩
  intro p h
  cases p with
  | leaf key c =>
    obtain ⟨d, s, hs, hd⟩ := hkey (s := ' ' :: (c.name.toList ++ [';'])) h.1
    exact ⟨d, s, by rw [← hs]; simp [Part.line], hd⟩
  | group key type ps =>
    obtain ⟨d, s, hs, hd⟩ := hkey (s := ' ' :: ('{' :: linesOf ps ++ ['}'] ++ [';'])) h.1
    exact ⟨d, s, by rw [← hs]; simp [Part.line], hd⟩

/-- The lines of a service type have no blanks around them. -/
theorem trim_linesOf {ps : List Part} (h : NamedParts ps) : Text.trim (linesOf ps) = linesOf ps := by
  cases ps with
  | nil => rfl
  | cons p ps =>
    obtain ⟨c, s, hs, hc⟩ := Part.Named.exists_cons h.1
    obtain ⟨a, ha⟩ := exists_linesOf_eq (List.cons_ne_nil p ps)
    have hlines : linesOf (p :: ps) = c :: (s ++ linesOf ps) := by rw [linesOf, hs]; rfl
    rw [hlines] at ha ⊢
    exact Text.trim_eq_self hc (by decide) ha

/-- **Every group of a service type is lifted** under its key. -/
theorem mem_keys_of_collect_lines {ps : List Part} (hnamed : NamedParts ps)
    (hlift : LiftableParts ps) {shapes : Shapes}
    (h : collect (Text.trim (linesOf ps)) {} = .ok shapes) :
    ∀ key ∈ groupKeysOf ps, key ∈ Assoc.keys shapes.first := by
  intro key hkey
  obtain ⟨os, hos, _⟩ := (balanced_linesOf hnamed).nestedObjects
  rw [trim_linesOf hnamed] at h
  obtain ⟨o, ho, hokey⟩ := exists_nestedObject hnamed hlift hos key hkey
  have := keys_of_collect hos h o ho
  rwa [hokey, String.ofList_toList] at this

end ClientBuild.Declaration
