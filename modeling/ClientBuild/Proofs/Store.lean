import ClientBuild.Proofs.Text.Search
import ClientBuild.Store

/-!
# Reading what was written

A file that was written reads as its text (`Store.read?_writeIfChanged`), and a file that holds the
text already is left alone.  Writing may make directories, which stops no path from leading where
it led before, and it changes one file only; so a file with another name keeps its text
(`Store.read?_writeIfChanged_of_ne`).
-/

namespace ClientBuild

/-! ## The last component of a path -/

namespace FilePath

/-- Can the text stand for one component, a name? -/
def IsName (n : String) : Prop :=
  component? n.toList = some (.name n) ∧ ∀ c ∈ n.toList, (c == '/') = false

theorem isName_of_all {n : String} (h : component? n.toList = some (.name n))
    (hall : n.toList.all (fun c => !(c == '/')) = true) : IsName n := by
  refine ⟨h, fun c hc => ?_⟩
  have hne := List.all_eq_true.1 hall c hc
  rwa [Bool.not_eq_true'] at hne

theorem IsName.isAbsolute {n : String} (h : IsName n) : isAbsolute n = false := by
  cases hn : n.toList with
  | nil =>
    unfold FilePath.isAbsolute
    rw [hn]
    rfl
  | cons c s =>
    have hc := h.2 c (hn ▸ List.mem_cons_self)
    have hne : '/' ≠ c := fun he => by simp [← he] at hc
    unfold FilePath.isAbsolute
    rw [hn]
    simp [Text.startsWith, Text.after?, hne]

theorem splitOn_join (base : String) {n : String} (h : IsName n) :
    ∃ pieces, Text.splitOn (· == '/') (join base n).toList = pieces ++ [n.toList] := by
  have hn : ∀ a, Text.splitOn (· == '/') (a ++ '/' :: n.toList) =
      Text.splitOn (· == '/') a ++ [n.toList] := by
    intro a
    have htail := Text.splitOnFrom_of_forall [] h.2
    rw [List.reverse_nil, List.nil_append] at htail
    rw [Text.splitOn, Text.splitOnFrom_append rfl, Text.splitOn, htail]
    rfl
  unfold join
  rw [if_neg (by simp [h.isAbsolute])]
  split
  next hbase =>
    rcases Bool.or_eq_true_iff.1 hbase with hempty | hslash
    · have hb : base = "" := String.isEmpty_iff.1 hempty
      subst hb
      refine ⟨[], ?_⟩
      rw [String.toList_append]
      exact Text.splitOnFrom_of_forall [] h.2
    · obtain ⟨a, ha⟩ := Text.eq_append_of_endsWith hslash
      refine ⟨Text.splitOn (· == '/') a, ?_⟩
      rw [String.toList_append, ha, List.append_assoc]
      exact hn a
  next =>
    refine ⟨Text.splitOn (· == '/') base.toList, ?_⟩
    rw [String.toList_append, String.toList_append, List.append_assoc]
    exact hn base.toList

/-- What is joined to a path is its last component. -/
theorem components_join (base : String) {n : String} (h : IsName n) :
    ∃ cs, components (join base n) = cs ++ [.name n] := by
  obtain ⟨pieces, hp⟩ := splitOn_join base h
  have hbody : (pieces ++ [n.toList]).filterMap component? =
      pieces.filterMap component? ++ [.name n] := by
    rw [List.filterMap_append]
    simp [h.1]
  simp only [components, hp, hbody]
  split
  · exact ⟨.root :: pieces.filterMap component?, rfl⟩
  · exact ⟨.here :: pieces.filterMap component?, rfl⟩
  · exact ⟨pieces.filterMap component?, rfl⟩

end FilePath

namespace Store

/-- A path that ends with a name leads to a place with that name. -/
theorem getLast?_of_resolve? {s : Store} {n : String} {k : Location} :
    ∀ {cs : List FilePath.Component} {l : Location},
    s.resolve? l (cs ++ [.name n]) = some k → k.getLast? = some n
  | [], l, h => by
      simp only [List.nil_append, resolve?] at h
      split at h
      next =>
        split at h
        next =>
          cases h
          exact List.getLast?_concat
        next => cases h
      next => cases h
  | .root :: cs, l, h => by
      simp only [List.cons_append, resolve?] at h
      obtain ⟨_, _, h⟩ := Option.bind_eq_some_iff.1 h
      exact getLast?_of_resolve? h
  | .here :: cs, l, h => by
      simp only [List.cons_append, resolve?] at h
      exact getLast?_of_resolve? h
  | .up :: cs, l, h => by
      simp only [List.cons_append, resolve?] at h
      split at h
      next => exact getLast?_of_resolve? h
      next => cases h
  | .name m :: cs, l, h => by
      simp only [List.cons_append, resolve?] at h
      split at h
      next => exact getLast?_of_resolve? h
      next => cases h

theorem getLast?_of_locateFile? {s : Store} {base n : String} {k : Location}
    (hn : FilePath.IsName n) (h : s.locateFile? (FilePath.join base n) = some k) :
    k.getLast? = some n := by
  obtain ⟨cs, hcs⟩ := FilePath.components_join base hn
  simp only [locateFile?, locate?, hcs] at h
  split at h
  next => cases h
  next =>
    split at h
    next => exact getLast?_of_resolve? h
    next => cases h

/-! ## More directories -/

/-- The same files and perhaps more directories. -/
structure Grown (s s' : Store) : Prop where
  files : s'.files = s.files
  root : s'.root = s.root
  directories : ∀ d ∈ s.directories, d ∈ s'.directories

namespace Grown

theorem refl (s : Store) : Grown s s := ⟨rfl, rfl, fun _ h => h⟩

theorem trans {s t u : Store} (h : Grown s t) (h' : Grown t u) : Grown s u :=
  ⟨h'.files.trans h.files, h'.root.trans h.root,
    fun d hd => h'.directories d (h.directories d hd)⟩

theorem addDirectory (s : Store) (l : Location) : Grown s (s.addDirectory l) := by
  unfold Store.addDirectory
  split
  · exact refl s
  · exact ⟨rfl, rfl, fun d hd => List.mem_append_left [l] hd⟩

theorem makeDirectories : ∀ (cs : List FilePath.Component) (s : Store) (l : Location),
    Grown s (s.makeDirectories l cs).1
  | [], s, l => addDirectory s l
  | .root :: cs, s, l => by
      simp only [Store.makeDirectories]
      split
      next r _ => exact makeDirectories cs s r
      next => exact refl s
  | .here :: cs, s, l => makeDirectories cs s l
  | .up :: cs, s, l => (addDirectory s l).trans (makeDirectories cs _ _)
  | .name n :: cs, s, l => by
      simp only [Store.makeDirectories]
      split
      · exact makeDirectories cs s (l ++ [n])
      · exact addDirectory s l

theorem makeParent (s : Store) (p : String) : Grown s (s.makeParent p).1 := by
  unfold Store.makeParent
  simp only
  split
  · exact makeDirectories _ s []
  · exact refl s

variable {s s' : Store} (h : Grown s s')

include h

theorem isDirectory {l : Location} (hl : s.isDirectory l = true) : s'.isDirectory l = true := by
  rcases Bool.or_eq_true_iff.1 hl with hl | hl
  · exact Bool.or_eq_true_iff.2 (.inl hl)
  · obtain ⟨d, hd, hp⟩ := List.any_eq_true.1 hl
    exact Bool.or_eq_true_iff.2 (.inr (List.any_eq_true.2 ⟨d, h.directories d hd, hp⟩))

/-- More directories stop no path from leading where it led before. -/
theorem resolve? {k : Location} : ∀ {cs : List FilePath.Component} {l : Location},
    s.resolve? l cs = some k → s'.resolve? l cs = some k
  | [], l, hk => by
      simp only [Store.resolve?] at hk ⊢
      split at hk
      next hl => rw [if_pos (h.isDirectory hl), hk]
      next => cases hk
  | .root :: cs, l, hk => by
      simp only [Store.resolve?] at hk ⊢
      rw [h.root]
      obtain ⟨r, hr, hk⟩ := Option.bind_eq_some_iff.1 hk
      rw [hr]
      exact resolve? hk
  | .here :: cs, l, hk => by
      simp only [Store.resolve?] at hk ⊢
      exact resolve? hk
  | .up :: cs, l, hk => by
      simp only [Store.resolve?] at hk ⊢
      split at hk
      next hl =>
        rw [if_pos (h.isDirectory hl)]
        exact resolve? hk
      next => cases hk
  | .name n :: cs, l, hk => by
      simp only [Store.resolve?] at hk ⊢
      split at hk
      next hn =>
        rw [if_pos hn]
        exact resolve? hk
      next => cases hk

theorem locateFile? {p : String} {k : Location} (hk : s.locateFile? p = some k) :
    s'.locateFile? p = some k := by
  simp only [Store.locateFile?, Store.locate?] at hk ⊢
  split at hk
  next => cases hk
  next hp =>
    split at hk
    next hu =>
      rw [if_neg hp, if_pos hu]
      exact h.resolve? hk
    next => cases hk

theorem fileAt? (k : Location) : s'.fileAt? k = s.fileAt? k := by
  rw [Store.fileAt?, Store.fileAt?, h.files]

theorem read? {p text : String} (hp : s.read? p = some text) : s'.read? p = some text := by
  obtain ⟨k, hk, ht⟩ := Option.bind_eq_some_iff.1 hp
  rw [Store.read?, h.locateFile? hk, Option.bind_some, h.fileAt?, ht]

end Grown

/-! ## Setting a file -/

variable (s : Store) (l : Location) (text : String)

theorem isDirectory_setFile (k : Location) : (s.setFile l text).isDirectory k = s.isDirectory k := by
  unfold setFile
  split
  · rfl
  · rfl

theorem root_setFile : (s.setFile l text).root = s.root := by
  unfold setFile
  split
  · rfl
  · rfl

theorem resolve?_setFile (cs : List FilePath.Component) (k : Location) :
    (s.setFile l text).resolve? k cs = s.resolve? k cs := by
  induction cs generalizing k with
  | nil => simp only [resolve?, isDirectory_setFile]
  | cons c cs ih =>
    cases c with
    | root => simp only [resolve?, root_setFile, ih]
    | here => simp only [resolve?, ih]
    | up => simp only [resolve?, isDirectory_setFile, ih]
    | name n => simp only [resolve?, ih]

theorem locateFile?_setFile (p : String) : (s.setFile l text).locateFile? p = s.locateFile? p := by
  simp only [locateFile?, locate?, resolve?_setFile]

/-- The files with the text of one place changed. -/
def changed (fs : List (Location × String)) : List (Location × String) :=
  fs.map fun f => if f.1 == l then (l, text) else f

theorem find?_changed_self (fs : List (Location × String))
    (h : (fs.find? fun f => f.1 == l).isSome = true) :
    (changed l text fs).find? (fun f => f.1 == l) = some (l, text) := by
  induction fs with
  | nil => cases h
  | cons f fs ih =>
    by_cases hf : f.1 = l
    · simp [changed, hf]
    · have hrest : (fs.find? fun f => f.1 == l).isSome = true := by simpa [hf] using h
      simpa [changed, hf] using ih hrest

theorem find?_changed_of_ne {k : Location} (hk : k ≠ l) : ∀ fs : List (Location × String),
    (changed l text fs).find? (fun f => f.1 == k) = fs.find? fun f => f.1 == k
  | [] => rfl
  | f :: fs => by
      have ih := find?_changed_of_ne hk fs
      by_cases hf : f.1 = l
      · have hl : ¬ l = k := fun h => hk h.symm
        simpa [changed, hf, hl] using ih
      · have hfile : ((f.1 == l) = true) = False := by simp [hf]
        simp only [changed] at ih
        simp only [changed, List.map_cons, hfile, if_false, List.find?_cons, ih]

/-- The file that was set holds the text. -/
theorem fileAt?_setFile_self : (s.setFile l text).fileAt? l = some text := by
  unfold setFile
  split
  next h =>
    have hs : (s.files.find? fun f => f.1 == l).isSome = true := by simpa [fileAt?] using h
    have hf := find?_changed_self l text s.files hs
    simp only [changed] at hf
    simp only [fileAt?, hf, Option.map_some]
  next h =>
    have hn : (s.files.find? fun f => f.1 == l) = none := by
      unfold fileAt? at h
      rwa [Option.isSome_map, Option.not_isSome_iff_eq_none] at h
    simp [fileAt?, List.find?_append, hn]

/-- Every other file holds what it held before. -/
theorem fileAt?_setFile_of_ne {k : Location} (hk : k ≠ l) :
    (s.setFile l text).fileAt? k = s.fileAt? k := by
  unfold setFile
  split
  next =>
    have hf := find?_changed_of_ne l text hk s.files
    simp only [changed] at hf
    simp only [fileAt?, hf]
  next =>
    have hl : ¬ l = k := fun h => hk h.symm
    simp [fileAt?, List.find?_append, hl]

/-! ## Writing a file if it changed -/

variable {s text} {p : String}

theorem writeIfChanged_of_read? (h : s.read? p = some text) :
    s.writeIfChanged p text = (s, .ok false) := by
  rw [writeIfChanged, if_pos h]

/-- Writing finds the file unchanged, or fails, or sets the file; it may make directories. -/
theorem writeIfChanged_cases {s' : Store} {r : Except Failure Bool}
    (h : s.writeIfChanged p text = (s', r)) :
    (s.read? p = some text ∧ s' = s ∧ r = .ok false) ∨
      (Grown s s' ∧ r = .error (.io p "")) ∨
      ∃ g l, Grown s g ∧ g.locateFile? p = some l ∧ s' = g.setFile l text ∧ r = .ok true := by
  unfold writeIfChanged at h
  split at h
  next hread =>
    cases h
    exact .inl ⟨hread, rfl, rfl⟩
  next =>
    have hgrown := Grown.makeParent s p
    unfold writeDeep at h
    cases hparent : s.makeParent p with
    | mk g l =>
      rw [hparent] at h hgrown
      cases l with
      | none =>
        cases h
        exact .inr (.inl ⟨hgrown, rfl⟩)
      | some _ =>
        simp only [write?] at h
        cases hlocate : g.locateFile? p with
        | none =>
          rw [hlocate] at h
          cases h
          exact .inr (.inl ⟨hgrown, rfl⟩)
        | some k =>
          rw [hlocate] at h
          cases hk : g.isDirectory k with
          | true =>
            simp only [hk, if_true] at h
            cases h
            exact .inr (.inl ⟨hgrown, rfl⟩)
          | false =>
            simp only [hk] at h
            cases h
            exact .inr (.inr ⟨g, k, hgrown, hlocate, rfl, rfl⟩)

theorem writeIfChanged_error {s' : Store} {e : Failure}
    (h : s.writeIfChanged p text = (s', .error e)) : e = .io p "" := by
  rcases writeIfChanged_cases h with ⟨_, _, h⟩ | ⟨_, h⟩ | ⟨_, _, _, _, _, h⟩
  · cases h
  · cases h
    rfl
  · cases h

theorem exists_writeIfChanged_of_writeDeep (h : (s.writeDeep p text).2.isOk = true) :
    ∃ s' b, s.writeIfChanged p text = (s', .ok b) := by
  unfold writeIfChanged
  split
  next => exact ⟨s, false, rfl⟩
  next =>
    cases hdeep : s.writeDeep p text with
    | mk g r =>
      rw [hdeep] at h
      cases r with
      | ok u => exact ⟨g, true, rfl⟩
      | error f => cases h

/-- **A file that was written reads as its text.** -/
theorem read?_writeIfChanged {s' : Store} {b : Bool}
    (h : s.writeIfChanged p text = (s', .ok b)) : s'.read? p = some text := by
  rcases writeIfChanged_cases h with ⟨hread, rfl, _⟩ | ⟨_, h⟩ | ⟨g, l, _, hl, rfl, _⟩
  · exact hread
  · cases h
  · rw [read?, locateFile?_setFile, hl, Option.bind_some, fileAt?_setFile_self]

/-- **Writing a file leaves files with another name as they are.** -/
theorem read?_writeIfChanged_of_ne {s' : Store} {r : Except Failure Bool}
    {base other n m old : String} (hn : FilePath.IsName n) (hm : FilePath.IsName m)
    (hne : n ≠ m) (h : s.writeIfChanged (FilePath.join base n) text = (s', r))
    (hold : s.read? (FilePath.join other m) = some old) :
    s'.read? (FilePath.join other m) = some old := by
  rcases writeIfChanged_cases h with ⟨_, rfl, _⟩ | ⟨hgrown, _⟩ | ⟨g, l, hgrown, hl, rfl, _⟩
  · exact hold
  · exact hgrown.read? hold
  · have hread := hgrown.read? hold
    obtain ⟨k, hk, ht⟩ := Option.bind_eq_some_iff.1 hread
    have hkl : k ≠ l := by
      rintro rfl
      have hlast := (getLast?_of_locateFile? hn hl).symm.trans (getLast?_of_locateFile? hm hk)
      exact hne (Option.some.inj hlast)
    rw [read?, locateFile?_setFile, hk, Option.bind_some, fileAt?_setFile_of_ne _ _ _ hkl, ht]

theorem read?_eq_none_of_exists? (h : s.exists? p = false) (hp : p ≠ "") : s.read? p = none := by
  have hempty : p.isEmpty = false := by
    cases hi : p.isEmpty with
    | false => rfl
    | true => exact absurd (String.isEmpty_iff.1 hi) hp
  simp only [exists?, hempty, Bool.not_false, Bool.true_and, Bool.or_eq_false_iff] at h
  simpa using h.2

end Store

end ClientBuild
