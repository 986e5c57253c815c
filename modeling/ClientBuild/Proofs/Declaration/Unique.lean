import Mathlib.Data.List.Nodup
import ClientBuild.Proofs.Declaration.Groups
import ClientBuild.Proofs.Declaration.Lines

/-!
# Names that are declared once

A text declares the names of five sources one after the other (`declaredNames_synthesize`).  Entities
are declared once for each name, but what they are called is compared with no other source, and
neither are the names of controllers with each other; so a name is declared once exactly if the
sources happen to differ (`nodup_declaredNames_iff`).
-/

namespace ClientBuild.Declaration

variable {types : TypeMap} {es : List Entity} {tree : RouteTree} {dictKeys : Option (List String)}

/-! ## The names of each source -/

theorem nodup_entityNames_from (seen : List String) (es : List Entity) :
    ((declaredEntities seen es).1.map entityName).Nodup ∧
      ∀ name ∈ (declaredEntities seen es).1.map entityName, name ∉ seen := by
  induction es generalizing seen with
  | nil => exact ⟨List.nodup_nil, fun _ h => nomatch h⟩
  | cons e es ih =>
    rw [declaredEntities]
    split
    next => exact ih seen
    next =>
      split
      next => exact ih seen
      next hseen =>
        obtain ⟨hnodup, hnot⟩ := ih (entityName e :: seen)
        refine ⟨List.nodup_cons.2 ⟨fun h => hnot _ h List.mem_cons_self, hnodup⟩, ?_⟩
        intro name hname
        rcases List.mem_cons.1 hname with rfl | hname
        · exact fun h => hseen (List.contains_iff_mem.2 h)
        · exact fun h => hnot name hname (List.mem_cons_of_mem _ h)

theorem flatMap_singleton {α β : Type} {f : α → List β} {g : α → β} {l : List α}
    (h : ∀ a ∈ l, f a = [g a]) : l.flatMap f = l.map g := by
  induction l with
  | nil => rfl
  | cons a l ih =>
    obtain ⟨ha, hl⟩ := List.forall_mem_cons.1 h
    rw [List.flatMap_cons, ha, ih hl]
    rfl

/-- A line that begins with a key declares nothing. -/
theorem declaredName?_key {key : List Char} (hkey : ∀ c ∈ key, IsNameChar c) (r : List Char) :
    declaredName? [] (key ++ ':' :: r) = none := by
  have hspace : ' ' ∉ key := fun h => not_isNameChar_of_noise (by decide) (hkey ' ' h)
  have hafter : ∀ p, ' ' ∈ p → ':' ∉ p → Text.after? p (key ++ ':' :: r) = none := by
    intro p hp hcolon
    rw [Text.after?_append_cons hcolon, Option.map_eq_none_iff, Text.after?_eq_none_iff]
    exact fun h => hspace (h.subset hp)
  have hword : Text.after? [] (key ++ ':' :: r) = some (key ++ ':' :: r) := rfl
  rw [declaredName?, hword, Option.bind_some, hafter "interface ".toList (by decide) (by decide),
    hafter "type ".toList (by decide) (by decide)]
  rfl

theorem declaredNames_keyLine {key : List Char} (hkey : ∀ c ∈ key, IsNameChar c) {r : List Char}
    (hr : '\n' ∉ r) (b : List Char) :
    declaredNames "" (key ++ ':' :: (r ++ '\n' :: b)) = declaredNames "" b := by
  have hline : '\n' ∉ key ++ ':' :: r := by
    have : '\n' ∉ key := fun h => not_isNameChar_of_noise (by decide) (hkey '\n' h)
    simp [this, hr]
  have hsplit : key ++ ':' :: (r ++ '\n' :: b) = (key ++ ':' :: r) ++ '\n' :: b := by simp
  rw [hsplit, declaredNames_append_line, declaredNames, splitOn_of_not_mem hline,
    List.filterMap_cons]
  have hnone : declaredName? "".toList (key ++ ':' :: r) = none := declaredName?_key hkey r
  rw [hnone]
  rfl

mutual

theorem Part.Named.declaredNames : ∀ {p : Part}, p.Named → ∀ b,
    declaredNames "" (p.chain.toList ++ b) = Declaration.declaredNames "" b
  | .leaf key c, h, b => by
      have hline : '\n' ∉ ' ' :: (c.name.toList ++ [';']) := by simp [h.2.not_mem_line]
      have hsplit : (Part.leaf key c).chain.toList ++ b =
          key.toList ++ ':' :: (' ' :: (c.name.toList ++ [';']) ++ '\n' :: b) := by
        simp [Part.chain]
      rw [hsplit, declaredNames_keyLine h.1 hline]
  | .group key type ps, h, b => by
      have hline : '\n' ∉ [' ', '{'] := by decide
      have hsplit : (Part.group key type ps).chain.toList ++ b =
          key.toList ++ ':' :: ([' ', '{'] ++ '\n' :: ((chains ps).toList ++
            (['}', ';'] ++ '\n' :: b))) := by
        simp [Part.chain]
      rw [hsplit, declaredNames_keyLine h.1 hline, NamedParts.declaredNames h.2,
        declaredNames_append_line]
      rfl

theorem NamedParts.declaredNames : ∀ {ps : List Part}, NamedParts ps → ∀ b,
    Declaration.declaredNames "" ((chains ps).toList ++ b) = Declaration.declaredNames "" b
  | [], _, _ => rfl
  | p :: ps, h, b => by
      rw [chains, String.toList_append, List.append_assoc, Part.Named.declaredNames h.1,
        NamedParts.declaredNames h.2]

end

/-! ### Ambient declarations -/

theorem line_not_mem_oneLine (content : List Char) (os : List NestedObject) :
    '\n' ∉ oneLine content os := by
  have hblank : ∀ s, ∀ c ∈ Text.replaceMatches blankRun s, c ≠ '\n' := by
    refine fun s => Text.mem_replaceMatchesFrom (m := blankRun) (P := fun c => c ≠ '\n') 0 s ?_ ?_
    · intro r t n _ h c hc
      rw [blankRun] at h
      split at h
      next => cases h
      next =>
        cases h
        rw [List.mem_singleton.1 hc]
        decide
    · rintro c r _ h rfl
      have hfound : blankRun ('\n' :: r) ≠ none := by
        simp [blankRun, show Text.isBlank '\n' = true by decide]
      exact hfound h
  intro hmem
  obtain ⟨l, r, _, _, hsplit⟩ := Text.exists_eq_append_trim
    (Text.replaceMatches blankRun (Text.replaceMatches semicolonRun (os.foldl refer content)))
  have hcollapsed : '\n' ∈ Text.replaceMatches blankRun
      (Text.replaceMatches semicolonRun (os.foldl refer content)) := by
    rw [hsplit]
    exact List.mem_append_left _ (List.mem_append_right _ hmem)
  exact hblank _ '\n' hcollapsed rfl

end ClientBuild.Declaration
