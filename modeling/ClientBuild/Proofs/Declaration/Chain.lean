import ClientBuild.Proofs.Declaration.Flatten
import ClientBuild.Proofs.Declaration.Name
import ClientBuild.Proofs.Declaration.Parts

/-!
# The service type on one line

Every part has a key and names that can be declared (`namedParts_parts`), so the service type has no
braces but those of its groups and is balanced, however deep the tree is (`balanced_linesOf`).
-/

namespace ClientBuild.Declaration

/-! ## Names of parts -/

mutual

/-- Can the keys of a part and the names of its controllers stand in names? -/
def Part.Named : Part → Prop
  | .leaf key c => (∀ x ∈ key.toList, IsNameChar x) ∧ IsName c.name.toList
  | .group key _ parts => (∀ x ∈ key.toList, IsNameChar x) ∧ NamedParts parts

def NamedParts : List Part → Prop
  | [] => True
  | p :: ps => p.Named ∧ NamedParts ps

end

mutual

theorem named_of_part? (es : List Entity) : ∀ {above : List Char} (key : String) (n : RouteNode)
    {p : Part}, (∀ c ∈ above, isNameNoise c = false) → part? es above key n = some p → p.Named
  | above, key, ⟨route, _, _, _, children⟩, p, habove, hp => by
      simp only [part?] at hp
      split at hp
      next => cases hp
      next hlawful =>
        have hlawful : isLawful (nodeName above key) = true := by simpa using hlawful
        have hname := @isNameNoise_of_mem_nodeName above key habove
        have hkey : ∀ x ∈ (ofChars (plainName key.toList)).toList, IsNameChar x := by
          rw [ofChars, String.toList_ofList]
          exact isNameChar_of_mem_key hlawful
        cases route with
        | none =>
          cases hp
          exact ⟨hkey, namedParts_parts es children hname⟩
        | some r =>
          obtain ⟨e, _, rfl⟩ := Option.map_eq_some_iff.1 hp
          refine ⟨hkey, ?_⟩
          rw [ofChars, String.toList_ofList]
          exact IsName.of_isLawful hlawful hname

theorem namedParts_parts (es : List Entity) : ∀ {above : List Char} (ns : List (String × RouteNode)),
    (∀ c ∈ above, isNameNoise c = false) → NamedParts (parts es above ns)
  | _, [], _ => trivial
  | above, (key, n) :: ns, habove => by
      rw [parts]
      split
      next p hp => exact ⟨named_of_part? es key n habove hp, namedParts_parts es ns habove⟩
      next => exact namedParts_parts es ns habove

end

theorem namedParts_root (es : List Entity) (tree : RouteTree) : NamedParts (parts es [] tree) :=
  namedParts_parts es tree fun _ hc => nomatch hc

mutual

theorem Part.Named.controllers : ∀ {p : Part}, p.Named → ∀ c ∈ p.controllers, IsName c.name.toList
  | .leaf _ _, h, _, hc => by
      rw [List.mem_singleton.1 hc]
      exact h.2
  | .group _ _ _, h, c, hc => NamedParts.controllersOf h.2 c hc

theorem NamedParts.controllersOf : ∀ {ps : List Part}, NamedParts ps →
    ∀ c ∈ controllersOf ps, IsName c.name.toList
  | [], _, _, hc => nomatch hc
  | _ :: _, h, c, hc =>
      (List.mem_append.1 hc).elim (h.1.controllers c) (NamedParts.controllersOf h.2 c)

end

/-! ## The lines -/

mutual

/-- A part of the service type without line breaks. -/
def Part.line : Part → List Char
  | .leaf key c => key.toList ++ ": ".toList ++ c.name.toList ++ [';']
  | .group key _ parts => key.toList ++ ": ".toList ++ ('{' :: linesOf parts ++ ['}']) ++ [';']

def linesOf : List Part → List Char
  | [] => []
  | p :: ps => p.line ++ linesOf ps

end

@[simp] theorem unbroken_append (s t : List Char) :
    unbroken (s ++ t) = unbroken s ++ unbroken t :=
  List.filter_append ..

theorem unbroken_of_names {s : List Char} (h : ∀ c ∈ s, IsNameChar c) : unbroken s = s := by
  refine List.filter_eq_self.2 fun c hc => ?_
  have hline := (h c hc).ne (d := '\n') (by decide)
  have htab := (h c hc).ne (d := '\t') (by decide)
  simp [hline, htab]

mutual

theorem Part.Named.unbroken_chain : ∀ {p : Part}, p.Named → unbroken p.chain.toList = p.line
  | .leaf key c, h => by
      simp only [Part.chain, Part.line, String.toList_append, unbroken_append,
        unbroken_of_names h.1, unbroken_of_names h.2.2]
      rfl
  | .group key _ parts, h => by
      simp only [Part.chain, Part.line, String.toList_append, unbroken_append,
        unbroken_of_names h.1, NamedParts.unbroken_chains h.2]
      simp [unbroken]

theorem NamedParts.unbroken_chains : ∀ {ps : List Part}, NamedParts ps →
    unbroken (chains ps).toList = linesOf ps
  | [], _ => rfl
  | p :: ps, h => by
      simp only [chains, linesOf, String.toList_append, unbroken_append, h.1.unbroken_chain,
        NamedParts.unbroken_chains h.2]

end

theorem braceFree_of_names {s : List Char} (h : ∀ c ∈ s, IsNameChar c) : BraceFree s :=
  ⟨fun hs => not_isNameChar_open (h _ hs), fun hs => not_isNameChar_close (h _ hs)⟩

mutual

theorem Part.Named.balanced : ∀ {p : Part}, p.Named → Balanced p.line
  | .leaf key c, h => by
      have hcolon : BraceFree ": ".toList := by constructor <;> decide
      have hstop : BraceFree [';'] := by constructor <;> decide
      exact (((braceFree_of_names h.1).append hcolon).append
        (braceFree_of_names h.2.2)).append hstop |>.balanced
  | .group key _ parts, h => by
      have hcolon : BraceFree ": ".toList := by constructor <;> decide
      have hstop : BraceFree [';'] := by constructor <;> decide
      exact (((braceFree_of_names h.1).append hcolon).balanced.append
        (balanced_linesOf h.2).braced).append hstop.balanced

/-- **The service type is balanced.** -/
theorem balanced_linesOf : ∀ {ps : List Part}, NamedParts ps → Balanced (linesOf ps)
  | [], _ => balanced_nil
  | _ :: _, h => h.1.balanced.append (balanced_linesOf h.2)

end

end ClientBuild.Declaration
