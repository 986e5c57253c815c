import ClientBuild.Proofs.Declaration.Keys
import ClientBuild.Proofs.Declaration.Layout

/-!
# Names without marks

A mark is a character that the layout reads as more than itself.  Names come from texts of a backend by
leaving characters out and by raising letters, and neither brings in a mark, so that a tree of routes
without marks has neither a key nor a name with one (`unmarkedParts_build`).
-/

namespace ClientBuild.Declaration

variable {s t : List Char} {c x : Char}

/-! ## Texts without marks -/

theorem Unmarked.of_subset (ht : Unmarked t) (h : s ⊆ t) : Unmarked s := fun c hc => ht c (h hc)

theorem Unmarked.append (hs : Unmarked s) (ht : Unmarked t) : Unmarked (s ++ t) :=
  fun c hc => (List.mem_append.1 hc).elim (hs c) (ht c)

theorem isMark_of_word (h : Text.isWordAscii c = true) : isMark c = false := by
  have hne : ∀ m, Text.isWordAscii m = false → c ≠ m := by
    rintro m hm rfl
    exact Bool.noConfusion (h.symm.trans hm)
  simp [isMark, hne '{' (by decide), hne '}' (by decide), hne '"' (by decide), hne '\'' (by decide),
    hne '\x60' (by decide), hne '\\' (by decide), hne '/' (by decide)]

theorem isMark_of_le (h : 128 ≤ c.toNat) : isMark c = false := by
  have hne : ∀ m : Char, m.toNat < 128 → c ≠ m := by
    rintro m hm rfl
    omega
  simp [isMark, hne '{' (by decide), hne '}' (by decide), hne '"' (by decide), hne '\'' (by decide),
    hne '\x60' (by decide), hne '\\' (by decide), hne '/' (by decide)]

/-! ## Upper case -/

theorem isMark_toUpper (hc : isMark c = false) : isMark c.toUpper = false := by
  rcases toNat_toUpper c with h | ⟨hfirst, hlast, h⟩
  · rwa [Char.toNat_inj.1 h]
  · exact isMark_of_word (isWordAscii_iff.2 (by omega))

theorem isMark_ofNat {n : Nat} (h : 128 ≤ n) : isMark (Char.ofNat n) = false := by
  by_cases hvalid : n.isValidChar
  · exact isMark_of_le (by rwa [Char.ofNat, dif_pos hvalid])
  · rw [Char.ofNat, dif_neg hvalid]
    decide

/-- No range of characters moves onto a mark. -/
theorem isMark_of_covers {r : Text.CaseRange} (hr : r ∈ Text.upperRanges) {n : Nat} (hn : 128 ≤ n)
    (hcovers : r.covers n = true) : isMark (Char.ofNat ((n : Int) + r.shift).toNat) = false := by
  have hall : Text.upperRanges.all (fun r => decide (r.last < 128) ||
      decide (128 ≤ (r.first : Int) + r.shift) || (r.first == r.last &&
        !isMark (Char.ofNat ((r.first : Int) + r.shift).toNat))) = true := by decide
  have hmoved := List.all_eq_true.1 hall r hr
  simp only [Text.CaseRange.covers, Bool.and_eq_true, decide_eq_true_eq] at hcovers
  obtain ⟨⟨hfirst, hlast⟩, _⟩ := hcovers
  simp only [Bool.or_eq_true, Bool.and_eq_true, decide_eq_true_eq, beq_iff_eq,
    Bool.not_eq_true'] at hmoved
  rcases hmoved with (hlow | hhigh) | ⟨hone, hmark⟩
  · omega
  · exact isMark_ofNat (by omega)
  · have hn : n = r.first := by omega
    rwa [hn]

theorem isMark_of_mem_upperChar (hc : isMark c = false) (hx : x ∈ Text.upperChar c) :
    isMark x = false := by
  rw [Text.upperChar] at hx
  split at hx
  next =>
    rw [List.mem_singleton.1 hx]
    exact isMark_toUpper hc
  next hn =>
    split at hx
    next r hr =>
      have hcovers := List.find?_some hr
      rw [List.mem_singleton.1 hx]
      exact isMark_of_covers (List.mem_of_find?_eq_some hr) (by omega) hcovers
    next =>
      split at hx
      next e he =>
        have hall : Text.upperExpansions.all (fun e => e.2.all fun k => !isMark (Char.ofNat k)) =
            true := by decide
        have hparts := List.all_eq_true.1 hall e (List.mem_of_find?_eq_some he)
        obtain ⟨k, hk, rfl⟩ := List.mem_map.1 hx
        simpa using List.all_eq_true.1 hparts k hk
      next => rwa [List.mem_singleton.1 hx]

/-! ## Names -/

theorem Unmarked.toCamel (hs : Unmarked s) : Unmarked (toCamel s) := by
  refine Text.mem_replaceMatchesFrom 0 s ?_ ?_
  · intro r t n hr hfound c hc
    have hr : Unmarked r := hs.of_subset hr.subset
    cases r with
    | nil => cases hfound
    | cons d r =>
      simp only [dashRun] at hfound
      split at hfound
      next => cases hfound
      next =>
        split at hfound
        next e u hrest =>
          split at hfound
          next => cases hfound
          next =>
            cases hfound
            have he : e ∈ d :: r :=
              List.mem_cons_of_mem d ((List.dropWhile_sublist _).subset (hrest ▸ List.mem_cons_self))
            rcases List.mem_cons.1 hc with rfl | hc
            · exact hr c List.mem_cons_self
            · exact isMark_of_mem_upperChar (hr e he) hc
        next => cases hfound
  · exact fun c r hr _ => hs c (hr.subset List.mem_cons_self)

theorem Unmarked.plainName (hs : Unmarked s) : Unmarked (plainName s) :=
  hs.of_subset (List.filter_sublist ..).subset

theorem Unmarked.capitalize (hs : Unmarked s) : Unmarked (capitalize s) :=
  fun c hc => (mem_of_mem_raiseFrom hc).elim (hs c) isMark_of_word

theorem Unmarked.nodeName {key : String} (hs : Unmarked s) (hkey : Unmarked key.toList) :
    Unmarked (nodeName s key) := by
  rw [nodeName_eq]
  exact hs.append hkey.plainName.capitalize

theorem Unmarked.entityName {e : Entity} (h : Unmarked e.name.toList) :
    Unmarked (entityName e).toList := by
  rw [Declaration.entityName, ofChars, String.toList_ofList]
  exact h.plainName

theorem Unmarked.entityType {e : Entity} (h : Unmarked e.name.toList) :
    Unmarked (entityType e).toList := by
  rw [Declaration.entityType]
  split
  next => exact h.entityName
  next => decide

theorem Unmarked.methodName {m : Method} (h : Unmarked m.displayName.toList) :
    Unmarked (methodName m) := by
  rw [methodName_eq]
  exact h.plainName

/-! ## Keys of a tree -/

/-- Has the route no marks but the slashes between its segments? -/
def UnmarkedRoute (e : Entity) : Prop := ∀ c ∈ e.route.toList, c ≠ '/' → isMark c = false

theorem UnmarkedRoute.segmentsOf {e : Entity} (h : UnmarkedRoute e) (namespaceId : String) :
    ∀ segment ∈ RouteTree.segmentsOf namespaceId e, Unmarked segment.toList := by
  intro segment hsegment
  obtain ⟨piece, hpiece, rfl⟩ := List.mem_map.1 hsegment
  rw [String.toList_ofList]
  refine Unmarked.toCamel fun c hc => ?_
  obtain ⟨hmem, hslash⟩ := Text.mem_splitOn (List.mem_filter.1 hpiece).1 hc
  have hpath : RouteTree.pathOf e ⊆ e.route.toList := by
    rw [RouteTree.pathOf]
    cases hafter : Text.after? ['/'] e.route.toList with
    | none => exact List.Subset.refl _
    | some path =>
      rw [Text.after?_eq_some_iff.1 hafter]
      exact List.subset_append_right _ _
  exact h c (hpath (Text.replaceFirst_nil_subset _ _ hmem)) (by simpa using hslash)

mutual

/-- Has no key below the node a mark? -/
def UnmarkedNode : RouteNode → Prop
  | ⟨_, _, _, _, children⟩ => UnmarkedKeys children

def UnmarkedKeys : List (String × RouteNode) → Prop
  | [] => True
  | (key, n) :: ns => Unmarked key.toList ∧ UnmarkedNode n ∧ UnmarkedKeys ns

end

theorem unmarkedNode_iff {n : RouteNode} : UnmarkedNode n ↔ UnmarkedKeys n.children := by
  obtain ⟨route, permission, search, methods, children⟩ := n
  simp only [UnmarkedNode]

mutual

theorem unmarkedNode_of_everyKey : ∀ {n : RouteNode}, EveryKeyBelow (fun key => Unmarked key.toList) n →
    UnmarkedNode n
  | ⟨_, _, _, _, _⟩, h => unmarkedKeys_of_everyKey h

theorem unmarkedKeys_of_everyKey : ∀ {ns : List (String × RouteNode)},
    EveryKey (fun key => Unmarked key.toList) ns → UnmarkedKeys ns
  | [], _ => trivial
  | _ :: _, ⟨hkey, hn, hns⟩ => ⟨hkey, unmarkedNode_of_everyKey hn, unmarkedKeys_of_everyKey hns⟩

end

/-- **The tree of entities without marks in their routes has no key with one.** -/
theorem unmarkedKeys_build {es : List Entity} (h : ∀ e ∈ es, UnmarkedRoute e)
    (namespaceId : String) : UnmarkedKeys (RouteTree.build namespaceId es) :=
  unmarkedKeys_of_everyKey (everyKey_build fun e he => (h e he).segmentsOf namespaceId)

/-! ## Parts -/

mutual

/-- Have the keys of the part and the names of its controllers no marks? -/
def Part.Unmarked : Part → Prop
  | .leaf key c => Declaration.Unmarked key.toList ∧ Declaration.Unmarked c.name.toList
  | .group key _ parts => Declaration.Unmarked key.toList ∧ UnmarkedParts parts

def UnmarkedParts : List Part → Prop
  | [] => True
  | p :: ps => p.Unmarked ∧ UnmarkedParts ps

end

mutual

theorem unmarked_of_part? (es : List Entity) : ∀ {above : List Char} {key : String} {n : RouteNode}
    {p : Part}, Unmarked above → Unmarked key.toList → UnmarkedNode n →
      part? es above key n = some p → p.Unmarked
  | above, key, ⟨route, _, _, _, children⟩, p, habove, hkey, hn, hp => by
      have hname : Unmarked (nodeName above key) := habove.nodeName hkey
      have hplain : Unmarked (ofChars (plainName key.toList)).toList := by
        rw [ofChars, String.toList_ofList]
        exact hkey.plainName
      simp only [part?] at hp
      split at hp
      next => cases hp
      next =>
        cases route with
        | none =>
          cases hp
          exact ⟨hplain, unmarkedParts_parts es hname (unmarkedNode_iff.1 hn)⟩
        | some r =>
          obtain ⟨e, _, rfl⟩ := Option.map_eq_some_iff.1 hp
          refine ⟨hplain, ?_⟩
          rw [ofChars, String.toList_ofList]
          exact hname

theorem unmarkedParts_parts (es : List Entity) : ∀ {above : List Char}
    {ns : List (String × RouteNode)}, Unmarked above → UnmarkedKeys ns →
      UnmarkedParts (parts es above ns)
  | _, [], _, _ => trivial
  | above, (key, n) :: ns, habove, ⟨hkey, hn, hns⟩ => by
      rw [parts]
      split
      next p hp => exact ⟨unmarked_of_part? es habove hkey hn hp, unmarkedParts_parts es habove hns⟩
      next => exact unmarkedParts_parts es habove hns

end

/-- **Nothing that is declared for routes without marks has one.** -/
theorem unmarkedParts_build {es : List Entity} (h : ∀ e ∈ es, UnmarkedRoute e)
    (namespaceId : String) : UnmarkedParts (parts es [] (RouteTree.build namespaceId es)) :=
  unmarkedParts_parts es (fun _ hc => nomatch hc) (unmarkedKeys_build h namespaceId)

mutual

theorem Part.Unmarked.controllers : ∀ {p : Part}, p.Unmarked →
    ∀ c ∈ p.controllers, Declaration.Unmarked c.name.toList
  | .leaf _ _, h, _, hc => by
      rw [List.mem_singleton.1 hc]
      exact h.2
  | .group _ _ _, h, c, hc => UnmarkedParts.controllersOf h.2 c hc

theorem UnmarkedParts.controllersOf : ∀ {ps : List Part}, UnmarkedParts ps →
    ∀ c ∈ controllersOf ps, Declaration.Unmarked c.name.toList
  | [], _, _, hc => nomatch hc
  | _ :: _, h, c, hc =>
      (List.mem_append.1 hc).elim (h.1.controllers c) (UnmarkedParts.controllersOf h.2 c)

end

end ClientBuild.Declaration
