import ClientBuild.Proofs.Declaration.Chain
import ClientBuild.Proofs.Declaration.Tree

/-!
# Properties of keys

A tree of routes has no keys but the segments of its entities, so a property of those is one of every key
(`everyKey_build`).  The names of controllers are put together from the keys above them, raised at their words,
and have no other characters (`mem_controllers_of_everyKey`).
-/

namespace ClientBuild.Declaration

variable {P : String → Prop}

mutual

/-- Has every key below the node the property? -/
def EveryKeyBelow (P : String → Prop) : RouteNode → Prop
  | ⟨_, _, _, _, children⟩ => EveryKey P children

/-- Has every key of the level and below it the property? -/
def EveryKey (P : String → Prop) : List (String × RouteNode) → Prop
  | [] => True
  | (key, n) :: ns => P key ∧ EveryKeyBelow P n ∧ EveryKey P ns

end

theorem everyKeyBelow_iff {n : RouteNode} : EveryKeyBelow P n ↔ EveryKey P n.children := by
  obtain ⟨route, permission, search, methods, children⟩ := n
  simp only [EveryKeyBelow]

theorem EveryKey.alter {key : String} {f : Option RouteNode → RouteNode} (hkey : P key)
    (hnew : EveryKeyBelow P (f none)) (hold : ∀ n, EveryKeyBelow P n → EveryKeyBelow P (f (some n))) :
    ∀ {level : RouteTree}, EveryKey P level → EveryKey P (Assoc.alter key f level)
  | [], _ => ⟨hkey, hnew, trivial⟩
  | (k, n) :: level, ⟨hk, hn, hlevel⟩ => by
    rw [Assoc.alter]
    split
    next => exact ⟨hk, hold n hn, hlevel⟩
    next => exact ⟨hk, hn, hlevel.alter hkey hnew hold⟩

/-- Binding an entity brings only its segments into a tree. -/
theorem EveryKey.insertAt {namespaceId : String} {e : Entity} :
    ∀ {segments : List String} {level : RouteTree}, (∀ segment ∈ segments, P segment) → EveryKey P level →
      EveryKey P (RouteTree.insertAt namespaceId e segments level)
  | [], _, _, hlevel => hlevel
  | [last], level, h, hlevel => by
    refine hlevel.alter (h last List.mem_cons_self) ?_ fun n hn => ?_
    · exact everyKeyBelow_iff.2 trivial
    · have hchildren : EveryKey P n.children := everyKeyBelow_iff.1 hn
      exact everyKeyBelow_iff.2 hchildren
  | segment :: segment' :: rest, level, h, hlevel => by
    obtain ⟨hsegment, hrest⟩ := List.forall_mem_cons.1 h
    refine hlevel.alter hsegment ?_ fun n hn => ?_
    · exact everyKeyBelow_iff.2 (EveryKey.insertAt hrest trivial)
    · exact everyKeyBelow_iff.2 (EveryKey.insertAt hrest (everyKeyBelow_iff.1 hn))

/-- **The keys of a tree are segments of its entities.** -/
theorem everyKey_build {namespaceId : String} {es : List Entity}
    (h : ∀ e ∈ es, ∀ segment ∈ RouteTree.segmentsOf namespaceId e, P segment) :
    EveryKey P (RouteTree.build namespaceId es) := by
  have hfold : ∀ (es : List Entity) (level : RouteTree),
      (∀ e ∈ es, ∀ segment ∈ RouteTree.segmentsOf namespaceId e, P segment) → EveryKey P level →
      EveryKey P (es.foldl (fun level e =>
        RouteTree.insertAt namespaceId e (RouteTree.segmentsOf namespaceId e) level) level) := by
    intro es
    induction es with
    | nil => exact fun _ _ hlevel => hlevel
    | cons e es ih =>
      intro level h hlevel
      obtain ⟨he, hes⟩ := List.forall_mem_cons.1 h
      exact ih _ hes (hlevel.insertAt he)
  exact hfold es [] h trivial

/-! ## Names of controllers -/

section names

variable {Q : Char → Prop} {es : List Entity}

/-- Have the characters of the key that go into names the property? -/
def KeyChars (Q : Char → Prop) (key : String) : Prop := ∀ c ∈ plainName key.toList, Q c

theorem KeyChars.nodeName (hQ : ∀ c, Text.isWordAscii c = true → Q c) {above : List Char} {key : String}
    (habove : ∀ c ∈ above, Q c) (hkey : KeyChars Q key) : ∀ c ∈ nodeName above key, Q c := by
  intro c hc
  rw [nodeName_eq] at hc
  exact (List.mem_append.1 hc).elim (habove c) fun hc => (mem_of_mem_raiseFrom hc).elim (hkey c) (hQ c)

mutual

theorem mem_controllers_of_part? (hQ : ∀ c, Text.isWordAscii c = true → Q c) : ∀ {above : List Char} {key : String}
    {n : RouteNode} {p : Part}, (∀ c ∈ above, Q c) → KeyChars Q key → EveryKeyBelow (KeyChars Q) n →
      part? es above key n = some p → ∀ c ∈ p.controllers, ∀ x ∈ c.name.toList, Q x
  | above, key, ⟨route, _, _, _, children⟩, p, habove, hkey, hn, hp, c, hc => by
      simp only [part?] at hp
      split at hp
      next => cases hp
      next =>
        cases route with
        | none =>
          cases hp
          exact mem_controllers_of_everyKey hQ (hkey.nodeName hQ habove) (everyKeyBelow_iff.1 hn) c hc
        | some r =>
          obtain ⟨e, _, rfl⟩ := Option.map_eq_some_iff.1 hp
          rw [List.mem_singleton.1 hc, ofChars, String.toList_ofList]
          exact hkey.nodeName hQ habove

/-- **The name of a controller** has only word characters and characters of keys. -/
theorem mem_controllers_of_everyKey (hQ : ∀ c, Text.isWordAscii c = true → Q c) : ∀ {above : List Char}
    {ns : List (String × RouteNode)}, (∀ c ∈ above, Q c) → EveryKey (KeyChars Q) ns →
      ∀ c ∈ controllersOf (parts es above ns), ∀ x ∈ c.name.toList, Q x
  | _, [], _, _, _, hc => nomatch hc
  | above, (key, n) :: ns, habove, ⟨hkey, hn, hns⟩, c, hc => by
      rw [parts] at hc
      split at hc
      next p hp =>
        exact (List.mem_append.1 hc).elim (mem_controllers_of_part? hQ habove hkey hn hp c)
          (mem_controllers_of_everyKey hQ habove hns c)
      next => exact mem_controllers_of_everyKey hQ habove hns c hc

end

end names

end ClientBuild.Declaration
