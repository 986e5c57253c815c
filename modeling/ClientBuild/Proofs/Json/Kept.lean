import ClientBuild.Proofs.Assoc
import ClientBuild.Proofs.Json.ValueText

/-!
# Values that a text keeps

Three things can be lost between writing a value and reading it: a number may read as another one,
nesting may be too deep, and a shape passes over members.  `Json.ReadsBack room` rules out the first
two, `Shape.Keeps` the last, and then the value comes back (`readAs?_render`).  Without
`ReadsBack`, whatever comes back is the value with its numbers read again (`Json.reread`).

`Json.settled`, which gives every object unique keys, keeps `ReadsBack`, and settling twice is
settling once.
-/

namespace ClientBuild.Json

/-! ## Settled values -/

theorem settledItems_eq : ∀ vs : List Json, settledItems vs = vs.map settled
  | [] => rfl
  | v :: vs => congrArg (v.settled :: ·) (settledItems_eq vs)

theorem settledMembers_eq : ∀ ms : List (String × Json),
    settledMembers ms = Assoc.mapValues settled ms
  | [] => rfl
  | (k, v) :: ms => congrArg ((k, v.settled) :: ·) (settledMembers_eq ms)

theorem settledMembers_ofPairs (ms : List (String × Json)) :
    settledMembers (Assoc.ofPairs ms) = Assoc.ofPairs (settledMembers ms) := by
  rw [settledMembers_eq, settledMembers_eq, Assoc.ofPairs_mapValues]

theorem ofPairs_ofPairs (ms : List (String × Json)) :
    Assoc.ofPairs (Assoc.ofPairs ms) = Assoc.ofPairs ms :=
  Assoc.ofPairs_of_nodup (Assoc.nodup_keys_ofPairs ms)

mutual

/-- Settling twice is settling once. -/
theorem settled_settled : ∀ v : Json, v.settled.settled = v.settled
  | .null => rfl
  | .bool _ => rfl
  | .number _ => rfl
  | .string _ => rfl
  | .array items => congrArg Json.array (settledItems_settledItems items)
  | .object members => by
      simp only [settled]
      rw [settledMembers_ofPairs, settledMembers_settledMembers members, ofPairs_ofPairs]

theorem settledItems_settledItems : ∀ vs : List Json,
    settledItems (settledItems vs) = settledItems vs
  | [] => rfl
  | v :: vs => by
      simp only [settledItems]
      rw [settled_settled v, settledItems_settledItems vs]

theorem settledMembers_settledMembers : ∀ ms : List (String × Json),
    settledMembers (settledMembers ms) = settledMembers ms
  | [] => rfl
  | (k, v) :: ms => by
      simp only [settledMembers]
      rw [settled_settled v, settledMembers_settledMembers ms]

end

/-! ## Values that read back -/

/-- A number that is read as itself. -/
def Number.ReadsBack (n : Number) : Prop := raw (.number n) = .number (some n)

mutual

/-- A value nested at most `room` deep whose numbers are all read as themselves. -/
def ReadsBack (room : Nat) : Json → Prop
  | .number n => n.ReadsBack
  | .array items => 0 < room ∧ ItemsReadBack (room - 1) items
  | .object members => 0 < room ∧ MembersReadBack (room - 1) members
  | .null | .bool _ | .string _ => True

/-- `ReadsBack` of every item. -/
def ItemsReadBack (room : Nat) : List Json → Prop
  | [] => True
  | v :: vs => ReadsBack room v ∧ ItemsReadBack room vs

/-- `ReadsBack` of every member. -/
def MembersReadBack (room : Nat) : List (String × Json) → Prop
  | [] => True
  | (_, v) :: ms => ReadsBack room v ∧ MembersReadBack room ms

end

theorem itemsReadBack_iff {room : Nat} : ∀ {vs : List Json},
    ItemsReadBack room vs ↔ ∀ v ∈ vs, v.ReadsBack room
  | [] => by simp [ItemsReadBack]
  | v :: vs => by
      have ih : ItemsReadBack room vs ↔ ∀ v ∈ vs, v.ReadsBack room := itemsReadBack_iff
      simp [ItemsReadBack, ih]

theorem membersReadBack_iff {room : Nat} : ∀ {ms : List (String × Json)},
    MembersReadBack room ms ↔ ∀ m ∈ ms, m.2.ReadsBack room
  | [] => by simp [MembersReadBack]
  | (k, v) :: ms => by
      have ih : MembersReadBack room ms ↔ ∀ m ∈ ms, m.2.ReadsBack room := membersReadBack_iff
      simp [MembersReadBack, ih]

theorem readsBack_array {room : Nat} {vs : List Json} :
    (Json.array vs).ReadsBack (room + 1) ↔ ∀ v ∈ vs, v.ReadsBack room := by
  simp [ReadsBack, itemsReadBack_iff]

theorem readsBack_object {room : Nat} {ms : List (String × Json)} :
    (Json.object ms).ReadsBack (room + 1) ↔ ∀ m ∈ ms, m.2.ReadsBack room := by
  simp [ReadsBack, membersReadBack_iff]

@[simp] theorem readsBack_null (room : Nat) : Json.null.ReadsBack room := trivial

@[simp] theorem readsBack_bool (room : Nat) (b : Bool) : (Json.bool b).ReadsBack room := trivial

@[simp] theorem readsBack_string (room : Nat) (s : String) : (Json.string s).ReadsBack room :=
  trivial

theorem readsBack_integer (room : Nat) {i : Int} (h : Fits64 i) :
    (Json.number (.integer i)).ReadsBack room := by
  simp only [ReadsBack, Number.ReadsBack, raw, Number.isWritten, if_true, reading_integer h]

mutual

/-- A value that has room enough has room enough in more of it. -/
theorem ReadsBack.mono {room more : Nat} (hle : room ≤ more) : ∀ {v : Json},
    v.ReadsBack room → v.ReadsBack more
  | .null, _ => trivial
  | .bool _, _ => trivial
  | .number _, h => h
  | .string _, _ => trivial
  | .array _, h => ⟨Nat.lt_of_lt_of_le h.1 hle, ItemsReadBack.mono (by omega) h.2⟩
  | .object _, h => ⟨Nat.lt_of_lt_of_le h.1 hle, MembersReadBack.mono (by omega) h.2⟩

theorem ItemsReadBack.mono {room more : Nat} (hle : room ≤ more) : ∀ {vs : List Json},
    ItemsReadBack room vs → ItemsReadBack more vs
  | [], _ => trivial
  | _ :: _, h => ⟨h.1.mono hle, ItemsReadBack.mono hle h.2⟩

theorem MembersReadBack.mono {room more : Nat} (hle : room ≤ more) :
    ∀ {ms : List (String × Json)}, MembersReadBack room ms → MembersReadBack more ms
  | [], _ => trivial
  | (_, _) :: _, h => ⟨h.1.mono hle, MembersReadBack.mono hle h.2⟩

end

mutual

/-- Settling a value does not stop it from reading back. -/
theorem ReadsBack.settled {room : Nat} : ∀ {v : Json}, v.ReadsBack room → v.settled.ReadsBack room
  | .null, _ => trivial
  | .bool _, _ => trivial
  | .number _, h => h
  | .string _, _ => trivial
  | .array _, h => ⟨h.1, h.2.settled⟩
  | .object _, h => by
      refine ⟨h.1, membersReadBack_iff.2 fun m hm => ?_⟩
      exact membersReadBack_iff.1 h.2.settled m (Assoc.mem_of_mem_ofPairs hm)

theorem ItemsReadBack.settled {room : Nat} : ∀ {vs : List Json},
    ItemsReadBack room vs → ItemsReadBack room (settledItems vs)
  | [], _ => trivial
  | _ :: _, h => ⟨h.1.settled, h.2.settled⟩

theorem MembersReadBack.settled {room : Nat} : ∀ {ms : List (String × Json)},
    MembersReadBack room ms → MembersReadBack room (settledMembers ms)
  | [], _ => trivial
  | (_, _) :: _, h => ⟨h.1.settled, h.2.settled⟩

end

/-! ## Shapes that keep all of a value -/

namespace Shape

mutual

/-- The shape keeps every part of the value. -/
def Keeps (shape : Shape) : Json → Prop
  | .array items => KeepsItems shape.item shape.positions items
  | .object members => KeepsMembers shape members
  | .null | .bool _ | .number _ | .string _ => True

/-- `Keeps` for every item: the first ones by the shapes of their positions. -/
def KeepsItems (item : Shape) (positions : List Shape) : List Json → Prop
  | [] => True
  | v :: vs => Keeps (positions.headD item) v ∧ KeepsItems item positions.tail vs

/-- `Keeps` for every member, none of which is passed over. -/
def KeepsMembers (shape : Shape) : List (String × Json) → Prop
  | [] => True
  | (k, v) :: ms => (∃ s, shape.member? k = some s ∧ Keeps s v) ∧ KeepsMembers shape ms

end

mutual

theorem keeps_whole : ∀ v : Json, whole.Keeps v
  | .null => trivial
  | .bool _ => trivial
  | .number _ => trivial
  | .string _ => trivial
  | .array items => keepsItems_whole items
  | .object members => keepsMembers_whole members

theorem keepsItems_whole : ∀ vs : List Json, KeepsItems whole [] vs
  | [] => trivial
  | v :: vs => ⟨keeps_whole v, keepsItems_whole vs⟩

theorem keepsMembers_whole : ∀ ms : List (String × Json), KeepsMembers whole ms
  | [] => trivial
  | (_, v) :: ms => ⟨⟨whole, rfl, keeps_whole v⟩, keepsMembers_whole ms⟩

end

theorem keepsItems_iff {item : Shape} : ∀ {vs : List Json},
    KeepsItems item [] vs ↔ ∀ v ∈ vs, item.Keeps v
  | [] => by simp [KeepsItems]
  | v :: vs => by
      have ih : KeepsItems item [] vs ↔ ∀ v ∈ vs, item.Keeps v := keepsItems_iff
      simp [KeepsItems, ih]

theorem keepsMembers_iff {shape : Shape} : ∀ {ms : List (String × Json)},
    KeepsMembers shape ms ↔ ∀ m ∈ ms, ∃ s, shape.member? m.1 = some s ∧ s.Keeps m.2
  | [] => by simp [KeepsMembers]
  | (k, v) :: ms => by
      have ih : KeepsMembers shape ms ↔
          ∀ m ∈ ms, ∃ s, shape.member? m.1 = some s ∧ s.Keeps m.2 := keepsMembers_iff
      simp [KeepsMembers, ih]

theorem keeps_list {item : Shape} {vs : List Json} :
    (list item).Keeps (.array vs) ↔ ∀ v ∈ vs, item.Keeps v :=
  keepsItems_iff

theorem keeps_object {shape : Shape} {ms : List (String × Json)} :
    shape.Keeps (.object ms) ↔ ∀ m ∈ ms, ∃ s, shape.member? m.1 = some s ∧ s.Keeps m.2 :=
  keepsMembers_iff

end Shape

/-! ## What comes back -/

mutual

/-- **A value that reads back, under a shape that keeps all of it, comes back.** -/
theorem fitIn?_raw : ∀ {v : Json} {room : Nat} {shape : Shape}, shape.Keeps v → v.ReadsBack room →
    (raw v).fitIn? room shape = some v
  | .null, _, _, _, _ => rfl
  | .bool _, _, _, _, _ => rfl
  | .number n, _, _, _, hr => by
      rw [show raw (.number n) = .number (some n) from hr]
      rfl
  | .string _, _, _, _, _ => rfl
  | .array items, room, shape, hk, hr => by
      simp only [raw, Raw.fitIn?]
      rw [if_neg (Nat.ne_of_gt hr.1), fitItems?_rawItems hk hr.2]
      rfl
  | .object members, room, shape, hk, hr => by
      simp only [raw, Raw.fitIn?]
      rw [if_neg (Nat.ne_of_gt hr.1), fitMembers?_rawMembers hk hr.2]
      rfl

theorem fitItems?_rawItems : ∀ {vs : List Json} {room : Nat} {item : Shape}
    {positions : List Shape}, Shape.KeepsItems item positions vs → ItemsReadBack room vs →
    Raw.fitItems? room item positions (rawItems vs) = some vs
  | [], _, _, _, _, _ => rfl
  | v :: vs, room, item, positions, hk, hr => by
      simp only [rawItems, Raw.fitItems?]
      rw [fitIn?_raw hk.1 hr.1, fitItems?_rawItems hk.2 hr.2]
      rfl

theorem fitMembers?_rawMembers : ∀ {ms : List (String × Json)} {room : Nat} {shape : Shape},
    Shape.KeepsMembers shape ms → MembersReadBack room ms →
    Raw.fitMembers? room shape (rawMembers ms) = some ms
  | [], _, _, _, _ => rfl
  | (k, v) :: ms, room, shape, hk, hr => by
      obtain ⟨⟨s, hs, hv⟩, hms⟩ := hk
      simp only [rawMembers, Raw.fitMembers?, Option.bind_eq_bind, Option.bind_some, hs]
      rw [fitIn?_raw hv hr.1, fitMembers?_rawMembers hms hr.2]
      rfl

end

/-- **The text of a value that reads back is read as the value.** -/
theorem readAs?_render {shape : Shape} {v : Json} (hk : shape.Keeps v)
    (hr : v.ReadsBack depthLimit) : readAs? shape (render v) = some v := by
  rw [readAs?, parse?_render, Option.bind_some]
  exact fitIn?_raw hk hr

/-! ## Values with their numbers read again -/

/-- What stands where a number was written and could be read. -/
def Number.reread (n : Number) : Json :=
  if n.isWritten then .number (n.reading.getD n) else .null

mutual

/-- The value with its numbers read again. -/
def reread : Json → Json
  | .number n => n.reread
  | .array items => .array (rereadItems items)
  | .object members => .object (rereadMembers members)
  | .null => .null
  | .bool b => .bool b
  | .string s => .string s

/-- `reread` of every item. -/
def rereadItems : List Json → List Json
  | [] => []
  | v :: vs => reread v :: rereadItems vs

/-- `reread` of every member. -/
def rereadMembers : List (String × Json) → List (String × Json)
  | [] => []
  | (k, v) :: ms => (k, reread v) :: rereadMembers ms

end

theorem rereadItems_eq : ∀ vs : List Json, rereadItems vs = vs.map reread
  | [] => rfl
  | v :: vs => congrArg (v.reread :: ·) (rereadItems_eq vs)

theorem rereadMembers_eq : ∀ ms : List (String × Json),
    rereadMembers ms = Assoc.mapValues reread ms
  | [] => rfl
  | (k, v) :: ms => congrArg ((k, v.reread) :: ·) (rereadMembers_eq ms)

theorem settled_numberReread (n : Number) : n.reread.settled = n.reread := by
  unfold Number.reread
  split
  · rfl
  · rfl

mutual

/-- Reading the numbers again commutes with settling. -/
theorem reread_settled : ∀ v : Json, v.settled.reread = v.reread.settled
  | .null => rfl
  | .bool _ => rfl
  | .number n => (settled_numberReread n).symm
  | .string _ => rfl
  | .array items => congrArg Json.array (rereadItems_settledItems items)
  | .object members => by
      simp only [settled, reread]
      rw [rereadMembers_eq, ← Assoc.ofPairs_mapValues, ← rereadMembers_eq,
        rereadMembers_settledMembers members]

theorem rereadItems_settledItems : ∀ vs : List Json,
    rereadItems (settledItems vs) = settledItems (rereadItems vs)
  | [] => rfl
  | v :: vs => by
      simp only [settledItems, rereadItems]
      rw [reread_settled v, rereadItems_settledItems vs]

theorem rereadMembers_settledMembers : ∀ ms : List (String × Json),
    rereadMembers (settledMembers ms) = settledMembers (rereadMembers ms)
  | [] => rfl
  | (k, v) :: ms => by
      simp only [settledMembers, rereadMembers]
      rw [reread_settled v, rereadMembers_settledMembers ms]

end

mutual

/-- **Whatever comes back is the value with its numbers read again.** -/
theorem eq_reread_of_fitIn? : ∀ {v w : Json} {room : Nat} {shape : Shape}, shape.Keeps v →
    (raw v).fitIn? room shape = some w → w = v.reread
  | .null, _, _, _, _, h => (Option.some.inj h).symm
  | .bool _, _, _, _, _, h => (Option.some.inj h).symm
  | .number n, w, room, shape, _, h => by
      simp only [raw] at h
      simp only [reread, Number.reread]
      split at h
      next hn =>
        simp only [Raw.fitIn?] at h
        obtain ⟨m, hm, rfl⟩ := Option.map_eq_some_iff.1 h
        rw [if_pos hn, hm]
        rfl
      next hn =>
        rw [if_neg hn]
        exact (Option.some.inj h).symm
  | .string _, _, _, _, _, h => (Option.some.inj h).symm
  | .array items, w, room, shape, hk, h => by
      simp only [raw, Raw.fitIn?] at h
      split at h
      next => cases h
      next =>
        obtain ⟨ws, hws, rfl⟩ := Option.map_eq_some_iff.1 h
        rw [eq_reread_of_fitItems? hk hws]
        rfl
  | .object members, w, room, shape, hk, h => by
      simp only [raw, Raw.fitIn?] at h
      split at h
      next => cases h
      next =>
        obtain ⟨ws, hws, rfl⟩ := Option.map_eq_some_iff.1 h
        rw [eq_reread_of_fitMembers? hk hws]
        rfl

theorem eq_reread_of_fitItems? : ∀ {vs ws : List Json} {room : Nat} {item : Shape}
    {positions : List Shape}, Shape.KeepsItems item positions vs →
    Raw.fitItems? room item positions (rawItems vs) = some ws → ws = rereadItems vs
  | [], _, _, _, _, _, h => (Option.some.inj h).symm
  | v :: vs, ws, room, item, positions, hk, h => by
      simp only [rawItems, Raw.fitItems?, Option.bind_eq_bind] at h
      obtain ⟨x, hx, h⟩ := Option.bind_eq_some_iff.1 h
      obtain ⟨xs, hxs, h⟩ := Option.bind_eq_some_iff.1 h
      cases h
      rw [eq_reread_of_fitIn? hk.1 hx, eq_reread_of_fitItems? hk.2 hxs]
      rfl

theorem eq_reread_of_fitMembers? : ∀ {ms ws : List (String × Json)} {room : Nat} {shape : Shape},
    Shape.KeepsMembers shape ms →
    Raw.fitMembers? room shape (rawMembers ms) = some ws → ws = rereadMembers ms
  | [], _, _, _, _, h => (Option.some.inj h).symm
  | (k, v) :: ms, ws, room, shape, hk, h => by
      obtain ⟨⟨s, hs, hv⟩, hms⟩ := hk
      simp only [rawMembers, Raw.fitMembers?, Option.bind_eq_bind, Option.bind_some, hs] at h
      obtain ⟨x, hx, h⟩ := Option.bind_eq_some_iff.1 h
      obtain ⟨xs, hxs, h⟩ := Option.bind_eq_some_iff.1 h
      cases h
      rw [eq_reread_of_fitIn? hv hx, eq_reread_of_fitMembers? hms hxs]
      rfl

end

theorem eq_reread_of_readAs? {shape : Shape} {v w : Json} (hk : shape.Keeps v)
    (h : readAs? shape (render v) = some w) : w = v.reread := by
  rw [readAs?, parse?_render, Option.bind_some] at h
  exact eq_reread_of_fitIn? hk h

end ClientBuild.Json
