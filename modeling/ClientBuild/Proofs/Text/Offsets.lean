import ClientBuild.Proofs.Text.Bytes

/-!
# Offsets into texts

A scanner goes through the bytes of a text by an offset and cuts parts of the text out.  A part can be cut out only
between characters (`slice?_eq_some_iff`), so a scanner that has a result has never cut through a character.  A scanner
is a loop, and a loop is given with the proof that its rounds move on (`Advances`), by which it comes to an end
(`loop`).  Scanners look for ASCII only: a byte of ASCII is a character of its own (`exists_standsAt`), and behind the
first byte of any other character a scanner gets to the next one, whatever it skips (`StandsAt.loop_inside`).
-/

namespace ClientBuild.Text

/-! ## Cutting texts -/

/-- Split a text behind its first bytes, if a character ends there. -/
def splitBytes? : (size : Nat) → List Char → Option (List Char × List Char)
  | 0, s => some ([], s)
  | _ + 1, [] => none
  | n + 1, c :: s =>
    if c.utf8Size ≤ n + 1 then (splitBytes? (n + 1 - c.utf8Size) s).map fun p => (c :: p.1, p.2) else none

/-- The text from an offset on, if a character begins there or the text ends. -/
def from? (s : List Char) (i : Nat) : Option (List Char) := (splitBytes? i s).map Prod.snd

/-- The text between two offsets, if they are in order and no character reaches over one of them. -/
def slice? (s : List Char) (i j : Nat) : Option (List Char) := do
  let behind ← from? s i
  if i ≤ j then (splitBytes? (j - i) behind).map Prod.fst else none

/-- The offset at which `p` occurs first, searched from an offset on. -/
def offsetOf? (p s : List Char) (i : Nat) : Option (Option Nat) := do
  let behind ← from? s i
  some ((breakOn? p behind).map fun found => i + byteSize found.1)

/-- The offset a number of bytes before another one, if there is one. -/
def back? (i n : Nat) : Option Nat := if n ≤ i then some (i - n) else none

/-- Does the text go on with `rest` at an offset? -/
def StandsAt (s : List Char) (i : Nat) (rest : List Char) : Prop := ∃ front, s = front ++ rest ∧ byteSize front = i

/-- Does a character begin at an offset, or the text end there? -/
def IsBoundary (s : List Char) (i : Nat) : Prop := ∃ rest, StandsAt s i rest

variable {s rest p a t : List Char} {c d : Char} {i j : Nat}

theorem back?_add (i n : Nat) : back? (i + n) n = some i := by
  rw [back?, if_pos (Nat.le_add_left n i), Nat.add_sub_cancel]

theorem byteSize_singleton (c : Char) : byteSize [c] = c.utf8Size := Nat.zero_add _

theorem splitBytes?_append (a b : List Char) : splitBytes? (byteSize a) (a ++ b) = some (a, b) := by
  induction a with
  | nil => cases b <;> rfl
  | cons c a ih =>
    have hpos := c.utf8Size_pos
    obtain ⟨n, hn⟩ : ∃ n, byteSize (c :: a) = n + 1 := Nat.exists_eq_add_one.2 (by rw [byteSize_cons]; omega)
    have hrest : n + 1 - c.utf8Size = byteSize a := by
      rw [← hn, byteSize_cons]
      omega
    rw [hn, List.cons_append, splitBytes?, if_pos (by rw [← hn, byteSize_cons]; omega), hrest, ih]
    rfl

theorem splitBytes?_eq_some_iff {n : Nat} {b : List Char} :
    splitBytes? n s = some (a, b) ↔ s = a ++ b ∧ byteSize a = n := by
  constructor
  · intro h
    induction s generalizing n a with
    | nil =>
      cases n with
      | zero =>
        cases h
        exact ⟨rfl, rfl⟩
      | succ n => cases h
    | cons c s ih =>
      cases n with
      | zero =>
        cases h
        exact ⟨rfl, rfl⟩
      | succ n =>
        rw [splitBytes?] at h
        split at h
        next hle =>
          obtain ⟨⟨front, back⟩, hsplit, heq⟩ := Option.map_eq_some_iff.1 h
          cases heq
          obtain ⟨rfl, hsize⟩ := ih hsplit
          refine ⟨rfl, ?_⟩
          rw [byteSize_cons, hsize]
          omega
        next => cases h
  · rintro ⟨rfl, rfl⟩
    exact splitBytes?_append a b

theorem from?_eq_some_iff : from? s i = some rest ↔ StandsAt s i rest := by
  constructor
  · intro h
    obtain ⟨⟨front, back⟩, hsplit, rfl⟩ := Option.map_eq_some_iff.1 h
    exact ⟨front, splitBytes?_eq_some_iff.1 hsplit⟩
  · rintro ⟨front, rfl, rfl⟩
    rw [from?, splitBytes?_append]
    rfl

/-- **A part is cut out between two places where characters begin or the text ends.** -/
theorem slice?_eq_some_iff :
    slice? s i j = some t ↔ ∃ front back, s = front ++ (t ++ back) ∧ i = byteSize front ∧ j = i + byteSize t := by
  constructor
  · intro h
    obtain ⟨behind, hbehind, hcut⟩ := Option.bind_eq_some_iff.1 h
    obtain ⟨front, rfl, rfl⟩ := from?_eq_some_iff.1 hbehind
    split at hcut
    next hle =>
      obtain ⟨⟨t, back⟩, hsplit, rfl⟩ := Option.map_eq_some_iff.1 hcut
      obtain ⟨rfl, hsize⟩ := splitBytes?_eq_some_iff.1 hsplit
      refine ⟨front, back, rfl, rfl, ?_⟩
      dsimp only
      omega
    next => cases hcut
  · rintro ⟨front, back, rfl, rfl, rfl⟩
    have hbehind : from? (front ++ (t ++ back)) (byteSize front) = some (t ++ back) :=
      from?_eq_some_iff.2 ⟨front, rfl, rfl⟩
    rw [slice?, hbehind]
    simp only [Option.bind_eq_bind, Option.bind_some, Nat.le_add_right, if_true, Nat.add_sub_cancel_left,
      splitBytes?_append, Option.map_some]

namespace StandsAt

theorem start (s : List Char) : StandsAt s 0 s := ⟨[], rfl, rfl⟩

theorem isBoundary (h : StandsAt s i rest) : IsBoundary s i := ⟨rest, h⟩

theorem from? (h : StandsAt s i rest) : Text.from? s i = some rest := from?_eq_some_iff.2 h

theorem append (h : StandsAt s i (a ++ rest)) : StandsAt s (i + byteSize a) rest := by
  obtain ⟨front, rfl, rfl⟩ := h
  exact ⟨front ++ a, (List.append_assoc front a rest).symm, byteSize_append front a⟩

theorem cons (h : StandsAt s i (c :: rest)) : StandsAt s (i + c.utf8Size) rest := by
  obtain ⟨front, rfl, rfl⟩ := h
  exact ⟨front ++ [c], by simp, by rw [byteSize_append, byteSize_singleton]⟩

theorem slice? (h : StandsAt s i (t ++ rest)) : Text.slice? s i (i + byteSize t) = some t := by
  obtain ⟨front, rfl, rfl⟩ := h
  exact slice?_eq_some_iff.2 ⟨front, rest, rfl, rfl, rfl⟩

/-- From a place on the whole rest can be cut out. -/
theorem slice?_end (h : StandsAt s i rest) : Text.slice? s i (byteSize s) = some rest := by
  obtain ⟨front, rfl, rfl⟩ := h
  have hplace : StandsAt (front ++ rest) (byteSize front) (rest ++ []) := ⟨front, by rw [List.append_nil], rfl⟩
  rw [byteSize_append]
  exact hplace.slice?

theorem eq_of_standsAt {rest' : List Char} (h : StandsAt s i rest) (h' : StandsAt s i rest') : rest = rest' :=
  Option.some.inj (h.from?.symm.trans h'.from?)

theorem offsetOf? (h : StandsAt s i rest) (p : List Char) :
    Text.offsetOf? p s i = some ((breakOn? p rest).map fun found => i + byteSize found.1) := by
  rw [Text.offsetOf?, h.from?]
  rfl

theorem size_eq (h : StandsAt s i rest) : byteSize s = i + byteSize rest := by
  obtain ⟨front, rfl, rfl⟩ := h
  exact byteSize_append front rest

end StandsAt

/-- Where a text goes on it is not over. -/
theorem StandsAt.lt_byteSize (h : StandsAt s i (c :: rest)) : i < byteSize s := by
  rw [h.size_eq, byteSize_cons]
  exact Nat.lt_add_of_pos_right (Nat.add_pos_left c.utf8Size_pos _)

theorem IsBoundary.le_byteSize (h : IsBoundary s i) : i ≤ byteSize s := by
  obtain ⟨rest, hplace⟩ := h
  exact hplace.size_eq ▸ Nat.le_add_right i _

/-- What is found stands in the text, at an offset behind the one that the search begins at. -/
theorem standsAt_of_offsetOf? (h : offsetOf? p s i = some (some j)) : i ≤ j ∧ ∃ rest, StandsAt s j (p ++ rest) := by
  obtain ⟨behind, hbehind, h⟩ := Option.bind_eq_some_iff.1 h
  obtain ⟨⟨front, rest⟩, hfound, rfl⟩ := Option.map_eq_some_iff.1 (Option.some.inj h)
  have hplace := from?_eq_some_iff.1 hbehind
  rw [eq_of_breakOn? hfound, List.append_assoc] at hplace
  exact ⟨Nat.le_add_right i _, rest, hplace.append⟩

theorem lt_byteSize_of_offsetOf? (hp : p ≠ []) (h : offsetOf? p s i = some (some j)) : i < byteSize s := by
  obtain ⟨hle, rest, hplace⟩ := standsAt_of_offsetOf? h
  obtain ⟨c, p, rfl⟩ := List.exists_cons_of_ne_nil hp
  exact Nat.lt_of_le_of_lt hle hplace.lt_byteSize

/-! ## Bytes at offsets -/

/-- The byte at an offset, as the character with its code. -/
def byteAt? (s : List Char) (i : Nat) : Option Char := (bytes s)[i]?.map Char.ofUInt8

/-- Are both the same character of ASCII, or both none? -/
def AsciiAlike (d c : Char) : Prop := ∀ k : Char, k.toNat < 128 → (d = k ↔ c = k)

theorem toNat_ofUInt8 (b : UInt8) : (Char.ofUInt8 b).toNat = b.toNat := UInt8.toNat_toUInt32 b

theorem utf8Size_of_ascii (hc : c.toNat < 128) : c.utf8Size = 1 :=
  Char.utf8Size_eq_one_iff.2 (UInt32.le_iff_toNat_le.2 (Nat.le_of_lt_succ hc))

theorem StandsAt.cons_ascii (h : StandsAt s i (c :: rest)) (hc : c.toNat < 128) : StandsAt s (i + 1) rest := by
  have hbehind := h.cons
  rwa [utf8Size_of_ascii hc] at hbehind

theorem ne_of_large {k : Char} (hd : 128 ≤ d.toNat) (hk : k.toNat < 128) : d ≠ k := by
  rintro rfl
  omega

theorem asciiAlike_of_large (hc : 128 ≤ c.toNat) (hd : 128 ≤ d.toNat) : AsciiAlike d c := by
  intro k hk
  constructor
  · rintro rfl
    omega
  · rintro rfl
    omega

theorem AsciiAlike.eq (h : AsciiAlike d c) (hc : c.toNat < 128) : d = c := (h c hc).2 rfl

theorem StandsAt.drop_bytes (h : StandsAt s i rest) : (bytes s).drop i = bytes rest := by
  obtain ⟨front, rfl, rfl⟩ := h
  rw [bytes_append, ← length_bytes, List.drop_left]

theorem StandsAt.byteAt?_add (h : StandsAt s i rest) (n : Nat) :
    byteAt? s (i + n) = (bytes rest)[n]?.map Char.ofUInt8 := by
  rw [byteAt?, ← List.getElem?_drop, h.drop_bytes]

theorem lt_byteSize_of_byteAt? (h : byteAt? s i = some d) : i < byteSize s := by
  obtain ⟨b, hb, -⟩ := Option.map_eq_some_iff.1 h
  obtain ⟨hlt, -⟩ := List.getElem?_eq_some_iff.1 hb
  rwa [length_bytes] at hlt

/-- Behind the text there are no bytes. -/
theorem StandsAt.byteAt?_end (h : StandsAt s i []) (hj : i ≤ j) : byteAt? s j = none := by
  obtain ⟨n, rfl⟩ := Nat.exists_eq_add_of_le hj
  rw [h.byteAt?_add]
  rfl

/-- A character is known by its first byte, as far as ASCII goes. -/
theorem StandsAt.exists_byteAt? (h : StandsAt s i (c :: rest)) : ∃ d, byteAt? s i = some d ∧ AsciiAlike d c := by
  have hfirst := h.byteAt?_add 0
  rw [Nat.add_zero, bytes_cons] at hfirst
  have hsize := String.length_utf8EncodeChar c
  have hpos := c.utf8Size_pos
  obtain ⟨b, bs, hb⟩ := List.exists_cons_of_length_pos (hsize ▸ hpos)
  rw [hb] at hfirst
  refine ⟨Char.ofUInt8 b, hfirst, ?_⟩
  by_cases hc : c.toNat < 128
  · have hascii : IsAscii c (UInt8.ofNat c.toNat) := by
      have hcode : (UInt8.ofNat c.toNat).toNat = c.toNat := by
        rw [UInt8.toNat_ofNat']
        omega
      exact ⟨hcode.symm, by rwa [hcode]⟩
    obtain ⟨rfl, -⟩ := List.cons.inj (hb.symm.trans hascii.utf8EncodeChar_eq)
    have heq : Char.ofUInt8 (UInt8.ofNat c.toNat) = c := Char.toNat_inj.1 ((toNat_ofUInt8 _).trans hascii.1.symm)
    exact fun k _ => by rw [heq]
  · refine asciiAlike_of_large (Nat.le_of_not_lt hc) ?_
    rw [toNat_ofUInt8]
    refine Nat.le_of_not_lt fun hsmall => hc ?_
    rw [toNat_of_mem_utf8EncodeChar (hb ▸ List.mem_cons_self) hsmall]
    exact hsmall

theorem StandsAt.byteAt?_ascii (h : StandsAt s i (c :: rest)) (hc : c.toNat < 128) : byteAt? s i = some c := by
  obtain ⟨d, hd, halike⟩ := h.exists_byteAt?
  rw [hd, halike.eq hc]

/-- The further bytes of a character are outside of ASCII. -/
theorem StandsAt.byteAt?_inside (h : StandsAt s i (c :: rest)) (hi : i < j) (hj : j < i + c.utf8Size) :
    ∃ d, byteAt? s j = some d ∧ 128 ≤ d.toNat := by
  obtain ⟨n, rfl⟩ := Nat.exists_eq_add_of_lt hi
  have hsize := String.length_utf8EncodeChar c
  have hn : n + 1 < (String.utf8EncodeChar c).length := by omega
  have hbyte := h.byteAt?_add (n + 1)
  rw [bytes_cons, List.getElem?_append_left hn, List.getElem?_eq_getElem hn] at hbyte
  refine ⟨_, hbyte, ?_⟩
  rw [toNat_ofUInt8]
  refine large_of_mem_drop (Nat.succ_pos n) (c := c) ?_
  rw [List.drop_eq_getElem_cons hn]
  exact List.mem_cons_self

/-- **A byte of ASCII is a character of its own.** -/
theorem exists_standsAt (h : byteAt? s i = some d) (hd : d.toNat < 128) : ∃ rest, StandsAt s i (d :: rest) := by
  -- The offset is within some character, and behind its first byte there is no ASCII.
  have hplace : ∀ (front rest : List Char), s = front ++ rest → byteSize front ≤ i →
      ∃ rest, StandsAt s i (d :: rest) := by
    intro front rest hs hle
    induction rest generalizing front with
    | nil =>
      have hnone := StandsAt.byteAt?_end ⟨front, hs, rfl⟩ hle
      rw [hnone] at h
      cases h
    | cons c rest ih =>
      have hc : StandsAt s (byteSize front) (c :: rest) := ⟨front, hs, rfl⟩
      by_cases hnext : byteSize front + c.utf8Size ≤ i
      · refine ih (front ++ [c]) (by rw [hs]; simp) ?_
        rwa [byteSize_append, byteSize_singleton]
      · rcases Nat.eq_or_lt_of_le hle with rfl | hlt
        · obtain ⟨e, he, halike⟩ := hc.exists_byteAt?
          obtain rfl : d = e := Option.some.inj (h.symm.trans he)
          obtain rfl : c = d := (halike d hd).1 rfl
          exact ⟨rest, hc⟩
        · obtain ⟨e, he, hlarge⟩ := hc.byteAt?_inside hlt (Nat.lt_of_not_le hnext)
          obtain rfl : d = e := Option.some.inj (h.symm.trans he)
          omega
  exact hplace [] s rfl (Nat.zero_le i)

/-! ## Loops -/

/-- What a round of a loop comes to: the loop is over, or it goes on. -/
inductive Round (σ ρ : Type) where
  /-- The loop is over with a result. -/
  | done (r : ρ)
  /-- The loop goes on in a new state. -/
  | next (t : σ)

/-- Does every round that goes on move the offset on, and stand within the text? -/
def Advances {σ ρ : Type} (s : List Char) (offset : σ → Nat) (round : σ → Option (Round σ ρ)) : Prop :=
  ∀ t u, round t = some (.next u) → offset t < byteSize s ∧ offset t < offset u

/-- Round after round until the loop is over, with no result if a round has none.  The loop comes to an end since its
rounds move on. -/
def loop {σ ρ : Type} {s : List Char} {offset : σ → Nat} {round : σ → Option (Round σ ρ)}
    (h : Advances s offset round) (t : σ) : Option ρ :=
  match hround : round t with
  | none => none
  | some (.done r) => some r
  | some (.next u) =>
    have := h t u hround
    loop h u
termination_by byteSize s - offset t

variable {σ ρ : Type} {offset : σ → Nat} {round : σ → Option (Round σ ρ)} {hround : Advances s offset round} {u v : σ}
  {r : ρ}

theorem loop_of_done (h : round u = some (.done r)) : loop hround u = some r := by
  rw [loop]
  split
  next hnone => cases h.symm.trans hnone
  next hdone =>
    cases h.symm.trans hdone
    rfl
  next hnext => cases h.symm.trans hnext

theorem loop_of_next (h : round u = some (.next v)) : loop hround u = loop hround v := by
  rw [loop]
  split
  next hnone => cases h.symm.trans hnone
  next hdone => cases h.symm.trans hdone
  next hnext =>
    cases h.symm.trans hnext
    rfl

/-- What has a result for every member of a list has one for the list. -/
theorem mapM_of_some {α β : Type} {f : α → Option β} {g : α → β} {xs : List α} (h : ∀ x ∈ xs, f x = some (g x)) :
    xs.mapM f = some (xs.map g) := by
  induction xs with
  | nil => rfl
  | cons x xs ih =>
    obtain ⟨hx, hxs⟩ := List.forall_mem_cons.1 h
    rw [List.mapM_cons, hx, ih hxs]
    rfl

/-- **Within a character a loop gets to the next one**, if it passes bytes outside of ASCII one by one. -/
theorem StandsAt.loop_inside (h : StandsAt s i (c :: rest)) (state : Nat → σ)
    (hlarge : ∀ j d, byteAt? s j = some d → 128 ≤ d.toNat → round (state j) = some (.next (state (j + 1))))
    (hi : i < j) (hj : j ≤ i + c.utf8Size) : loop hround (state j) = loop hround (state (i + c.utf8Size)) := by
  obtain ⟨n, hn⟩ := Nat.exists_eq_add_of_le hj
  induction n generalizing j with
  | zero => rw [hn, Nat.add_zero]
  | succ n ih =>
    obtain ⟨d, hd, hcode⟩ := h.byteAt?_inside hi (by omega)
    rw [loop_of_next (hlarge j d hd hcode)]
    exact ih (by omega) (by omega) (by omega)

end ClientBuild.Text
