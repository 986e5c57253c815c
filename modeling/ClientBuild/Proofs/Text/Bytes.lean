import ClientBuild.Proofs.Text.Search

/-!
# The bytes of texts

Offsets count the bytes of a text in UTF-8.  Characters outside of ASCII have no byte of ASCII
(`toNat_of_mem_utf8EncodeChar`), so a reader of bytes that looks for ASCII finds the characters
(`count_bytes`), also where it stops or starts within a character (`exists_prefix_of_prefix_bytes`,
`large_of_mem_drop`).
-/

namespace ClientBuild.Text

/-! ## How many bytes -/

theorem byteSize_cons (c : Char) (s : List Char) : byteSize (c :: s) = c.utf8Size + byteSize s := by
  have hfold : ∀ (s : List Char) (n : Nat), s.foldl (fun n c => n + c.utf8Size) n = n + byteSize s := by
    intro s
    induction s with
    | nil => exact fun _ => rfl
    | cons d s ih =>
      intro n
      rw [byteSize, List.foldl_cons, List.foldl_cons, ih, ih, Nat.zero_add, Nat.add_assoc]
  rw [byteSize, List.foldl_cons, hfold, Nat.zero_add]

theorem byteSize_append (a b : List Char) : byteSize (a ++ b) = byteSize a + byteSize b := by
  induction a with
  | nil => rw [List.nil_append, show byteSize [] = 0 from rfl, Nat.zero_add]
  | cons c a ih => rw [List.cons_append, byteSize_cons, byteSize_cons, ih, Nat.add_assoc]

theorem eq_nil_of_byteSize {u : List Char} (hu : byteSize u = 0) : u = [] := by
  cases u with
  | nil => rfl
  | cons c u =>
    have := c.utf8Size_pos
    rw [byteSize_cons] at hu
    omega

/-- A text is split at an offset in one way. -/
theorem append_inj_of_byteSize {a b s t : List Char} (hsize : byteSize a = byteSize b)
    (h : a ++ s = b ++ t) : a = b ∧ s = t := by
  rcases List.append_eq_append_iff.1 h with ⟨u, rfl, rfl⟩ | ⟨u, rfl, rfl⟩
  · rw [byteSize_append] at hsize
    obtain rfl := eq_nil_of_byteSize (u := u) (by omega)
    exact ⟨(List.append_nil a).symm, rfl⟩
  · rw [byteSize_append] at hsize
    obtain rfl := eq_nil_of_byteSize (u := u) (by omega)
    exact ⟨List.append_nil b, rfl⟩

/-- A part of a text that is no smaller than the text is the text. -/
theorem eq_of_infix_of_byteSize {a s : List Char} (h : a <:+: s) (hsize : byteSize s ≤ byteSize a) : a = s := by
  obtain ⟨x, y, rfl⟩ := h
  simp only [byteSize_append] at hsize
  obtain rfl := eq_nil_of_byteSize (u := x) (by omega)
  obtain rfl := eq_nil_of_byteSize (u := y) (by omega)
  rw [List.nil_append, List.append_nil]

/-! ## Which bytes -/

/-- The bytes of a text. -/
def bytes (s : List Char) : List UInt8 := s.flatMap String.utf8EncodeChar

@[simp] theorem bytes_nil : bytes [] = [] := rfl

@[simp] theorem bytes_cons (c : Char) (s : List Char) : bytes (c :: s) = String.utf8EncodeChar c ++ bytes s :=
  List.flatMap_cons

@[simp] theorem bytes_append (a b : List Char) : bytes (a ++ b) = bytes a ++ bytes b := List.flatMap_append

theorem length_bytes (s : List Char) : (bytes s).length = byteSize s := by
  induction s with
  | nil => rfl
  | cons c s ih => rw [bytes_cons, List.length_append, String.length_utf8EncodeChar, ih, byteSize_cons]

/-- A byte of ASCII is the character with its code. -/
theorem toNat_of_mem_utf8EncodeChar {c : Char} {b : UInt8} (h : b ∈ String.utf8EncodeChar c)
    (hb : b.toNat < 128) : c.toNat = b.toNat := by
  have hc : c.val.toNat = c.toNat := rfl
  simp only [String.utf8EncodeChar] at h
  split at h
  next hsmall =>
    rw [List.mem_singleton.1 h, UInt8.toNat_ofNat']
    omega
  next =>
    -- The first byte of several is at least 192, the others are at least 128.
    have hlarge {m : Nat} (hm : 128 ≤ m % 256) : b ≠ UInt8.ofNat m := by
      rintro rfl
      rw [UInt8.toNat_ofNat'] at hb
      omega
    split at h
    next =>
      simp only [List.mem_cons, List.not_mem_nil, or_false] at h
      rcases h with h | h
      all_goals exact absurd h (hlarge (by omega))
    next =>
      split at h
      next =>
        simp only [List.mem_cons, List.not_mem_nil, or_false] at h
        rcases h with h | h | h
        all_goals exact absurd h (hlarge (by omega))
      next =>
        simp only [List.mem_cons, List.not_mem_nil, or_false] at h
        rcases h with h | h | h | h
        all_goals exact absurd h (hlarge (by omega))

/-- A character is one byte, or all of its bytes are outside of ASCII. -/
theorem utf8EncodeChar_cases (c : Char) :
    (∃ b, String.utf8EncodeChar c = [b]) ∨ ∀ b ∈ String.utf8EncodeChar c, 128 ≤ b.toNat := by
  by_cases hc : c.toNat < 128
  · left
    have hval : c.val.toNat ≤ 127 := Nat.le_of_lt_succ hc
    exact ⟨UInt8.ofNat c.val.toNat, by simp only [String.utf8EncodeChar, if_pos hval]⟩
  · right
    intro b hb
    refine Nat.le_of_not_lt fun hsmall => ?_
    have := toNat_of_mem_utf8EncodeChar hb hsmall
    omega

/-- What is left of a character behind its first byte has nothing of ASCII. -/
theorem large_of_mem_drop {c : Char} {n : Nat} (hn : 0 < n) {b : UInt8}
    (hb : b ∈ (String.utf8EncodeChar c).drop n) : 128 ≤ b.toNat := by
  rcases utf8EncodeChar_cases c with ⟨d, hd⟩ | hlarge
  · rw [hd, List.drop_eq_nil_of_le hn] at hb
    exact absurd hb List.not_mem_nil
  · exact hlarge b (List.mem_of_mem_drop hb)

/-- Is the byte the code of the character, in ASCII? -/
def IsAscii (k : Char) (b : UInt8) : Prop := k.toNat = b.toNat ∧ b.toNat < 128

theorem IsAscii.count_eq_zero {k : Char} {b : UInt8} (h : IsAscii k b) {bs : List UInt8}
    (hbs : ∀ d ∈ bs, 128 ≤ d.toNat) : bs.count b = 0 := by
  refine List.count_eq_zero.2 fun hb => ?_
  have := hbs b hb
  have := h.2
  omega

theorem IsAscii.utf8EncodeChar_eq {k : Char} {b : UInt8} (h : IsAscii k b) :
    String.utf8EncodeChar k = [b] := by
  have hval : k.val.toNat = b.toNat := h.1
  have hsmall : b.toNat ≤ 127 := Nat.le_of_lt_succ h.2
  simp only [String.utf8EncodeChar, hval, if_pos hsmall, UInt8.ofNat_toNat]

theorem count_utf8EncodeChar {k : Char} {b : UInt8} (h : IsAscii k b) (c : Char) :
    (String.utf8EncodeChar c).count b = [c].count k := by
  by_cases hc : c = k
  · rw [hc, h.utf8EncodeChar_eq, List.count_singleton_self, List.count_singleton_self]
  · rw [List.count_eq_zero.2 fun hb => hc ?_, List.count_eq_zero.2 fun hk => hc (List.mem_singleton.1 hk).symm]
    exact Char.toNat_inj.1 ((toNat_of_mem_utf8EncodeChar hb h.2).trans h.1.symm)

/-- **A byte of ASCII is found as often as its character.** -/
theorem count_bytes {k : Char} {b : UInt8} (h : IsAscii k b) (s : List Char) :
    (bytes s).count b = s.count k := by
  induction s with
  | nil => rfl
  | cons c s ih =>
    rw [bytes_cons, List.count_append, count_utf8EncodeChar h, ih, ← List.count_append, List.singleton_append]

/-- The first bytes of a text have the ASCII of its first characters. -/
theorem exists_prefix_of_prefix_bytes {p : List UInt8} {s : List Char} (hp : p <+: bytes s) :
    ∃ a, a <+: s ∧ ∀ k b, IsAscii k b → p.count b = a.count k := by
  induction s generalizing p with
  | nil =>
    rw [List.prefix_nil.1 hp]
    exact ⟨[], List.prefix_refl [], fun _ _ _ => rfl⟩
  | cons c s ih =>
    rw [bytes_cons] at hp
    rcases prefix_append_cases hp with hp | ⟨q, rfl, hq⟩
    · rcases utf8EncodeChar_cases c with ⟨b, hb⟩ | hlarge
      · rw [hb] at hp
        rcases List.prefix_cons_iff.1 hp with rfl | ⟨q, rfl, hq⟩
        · exact ⟨[], List.nil_prefix, fun _ _ _ => rfl⟩
        · rw [List.prefix_nil.1 hq, ← hb]
          exact ⟨[c], (List.prefix_cons_inj c).2 List.nil_prefix, fun k b h => count_utf8EncodeChar h c⟩
      · exact ⟨[], List.nil_prefix, fun k b h => h.count_eq_zero fun d hd => hlarge d (hp.subset hd)⟩
    · obtain ⟨a, ha, hcount⟩ := ih hq
      refine ⟨c :: a, (List.prefix_cons_inj c).2 ha, fun k b h => ?_⟩
      rw [List.count_append, count_utf8EncodeChar h, hcount k b h, ← List.count_append, List.singleton_append]

end ClientBuild.Text
