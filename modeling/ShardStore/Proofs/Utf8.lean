import ShardStore.Bytes.Utf8
/-!
The strict UTF-8 reading undoes the writing of a string.

A string's bytes are its characters' encodings one after another. Reading one character back
from its encoding follows the four lengths of UTF-8: the lead byte announces the length, the
second byte lies in the range that lead byte admits (which rules out overlong forms, surrogates
and values past `0x10FFFF`, none of which a character can have), and the other bytes are
continuation bytes; the bits they carry put the scalar value together again. Since every
character takes at least one byte, the reader's fuel of one step a byte is enough.

Conversely, what the strict reader accepts is the encoding of what it reads: the ranges it admits
for the lead and the second byte keep the value it puts together within the range of the length
it read and off the surrogates, so the writer picks the same length and gives back the same bytes.
The strict reading and the writing are therefore inverse on the bytes the reader accepts.
-/

namespace ShardStore

namespace Bytes

private theorem toList_loop_eq (bs : ByteArray) (i : Nat) (r : List UInt8) :
    ByteArray.toList.loop bs i r = r.reverse ++ bs.data.toList.drop i := by
  fun_induction ByteArray.toList.loop bs i r with
  | case1 i r h ih =>
    have hi : i < bs.data.toList.length := by simpa using h
    rw [ih, List.drop_eq_getElem_cons hi]
    simp [ByteArray.get!, h]
  | case2 i r h =>
    have hi : bs.data.toList.length ≤ i := by simpa using h
    rw [List.drop_eq_nil_of_le hi, List.append_nil]

/-- The bytes of a string are its characters' encodings in order. -/
theorem ofString_eq (s : String) : ofString s = s.toList.flatMap String.utf8EncodeChar := by
  rw [ofString, String.toUTF8_eq_toByteArray, ByteArray.toList, toList_loop_eq,
    ← String.utf8Encode_toList, List.utf8Encode]
  simp

theorem length_ofString (s : String) : (ofString s).length = s.utf8ByteSize := by
  rw [ofString, String.toUTF8_eq_toByteArray, ByteArray.toList, toList_loop_eq,
    ← String.size_toByteArray]
  simp only [List.reverse_nil, List.nil_append, List.drop_zero, Array.length_toList]
  rfl

/-- A character's encoding reads back as the character, whatever follows it. -/
theorem step_utf8EncodeChar (c : Char) (rest : Bytes) :
    step (String.utf8EncodeChar c ++ rest) = some (.ok c, rest) := by
  have hvalid : c.val.toNat < 0xd800 ∨ 0xdfff < c.val.toNat ∧ c.val.toNat < 0x110000 := c.valid
  have hc : Char.ofNat c.val.toNat = c := Char.ofNat_toNat c
  unfold String.utf8EncodeChar
  generalize c.val.toNat = v at hvalid hc
  subst hc
  dsimp only
  -- in each of the four lengths: the lead byte announces the length, the next bytes are
  -- admissible, and the bits put `v` together again
  split
  · have hl : seqLength (UInt8.ofNat v) = 1 := by
      simp [seqLength, UInt8.lt_iff_toNat_lt]; omega
    simp only [List.cons_append, List.nil_append, step, hl]
    simp only [UInt8.toNat_ofNat', Option.some.injEq, Prod.mk.injEq, Except.ok.injEq, and_true]
    congr 1; omega
  split
  · have hl : seqLength (UInt8.ofNat (v / 64 % 32 + 192)) = 2 := by
      simp [seqLength, UInt8.lt_iff_toNat_lt, UInt8.le_iff_toNat_le]
      repeat' split
      all_goals omega
    have hc : isCont (UInt8.ofNat (v % 64 + 128)) = true := by
      simp [isCont, UInt8.le_iff_toNat_le]; omega
    simp only [List.cons_append, List.nil_append, step, hl, hc, ↓reduceIte]
    simp only [UInt8.toNat_ofNat', Option.some.injEq, Prod.mk.injEq, Except.ok.injEq, and_true]
    congr 1; omega
  split
  · have hl : seqLength (UInt8.ofNat (v / 4096 % 16 + 224)) = 3 := by
      simp [seqLength, UInt8.lt_iff_toNat_lt, UInt8.le_iff_toNat_le]
      repeat' split
      all_goals omega
    have hs : secondOk (UInt8.ofNat (v / 4096 % 16 + 224)) (UInt8.ofNat (v / 64 % 64 + 128)) =
        true := by
      simp [secondOk, isCont, UInt8.le_iff_toNat_le, ← UInt8.toNat_inj]
      repeat' split
      all_goals omega
    have hc : isCont (UInt8.ofNat (v % 64 + 128)) = true := by
      simp [isCont, UInt8.le_iff_toNat_le]; omega
    simp only [List.cons_append, List.nil_append, step, hl, hs, hc, Bool.not_true,
      Bool.false_eq_true, ↓reduceIte]
    simp only [UInt8.toNat_ofNat', Option.some.injEq, Prod.mk.injEq, Except.ok.injEq, and_true]
    congr 1; omega
  · have hl : seqLength (UInt8.ofNat (v / 262144 % 8 + 240)) = 4 := by
      simp [seqLength, UInt8.lt_iff_toNat_lt, UInt8.le_iff_toNat_le]
      repeat' split
      all_goals omega
    have hs : secondOk (UInt8.ofNat (v / 262144 % 8 + 240)) (UInt8.ofNat (v / 4096 % 64 + 128)) =
        true := by
      simp [secondOk, isCont, UInt8.le_iff_toNat_le, ← UInt8.toNat_inj]
      repeat' split
      all_goals omega
    have hc₁ : isCont (UInt8.ofNat (v / 64 % 64 + 128)) = true := by
      simp [isCont, UInt8.le_iff_toNat_le]; omega
    have hc₂ : isCont (UInt8.ofNat (v % 64 + 128)) = true := by
      simp [isCont, UInt8.le_iff_toNat_le]; omega
    simp only [List.cons_append, List.nil_append, step, hl, hs, hc₁, hc₂, Bool.not_true,
      Bool.false_eq_true, ↓reduceIte]
    simp only [UInt8.toNat_ofNat', Option.some.injEq, Prod.mk.injEq, Except.ok.injEq, and_true]
    congr 1; omega

/-- Reading encoded characters with a step of fuel a byte reads them all back. -/
theorem utf8?_go_flatMap (cs : List Char) (fuel : Nat) (acc : List Char)
    (hfuel : (cs.flatMap String.utf8EncodeChar).length ≤ fuel) :
    utf8?.go (cs.flatMap String.utf8EncodeChar) fuel acc =
      some (String.ofList (acc.reverse ++ cs)) := by
  induction cs generalizing fuel acc with
  | nil =>
    unfold utf8?.go
    simp [step]
  | cons c cs ih =>
    -- the first character takes at least one byte, so there is fuel for it
    have hpos := c.utf8Size_pos
    obtain ⟨fuel, rfl⟩ : ∃ f, fuel = f + 1 := ⟨fuel - 1, by simp at hfuel; omega⟩
    unfold utf8?.go
    rw [List.flatMap_cons, step_utf8EncodeChar]
    simp only
    rw [ih fuel (c :: acc) (by simp at hfuel ⊢; omega)]
    simp

/-- The bytes of a string read back as the string. -/
theorem utf8?_ofString (s : String) : utf8? (ofString s) = some s := by
  rw [utf8?, ofString_eq, utf8?_go_flatMap _ _ _ (Nat.le_refl _)]
  simp

/-! ### Reading back is writing: the converse -/

theorem toNat_ofNat_of_valid {v : Nat} (h : v.isValidChar) : (Char.ofNat v).val.toNat = v := by
  rw [show Char.ofNat v = Char.ofNatAux v h from dif_pos h]
  rfl

theorem seqLength_cases (b : UInt8) :
    seqLength b = 1 ∧ b.toNat < 0x80 ∨ seqLength b = 2 ∧ 0xC2 ≤ b.toNat ∧ b.toNat ≤ 0xDF ∨
      seqLength b = 3 ∧ 0xE0 ≤ b.toNat ∧ b.toNat ≤ 0xEF ∨
      seqLength b = 4 ∧ 0xF0 ≤ b.toNat ∧ b.toNat ≤ 0xF4 ∨ seqLength b = 0 := by
  simp only [seqLength, UInt8.lt_iff_toNat_lt, UInt8.le_iff_toNat_le, Bool.and_eq_true,
    decide_eq_true_eq, UInt8.reduceToNat]
  repeat' split
  all_goals omega

theorem isCont_iff {c : UInt8} : isCont c = true ↔ 0x80 ≤ c.toNat ∧ c.toNat ≤ 0xBF := by
  simp [isCont, UInt8.le_iff_toNat_le]

theorem secondOk_spec {b c : UInt8} (h : secondOk b c = true) :
    0x80 ≤ c.toNat ∧ c.toNat ≤ 0xBF ∧ (b.toNat = 0xE0 → 0xA0 ≤ c.toNat) ∧
      (b.toNat = 0xED → c.toNat ≤ 0x9F) ∧ (b.toNat = 0xF0 → 0x90 ≤ c.toNat) ∧
      (b.toNat = 0xF4 → c.toNat ≤ 0x8F) := by
  simp only [secondOk, isCont, UInt8.le_iff_toNat_le, beq_iff_eq, ← UInt8.toNat_inj,
    UInt8.reduceToNat] at h
  repeat' split at h
  all_goals simp only [Bool.and_eq_true, decide_eq_true_eq] at h; omega

/-- The encoding of the character of a scalar value, by the value. -/
theorem utf8EncodeChar_ofNat {v : Nat} (h : v.isValidChar) :
    String.utf8EncodeChar (Char.ofNat v) =
      if v ≤ 0x7f then [v.toUInt8]
      else if v ≤ 0x7ff then [(v / 64 % 32 + 0xc0).toUInt8, (v % 64 + 0x80).toUInt8]
      else if v ≤ 0xffff then
        [(v / 4096 % 16 + 0xe0).toUInt8, (v / 64 % 64 + 0x80).toUInt8, (v % 64 + 0x80).toUInt8]
      else [(v / 262144 % 8 + 0xf0).toUInt8, (v / 4096 % 64 + 0x80).toUInt8,
        (v / 64 % 64 + 0x80).toUInt8, (v % 64 + 0x80).toUInt8] := by
  unfold String.utf8EncodeChar
  rw [toNat_ofNat_of_valid h]

private theorem toUInt8_eq {b : UInt8} {n : Nat} (h : n = b.toNat) : n.toUInt8 = b := by
  rw [h]
  exact UInt8.ofNat_toNat

theorem encode_one {b : UInt8} (hb : b.toNat < 0x80) :
    String.utf8EncodeChar (Char.ofNat b.toNat) = [b] := by
  have hv : b.toNat.isValidChar := by unfold Nat.isValidChar; omega
  rw [utf8EncodeChar_ofNat hv, if_pos (by omega), toUInt8_eq rfl]

theorem encode_two {b c : UInt8} (hb : 0xC2 ≤ b.toNat ∧ b.toNat ≤ 0xDF) (hc : isCont c = true) :
    String.utf8EncodeChar (Char.ofNat ((b.toNat % 32) * 64 + c.toNat % 64)) = [b, c] := by
  rw [isCont_iff] at hc
  have hv : ((b.toNat % 32) * 64 + c.toNat % 64).isValidChar := by
    unfold Nat.isValidChar; omega
  rw [utf8EncodeChar_ofNat hv, if_neg (by omega), if_pos (by omega)]
  simp only [List.cons.injEq, and_true]
  exact ⟨toUInt8_eq (by omega), toUInt8_eq (by omega)⟩

theorem encode_three {b c d : UInt8} (hb : 0xE0 ≤ b.toNat ∧ b.toNat ≤ 0xEF)
    (hc : secondOk b c = true) (hd : isCont d = true) :
    String.utf8EncodeChar
      (Char.ofNat ((b.toNat % 16) * 4096 + (c.toNat % 64) * 64 + d.toNat % 64)) =
      [b, c, d] := by
  have hc := secondOk_spec hc
  rw [isCont_iff] at hd
  have hv : ((b.toNat % 16) * 4096 + (c.toNat % 64) * 64 + d.toNat % 64).isValidChar := by
    unfold Nat.isValidChar; omega
  rw [utf8EncodeChar_ofNat hv, if_neg (by omega), if_neg (by omega), if_pos (by omega)]
  simp only [List.cons.injEq, and_true]
  exact ⟨toUInt8_eq (by omega), toUInt8_eq (by omega), toUInt8_eq (by omega)⟩

theorem encode_four {b c d e : UInt8} (hb : 0xF0 ≤ b.toNat ∧ b.toNat ≤ 0xF4)
    (hc : secondOk b c = true) (hd : isCont d = true) (he : isCont e = true) :
    String.utf8EncodeChar (Char.ofNat ((b.toNat % 8) * 262144 + (c.toNat % 64) * 4096 +
      (d.toNat % 64) * 64 + e.toNat % 64)) = [b, c, d, e] := by
  have hc := secondOk_spec hc
  rw [isCont_iff] at hd he
  have hv : ((b.toNat % 8) * 262144 + (c.toNat % 64) * 4096 + (d.toNat % 64) * 64 +
      e.toNat % 64).isValidChar := by
    unfold Nat.isValidChar; omega
  rw [utf8EncodeChar_ofNat hv, if_neg (by omega), if_neg (by omega), if_neg (by omega)]
  simp only [List.cons.injEq, and_true]
  exact ⟨toUInt8_eq (by omega), toUInt8_eq (by omega), toUInt8_eq (by omega),
    toUInt8_eq (by omega)⟩

/-- What the strict reader takes as a character is the character's encoding. -/
theorem eq_of_step {bs rest : Bytes} {c : Char} (h : step bs = some (.ok c, rest)) :
    bs = String.utf8EncodeChar c ++ rest := by
  obtain _ | ⟨b, tail⟩ := bs
  · simp [step] at h
  -- the lead byte's length, then each guard of the reader: only the accepting branch is left
  rcases seqLength_cases b with ⟨hl, hb⟩ | ⟨hl, hb⟩ | ⟨hl, hb⟩ | ⟨hl, hb⟩ | hl
  all_goals simp only [step, hl] at h
  · obtain ⟨rfl, rfl⟩ : Char.ofNat b.toNat = c ∧ tail = rest := by simpa using h
    rw [encode_one hb]; rfl
  · obtain _ | ⟨c₁, r⟩ := tail
    · simp at h
    by_cases hc₁ : isCont c₁ = true
    · obtain ⟨rfl, rfl⟩ := by simpa [hc₁] using h
      rw [encode_two hb hc₁]; rfl
    · simp [hc₁] at h
  · obtain _ | ⟨c₁, _ | ⟨c₂, r⟩⟩ := tail
    · simp at h
    · by_cases hs : secondOk b c₁ = true <;> simp [hs] at h
    by_cases hs : secondOk b c₁ = true <;> by_cases hc₂ : isCont c₂ = true
    · obtain ⟨rfl, rfl⟩ := by simpa [hs, hc₂] using h
      rw [encode_three hb hs hc₂]; rfl
    all_goals simp [hs, hc₂] at h
  · obtain _ | ⟨c₁, _ | ⟨c₂, _ | ⟨c₃, r⟩⟩⟩ := tail
    · simp at h
    · by_cases hs : secondOk b c₁ = true <;> simp [hs] at h
    · by_cases hs : secondOk b c₁ = true <;> by_cases hc₂ : isCont c₂ = true <;> simp [hs, hc₂] at h
    by_cases hs : secondOk b c₁ = true <;> by_cases hc₂ : isCont c₂ = true <;>
      by_cases hc₃ : isCont c₃ = true
    · obtain ⟨rfl, rfl⟩ := by simpa [hs, hc₂, hc₃] using h
      rw [encode_four hb hs hc₂ hc₃]; rfl
    all_goals simp [hs, hc₂, hc₃] at h
  · simp at h

/-- The reader stops only at the end of the bytes. -/
theorem eq_nil_of_step {bs : Bytes} (h : step bs = none) : bs = [] := by
  obtain _ | ⟨b, rest⟩ := bs
  · rfl
  · simp only [step] at h
    repeat' split at h
    all_goals simp at h

/-- The strict reader with enough fuel reads only encodings of characters. -/
theorem eq_flatMap_of_go {bs : Bytes} {fuel : Nat} {acc : List Char} {s : String}
    (hfuel : bs.length ≤ fuel) (h : utf8?.go bs fuel acc = some s) :
    ∃ cs, bs = cs.flatMap String.utf8EncodeChar ∧ s = String.ofList (acc.reverse ++ cs) := by
  induction fuel generalizing bs acc with
  | zero =>
    obtain rfl : bs = [] := List.eq_nil_of_length_eq_zero (Nat.le_zero.mp hfuel)
    unfold utf8?.go at h
    simp only [step, Option.some.injEq] at h
    exact ⟨[], rfl, by simp [h]⟩
  | succ fuel ih =>
    unfold utf8?.go at h
    cases hs : step bs with
    | none =>
      obtain rfl : bs = [] := eq_nil_of_step hs
      simp only [hs, Option.some.injEq] at h
      exact ⟨[], rfl, by simp [h]⟩
    | some p =>
      obtain ⟨_ | c, rest⟩ := p
      · simp [hs] at h
      rw [hs] at h
      have hbs := eq_of_step hs
      -- the character took at least one byte, so one step less of fuel is enough for the rest
      have hrest : rest.length ≤ fuel := by
        have := c.utf8Size_pos
        rw [hbs] at hfuel; simp at hfuel; omega
      obtain ⟨cs, rfl, rfl⟩ := ih hrest h
      exact ⟨c :: cs, by rw [hbs, List.flatMap_cons], by simp⟩

/-- A text the strict reader accepts is written back as the bytes it was read from. -/
theorem ofString_of_utf8? {bs : Bytes} {s : String} (h : utf8? bs = some s) : ofString s = bs := by
  obtain ⟨cs, rfl, rfl⟩ := eq_flatMap_of_go (Nat.le_refl _) h
  simp [ofString_eq]

end Bytes

end ShardStore
