import Mathlib.Tactic

/-! The bytes of a text. A character below 128 is one byte, its own number; any other begins with a
byte from 192 on and goes on with bytes between 128 and 192. A byte of the first kind is therefore a
character wherever it stands, and a byte of the last kind is never where a character begins. -/

namespace Utf8

/-- The bytes of the characters, one after the other. -/
def encode (text : List Char) : List UInt8 := text.flatMap String.utf8EncodeChar

/-- The byte is inside a character, not at the beginning of one. -/
def Continues (b : UInt8) : Prop := 128 ≤ b ∧ b < 192

@[simp] theorem encode_nil : encode [] = [] := rfl

@[simp] theorem encode_cons (c : Char) (text : List Char) :
    encode (c :: text) = String.utf8EncodeChar c ++ encode text := List.flatMap_cons

theorem toList_loop (bytes : ByteArray) (i : Nat) (acc : List UInt8) :
    ByteArray.toList.loop bytes i acc = acc.reverse ++ bytes.data.toList.drop i := by
  fun_induction ByteArray.toList.loop bytes i acc with
  | case1 i acc hlt ih =>
      have hi : i < bytes.data.toList.length := by simpa using hlt
      rw [ih, List.drop_eq_getElem_cons hi]
      simp [ByteArray.get!, hlt]
  | case2 i acc hge =>
      have hi : bytes.data.toList.length ≤ i := by simpa using Nat.le_of_not_lt hge
      rw [List.drop_eq_nil_of_le hi, List.append_nil]

/-- The bytes of a string are those of its characters. -/
theorem toList_toUTF8 (text : String) : text.toUTF8.toList = encode text.toList := by
  have hencode : text.toByteArray = text.toList.utf8Encode := by
    conv_lhs => rw [← String.ofList_toList (s := text)]
    exact String.toByteArray_ofList
  rw [String.toUTF8_eq_toByteArray, hencode, List.utf8Encode, ByteArray.toList, toList_loop,
    List.toList_data_toByteArray]
  rfl

theorem toNat_tail (b : UInt8) : (b &&& 0x3f ||| 0x80).toNat = b.toNat % 64 + 128 := by
  have hmask : b.toNat &&& 63 = b.toNat % 64 := Nat.and_two_pow_sub_one_eq_mod b.toNat 6
  have hor : 128 + b.toNat % 64 = 128 ||| b.toNat % 64 :=
    Nat.two_pow_add_eq_or_of_lt (i := 7) (by omega) 1
  rw [UInt8.toNat_or, UInt8.toNat_and]
  show (b.toNat &&& 63) ||| 128 = _
  rw [hmask, Nat.or_comm, ← hor, Nat.add_comm]

theorem continues_tail (b : UInt8) : Continues (b &&& 0x3f ||| 0x80) := by
  have htail := toNat_tail b
  rw [Continues, UInt8.le_iff_toNat_le, UInt8.lt_iff_toNat_lt, htail]
  show 128 ≤ b.toNat % 64 + 128 ∧ b.toNat % 64 + 128 < 192
  omega

theorem le_head {b mark : UInt8} (h : 192 ≤ mark) : 192 ≤ (b ||| mark) := by
  rw [UInt8.le_iff_toNat_le] at h ⊢
  rw [UInt8.toNat_or]
  exact h.trans Nat.right_le_or

/-- The bytes of a character: itself, or a head and its tail. -/
inductive Shape (c : Char) : List UInt8 → Prop
  | one {b : UInt8} (hsize : c.utf8Size = 1) (hb : b.toNat = c.toNat) (hlt : b.toNat < 128) :
      Shape c [b]
  | two {x y : UInt8} (hsize : c.utf8Size = 2) (hx : 192 ≤ x) (hy : Continues y) : Shape c [x, y]
  | more {x y z : UInt8} {rest : List UInt8} (hsize : 2 < c.utf8Size) (hx : 192 ≤ x)
      (hy : Continues y) (hz : Continues z) : Shape c (x :: y :: z :: rest)

/-- A character below 128 is the byte of its number. -/
theorem encodeChar_of_lt {c : Char} (h : c.toNat < 128) :
    ∃ b : UInt8, b.toNat = c.toNat ∧ String.utf8EncodeChar c = [b] := by
  have hsize : c.utf8Size = 1 :=
    Char.utf8Size_eq_one_iff.mpr (UInt32.le_iff_toNat_le.mpr (Nat.le_of_lt_succ h))
  have hval : c.val.toUInt8.toNat = c.toNat := by
    rw [UInt32.toNat_toUInt8]
    exact Nat.mod_eq_of_lt (h.trans (by decide))
  exact ⟨_, hval, String.utf8EncodeChar_eq_singleton hsize⟩

theorem shape (c : Char) : Shape c (String.utf8EncodeChar c) := by
  rcases Char.utf8Size_eq c with hsize | hsize | hsize | hsize
  · have hle : c.toNat ≤ 127 := UInt32.le_iff_toNat_le.mp (Char.utf8Size_eq_one_iff.mp hsize)
    obtain ⟨b, hb, hbytes⟩ := encodeChar_of_lt (Nat.lt_succ_of_le hle)
    rw [hbytes]
    exact .one hsize hb (hb ▸ Nat.lt_succ_of_le hle)
  · rw [String.utf8EncodeChar_eq_cons_cons hsize]
    exact .two hsize (le_head (by decide)) (continues_tail _)
  · rw [String.utf8EncodeChar_eq_cons_cons_cons hsize]
    exact .more (by omega) (le_head (by decide)) (continues_tail _) (continues_tail _)
  · rw [String.utf8EncodeChar_eq_cons_cons_cons_cons hsize]
    exact .more (by omega) (le_head (by decide)) (continues_tail _) (continues_tail _)

/-- The first byte of a character is its number, or from 192 on. -/
theorem Shape.head {c : Char} {b : UInt8} {rest : List UInt8} (h : Shape c (b :: rest)) :
    (rest = [] ∧ b.toNat = c.toNat ∧ b.toNat < 128) ∨ 192 ≤ b.toNat := by
  cases h with
  | one hsize hb hlt => exact .inl ⟨rfl, hb, hlt⟩
  | two hsize hx hy => exact .inr (UInt8.le_iff_toNat_le.mp hx)
  | more hsize hx hy hz => exact .inr (UInt8.le_iff_toNat_le.mp hx)

theorem encode_eq_cons {text : List Char} {b : UInt8} {rest : List UInt8}
    (h : encode text = b :: rest) : ∃ c text' tail, text = c :: text' ∧ Shape c (b :: tail) ∧
      rest = tail ++ encode text' := by
  cases text with
  | nil => cases h
  | cons c text =>
      rw [encode_cons] at h
      have hshape := shape c
      cases hbytes : String.utf8EncodeChar c with
      | nil => exact absurd hbytes String.utf8EncodeChar_ne_nil
      | cons x tail =>
          rw [hbytes, List.cons_append, List.cons.injEq] at h
          rw [hbytes, h.1] at hshape
          exact ⟨c, text, tail, rfl, hshape, h.2.symm⟩

/-- No text begins inside a character. -/
theorem not_continues_head {text : List Char} {b : UInt8} {rest : List UInt8}
    (h : encode text = b :: rest) : ¬Continues b := by
  obtain ⟨c, text', tail, -, hshape, -⟩ := encode_eq_cons h
  intro hb
  rw [Continues, UInt8.le_iff_toNat_le, UInt8.lt_iff_toNat_lt] at hb
  have hlo : 128 ≤ b.toNat := hb.1
  have hhi : b.toNat < 192 := hb.2
  rcases hshape.head with ⟨-, -, hlt⟩ | hge
  · omega
  · omega

/-- A byte below 128 is a character. -/
theorem encode_eq_cons_of_lt {text : List Char} {b : UInt8} {rest : List UInt8}
    (h : encode text = b :: rest) (hlt : b.toNat < 128) :
    ∃ c text', text = c :: text' ∧ b.toNat = c.toNat ∧ rest = encode text' := by
  obtain ⟨c, text', tail, htext, hshape, hrest⟩ := encode_eq_cons h
  rcases hshape.head with ⟨rfl, hb, -⟩ | hge
  · exact ⟨c, text', htext, hb, hrest⟩
  · omega

end Utf8
