import Topic0.AbiFilter
import Topic0.BaseUtf8

/-! Hex texts. `hex_decode` cuts a text into pairs of bytes and reads each with the integer parser.
Two things that are no hex get in that way: the parser takes a leading plus for a sign, and a cut
inside a character panics. Both are found from the front, pair by pair, and a pair that is rejected
first keeps the rest of the text from being read. -/

namespace Topic0

open Utf8

/-- `0-9`, `a-f` and `A-F`. -/
def isHexDigit (c : Char) : Bool :=
  decide (48 ≤ c.toNat ∧ c.toNat ≤ 57 ∨ 97 ≤ c.toNat ∧ c.toNat ≤ 102 ∨
    65 ≤ c.toNat ∧ c.toNat ≤ 70)

def digitValue (c : Char) : Nat :=
  if c.toNat ≤ 57 then c.toNat - 48 else if c.toNat ≤ 70 then c.toNat - 55 else c.toNat - 87

/-- The text without one leading `0x`. -/
def stripMarker (text : List Char) : List Char :=
  if ['0', 'x'].isPrefixOf text then text.drop 2 else text

/-- An even number of hex digits. -/
def HexText (text : List Char) : Prop := text.length % 2 = 0 ∧ ∀ c ∈ text, isHexDigit c = true

instance (text : List Char) : Decidable (HexText text) :=
  inferInstanceAs (Decidable (text.length % 2 = 0 ∧ ∀ c ∈ text, isHexDigit c = true))

/-- The values of the digits, pair by pair. -/
def pairValues : List Char → List UInt8
  | a :: b :: rest => UInt8.ofNat (16 * digitValue a + digitValue b) :: pairValues rest
  | _ => []

/-- What the text stands for. -/
def hexBytes (text : String) : Option (List UInt8) :=
  if HexText (stripMarker text.toList) then some (pairValues (stripMarker text.toList)) else none

/-- Hex is decoded, anything else is rejected, and so are the filter values and the addresses. -/
structure DecodesHex (text : String) : Prop where
  decode : hexDecode text = .ok (hexBytes text)
  filter : ∀ ty, ty = .address ∨ ty = .bytes → bindValue ty text =
    (hexBytes text).elim (invalid "expected 0x-hex bytes") fun bytes =>
      .ok (castSuffix ty, .bytes bytes)
  address : parseAddr text =
    ((hexBytes text).filter fun bytes => bytes.length = 20).elim
      (.error (.error (.malformed ("bad address " ++ text)))) fun bytes => .ok ⟨bytes⟩

/-- What the integer parser reads as a byte: two digits, or a plus and a digit. -/
def readsAsByte (a b : Char) : Bool := (isHexDigit a || a == '+') && isHexDigit b

/-- Behind pairs that are read comes one that is not and ends at the end of a character: two
characters of one byte or one of two. -/
def stopsCleanly : List Char → Bool
  | a :: b :: rest =>
      if readsAsByte a b then stopsCleanly rest
      else a.utf8Size == 2 || (a.utf8Size == 1 && b.utf8Size == 1)
  | [a] => a.utf8Size == 2
  | [] => false

/-- The text without its `0x` is of an odd number of bytes, is hex, or stops cleanly. -/
def ReadsCleanly (text : String) : Prop :=
  (encode (stripMarker text.toList)).length % 2 = 1 ∨ HexText (stripMarker text.toList) ∨
    stopsCleanly (stripMarker text.toList) = true

section Digits

variable {x y : UInt8} {a b : Char}

theorem toNat_lt_of_isHexDigit {c : Char} (h : isHexDigit c = true) : c.toNat < 128 := by
  have hrange := of_decide_eq_true h
  omega

/-- The digits of the decoder are those of the text. -/
theorem hexDigit_eq (h : x.toNat = a.toNat) :
    hexDigit x = if isHexDigit a then some (UInt8.ofNat (digitValue a)) else none := by
  have hall : ∀ n < 256, hexDigit (UInt8.ofNat n) =
      if isHexDigit (Char.ofNat n) then some (UInt8.ofNat (digitValue (Char.ofNat n))) else none := by
    decide +kernel
  have hbyte := hall x.toNat x.toNat_lt
  rwa [UInt8.ofNat_toNat, h, Char.ofNat_toNat] at hbyte

/-- A byte from 128 on is no digit. -/
theorem hexDigit_of_le (h : 128 ≤ x) : hexDigit x = none := by
  have hall : ∀ n < 256, 128 ≤ n → hexDigit (UInt8.ofNat n) = none := by decide +kernel
  have hbyte := hall x.toNat x.toNat_lt (UInt8.le_iff_toNat_le.mp h)
  rwa [UInt8.ofNat_toNat] at hbyte

theorem hexByte_of_le (h : 128 ≤ y) : hexByte x y = none := by
  rw [hexByte, hexDigit_of_le h]
  split
  · rfl
  · cases hexDigit x with
    | none => rfl
    | some hi => rfl

/-- Two digits are the byte of their values. -/
theorem hexByte_of_digits (hx : x.toNat = a.toNat) (hy : y.toNat = b.toNat)
    (ha : isHexDigit a = true) (hb : isHexDigit b = true) :
    hexByte x y = some (UInt8.ofNat (16 * digitValue a + digitValue b)) := by
  have hplus : x ≠ 43 := by
    intro heq
    have hrange := of_decide_eq_true ha
    rw [heq] at hx
    have hnum : 43 = a.toNat := hx
    omega
  rw [hexByte, if_neg hplus, hexDigit_eq hx, hexDigit_eq hy, if_pos ha, if_pos hb,
    Option.bind_eq_bind, Option.bind_some, Option.bind_some,
    UInt8.ofNat_add, UInt8.ofNat_mul]
  rfl

theorem isSome_hexByte (hx : x.toNat = a.toNat) (hy : y.toNat = b.toNat) :
    (hexByte x y).isSome = readsAsByte a b := by
  have hplus : x = 43 ↔ a = '+' := by
    rw [← UInt8.toNat_inj, hx, ← Char.toNat_inj]
    rfl
  rw [hexByte, hexDigit_eq hx, hexDigit_eq hy, readsAsByte]
  by_cases hsign : a = '+'
  · rw [if_pos (hplus.mpr hsign)]
    cases hb : isHexDigit b with
    | false => simp
    | true => simp [hsign]
  · rw [if_neg (fun h => hsign (hplus.mp h))]
    cases ha : isHexDigit a with
    | false => simp [hsign]
    | true =>
        cases hb : isHexDigit b with
        | false => simp
        | true => simp

end Digits

section Pairs

/-- At the end of a character the pair before it decides. -/
theorem hexPairs_cons_cons (x y : UInt8) (text : List Char) :
    hexPairs (x :: y :: encode text) =
      match hexByte x y with
      | none => .ok none
      | some byte => (hexPairs (encode text)).map fun bytes => bytes.map fun tail => byte :: tail := by
  have hcut : ((encode text).head?.any continuesChar) = false := by
    cases htext : encode text with
    | nil => rfl
    | cons b rest =>
        have hhead := not_continues_head htext
        exact decide_eq_false hhead
  rw [hexPairs, hcut]
  simp only [Bool.false_eq_true, if_false]
  cases hexByte x y with
  | none => rfl
  | some byte =>
      cases hexPairs (encode text) with
      | error fault => rfl
      | ok bytes => rfl

/-- A cut inside a character panics. -/
theorem hexPairs_of_continues (x y : UInt8) {z : UInt8} (rest : List UInt8) (hz : Continues z) :
    hexPairs (x :: y :: z :: rest) = .error .panic := by
  have hcut : ((z :: rest).head?.any continuesChar) = true := decide_eq_true hz
  rw [hexPairs, hcut]
  rfl

theorem encode_pair {a b : Char} (h : readsAsByte a b = true) (rest : List Char) :
    ∃ x y : UInt8, x.toNat = a.toNat ∧ y.toNat = b.toNat ∧
      encode (a :: b :: rest) = x :: y :: encode rest := by
  rw [readsAsByte, Bool.and_eq_true, Bool.or_eq_true, beq_iff_eq] at h
  have ha : a.toNat < 128 := by
    rcases h.1 with hdigit | rfl
    · exact toNat_lt_of_isHexDigit hdigit
    · decide
  obtain ⟨x, hx, hxs⟩ := encodeChar_of_lt ha
  obtain ⟨y, hy, hys⟩ := encodeChar_of_lt (toNat_lt_of_isHexDigit h.2)
  refine ⟨x, y, hx, hy, ?_⟩
  rw [encode_cons, encode_cons, hxs, hys]
  rfl

/-- A pair that is read leaves the rest to decide. -/
theorem hexPairs_of_reads {a b : Char} (h : readsAsByte a b = true) (rest : List Char) :
    ∃ byte, hexPairs (encode (a :: b :: rest)) =
      (hexPairs (encode rest)).map fun bytes => bytes.map fun tail => byte :: tail := by
  obtain ⟨x, y, hx, hy, hencode⟩ := encode_pair h rest
  obtain ⟨byte, hbyte⟩ := Option.isSome_iff_exists.mp ((isSome_hexByte hx hy).trans h)
  refine ⟨byte, ?_⟩
  rw [hencode, hexPairs_cons_cons, hbyte]

/-- A character of two bytes is a pair of its own; a longer one is cut. -/
theorem hexPairs_of_wide {a : Char} (h : a.utf8Size ≠ 1) (rest : List Char) :
    hexPairs (encode (a :: rest)) = .ok none ↔ (a.utf8Size == 2) = true := by
  have hshape := shape a
  rw [encode_cons]
  generalize String.utf8EncodeChar a = bytes at hshape ⊢
  cases hshape with
  | one hsize hx hlt => exact absurd hsize h
  | two hsize hx hy =>
      show hexPairs (_ :: _ :: encode rest) = _ ↔ _
      rw [hexPairs_cons_cons, hexByte_of_le hy.1]
      simp [hsize]
  | more hsize hx hy hz =>
      have hne : (a.utf8Size == 2) = false := by
        rw [beq_eq_false_iff_ne]
        omega
      simp only [List.cons_append, hexPairs_of_continues _ _ _ hz, hne, reduceCtorEq,
        Bool.false_eq_true]

/-- A character of more than one byte behind one of one byte is cut. -/
theorem hexPairs_of_cut {a b : Char} (ha : a.toNat < 128) (h : b.utf8Size ≠ 1) (rest : List Char) :
    hexPairs (encode (a :: b :: rest)) = .error .panic := by
  obtain ⟨x, hx, hxs⟩ := encodeChar_of_lt ha
  have hshape := shape b
  rw [encode_cons, encode_cons, hxs]
  generalize String.utf8EncodeChar b = bytes at hshape ⊢
  cases hshape with
  | one hsize hx hlt => exact absurd hsize h
  | two hsize hx hy => exact hexPairs_of_continues _ _ _ hy
  | more hsize hx hy hz => exact hexPairs_of_continues _ _ _ hy

theorem toNat_lt_of_utf8Size {a : Char} (h : a.utf8Size = 1) : a.toNat < 128 :=
  Nat.lt_succ_of_le (UInt32.le_iff_toNat_le.mp (Char.utf8Size_eq_one_iff.mp h))

theorem hexPairs_of_not_reads {a b : Char} (h : readsAsByte a b = false) (rest : List Char) :
    hexPairs (encode (a :: b :: rest)) = .ok none ↔
      (a.utf8Size == 2 || (a.utf8Size == 1 && b.utf8Size == 1)) = true := by
  by_cases ha : a.utf8Size = 1
  · by_cases hb : b.utf8Size = 1
    · obtain ⟨x, hx, hxs⟩ := encodeChar_of_lt (toNat_lt_of_utf8Size ha)
      obtain ⟨y, hy, hys⟩ := encodeChar_of_lt (toNat_lt_of_utf8Size hb)
      have hbyte : hexByte x y = none := by
        rw [← Option.not_isSome_iff_eq_none, isSome_hexByte hx hy, h]
        decide
      rw [encode_cons, encode_cons, hxs, hys]
      show hexPairs (x :: y :: encode rest) = _ ↔ _
      rw [hexPairs_cons_cons, hbyte]
      simp [ha, hb]
    · rw [hexPairs_of_cut (toNat_lt_of_utf8Size ha) hb]
      simp [ha, hb]
  · rw [hexPairs_of_wide ha]
    simp [ha]

/-- The decoder rejects a text where it stops cleanly, and nowhere else. -/
theorem hexPairs_eq_none_iff (text : List Char) :
    hexPairs (encode text) = .ok none ↔ stopsCleanly text = true := by
  fun_induction stopsCleanly text with
  | case1 a b rest hreads ih =>
      obtain ⟨byte, hbyte⟩ := hexPairs_of_reads hreads rest
      rw [hbyte, ← ih]
      cases hexPairs (encode rest) with
      | error fault => simp [Except.map]
      | ok bytes => simp [Except.map]
  | case2 a b rest hreads => exact hexPairs_of_not_reads (Bool.eq_false_iff.mpr hreads) rest
  | case3 a =>
      by_cases ha : a.utf8Size = 1
      · obtain ⟨x, hx, hxs⟩ := encodeChar_of_lt (toNat_lt_of_utf8Size ha)
        rw [encode_cons, hxs]
        simp [hexPairs, ha]
      · exact hexPairs_of_wide ha []
  | case4 => simp [hexPairs]

theorem HexText.tail {a b : Char} {rest : List Char} (h : HexText (a :: b :: rest)) :
    HexText rest := by
  obtain ⟨hlen, hdigits⟩ := h
  refine ⟨?_, ?_⟩
  · simp only [List.length_cons] at hlen
    omega
  · intro c hc
    exact hdigits c (List.mem_cons_of_mem _ (List.mem_cons_of_mem _ hc))

/-- A hex text is decoded to the values of its pairs. -/
theorem hexPairs_of_hexText {text : List Char} (h : HexText text) :
    hexPairs (encode text) = .ok (some (pairValues text)) := by
  induction text using pairValues.induct with
  | case1 a b rest ih =>
      have ha : isHexDigit a = true := h.2 a (by simp)
      have hb : isHexDigit b = true := h.2 b (by simp)
      have hreads : readsAsByte a b = true := by simp [readsAsByte, ha, hb]
      obtain ⟨x, y, hx, hy, hencode⟩ := encode_pair hreads rest
      rw [hencode, hexPairs_cons_cons, hexByte_of_digits hx hy ha hb, ih h.tail]
      rfl
  | case2 text hshort =>
      cases text with
      | nil => rfl
      | cons a text =>
          cases text with
          | nil =>
              have hlen := h.1
              simp at hlen
          | cons b rest => exact absurd rfl (hshort a b rest)

theorem length_encode_of_digits {text : List Char} (h : ∀ c ∈ text, isHexDigit c = true) :
    (encode text).length = text.length := by
  induction text with
  | nil => rfl
  | cons c text ih =>
      obtain ⟨b, -, hbytes⟩ := encodeChar_of_lt (toNat_lt_of_isHexDigit (h c List.mem_cons_self))
      have hrest := ih fun d hd => h d (List.mem_cons_of_mem _ hd)
      rw [encode_cons, hbytes, List.length_append, hrest, List.length_singleton, List.length_cons,
        Nat.add_comm]

end Pairs

section Decode

theorem stripMarker_eq_self {text : List Char} (h : ∀ rest, text ≠ '0' :: 'x' :: rest) :
    stripMarker text = text := by
  rw [stripMarker]
  split
  · rename_i hmarker
    obtain ⟨rest, hrest⟩ := List.isPrefixOf_iff_prefix.mp hmarker
    exact absurd hrest.symm (h rest)
  · rfl

/-- The marker of a text is the marker of its bytes. -/
theorem hexDecode_eq (text : String) :
    hexDecode text = if (encode (stripMarker text.toList)).length % 2 = 0 then
      hexPairs (encode (stripMarker text.toList)) else .ok none := by
  rw [hexDecode, toList_toUTF8]
  generalize text.toList = chars
  split
  · rename_i rest hbytes
    obtain ⟨c, tail, rfl, hc, htail⟩ := encode_eq_cons_of_lt hbytes (by decide)
    obtain ⟨d, tail, rfl, hd, rfl⟩ := encode_eq_cons_of_lt htail.symm (by decide)
    have hzero : c = '0' := Char.toNat_inj.mp hc.symm
    have hmark : d = 'x' := Char.toNat_inj.mp hd.symm
    rw [hzero, hmark]
    rfl
  · rename_i hbytes
    have hstrip : stripMarker chars = chars := by
      apply stripMarker_eq_self
      rintro rest rfl
      exact absurd rfl (hbytes (encode rest))
    rw [hstrip]

theorem decodesHex_of_decode {text : String} (h : hexDecode text = .ok (hexBytes text)) :
    DecodesHex text where
  decode := h
  filter := by
    intro ty hty
    rcases hty with rfl | rfl
    · rw [bindValue, h]
      cases hexBytes text with
      | none => rfl
      | some bytes => rfl
    · rw [bindValue, h]
      cases hexBytes text with
      | none => rfl
      | some bytes => rfl
  address := by
    rw [parseAddr, h]
    cases hexBytes text with
    | none => rfl
    | some bytes =>
        rw [Option.filter_some]
        by_cases hlen : bytes.length = 20
        · simp [hlen]
        · simp [hlen]

/-- Hex digits hold no marker. -/
theorem stripMarker_of_digits {text : List Char} (h : ∀ c ∈ text, isHexDigit c = true) :
    stripMarker text = text := by
  apply stripMarker_eq_self
  rintro rest rfl
  exact absurd (h 'x' (by simp)) (by decide)

def hexChars (bytes : List UInt8) : List Char :=
  bytes.flatMap fun b => [hexChar (b.toNat / 16), hexChar b.toNat]

theorem isHexDigit_hexChar (n : Nat) : isHexDigit (hexChar n) = true := by
  have hall : ∀ d < 16, isHexDigit (Nat.digitChar d) = true := by decide
  exact hall (n % 16) (Nat.mod_lt _ (by decide))

theorem digitValue_hexChar (n : Nat) : digitValue (hexChar n) = n % 16 := by
  have hall : ∀ d < 16, digitValue (Nat.digitChar d) = d := by decide
  exact hall (n % 16) (Nat.mod_lt _ (by decide))

theorem hexChars_cons (b : UInt8) (bytes : List UInt8) :
    hexChars (b :: bytes) = hexChar (b.toNat / 16) :: hexChar b.toNat :: hexChars bytes := rfl

theorem hexText_hexChars (bytes : List UInt8) : HexText (hexChars bytes) := by
  induction bytes with
  | nil => exact ⟨rfl, by simp [hexChars]⟩
  | cons b bytes ih =>
      rw [hexChars_cons]
      refine ⟨?_, ?_⟩
      · have hlen := ih.1
        simp only [List.length_cons]
        omega
      · intro c hc
        rcases List.mem_cons.mp hc with rfl | hc
        · exact isHexDigit_hexChar _
        · rcases List.mem_cons.mp hc with rfl | hc
          · exact isHexDigit_hexChar _
          · exact ih.2 c hc

/-- The values of the digits of the bytes, pair by pair, are the bytes. -/
theorem pairValues_hexChars (bytes : List UInt8) : pairValues (hexChars bytes) = bytes := by
  induction bytes with
  | nil => rfl
  | cons b bytes ih =>
      have hlt := b.toNat_lt
      have hvalue : 16 * (b.toNat / 16 % 16) + b.toNat % 16 = b.toNat := by omega
      rw [hexChars_cons, pairValues, digitValue_hexChar, digitValue_hexChar, hvalue, ih,
        UInt8.ofNat_toNat]

theorem hexDecode_of_hexText {text : String} (h : HexText (stripMarker text.toList)) :
    hexDecode text = .ok (some (pairValues (stripMarker text.toList))) := by
  have heven : (encode (stripMarker text.toList)).length % 2 = 0 := by
    rw [length_encode_of_digits h.2, h.1]
  rw [hexDecode_eq, if_pos heven, hexPairs_of_hexText h]

theorem hexDecode_hexEncode (bytes : List UInt8) :
    hexDecode (hexEncode bytes) = .ok (some bytes) ∧
      hexDecode ("0x" ++ hexEncode bytes) = .ok (some bytes) := by
  have htext : (hexEncode bytes).toList = hexChars bytes := String.toList_ofList
  have hplain : stripMarker (hexEncode bytes).toList = hexChars bytes := by
    rw [htext, stripMarker_of_digits (hexText_hexChars bytes).2]
  have hmarked : stripMarker ("0x" ++ hexEncode bytes).toList = hexChars bytes := by
    rw [String.toList_append, htext]
    rfl
  refine ⟨?_, ?_⟩
  · rw [hexDecode_of_hexText (hplain ▸ hexText_hexChars bytes), hplain, pairValues_hexChars]
  · rw [hexDecode_of_hexText (hmarked ▸ hexText_hexChars bytes), hmarked, pairValues_hexChars]

theorem readsCleanly_of_decodesHex {text : String} (h : DecodesHex text) : ReadsCleanly text := by
  have hdecode := h.decode
  rw [hexDecode_eq] at hdecode
  by_cases hhex : HexText (stripMarker text.toList)
  · exact .inr (.inl hhex)
  · rw [hexBytes, if_neg hhex] at hdecode
    split at hdecode
    · exact .inr (.inr ((hexPairs_eq_none_iff _).mp hdecode))
    · rename_i hodd
      exact .inl (Nat.mod_two_ne_zero.mp hodd)

theorem decodesHex_of_readsCleanly {text : String} (h : ReadsCleanly text) : DecodesHex text := by
  apply decodesHex_of_decode
  by_cases hhex : HexText (stripMarker text.toList)
  · rw [hexBytes, if_pos hhex, hexDecode_of_hexText hhex]
  · rw [hexBytes, if_neg hhex, hexDecode_eq]
    rcases h with hodd | hhex' | hstops
    · rw [if_neg (by omega)]
    · exact absurd hhex' hhex
    · rw [(hexPairs_eq_none_iff _).mpr hstops, ite_self]

end Decode

/-- A text is decoded as hex, or rejected as not hex, exactly where it reads cleanly; the digits of
any bytes read back as the bytes. -/
theorem decodesHex_iff (text : String) (bytes : List UInt8) :
    (DecodesHex text ↔ ReadsCleanly text) ∧
      hexDecode (hexEncode bytes) = .ok (some bytes) ∧
        hexDecode ("0x" ++ hexEncode bytes) = .ok (some bytes) := by
  refine ⟨?_, hexDecode_hexEncode bytes⟩
  exact ⟨readsCleanly_of_decodesHex, decodesHex_of_readsCleanly⟩

/-- A plus is read as a sign, and a cut inside a character panics. -/
theorem sign_and_cut_misread :
    hexDecode "+f" = .ok (some [15]) ∧ hexDecode "a\u00e9b" = .error .panic ∧
      ¬∀ text : String, DecodesHex text := by
  have hsign : hexDecode "+f" = .ok (some [15]) := by
    rw [hexDecode_eq]
    decide +kernel
  have hcut : hexDecode "a\u00e9b" = .error .panic := by
    rw [hexDecode_eq]
    decide +kernel
  refine ⟨hsign, hcut, ?_⟩
  intro h
  have hdecode := (h "a\u00e9b").decode
  rw [hcut] at hdecode
  cases hdecode

end Topic0
