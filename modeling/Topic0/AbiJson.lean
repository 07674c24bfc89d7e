import Topic0.BaseCoding
import Topic0.SharedHex

/-! Nested values in their `jsonb` columns. Arrays, fixed arrays and tuples are all written as JSON
arrays, so the text alone does not tell them apart; with the type at hand it does. A reader directed
by the type gets every value back, up to the padding of `bytesN` words, which is no part of the
value: the code writes the first `N` bytes and drops the rest of the word. -/

namespace Topic0

open Coding (Told)

/-- The types built without `function`. -/
inductive SolType.Plain : SolType → Prop
  | address : Plain .address
  | bool : Plain .bool
  | string : Plain .string
  | bytes : Plain .bytes
  | uint (bits : Nat) : Plain (.uint bits)
  | int (bits : Nat) : Plain (.int bits)
  | fixedBytes (size : Nat) : Plain (.fixedBytes size)
  | array {t : SolType} (h : Plain t) : Plain (.array t)
  | fixedArray {t : SolType} (size : Nat) (h : Plain t) : Plain (.fixedArray t size)
  | tuple {components : List SolType} (h : ∀ t ∈ components, Plain t) : Plain (.tuple components)

/-- No `null` at any depth. -/
inductive JsonValue.NullFree : JsonValue → Prop
  | bool (value : Bool) : NullFree (.bool value)
  | string (text : String) : NullFree (.string text)
  | array {values : List JsonValue} (h : ∀ value ∈ values, NullFree value) : NullFree (.array values)

/-- Bytes as a word, zeros behind them. -/
def padWord (bytes : List UInt8) : List UInt8 := bytes ++ List.replicate (32 - bytes.length) 0

mutual

/-- The value with the padding of its words cleared. -/
def DynSolValue.clean : DynSolValue → DynSolValue
  | .fixedBytes word size => .fixedBytes (padWord (word.take size)) size
  | .array values => .array (DynSolValue.cleanAll values)
  | .fixedArray values => .fixedArray (DynSolValue.cleanAll values)
  | .tuple values => .tuple (DynSolValue.cleanAll values)
  | other => other

def DynSolValue.cleanAll : List DynSolValue → List DynSolValue
  | [] => []
  | value :: values => value.clean :: DynSolValue.cleanAll values

end

/-- A value of a type: the words of its `bytesN` are zero behind the `N` bytes. -/
structure SolType.Value (t : SolType) where
  value : DynSolValue
  shape : t.HasShape value
  padded : value.clean = value

/-- The bytes of a hex text. -/
def readHex (text : String) : Option (List UInt8) :=
  match hexDecode text with
  | .ok bytes => bytes
  | .error _ => none

mutual

/-- Reads a value of a type back from its JSON. -/
def SolType.read : SolType → JsonValue → Option DynSolValue
  | .address, .string text => (readHex text).map .address
  | .bool, .bool value => some (.bool value)
  | .string, .string text => some (.string text)
  | .bytes, .string text => (readHex text).map .bytes
  | .uint bits, .string text => (Decimal.parseNat text.toList).map fun n => .uint n bits
  | .int bits, .string text => (Decimal.parseInt text.toList).map fun n => .int n bits
  | .fixedBytes size, .string text => (readHex text).map fun bytes => .fixedBytes (padWord bytes) size
  | .array elem, .array values => (values.mapM fun value => elem.read value).map .array
  | .fixedArray elem size, .array values =>
      if values.length = size then (values.mapM fun value => elem.read value).map .fixedArray
      else none
  | .tuple components, .array values => (SolType.readAll components values).map .tuple
  | _, _ => none

def SolType.readAll : List SolType → List JsonValue → Option (List DynSolValue)
  | [], [] => some []
  | t :: components, value :: values =>
      (t.read value).bind fun v => (SolType.readAll components values).map fun vs => v :: vs
  | _, _ => none

end

section Read

theorem toJsonAll_eq (values : List DynSolValue) : toJsonAll values = values.map toJson := by
  induction values with
  | nil => rfl
  | cons value values ih => rw [toJsonAll, ih, List.map_cons]

theorem cleanAll_eq (values : List DynSolValue) :
    DynSolValue.cleanAll values = values.map DynSolValue.clean := by
  induction values with
  | nil => rfl
  | cons value values ih => rw [DynSolValue.cleanAll, ih, List.map_cons]

theorem readHex_hexEncode (bytes : List UInt8) : readHex ("0x" ++ hexEncode bytes) = some bytes := by
  rw [readHex, (hexDecode_hexEncode bytes).2]

theorem toList_toString_nat (n : Nat) : (toString n).toList = Nat.toDigits 10 n := by
  simp [toString, Nat.repr]

theorem toList_toString_int (n : Int) : (toString n).toList = Decimal.format n := by
  cases n with
  | ofNat n => simp [toString, Int.repr, Nat.repr, Decimal.format]
  | negSucc n => simp [toString, Int.repr, Nat.repr, Decimal.format]

/-- Elements that are read back are read back as a list. -/
theorem mapM_read_toJsonAll {t : SolType} {values : List DynSolValue}
    (h : ∀ v ∈ values, t.read (toJson v) = some v.clean) :
    (toJsonAll values).mapM (fun value => t.read value) = some (DynSolValue.cleanAll values) := by
  rw [toJsonAll_eq, cleanAll_eq, List.mapM_map]
  exact Rows.mapM_eq_map h

theorem readAll_toJsonAll {components : List SolType} {values : List DynSolValue}
    (hlength : values.length = components.length)
    (h : ∀ p ∈ components.zip values, p.1.read (toJson p.2) = some p.2.clean) :
    SolType.readAll components (toJsonAll values) = some (DynSolValue.cleanAll values) := by
  induction components generalizing values with
  | nil =>
      rw [List.eq_nil_of_length_eq_zero hlength]
      rfl
  | cons t components ih =>
      cases values with
      | nil => cases hlength
      | cons v values =>
          rw [List.zip_cons_cons, List.forall_mem_cons] at h
          rw [toJsonAll, SolType.readAll, h.1, ih (Nat.succ.inj hlength) h.2]
          rfl

/-- What is written is read back, words without their padding. -/
theorem read_toJson {t : SolType} {v : DynSolValue} (ht : t.Plain) (h : t.HasShape v) :
    t.read (toJson v) = some v.clean := by
  induction h with
  | address bytes =>
      rw [toJson, SolType.read, readHex_hexEncode]
      rfl
  | bool value => rfl
  | string text => rfl
  | bytes bytes =>
      rw [toJson, SolType.read, readHex_hexEncode]
      rfl
  | function bytes => cases ht
  | uint value bits =>
      rw [toJson, SolType.read, toList_toString_nat, Decimal.parseNat_toDigits]
      rfl
  | int value bits =>
      rw [toJson, SolType.read, toList_toString_int, Decimal.parseInt_format]
      rfl
  | fixedBytes word size =>
      rw [toJson, SolType.read, readHex_hexEncode]
      rfl
  | array _ ih =>
      cases ht with
      | array ht =>
          rw [toJson, SolType.read, mapM_read_toJsonAll fun v hv => ih v hv ht]
          rfl
  | @fixedArray t values _ ih =>
      cases ht with
      | fixedArray _ ht =>
          have hlength : (toJsonAll values).length = values.length := by
            rw [toJsonAll_eq, List.length_map]
          rw [toJson, SolType.read, if_pos hlength, mapM_read_toJsonAll fun v hv => ih v hv ht]
          rfl
  | @tuple components values hlength _ ih =>
      cases ht with
      | tuple ht =>
          have hread : ∀ p ∈ components.zip values, p.1.read (toJson p.2) = some p.2.clean :=
            fun p hp => ih p hp (ht p.1 (List.of_mem_zip hp).1)
          rw [toJson, SolType.read, readAll_toJsonAll hlength hread]
          rfl

end Read

/-- Only functions are written as `null`. -/
theorem nullFree_toJson {t : SolType} {v : DynSolValue} (ht : t.Plain) (h : t.HasShape v) :
    (toJson v).NullFree := by
  have helems : ∀ values : List DynSolValue, (∀ v ∈ values, (toJson v).NullFree) →
      (JsonValue.array (toJsonAll values)).NullFree := by
    intro values hvalues
    apply JsonValue.NullFree.array
    rw [toJsonAll_eq]
    exact List.forall_mem_map.mpr hvalues
  induction h with
  | address bytes => exact .string _
  | bool value => exact .bool value
  | string text => exact .string text
  | bytes bytes => exact .string _
  | function bytes => cases ht
  | uint value bits => exact .string _
  | int value bits => exact .string _
  | fixedBytes word size => exact .string _
  | array _ ih =>
      cases ht with
      | array ht => exact helems _ fun v hv => ih v hv ht
  | fixedArray _ ih =>
      cases ht with
      | fixedArray _ ht => exact helems _ fun v hv => ih v hv ht
  | @tuple components values hlength _ ih =>
      cases ht with
      | tuple ht =>
          apply helems
          intro v hv
          have hsnd : (components.zip values).map Prod.snd = values := List.map_snd_zip hlength.le
          rw [← hsnd, List.mem_map] at hv
          obtain ⟨p, hp, rfl⟩ := hv
          exact ih p hp (ht p.1 (List.of_mem_zip hp).1)

section Text

/-- The escapes are those of the JSON grammar. -/
theorem escapeChar_eq (c : Char) : escapeChar c = Coding.escapeChar c := by
  by_cases hlt : c.toNat < 93
  · have hall : ∀ n < 93, escapeChar (Char.ofNat n) = Coding.escapeChar (Char.ofNat n) := by
      decide +kernel
    have hchar := hall c.toNat hlt
    rwa [Char.ofNat_toNat] at hchar
  · have hquote : c ≠ quote := by
      rintro rfl
      exact absurd hlt (by decide)
    have hslash : c ≠ backslash := by
      rintro rfl
      exact absurd hlt (by decide)
    have hcode : Coding.escapeCode c.toNat = none := by
      rw [Option.eq_none_iff_forall_ne_some]
      intro code hsome
      exact hlt (Coding.escapeCode_of_lt hsome)
    rw [Coding.escapeChar, hcode, escapeChar, if_neg hquote, if_neg hslash, if_neg (by omega),
      if_neg (by omega), if_neg (by omega), if_neg (by omega), if_neg (by omega), if_neg (by omega)]

/-- The first character tells the kind of a value. -/
def JsonValue.mark : JsonValue → Char
  | .null => 'n'
  | .bool value => if value then 't' else 'f'
  | .string _ => quote
  | .array _ => '['

theorem render_eq_mark (value : JsonValue) : ∃ rest, value.render = value.mark :: rest := by
  cases value with
  | null => exact ⟨_, rfl⟩
  | bool value => cases value <;> exact ⟨_, rfl⟩
  | string text => exact ⟨_, rfl⟩
  | array values => exact ⟨_, rfl⟩

theorem render_string (text : String) :
    (JsonValue.string text).render = Coding.standardFormat.quote text := by
  have hescape : escapeChar = Coding.escapeChar := funext escapeChar_eq
  rw [JsonValue.render, hescape]
  rfl

theorem renderAll_cons (value : JsonValue) (values : List JsonValue) :
    JsonValue.renderAll (value :: values) ++ [']'] =
      value.render ++ Coding.sequenceTail JsonValue.render ',' ']' values := by
  induction values generalizing value with
  | nil => rfl
  | cons next values ih =>
      rw [JsonValue.renderAll, List.append_assoc, List.cons_append, ih next, Coding.sequenceTail]
      exact List.cons_ne_nil _ _

theorem render_array (values : List JsonValue) :
    (JsonValue.array values).render = '[' :: Coding.sequence JsonValue.render ',' ']' values := by
  cases values with
  | nil => rfl
  | cons value values => rw [JsonValue.render, Coding.sequence, ← renderAll_cons, List.cons_append]

theorem mark_eq {value other : JsonValue} {r s : List Char}
    (h : value.render ++ r = other.render ++ s) : value.mark = other.mark := by
  obtain ⟨rest, hvalue⟩ := render_eq_mark value
  obtain ⟨rest', hother⟩ := render_eq_mark other
  rw [hvalue, hother] at h
  exact (List.cons.inj h).1

section Marks

variable {value other : JsonValue}

theorem string_of_mark (h : value.mark = quote) : ∃ text, value = .string text := by
  cases value with
  | null => exact absurd h (by decide)
  | bool value => cases value <;> exact absurd h (by decide)
  | string text => exact ⟨text, rfl⟩
  | array values => exact absurd h (by decide : '[' ≠ quote)

theorem array_of_mark (h : value.mark = '[') : ∃ values, value = .array values := by
  cases value with
  | null => exact absurd h (by decide)
  | bool value => cases value <;> exact absurd h (by decide)
  | string text => exact absurd h (by decide : quote ≠ '[')
  | array values => exact ⟨values, rfl⟩

theorem null_of_mark (h : value.mark = 'n') : value = .null := by
  cases value with
  | null => rfl
  | bool value => cases value <;> exact absurd h (by decide)
  | string text => exact absurd h (by decide : quote ≠ 'n')
  | array values => exact absurd h (by decide : '[' ≠ 'n')

theorem bool_of_mark {b : Bool} (h : value.mark = if b then 't' else 'f') : value = .bool b := by
  cases value with
  | null => cases b <;> exact absurd h (by decide)
  | bool value => cases value <;> cases b <;> first | rfl | exact absurd h (by decide)
  | string text => cases b <;> exact absurd h (by decide : quote ≠ _)
  | array values => cases b <;> exact absurd h (by decide : '[' ≠ _)

theorem mark_ne_close (value : JsonValue) : value.mark ≠ ']' := by
  cases value with
  | null => decide
  | bool value => cases value <;> decide
  | string text => exact (by decide : quote ≠ ']')
  | array values => exact (by decide : '[' ≠ ']')

end Marks

/-- The text of a value is told from whatever follows it. -/
theorem told_render : ∀ value : JsonValue, Told JsonValue.render value
  | .null => by
      intro other r s h
      obtain rfl := null_of_mark (mark_eq h).symm
      exact ⟨rfl, List.append_cancel_left h⟩
  | .bool value => by
      intro other r s h
      obtain rfl := bool_of_mark (mark_eq h).symm
      exact ⟨rfl, List.append_cancel_left h⟩
  | .string text => by
      intro other r s h
      obtain ⟨text', rfl⟩ := string_of_mark (mark_eq h).symm
      rw [render_string, render_string] at h
      obtain ⟨rfl, hrest⟩ := Coding.selfDelimiting_quote _ text text' r s h
      exact ⟨rfl, hrest⟩
  | .array values => by
      intro other r s h
      obtain ⟨values', rfl⟩ := array_of_mark (mark_eq h).symm
      have hvalues : Told (Coding.sequence JsonValue.render ',' ']') values := by
        apply Coding.told_sequence (fun value _ => told_render value) (by decide)
        · intro value rest hclose
          obtain ⟨tail, hrender⟩ := render_eq_mark value
          rw [hrender] at hclose
          exact mark_ne_close value (List.cons.inj hclose).1
        · intro value hnil
          obtain ⟨tail, hrender⟩ := render_eq_mark value
          rw [hrender] at hnil
          cases hnil
      rw [render_array, render_array] at h
      obtain ⟨rfl, hrest⟩ := hvalues values' r s (List.cons.inj h).2
      exact ⟨rfl, hrest⟩

theorem render_injective : Function.Injective JsonValue.render :=
  Coding.SelfDelimiting.injective told_render

end Text

section Stored

variable {t : SolType} {v v' : DynSolValue}

theorem clean_eq_of_toJson (ht : t.Plain) (h : t.HasShape v) (h' : t.HasShape v')
    (heq : toJson v = toJson v') : v.clean = v'.clean := by
  have hread := read_toJson ht h
  rw [heq, read_toJson ht h'] at hread
  exact (Option.some.inj hread).symm

/-- The JSON of a value that is not stored as one. -/
def scalarJson : EventValue → Option JsonValue
  | .address bytes | .bytes bytes | .hash bytes => some (.string ("0x" ++ hexEncode bytes))
  | .uint text | .int text | .string text => some (.string text)
  | .bool value => some (.bool value)
  | .json _ => none

theorem toValue_cases (v : DynSolValue) :
    scalarJson (toValue v) = some (toJson v) ∨
      toValue v = .json (String.ofList (toJson v).render) := by
  cases v with
  | array values => exact .inr rfl
  | fixedArray values => exact .inr rfl
  | tuple values => exact .inr rfl
  | function bytes => exact .inr rfl
  | _ => exact .inl rfl

/-- A column tells as much of a value as its JSON does. -/
theorem toJson_eq_of_toValue (heq : toValue v = toValue v') : toJson v = toJson v' := by
  rcases toValue_cases v with hscalar | hjson
  · rcases toValue_cases v' with hscalar' | hjson'
    · rw [heq, hscalar'] at hscalar
      exact (Option.some.inj hscalar).symm
    · rw [heq, hjson'] at hscalar
      cases hscalar
  · rcases toValue_cases v' with hscalar' | hjson'
    · rw [← heq, hjson] at hscalar'
      cases hscalar'
    · rw [hjson, hjson', EventValue.json.injEq, String.ofList_inj] at heq
      exact render_injective heq

end Stored

/-- Values of a type without functions have JSON of their own, without a `null`. Every decoded value
can be read back from it with the type, and is told by its column. -/
theorem toJson_lossless {t : SolType} (ht : t.Plain) :
    (Function.Injective fun v : t.Value => toJson v.value) ∧
    (∀ v, t.HasShape v → (toJson v).NullFree ∧ t.read (toJson v) = some v.clean) ∧
    ∀ v v', t.HasShape v → t.HasShape v' → toValue v = toValue v' → v.clean = v'.clean := by
  refine ⟨?_, ?_, ?_⟩
  · intro v v' heq
    have hclean := clean_eq_of_toJson ht v.shape v'.shape heq
    rw [v.padded, v'.padded] at hclean
    obtain ⟨value, shape, padded⟩ := v
    obtain ⟨value', shape', padded'⟩ := v'
    subst hclean
    rfl
  · intro v h
    exact ⟨nullFree_toJson ht h, read_toJson ht h⟩
  · intro v v' h h' heq
    exact clean_eq_of_toJson ht h h' (toJson_eq_of_toValue heq)

/-- `(bytes4,uint8[2][])[]`. -/
def callsType : SolType := .array (.tuple [.fixedBytes 4, .array (.fixedArray (.uint 8) 2)])

def callsValue : DynSolValue :=
  .array [.tuple [.fixedBytes (padWord [0xa9, 0x05, 0x9c, 0xbb]) 4,
    .array [.fixedArray [.uint 1 8, .uint 255 8]]]]

theorem toJson_lossless_calls :
    callsType.read (.array [.array [.string "0xa9059cbb",
      .array [.array [.string "1", .string "255"]]]]) = some callsValue := by
  have hplain : callsType.Plain := by
    apply SolType.Plain.array
    apply SolType.Plain.tuple
    rw [List.forall_mem_cons, List.forall_mem_singleton]
    exact ⟨.fixedBytes 4, .array (.fixedArray 2 (.uint 8))⟩
  have helems : ∀ v ∈ [DynSolValue.uint 1 8, .uint 255 8], (SolType.uint 8).HasShape v := by
    rw [List.forall_mem_cons, List.forall_mem_singleton]
    exact ⟨.uint 1 8, .uint 255 8⟩
  have hshape : callsType.HasShape callsValue := by
    apply SolType.HasShape.array
    rw [List.forall_mem_singleton]
    apply SolType.HasShape.tuple rfl
    rw [List.zip_cons_cons, List.zip_cons_cons, List.zip_nil_left, List.forall_mem_cons,
      List.forall_mem_singleton]
    exact ⟨.fixedBytes _ 4, .array (List.forall_mem_singleton.mpr (.fixedArray helems))⟩
  exact ((toJson_lossless hplain).2.1 callsValue hshape).2

end Topic0
