import Topic0.AbiColumns
import Topic0.BaseGroup

/-! Decoded values and the columns they go to. The column type is read off the text of a parameter's
type, the stored value off what the ABI decoder returns; nothing ties the two but the Solidity type
both come from. They agree for every type except `function`, which no case of the value side knows,
and an indexed tuple, whose hash is not recognised as one. -/

namespace Topic0

/-- A value as the ABI decoder returns it. -/
inductive DynSolValue where
  | bool (value : Bool)
  | int (value : Int) (size : Nat)
  | uint (value : Nat) (size : Nat)
  | fixedBytes (word : List UInt8) (size : Nat)
  | address (bytes : List UInt8)
  | function (bytes : List UInt8)
  | bytes (bytes : List UInt8)
  | string (text : String)
  | array (values : List DynSolValue)
  | fixedArray (values : List DynSolValue)
  | tuple (values : List DynSolValue)

/-- The JSON values a decoded value is written as. -/
inductive JsonValue where
  | null
  | bool (value : Bool)
  | string (text : String)
  | array (values : List JsonValue)

def hexChar (n : Nat) : Char := Nat.digitChar (n % 16)

/-- `hex_encode`: lowercase, two digits a byte. -/
def hexEncode (bytes : List UInt8) : String :=
  String.ofList (bytes.flatMap fun b => [hexChar (b.toNat / 16), hexChar b.toNat])

def quote : Char := Char.ofNat 34

def backslash : Char := Char.ofNat 92

/-- How a character stands in a JSON string. -/
def escapeChar (c : Char) : List Char :=
  if c = quote then [backslash, quote]
  else if c = backslash then [backslash, backslash]
  else if c.toNat = 8 then [backslash, 'b']
  else if c.toNat = 9 then [backslash, 't']
  else if c.toNat = 10 then [backslash, 'n']
  else if c.toNat = 12 then [backslash, 'f']
  else if c.toNat = 13 then [backslash, 'r']
  else if c.toNat < 32 then [backslash, 'u', '0', '0', hexChar (c.toNat / 16), hexChar c.toNat]
  else [c]

mutual

/-- The compact text of a JSON value. -/
def JsonValue.render : JsonValue → List Char
  | .null => "null".toList
  | .bool value => (if value then "true" else "false").toList
  | .string text => quote :: text.toList.flatMap escapeChar ++ [quote]
  | .array values => '[' :: JsonValue.renderAll values ++ [']']

def JsonValue.renderAll : List JsonValue → List Char
  | [] => []
  | [value] => value.render
  | value :: values => value.render ++ ',' :: JsonValue.renderAll values

end

mutual

def toJson : DynSolValue → JsonValue
  | .address bytes => .string ("0x" ++ hexEncode bytes)
  | .bool value => .bool value
  | .uint value _ => .string (toString value)
  | .int value _ => .string (toString value)
  | .bytes bytes => .string ("0x" ++ hexEncode bytes)
  | .fixedBytes word size => .string ("0x" ++ hexEncode (word.take size))
  | .string text => .string text
  | .array values | .fixedArray values | .tuple values => .array (toJsonAll values)
  | .function _ => .null

def toJsonAll : List DynSolValue → List JsonValue
  | [] => []
  | value :: values => toJson value :: toJsonAll values

end

def toValue : DynSolValue → EventValue
  | .address bytes => .address bytes
  | .bool value => .bool value
  | .uint value _ => .uint (toString value)
  | .int value _ => .int (toString value)
  | .bytes bytes => .bytes bytes
  | .fixedBytes word size => .bytes (word.take size)
  | .string text => .string text
  | other => .json (String.ofList (toJson other).render)

def toHash : DynSolValue → List UInt8
  | .fixedBytes word _ => word
  | _ => []

inductive DecodeError where
  | abi (message : String)
  | decode (message : String)
  deriving DecidableEq, Repr

def DecodeError.toDomain : DecodeError → DomainError
  | .abi message => .decode ("abi error: " ++ message)
  | .decode message => .decode ("decode failed: " ++ message)

/-- The parameters of a log: those of its topics, and those of its data. -/
structure DecodedLog where
  indexed : List DynSolValue
  body : List DynSolValue

/-- Each input takes the next value of its kind. -/
def eventFields : List (EventParam × ColumnDef) → List DynSolValue → List DynSolValue →
    Except DecodeError (List (String × EventValue))
  | [], _, _ => .ok []
  | (input, col) :: rest, indexed, body =>
      if input.indexed then
        match indexed with
        | [] => .error (.decode "missing indexed value")
        | v :: indexed => do
            let fields ← eventFields rest indexed body
            .ok ((col.name, if col.indexedHash then .hash (toHash v) else toValue v) :: fields)
      else
        match body with
        | [] => .error (.decode "missing body value")
        | v :: body => do
            let fields ← eventFields rest indexed body
            .ok ((col.name, toValue v) :: fields)

/-- `decode_event`, the log parts being decoded by `decodeLogParts`. A selector that is not 32 bytes
long, which no source produces, panics in `from_slice`; it is an error here. -/
def decodeEvent (decodeLogParts : AbiEvent → List Hash → List UInt8 → Except String DecodedLog)
    (event : AbiEvent) (schema : EventSchema) (raw : RawRecord) : Except DecodeError DecodedEvent :=
  if raw.selectors.all fun topic => topic.bytes.length == 32 then
    match decodeLogParts event raw.selectors raw.data with
    | .error message => .error (.decode message)
    | .ok log => do
        let fields ← eventFields (event.inputs.zip schema.columns) log.indexed log.body
        .ok ⟨schema.table, fields⟩
  else .error (.decode "selector is not 32 bytes")

/-- `decode_call`; the parameters follow the selector. -/
def decodeCall (abiDecodeInput : AbiFunction → List UInt8 → Except String (List DynSolValue))
    (func : AbiFunction) (schema : EventSchema) (input : List UInt8) :
    Except DecodeError DecodedEvent :=
  match abiDecodeInput func (input.drop 4) with
  | .error message => .error (.decode message)
  | .ok values =>
      .ok ⟨schema.table, (values.zip schema.columns).map fun p => (p.2.name, toValue p.1)⟩

/-- The types of the Solidity ABI. -/
inductive SolType where
  | address
  | bool
  | string
  | bytes
  | function
  | uint (bits : Nat)
  | int (bits : Nat)
  | fixedBytes (size : Nat)
  | array (elem : SolType)
  | fixedArray (elem : SolType) (size : Nat)
  | tuple (components : List SolType)

namespace SolType

/-- The texts an ABI file has for a type. A tuple is `tuple`, its components standing apart, or a
parenthesised list. -/
inductive Spells : SolType → List Char → Prop
  | address : Spells .address "address".toList
  | bool : Spells .bool "bool".toList
  | string : Spells .string "string".toList
  | bytes : Spells .bytes "bytes".toList
  | function : Spells .function "function".toList
  | uint (bits : Nat) : Spells (.uint bits) ("uint".toList ++ Nat.toDigits 10 bits)
  | uintBare : Spells (.uint 256) "uint".toList
  | int (bits : Nat) : Spells (.int bits) ("int".toList ++ Nat.toDigits 10 bits)
  | intBare : Spells (.int 256) "int".toList
  | fixedBytes (size : Nat) : Spells (.fixedBytes size) ("bytes".toList ++ Nat.toDigits 10 size)
  | array {t : SolType} {text : List Char} (h : Spells t text) :
      Spells (.array t) (text ++ "[]".toList)
  | fixedArray {t : SolType} {text : List Char} (size : Nat) (h : Spells t text) :
      Spells (.fixedArray t size) (text ++ '[' :: Nat.toDigits 10 size ++ [']'])
  | tuple (components : List SolType) : Spells (.tuple components) "tuple".toList
  | tupleList (components : List SolType) (text : List Char) :
      Spells (.tuple components) ('(' :: text ++ [')'])

/-- An indexed parameter of a value type is its own topic; of any other type the topic is a hash. -/
def isValue : SolType → Bool
  | .string | .bytes | .array _ | .fixedArray _ _ | .tuple _ => false
  | _ => true

/-- The values of a type. -/
inductive HasShape : SolType → DynSolValue → Prop
  | address (bytes : List UInt8) : HasShape .address (.address bytes)
  | bool (value : Bool) : HasShape .bool (.bool value)
  | string (text : String) : HasShape .string (.string text)
  | bytes (bytes : List UInt8) : HasShape .bytes (.bytes bytes)
  | function (bytes : List UInt8) : HasShape .function (.function bytes)
  | uint (value bits : Nat) : HasShape (.uint bits) (.uint value bits)
  | int (value : Int) (bits : Nat) : HasShape (.int bits) (.int value bits)
  | fixedBytes (word : List UInt8) (size : Nat) :
      HasShape (.fixedBytes size) (.fixedBytes word size)
  | array {t : SolType} {values : List DynSolValue} (h : ∀ v ∈ values, HasShape t v) :
      HasShape (.array t) (.array values)
  | fixedArray {t : SolType} {values : List DynSolValue} (h : ∀ v ∈ values, HasShape t v) :
      HasShape (.fixedArray t values.length) (.fixedArray values)
  | tuple {components : List SolType} {values : List DynSolValue}
      (hlength : values.length = components.length)
      (h : ∀ p ∈ components.zip values, HasShape p.1 p.2) :
      HasShape (.tuple components) (.tuple values)

/-- The database type for values of a type. -/
def pgType : SolType → PgType
  | .address | .bytes | .fixedBytes _ | .function => .bytea
  | .bool => .boolean
  | .string => .text
  | .uint _ | .int _ => .numeric
  | .array _ | .fixedArray _ _ | .tuple _ => .jsonb

end SolType

/-- The type of the expression a value is bound as. -/
def EventRepo.valueType : EventValue → PgType
  | .address _ | .bytes _ | .hash _ => .bytea
  | .uint _ | .int _ => .numeric
  | .bool _ => .boolean
  | .string _ => .text
  | .json _ => .jsonb

section Types

theorem ofList_beq (text : List Char) (s : String) : (String.ofList text == s) = (text == s.toList) := by
  rw [Bool.eq_iff_iff, beq_iff_eq, beq_iff_eq]
  constructor
  · rintro rfl
    exact String.toList_ofList.symm
  · rintro rfl
    exact String.ofList_toList

/-- The last character of a number is a digit. -/
theorem getLast?_append_toDigits (text : List Char) (n : Nat) :
    (text ++ Nat.toDigits 10 n).getLast? ≠ some ']' := by
  intro h
  rw [List.getLast?_append_of_ne_nil _ Nat.toDigits_ne_nil] at h
  have hdigit : Char.isDigit ']' = true :=
    Nat.isDigit_of_mem_toDigits (by decide) (by decide) (List.mem_of_getLast? h)
  exact absurd hdigit (by decide)

theorem getLast?_bracket (text : List Char) : (text ++ [']']).getLast? = some ']' :=
  List.getLast?_concat

theorem columnTypeFor_of_bracket {text : List Char} (h : text.getLast? = some ']') :
    columnTypeFor (String.ofList text) = .json := by
  simp only [columnTypeFor, String.toList_ofList, h, decide_true, Bool.true_or, if_true]

theorem columnTypeFor_of_paren {text : List Char} (h : text.head? = some '(') :
    columnTypeFor (String.ofList text) = .json := by
  simp only [columnTypeFor, String.toList_ofList, h, decide_true, Bool.or_true, Bool.true_or, if_true]

/-- A type with no array or tuple in its text is matched by its name. -/
theorem columnTypeFor_of_name {text : List Char} (hlast : text.getLast? ≠ some ']')
    (hhead : text.head? ≠ some '(') (htuple : text ≠ "tuple".toList) :
    columnTypeFor (String.ofList text) =
      if text = "address".toList then .address
      else if text = "bool".toList then .bool
      else if text = "string".toList then .utf8
      else if text = "bytes".toList then .bytes
      else if "bytes".toList.isPrefixOf text then .bytes
      else if "uint".toList.isPrefixOf text then .uint (parseBits (String.ofList text) "uint")
      else if "int".toList.isPrefixOf text then .int (parseBits (String.ofList text) "int")
      else .bytes := by
  simp only [columnTypeFor, String.toList_ofList, ofList_beq, hlast, hhead, startsWith,
    beq_iff_eq, decide_false, Bool.false_or, htuple, if_false]

/-- A column declared for a type holds the values of that type. -/
theorem pgType_columnTypeFor {t : SolType} {text : List Char} (h : t.Spells text) :
    pgType (columnTypeFor (String.ofList text)) = t.pgType := by
  cases h with
  | address => decide
  | bool => decide
  | string => decide
  | bytes => decide
  | function => decide
  | uintBare => decide
  | intBare => decide
  | tuple components => rfl
  | uint bits =>
      rw [columnTypeFor_of_name (getLast?_append_toDigits _ bits) (by simp) (by simp)]
      rfl
  | int bits =>
      rw [columnTypeFor_of_name (getLast?_append_toDigits _ bits) (by simp) (by simp)]
      rfl
  | fixedBytes size =>
      rw [columnTypeFor_of_name (getLast?_append_toDigits _ size) (by simp) (by simp),
        if_neg (by simp), if_neg (by simp), if_neg (by simp)]
      split
      · rfl
      · rfl
  | array h =>
      rw [columnTypeFor_of_bracket]
      · rfl
      · rw [List.getLast?_append_of_ne_nil _ (by decide)]
        rfl
  | fixedArray size h =>
      rw [columnTypeFor_of_bracket (getLast?_bracket _)]
      rfl
  | tupleList components text =>
      rw [columnTypeFor_of_paren rfl]
      rfl

theorem isDynamic_of_bracket {text : List Char} (h : text.getLast? = some ']') :
    isDynamic (String.ofList text) = true := by
  simp only [isDynamic, String.toList_ofList, h, decide_true, Bool.or_true]

theorem isDynamic_of_name {text : List Char} (hlast : text.getLast? ≠ some ']')
    (hstring : text ≠ "string".toList) (hbytes : text ≠ "bytes".toList) :
    isDynamic (String.ofList text) = false := by
  simp only [isDynamic, String.toList_ofList, ofList_beq, hlast, decide_false, Bool.or_false,
    Bool.or_eq_false_iff, beq_eq_false_iff_ne]
  exact ⟨hstring, hbytes⟩

/-- The parameters that are stored as a hash when they are indexed: all that are not values, but the
tuples. -/
def SolType.isHashed : SolType → Bool
  | .string | .bytes | .array _ | .fixedArray _ _ => true
  | _ => false

theorem isDynamic_eq {t : SolType} {text : List Char} (h : t.Spells text) :
    isDynamic (String.ofList text) = t.isHashed := by
  cases h with
  | address => decide
  | bool => decide
  | string => decide
  | bytes => decide
  | function => decide
  | uintBare => decide
  | intBare => decide
  | tuple components => exact isDynamic_of_name (by decide) (by decide) (by decide)
  | uint bits => exact isDynamic_of_name (getLast?_append_toDigits _ bits) (by simp) (by simp)
  | int bits => exact isDynamic_of_name (getLast?_append_toDigits _ bits) (by simp) (by simp)
  | fixedBytes size =>
      refine isDynamic_of_name (getLast?_append_toDigits _ size) (by simp) fun heq => ?_
      have hnil : Nat.toDigits 10 size = [] := List.append_right_eq_self.mp heq
      exact Nat.toDigits_ne_nil hnil
  | array h =>
      apply isDynamic_of_bracket
      rw [List.getLast?_append_of_ne_nil _ (by decide)]
      rfl
  | fixedArray size h => exact isDynamic_of_bracket (getLast?_bracket _)
  | tupleList components text =>
      refine isDynamic_of_name ?_ (by simp) (by simp)
      rw [List.getLast?_concat]
      decide

/-- The one type whose values no column takes. -/
def SolType.isFunction : SolType → Bool
  | .function => true
  | _ => false

/-- A value is bound as the type of its column, unless it is a function. -/
theorem valueType_toValue_iff {t : SolType} {v : DynSolValue} (h : t.HasShape v) :
    EventRepo.valueType (toValue v) = t.pgType ↔ t.isFunction = false := by
  cases h <;> simp [toValue, EventRepo.valueType, SolType.pgType, SolType.isFunction]

end Types

/-- What the ABI decoder returns for a log: a parameter of a value type and a body value have the
shape of their type, any other indexed parameter is its topic. -/
inductive LogShape : List (EventParam × SolType) → List Hash → List DynSolValue →
    List DynSolValue → Prop
  | nil : LogShape [] [] [] []
  | value {p : EventParam} {t : SolType} {inputs : List (EventParam × SolType)} {topic : Hash}
      {topics : List Hash} {v : DynSolValue} {indexed body : List DynSolValue}
      (hindexed : p.indexed = true) (hvalue : t.isValue = true) (hshape : t.HasShape v)
      (hrest : LogShape inputs topics indexed body) :
      LogShape ((p, t) :: inputs) (topic :: topics) (v :: indexed) body
  | hashed {p : EventParam} {t : SolType} {inputs : List (EventParam × SolType)} {topic : Hash}
      {topics : List Hash} {indexed body : List DynSolValue}
      (hindexed : p.indexed = true) (hvalue : t.isValue = false)
      (htopic : topic.bytes.length = 32) (hrest : LogShape inputs topics indexed body) :
      LogShape ((p, t) :: inputs) (topic :: topics) (.fixedBytes topic.bytes 32 :: indexed) body
  | body {p : EventParam} {t : SolType} {inputs : List (EventParam × SolType)}
      {topics : List Hash} {v : DynSolValue} {indexed body : List DynSolValue}
      (hindexed : p.indexed = false) (hshape : t.HasShape v)
      (hrest : LogShape inputs topics indexed body) :
      LogShape ((p, t) :: inputs) topics indexed (v :: body)

/-- The topics of the indexed parameters. -/
def AbiEvent.argTopics (event : AbiEvent) (topics : List Hash) : List Hash :=
  if event.anonymous then topics else topics.tail

/-- The value goes under the column's name and is of its type. -/
def Stored (col : ColumnDef) (field : String × EventValue) : Prop :=
  field.1 = col.name ∧ EventRepo.valueType field.2 = pgType col.ty

/-- Every value can be stored in its column, and a hash column holds the topic of its parameter. -/
def FieldsStored : List EventParam → List ColumnDef → List Hash → List (String × EventValue) → Prop
  | [], [], _, [] => True
  | p :: ps, col :: cols, topics, field :: fields =>
      Stored col field ∧
      (col.indexedHash = true → ∃ topic, topics.head? = some topic ∧
        field.2 = .hash topic.bytes ∧ topic.bytes.length = 32) ∧
      FieldsStored ps cols (if p.indexed then topics.tail else topics) fields
  | _, _, _, _ => False

/-- Neither a function nor an indexed tuple. -/
def SolType.storable (indexed : Bool) : SolType → Bool
  | .function => false
  | .tuple _ => !indexed
  | _ => true

section Fields

variable {p : EventParam} {t : SolType} (hspells : t.Spells p.ty.toList) (i : Nat)

include hspells

theorem indexedHash_eventColumn :
    (eventColumn i p).indexedHash = (p.indexed && t.isHashed) := by
  have hdynamic := isDynamic_eq hspells
  rw [String.ofList_toList] at hdynamic
  rw [eventColumn, ← hdynamic]
  cases hhash : p.indexed && isDynamic p.ty with
  | true => rfl
  | false => rfl

theorem pgType_eventColumn :
    pgType (eventColumn i p).ty = if p.indexed && t.isHashed then .bytea else t.pgType := by
  have hdynamic := isDynamic_eq hspells
  have htype := pgType_columnTypeFor hspells
  rw [String.ofList_toList] at hdynamic htype
  rw [eventColumn, ← hdynamic]
  cases hhash : p.indexed && isDynamic p.ty with
  | true => rfl
  | false => exact htype

/-- A parameter that is not stored as a hash: its value fits unless it is a function. -/
theorem stored_toValue_iff {v : DynSolValue} (hshape : t.HasShape v)
    (hplain : (p.indexed && t.isHashed) = false) :
    Stored (eventColumn i p) ((eventColumn i p).name, toValue v) ↔ t.isFunction = false := by
  rw [Stored, pgType_eventColumn hspells, hplain, ← valueType_toValue_iff hshape]
  simp

end Fields

theorem SolType.storable_of_isValue {t : SolType} (h : t.isValue = true) (indexed : Bool) :
    t.storable indexed = true ↔ t.isFunction = false := by
  cases t <;> simp_all [SolType.storable, SolType.isFunction, SolType.isValue]

theorem SolType.isHashed_of_isValue {t : SolType} (h : t.isValue = true) : t.isHashed = false := by
  cases t <;> simp_all [SolType.isHashed, SolType.isValue]

theorem SolType.storable_body (t : SolType) : t.storable false = true ↔ t.isFunction = false := by
  cases t <;> simp [SolType.storable, SolType.isFunction]

/-- Topics of non-value types are stored as hashes, except those of tuples. -/
theorem SolType.hashed_cases {t : SolType} (h : t.isValue = false) :
    t.isHashed = true ∧ t.storable true = true ∨
      t.isHashed = false ∧ t.storable true = false ∧ t.pgType = .jsonb := by
  cases t <;> simp_all [SolType.isHashed, SolType.storable, SolType.isValue, SolType.pgType]

/-- The columns of the parameters from position `k` on. -/
def columnsFrom : Nat → List EventParam → List ColumnDef
  | _, [] => []
  | k, p :: ps => eventColumn k p :: columnsFrom (k + 1) ps

theorem mapIdx_eventColumn (ps : List EventParam) (k : Nat) :
    ps.mapIdx (fun i => eventColumn (k + i)) = columnsFrom k ps := by
  induction ps generalizing k with
  | nil => rfl
  | cons p ps ih =>
      rw [List.mapIdx_cons, columnsFrom, ← ih (k + 1)]
      congr 2
      funext i
      rw [Nat.add_right_comm, Nat.add_assoc]

theorem columns_schemaFor (topic0 : String) (event : AbiEvent) (table : String) :
    (schemaFor topic0 event table).columns = columnsFrom 0 event.inputs := by
  rw [← mapIdx_eventColumn]
  simp only [schemaFor, Nat.zero_add]

section Cons

variable {p : EventParam} {col : ColumnDef} {rest : List (EventParam × ColumnDef)} {v : DynSolValue}
  {indexed body : List DynSolValue} {fields : List (String × EventValue)}

theorem eventFields_indexed (hindexed : p.indexed = true)
    (h : eventFields rest indexed body = .ok fields) :
    eventFields ((p, col) :: rest) (v :: indexed) body =
      .ok ((col.name, if col.indexedHash then .hash (toHash v) else toValue v) :: fields) := by
  simp only [eventFields, hindexed, if_true, h]
  rfl

theorem eventFields_body (hindexed : p.indexed = false)
    (h : eventFields rest indexed body = .ok fields) :
    eventFields ((p, col) :: rest) indexed (v :: body) = .ok ((col.name, toValue v) :: fields) := by
  simp only [eventFields, hindexed, Bool.false_eq_true, if_false, h]
  rfl

end Cons

/-- A column that is no hash: the fields fit when its value does and the others do. -/
theorem fieldsStored_plain {p : EventParam} {ps : List EventParam} {col : ColumnDef}
    {cols : List ColumnDef} {topics : List Hash} {field : String × EventValue}
    {fields : List (String × EventValue)} (hplain : col.indexedHash = false) :
    FieldsStored (p :: ps) (col :: cols) topics (field :: fields) ↔
      Stored col field ∧ FieldsStored ps cols (if p.indexed then topics.tail else topics) fields := by
  rw [FieldsStored, hplain]
  exact and_congr_right fun _ => and_iff_right nofun

/-- The fields of a log of the right shape: they are all there, and fit exactly when every type is
storable. -/
theorem eventFields_stored_iff {inputs : List (EventParam × SolType)} {topics : List Hash}
    {indexed body : List DynSolValue} (h : LogShape inputs topics indexed body)
    (hspells : ∀ p ∈ inputs, p.2.Spells p.1.ty.toList) (k : Nat) :
    ∃ fields, eventFields ((inputs.map Prod.fst).zip (columnsFrom k (inputs.map Prod.fst)))
        indexed body = .ok fields ∧
      (FieldsStored (inputs.map Prod.fst) (columnsFrom k (inputs.map Prod.fst)) topics fields ↔
        ∀ p ∈ inputs, p.2.storable p.1.indexed = true) := by
  induction h generalizing k with
  | nil => exact ⟨[], rfl, by simp [FieldsStored, columnsFrom]⟩
  | value hindexed hvalue hshape hrest ih =>
      rename_i p t inputs topic topics v indexed body
      have ht := hspells (p, t) List.mem_cons_self
      obtain ⟨fields, hfields, hiff⟩ := ih (fun q hq => hspells q (List.mem_cons_of_mem _ hq)) (k + 1)
      have hplain : (p.indexed && t.isHashed) = false := by
        rw [SolType.isHashed_of_isValue hvalue, Bool.and_false]
      have hhash : (eventColumn k p).indexedHash = false :=
        (indexedHash_eventColumn ht k).trans hplain
      refine ⟨_, eventFields_indexed hindexed hfields, (fieldsStored_plain hhash).trans ?_⟩
      rw [hhash, if_neg (by decide), hindexed, if_pos rfl, List.tail_cons, hiff,
        stored_toValue_iff ht k hshape hplain, List.forall_mem_cons, SolType.storable_of_isValue hvalue]
  | hashed hindexed hvalue htopic hrest ih =>
      rename_i p t inputs topic topics indexed body
      have ht := hspells (p, t) List.mem_cons_self
      obtain ⟨fields, hfields, hiff⟩ := ih (fun q hq => hspells q (List.mem_cons_of_mem _ hq)) (k + 1)
      have hhash := indexedHash_eventColumn ht k
      have htype := pgType_eventColumn ht k
      rw [hindexed, Bool.true_and] at hhash htype
      refine ⟨_, eventFields_indexed hindexed hfields, ?_⟩
      rw [hhash]
      rcases SolType.hashed_cases hvalue with ⟨hhashed, hstorable⟩ | ⟨hhashed, hstorable, hjson⟩
      · rw [hhashed] at hhash htype ⊢
        simp only [List.map_cons, columnsFrom, FieldsStored, hindexed, if_true, List.tail_cons, hiff,
          hhash, List.forall_mem_cons, hstorable, Stored, EventRepo.valueType, htype, toHash]
        simp [htopic]
      · -- the hash of a tuple is bound as bytes, its column is of JSON
        rw [hhashed] at hhash htype ⊢
        refine (fieldsStored_plain hhash).trans ?_
        simp only [List.forall_mem_cons, hindexed, hstorable, Stored, toValue, EventRepo.valueType,
          htype, hjson]
        simp
  | body hindexed hshape hrest ih =>
      rename_i p t inputs topics v indexed body
      have ht := hspells (p, t) List.mem_cons_self
      obtain ⟨fields, hfields, hiff⟩ := ih (fun q hq => hspells q (List.mem_cons_of_mem _ hq)) (k + 1)
      have hplain : (p.indexed && t.isHashed) = false := by rw [hindexed, Bool.false_and]
      have hhash : (eventColumn k p).indexedHash = false :=
        (indexedHash_eventColumn ht k).trans hplain
      refine ⟨_, eventFields_body hindexed hfields, (fieldsStored_plain hhash).trans ?_⟩
      rw [hindexed, if_neg (by decide), hiff, stored_toValue_iff ht k hshape hplain,
        List.forall_mem_cons, hindexed, SolType.storable_body]

/-- The same for the parameters of a call, none of which is indexed. -/
theorem callFields_stored_iff {inputs : List (Param × SolType)} {values : List DynSolValue}
    (hspells : ∀ p ∈ inputs, p.2.Spells p.1.ty.toList)
    (h : List.Forall₂ (fun p v => SolType.HasShape p.2 v) inputs values) (f : Nat → Nat) :
    List.Forall₂ Stored ((inputs.map Prod.fst).mapIdx fun i => callColumn (f i))
        ((values.zip ((inputs.map Prod.fst).mapIdx fun i => callColumn (f i))).map fun p =>
          (p.2.name, toValue p.1)) ↔
      ∀ p ∈ inputs, p.2.isFunction = false := by
  induction h generalizing f with
  | nil => simp
  | cons hshape hrest ih =>
      rename_i p v inputs values
      have htype := pgType_columnTypeFor (hspells p List.mem_cons_self)
      rw [String.ofList_toList] at htype
      rw [List.map_cons, List.mapIdx_cons, List.zip_cons_cons, List.map_cons, List.forall₂_cons,
        List.forall_mem_cons,
        ih (fun q hq => hspells q (List.mem_cons_of_mem _ hq)) fun i => f (i + 1),
        ← valueType_toValue_iff hshape, ← htype]
      exact and_congr_left fun _ => and_iff_right rfl

/-- What the decoder yields for a log or a call fits its columns exactly when no parameter is a
function and no indexed parameter a tuple. -/
theorem fields_stored_iff_storable
    (decodeLogParts : AbiEvent → List Hash → List UInt8 → Except String DecodedLog)
    (abiDecodeInput : AbiFunction → List UInt8 → Except String (List DynSolValue)) :
    (∀ (event : AbiEvent) (inputs : List (EventParam × SolType)) (topic0 table : String)
      (raw : RawRecord) (log : DecodedLog), event.inputs = inputs.map Prod.fst →
      (∀ p ∈ inputs, p.2.Spells p.1.ty.toList) →
      (∀ topic ∈ raw.selectors, topic.bytes.length = 32) →
      decodeLogParts event raw.selectors raw.data = .ok log →
      LogShape inputs (event.argTopics raw.selectors) log.indexed log.body →
      ∃ d, decodeEvent decodeLogParts event (schemaFor topic0 event table) raw = .ok d ∧
        (FieldsStored event.inputs (schemaFor topic0 event table).columns
            (event.argTopics raw.selectors) d.fields ↔
          ∀ p ∈ inputs, p.2.storable p.1.indexed = true)) ∧
    ∀ (func : AbiFunction) (inputs : List (Param × SolType)) (table : String) (input : List UInt8)
      (values : List DynSolValue), func.inputs = inputs.map Prod.fst →
      (∀ p ∈ inputs, p.2.Spells p.1.ty.toList) →
      abiDecodeInput func (input.drop 4) = .ok values →
      List.Forall₂ (fun p v => SolType.HasShape p.2 v) inputs values →
      ∃ d, decodeCall abiDecodeInput func (schemaForFunction func table) input = .ok d ∧
        (List.Forall₂ Stored (schemaForFunction func table).columns d.fields ↔
          ∀ p ∈ inputs, p.2.isFunction = false) := by
  constructor
  · intro event inputs topic0 table raw log hinputs hspells hselectors hlog hshape
    obtain ⟨fields, hfields, hiff⟩ := eventFields_stored_iff hshape hspells 0
    have hall : (raw.selectors.all fun topic => topic.bytes.length == 32) = true := by
      rw [List.all_eq_true]
      intro topic htopic
      exact beq_iff_eq.mpr (hselectors topic htopic)
    refine ⟨⟨table, fields⟩, ?_, ?_⟩
    · rw [decodeEvent, if_pos hall, hlog, columns_schemaFor, hinputs]
      simp only [hfields]
      rfl
    · rw [columns_schemaFor, hinputs]
      exact hiff
  · intro func inputs table input values hinputs hspells hvalues hshape
    refine ⟨_, by rw [decodeCall, hvalues], ?_⟩
    simp only [schemaForFunction, hinputs]
    exact callFields_stored_iff hspells hshape id

/-- `Labelled(string indexed label, uint256 value)`. -/
def labelledEvent : AbiEvent where
  name := "Labelled"
  inputs := [⟨"string", "label", true⟩, ⟨"uint256", "value", false⟩]
  anonymous := false
  name_ident := by decide

/-- `Registered(function callback)`. -/
def callbackEvent : AbiEvent where
  name := "Registered"
  inputs := [⟨"function", "callback", false⟩]
  anonymous := false
  name_ident := by decide

/-- `transfer(address to, uint256 amount)`. -/
def transferFunction : AbiFunction where
  name := "transfer"
  inputs := [⟨"address", "to"⟩, ⟨"uint256", "amount"⟩]
  name_ident := by decide

def word (b : UInt8) : Hash := ⟨List.replicate 32 b⟩

/-- A log with the given topics. -/
def logOf (topics : List Hash) : RawRecord := ⟨1, 1, ⟨[]⟩, 0, ⟨[]⟩, topics, [], ⟨[]⟩, 0, none⟩

theorem fields_stored_labelled :
    (∃ d, decodeEvent (fun _ _ _ => .ok ⟨[.fixedBytes (word 9).bytes 32], [.uint 5 256]⟩)
        labelledEvent (schemaFor "0x01" labelledEvent "evt_token_labelled")
        (logOf [word 1, word 9]) = .ok d ∧
      FieldsStored labelledEvent.inputs
        (schemaFor "0x01" labelledEvent "evt_token_labelled").columns [word 9] d.fields) ∧
    ∃ d, decodeCall (fun _ _ => .ok [.address (List.replicate 20 2), .uint 100 256])
        transferFunction (schemaForFunction transferFunction "call_token_transfer") [] = .ok d ∧
      List.Forall₂ Stored (schemaForFunction transferFunction "call_token_transfer").columns
        d.fields := by
  have huint : SolType.Spells (.uint 256) "uint256".toList := .uint 256
  obtain ⟨hevents, hcalls⟩ := fields_stored_iff_storable
    (fun _ _ _ => .ok ⟨[.fixedBytes (word 9).bytes 32], [.uint 5 256]⟩)
    (fun _ _ => .ok [.address (List.replicate 20 2), .uint 100 256])
  constructor
  · obtain ⟨d, hd, hiff⟩ := hevents labelledEvent
      [(⟨"string", "label", true⟩, .string), (⟨"uint256", "value", false⟩, .uint 256)]
      "0x01" "evt_token_labelled" (logOf [word 1, word 9]) _ rfl
      (List.forall_mem_cons.mpr ⟨.string, List.forall_mem_singleton.mpr huint⟩) (by decide) rfl
      (.hashed rfl rfl rfl (.body rfl (.uint 5 256) .nil))
    refine ⟨d, hd, hiff.mpr ?_⟩
    simp [SolType.storable]
  · obtain ⟨d, hd, hiff⟩ := hcalls transferFunction
      [(⟨"address", "to"⟩, .address), (⟨"uint256", "amount"⟩, .uint 256)]
      "call_token_transfer" [] _ rfl
      (List.forall_mem_cons.mpr ⟨.address, List.forall_mem_singleton.mpr huint⟩) rfl
      (.cons (.address (List.replicate 20 2)) (.cons (.uint 100 256) .nil))
    refine ⟨d, hd, hiff.mpr ?_⟩
    simp [SolType.isFunction]

/-- A function value is bound as JSON into a `bytea` column. -/
theorem not_stored_function_value :
    ¬∀ (decodeLogParts : AbiEvent → List Hash → List UInt8 → Except String DecodedLog)
      (event : AbiEvent) (inputs : List (EventParam × SolType)) (topic0 table : String)
      (raw : RawRecord) (log : DecodedLog) (d : DecodedEvent),
      event.inputs = inputs.map Prod.fst → (∀ p ∈ inputs, p.2.Spells p.1.ty.toList) →
      (∀ topic ∈ raw.selectors, topic.bytes.length = 32) →
      decodeLogParts event raw.selectors raw.data = .ok log →
      LogShape inputs (event.argTopics raw.selectors) log.indexed log.body →
      decodeEvent decodeLogParts event (schemaFor topic0 event table) raw = .ok d →
      FieldsStored event.inputs (schemaFor topic0 event table).columns
        (event.argTopics raw.selectors) d.fields := by
  intro hevery
  have hstored := hevery (fun _ _ _ => .ok ⟨[], [.function (List.replicate 24 3)]⟩) callbackEvent
    [(⟨"function", "callback", false⟩, .function)] "0x01" "evt_token_registered"
    (logOf [word 1]) ⟨[], [.function (List.replicate 24 3)]⟩
    ⟨"evt_token_registered", [("callback", .json "null")]⟩ rfl
    (List.forall_mem_singleton.mpr .function) (by decide) rfl
    (.body rfl (.function _) .nil) (by decide)
  have htype : EventRepo.valueType (.json "null") = pgType (columnTypeFor "function") := hstored.1.2
  exact absurd htype (by decide)

end Topic0
