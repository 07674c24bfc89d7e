import Topic0.BaseDecimal
import Topic0.SchemaModel
import Topic0.SharedModel
import Mathlib.Data.List.DropRight

/-! From an ABI entry to its table. The parser of ABI files is third-party; what it yields are
events and functions whose names are Solidity identifiers and whose parameters carry a name and the
text of their type, and the schema of an entry is built from these alone. -/

namespace Topic0

/-- A character of a Solidity identifier. -/
def isIdentChar (c : Char) : Bool := c.isAlphanum || c == '_' || c == '$'

structure Param where
  ty : String
  name : String
  deriving DecidableEq, Repr

structure EventParam where
  ty : String
  name : String
  indexed : Bool
  deriving DecidableEq, Repr

/-- An event of a parsed ABI. -/
structure AbiEvent where
  name : String
  inputs : List EventParam
  anonymous : Bool
  name_ident : name.toList.all isIdentChar = true
  deriving DecidableEq

/-- A function of a parsed ABI. -/
structure AbiFunction where
  name : String
  inputs : List Param
  name_ident : name.toList.all isIdentChar = true
  deriving DecidableEq

/-- The loop of `to_snake_case` over the characters left, the one before them and the output. -/
def snakeLoop : Option Char → List Char → List Char → List Char
  | _, [], out => out
  | prev, c :: rest, out =>
      if c.isUpper then
        let prevBoundary := prev.any fun p =>
          p.isLower || p.isDigit || (p.isUpper && rest.head?.any Char.isLower)
        let out := if prevBoundary && out.getLast? != some '_' then out ++ ['_'] else out
        snakeLoop (some c) rest (out ++ [c.toLower])
      else if c.isAlphanum then snakeLoop (some c) rest (out ++ [c])
      else if out.getLast? != some '_' then snakeLoop (some c) rest (out ++ ['_'])
      else snakeLoop (some c) rest out

/-- `trim_matches('_')`. -/
def trimUnderscores (text : List Char) : List Char :=
  (text.dropWhile (· == '_')).rdropWhile (· == '_')

/-- `to_snake_case` of a name. -/
def snakeChars (name : List Char) : List Char := trimUnderscores (snakeLoop none name [])

def toSnakeCase (name : String) : String := String.ofList (snakeChars name.toList)

example : toSnakeCase "actionTreeRoot" = "action_tree_root" ∧ toSnakeCase "URLValue" = "url_value" ∧
    toSnakeCase "_amount0" = "amount0" := by decide

/-- `parse::<u16>` of the bits after the prefix; 256 where there are none. -/
def parseBits (ty pre : String) : Nat :=
  let digits := ty.toList.drop pre.toList.length
  match Decimal.parse 0 (2 ^ 16 - 1) digits with
  | some bits => if digits.head? = some '-' then 256 else bits.toNat
  | none => 256

/-- Column name of the `i`-th parameter. -/
def colName (i : Nat) (raw : String) : String :=
  if raw.isEmpty then "arg" ++ toString i else toSnakeCase raw

def startsWith (text pre : String) : Bool := pre.toList.isPrefixOf text.toList

/-- The logical column type of a Solidity type. -/
def columnTypeFor (ty : String) : ColumnType :=
  if ty.toList.getLast? = some ']' || ty.toList.head? = some '(' || ty == "tuple" then .json
  else if ty == "address" then .address
  else if ty == "bool" then .bool
  else if ty == "string" then .utf8
  else if ty == "bytes" then .bytes
  else if startsWith ty "bytes" then .bytes
  else if startsWith ty "uint" then .uint (parseBits ty "uint")
  else if startsWith ty "int" then .int (parseBits ty "int")
  else .bytes

example : columnTypeFor "uint64" = .uint 64 ∧ columnTypeFor "uint" = .uint 256 ∧
    columnTypeFor "int8" = .int 8 ∧ columnTypeFor "address[3]" = .json := by decide

/-- An indexed parameter of such a type is stored as its hash. -/
def isDynamic (ty : String) : Bool :=
  ty == "string" || ty == "bytes" || ty.toList.getLast? = some ']'

/-- The column of the `i`-th parameter of an event. -/
def eventColumn (i : Nat) (p : EventParam) : ColumnDef :=
  let name := colName i p.name
  if p.indexed && isDynamic p.ty then ⟨name ++ "_hash", .bytes, true⟩
  else ⟨name, columnTypeFor p.ty, false⟩

/-- `schema_for`; the hex text of the selector is given. -/
def schemaFor (topic0 : String) (event : AbiEvent) (table : String) : EventSchema where
  table := table
  event := event.name
  topic0 := some topic0
  columns := event.inputs.mapIdx eventColumn
  indexedPositions := (event.inputs.zipIdx.filter fun p => p.1.indexed).map Prod.snd
  pkColumns := EventSchema.eventPk

/-- The column of the `i`-th parameter of a function. -/
def callColumn (i : Nat) (p : Param) : ColumnDef := ⟨colName i p.name, columnTypeFor p.ty, false⟩

/-- `schema_for_function`. -/
def schemaForFunction (func : AbiFunction) (table : String) : EventSchema where
  table := table
  event := func.name
  topic0 := none
  columns := func.inputs.mapIdx callColumn
  indexedPositions := []
  pkColumns := ["chain_id", "tx_id"]

end Topic0
