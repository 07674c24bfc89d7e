import Topic0.AbiFilter

/-! The decoder of a configured chain. Each contract names an ABI file, whose path also gives the
prefix of its tables, and an address; the index is built from the specifications in the order of
the contracts. A file that cannot be read, an address that is not 20 bytes and a file that does not
parse end the construction. -/

namespace Topic0

open Keyed

/-- `Path::join`, where an absolute path stands alone. -/
def joinPath (base path : List Char) : List Char :=
  if path.head? = some '/' then path
  else if base = [] ∨ base.getLast? = some '/' then base ++ path
  else base ++ '/' :: path

/-- `Path::file_name`: the last component, which `.` and an empty one are not. -/
def fileName (path : List Char) : Option (List Char) :=
  ((path.splitOn '/').filter fun part => part ≠ [] ∧ part ≠ ['.']).getLast?.filter
    fun part => part ≠ ['.', '.']

/-- `Path::file_stem`: what stands before the last dot, if anything does. -/
def fileStem (path : List Char) : Option (List Char) :=
  (fileName path).map fun file =>
    let before := ((file.reverse.dropWhile fun c => c ≠ '.').drop 1).reverse
    if before = [] then file else before

/-- `table_prefix`. -/
def tablePrefix (abiPath : String) : String :=
  String.ofList (((fileStem abiPath.toList).getD "evt".toList).map fun c =>
    if c.isAlphanum then c.toLower else '_')

structure ContractCfg where
  address : String
  abi : String
  events : List String
  functions : List String
  table : Option String
  startBlock : Option Nat

structure LimitsCfg where
  maxRps : Option UInt32
  maxCuPerSec : Option UInt32
  maxBatch : Option UInt32
  maxGetlogsBlocks : Option UInt32
  maxGetlogsResults : Option UInt32
  monthlyQuotaCu : Option Nat

structure SourceCfg where
  kind : String
  http : String
  ws : Option String
  limits : Option LimitsCfg

structure ChainCfg where
  id : Nat
  kind : String
  confirmations : Nat
  source : SourceCfg
  contracts : List ContractCfg

structure EvmDecoder where
  abi : AbiMaps
  addresses : List AddressBytes

def DecodeError.text : DecodeError → String
  | .abi message => "abi error: " ++ message
  | .decode message => "decode failed: " ++ message

section Build

variable (readToString : String → Except String String) (alloy : Alloy) (baseDir : String)

/-- One contract of `build_evm_decoder`. -/
def contractSpec (c : ContractCfg) : Except (Fault SourceError) ContractSpec :=
  let path := String.ofList (joinPath baseDir.toList c.abi.toList)
  match readToString path with
  | .error e => .error (.error (.malformed ("read abi " ++ path ++ ": " ++ e)))
  | .ok abiJson => do
      let address ← parseAddr c.address
      .ok ⟨abiJson, c.events, c.functions, address, tablePrefix c.abi, c.table⟩

def buildEvmDecoder (cfg : ChainCfg) : Except (Fault SourceError) EvmDecoder := do
  let specs ← cfg.contracts.mapM (contractSpec readToString baseDir)
  let abi ← (AbiMaps.build alloy specs).mapError fun e => .error (.malformed e.text)
  .ok ⟨abi, specs.map ContractSpec.address⟩

def buildDecoder (cfg : ChainCfg) : Except (Fault SourceError) EvmDecoder :=
  if cfg.kind = "evm" then buildEvmDecoder readToString alloy baseDir cfg
  else .error (.error (.unknownKind cfg.kind))

end Build

namespace EvmDecoder

variable {readToString : String → Except String String} {alloy : Alloy} {baseDir : String}

/-- How the decoder decodes. -/
def index (decoder : EvmDecoder) (alloy : Alloy) : AbiIndex := decoder.abi.index alloy

def recordFilter (decoder : EvmDecoder) : RecordFilter := ⟨decoder.addresses, decoder.abi.topic0s⟩

theorem buildDecoder_eq {cfg : ChainCfg} {decoder : EvmDecoder} {specs : List ContractSpec}
    (hspecs : cfg.contracts.mapM (contractSpec readToString baseDir) = .ok specs) :
    buildDecoder readToString alloy baseDir cfg = .ok decoder ↔ cfg.kind = "evm" ∧
      AbiMaps.build alloy specs = .ok decoder.abi ∧
      decoder.addresses = specs.map ContractSpec.address := by
  rw [buildDecoder]
  by_cases hkind : cfg.kind = "evm"
  · rw [if_pos hkind, buildEvmDecoder, Rows.bind_eq_ok]
    constructor
    · rintro ⟨specs', hspecs', h⟩
      rw [hspecs, Except.ok.injEq] at hspecs'
      subst hspecs'
      rw [Rows.bind_eq_ok] at h
      obtain ⟨abi, habi, heq⟩ := h
      cases heq
      exact ⟨hkind, Rows.mapError_eq_ok.mp habi, rfl⟩
    · rintro ⟨-, habi, haddresses⟩
      refine ⟨specs, hspecs, Rows.bind_eq_ok.mpr ⟨decoder.abi, Rows.mapError_eq_ok.mpr habi, ?_⟩⟩
      rw [← haddresses]
  · rw [if_neg hkind]
    exact ⟨fun h => absurd h (by simp), fun h => absurd h.1 hkind⟩

theorem contractSpec_ok {c : ContractCfg} {spec : ContractSpec}
    (h : contractSpec readToString baseDir c = .ok spec) :
    parseAddr c.address = .ok spec.address ∧ spec.events = c.events ∧
      spec.functions = c.functions ∧ spec.tablePrefix = tablePrefix c.abi ∧
      spec.tableOverride = c.table := by
  unfold contractSpec at h
  simp only at h
  split at h
  · cases h
  · rw [Rows.bind_eq_ok] at h
    obtain ⟨address, haddress, heq⟩ := h
    cases heq
    exact ⟨haddress, rfl, rfl, rfl, rfl⟩

/-- Every specification has an address of 20 bytes. -/
theorem length_address {cfg : ChainCfg} {specs : List ContractSpec}
    (hspecs : cfg.contracts.mapM (contractSpec readToString baseDir) = .ok specs)
    {spec : ContractSpec} (hspec : spec ∈ specs) : spec.address.bytes.length = 20 := by
  obtain ⟨c, -, hc⟩ := (Rows.mem_mapM_ok hspecs).mp hspec
  exact length_of_parseAddr (contractSpec_ok hc).1

end EvmDecoder

end Topic0
