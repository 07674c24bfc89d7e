import Topic0.AbiDecoder
import Topic0.PipelineDrive
import Topic0.QuerySchemas
import Topic0.SourceSpend

/-! Configuration. `validate` refuses a config in the order of its sections and chains, with the first
thing it finds; what it accepts has a start block for every chain and one chain for every id. The
limits of a chain override the default plan one by one, and with the start block they make the
configuration of the chain's ingest loop. -/

namespace Topic0

structure DatabaseCfg where
  url : String

structure QueueCfg where
  kind : String

def QueueCfg.default : QueueCfg := ⟨"postgres"⟩

structure QueryCfg where
  expose : String

def QueryCfg.default : QueryCfg := ⟨"finalized"⟩

structure App.Config where
  database : DatabaseCfg
  queue : QueueCfg
  query : QueryCfg
  chains : List ChainCfg

/-- The earliest start block of the chain's contracts. -/
def ChainCfg.startBlock (chain : ChainCfg) : Option Nat :=
  (chain.contracts.filterMap ContractCfg.startBlock).min?

section Validate

/-- The text starts with `0x`. -/
def marked (text : String) : Bool := decide (['0', 'x'] <+: text.toList)

def validateContract (chain : ChainCfg) (c : ContractCfg) : Except String Unit :=
  if marked c.address = false ∨ c.address.utf8ByteSize ≠ 42 then
    .error ("chain " ++ toString chain.id ++ " contract address '" ++ c.address ++ "' malformed")
  else if c.abi = "" then
    .error ("chain " ++ toString chain.id ++ " contract " ++ c.address ++ " missing abi path")
  else .ok ()

/-- The loop over the contracts of a chain. -/
def validateContracts (chain : ChainCfg) : List ContractCfg → Except String Unit
  | [] => .ok ()
  | c :: contracts => do
      validateContract chain c
      validateContracts chain contracts

def validateChain (chain : ChainCfg) : Except String Unit :=
  if chain.source.http = "" then
    .error ("chain " ++ toString chain.id ++ " source.http is required")
  else if chain.startBlock = none then
    .error ("chain " ++ toString chain.id ++
      " has no scan start: set start_block on at least one contract")
  else validateContracts chain chain.contracts

/-- The loop over the chains, with the ids seen so far. -/
def validateChains : List Nat → List ChainCfg → Except String Unit
  | _, [] => .ok ()
  | seen, chain :: chains =>
      if chain.id ∈ seen then .error ("duplicate chain id " ++ toString chain.id)
      else do
        validateChain chain
        validateChains (chain.id :: seen) chains

def validate (cfg : App.Config) : Except String Unit :=
  if cfg.database.url = "" then .error "database.url is required"
  else if cfg.queue.kind ≠ "postgres" then
    .error ("queue.kind '" ++ cfg.queue.kind ++ "' unsupported (only 'postgres')")
  else if cfg.query.expose ≠ "finalized" ∧ cfg.query.expose ≠ "provisional" then
    .error ("query.expose '" ++ cfg.query.expose ++ "' invalid")
  else validateChains [] cfg.chains

structure ContractCfg.Valid (c : ContractCfg) : Prop where
  marked : marked c.address = true
  length : c.address.utf8ByteSize = 42
  abi : c.abi ≠ ""

structure ChainCfg.Valid (chain : ChainCfg) : Prop where
  http : chain.source.http ≠ ""
  start : chain.startBlock ≠ none
  contracts : ∀ c ∈ chain.contracts, c.Valid

structure App.Config.Valid (cfg : App.Config) : Prop where
  url : cfg.database.url ≠ ""
  kind : cfg.queue.kind = "postgres"
  expose : cfg.query.expose = "finalized" ∨ cfg.query.expose = "provisional"
  ids : (cfg.chains.map ChainCfg.id).Nodup
  chains : ∀ chain ∈ cfg.chains, chain.Valid

theorem validateContract_ok {chain : ChainCfg} {c : ContractCfg} :
    validateContract chain c = .ok () ↔ c.Valid := by
  unfold validateContract
  constructor
  · intro h
    split at h
    · cases h
    rename_i haddress
    split at h
    · cases h
    rename_i habi
    obtain ⟨hmarked, hlength⟩ := not_or.mp haddress
    exact ⟨Bool.eq_true_of_not_eq_false hmarked, not_not.mp hlength, habi⟩
  · rintro ⟨hmarked, hlength, habi⟩
    rw [if_neg, if_neg habi]
    rintro (hfalse | hne)
    · rw [hmarked] at hfalse
      cases hfalse
    · exact hne hlength

theorem validateContracts_ok {chain : ChainCfg} {contracts : List ContractCfg} :
    validateContracts chain contracts = .ok () ↔ ∀ c ∈ contracts, c.Valid := by
  induction contracts with
  | nil => exact ⟨fun _ c hc => absurd hc List.not_mem_nil, fun _ => rfl⟩
  | cons c contracts ih =>
      rw [validateContracts, Rows.bind_eq_ok, List.forall_mem_cons]
      constructor
      · rintro ⟨_, hc, hrest⟩
        exact ⟨validateContract_ok.mp hc, ih.mp hrest⟩
      · rintro ⟨hc, hrest⟩
        exact ⟨(), validateContract_ok.mpr hc, ih.mpr hrest⟩

theorem validateChain_ok {chain : ChainCfg} : validateChain chain = .ok () ↔ chain.Valid := by
  unfold validateChain
  constructor
  · intro h
    split at h
    · cases h
    rename_i hhttp
    split at h
    · cases h
    rename_i hstart
    exact ⟨hhttp, hstart, validateContracts_ok.mp h⟩
  · rintro ⟨hhttp, hstart, hcontracts⟩
    rw [if_neg hhttp, if_neg hstart]
    exact validateContracts_ok.mpr hcontracts

theorem validateChains_ok {seen : List Nat} {chains : List ChainCfg} :
    validateChains seen chains = .ok () ↔ (∀ chain ∈ chains, chain.id ∉ seen) ∧
      (chains.map ChainCfg.id).Nodup ∧ ∀ chain ∈ chains, chain.Valid := by
  induction chains generalizing seen with
  | nil =>
      refine ⟨fun _ => ⟨?_, List.nodup_nil, ?_⟩, fun _ => rfl⟩
      · exact fun chain hchain => absurd hchain List.not_mem_nil
      · exact fun chain hchain => absurd hchain List.not_mem_nil
  | cons chain chains ih =>
      rw [validateChains, List.map_cons, List.nodup_cons, List.forall_mem_cons, List.forall_mem_cons]
      have hids : (∀ other ∈ chains, other.id ∉ chain.id :: seen) ↔
          (∀ other ∈ chains, other.id ∉ seen) ∧ chain.id ∉ chains.map ChainCfg.id := by
        constructor
        · intro h
          refine ⟨fun other hother hmem => h other hother (List.mem_cons_of_mem _ hmem), ?_⟩
          intro hmem
          obtain ⟨other, hother, heq⟩ := List.mem_map.mp hmem
          exact h other hother (heq ▸ List.mem_cons_self)
        · rintro ⟨hseen, hid⟩ other hother hmem
          rcases List.mem_cons.mp hmem with heq | hmem
          · exact hid (List.mem_map.mpr ⟨other, hother, heq⟩)
          · exact hseen other hother hmem
      by_cases hseen : chain.id ∈ seen
      · rw [if_pos hseen]
        exact ⟨fun h => absurd h (by simp), fun h => absurd hseen h.1.1⟩
      · rw [if_neg hseen, Rows.bind_eq_ok]
        constructor
        · rintro ⟨_, hchain, hrest⟩
          obtain ⟨hfresh, hnodup, hvalid⟩ := ih.mp hrest
          obtain ⟨hothers, hid⟩ := hids.mp hfresh
          exact ⟨⟨hseen, hothers⟩, ⟨hid, hnodup⟩, validateChain_ok.mp hchain, hvalid⟩
        · rintro ⟨⟨-, hothers⟩, ⟨hid, hnodup⟩, hchain, hvalid⟩
          exact ⟨(), validateChain_ok.mpr hchain, ih.mpr ⟨hids.mpr ⟨hothers, hid⟩, hnodup, hvalid⟩⟩

/-- What is accepted is well formed, and everything well formed is accepted. -/
theorem validate_ok {cfg : App.Config} : validate cfg = .ok () ↔ cfg.Valid := by
  unfold validate
  constructor
  · intro h
    split at h
    · cases h
    rename_i hurl
    split at h
    · cases h
    rename_i hkind
    split at h
    · cases h
    rename_i hexpose
    obtain ⟨-, hids, hchains⟩ := validateChains_ok.mp h
    refine ⟨hurl, not_not.mp hkind, ?_, hids, hchains⟩
    by_contra hnot
    exact hexpose (not_or.mp hnot)
  · rintro ⟨hurl, hkind, hexpose, hids, hchains⟩
    rw [if_neg hurl, if_neg (not_not.mpr hkind), if_neg fun h => hexpose.elim h.1 h.2]
    exact validateChains_ok.mpr ⟨fun chain _ => List.not_mem_nil, hids, hchains⟩

/-- The sections a config may leave out pass their checks: what counts is the database and the
chains. -/
theorem validate_default {database : DatabaseCfg} {chains : List ChainCfg} :
    validate ⟨database, QueueCfg.default, QueryCfg.default, chains⟩ = .ok () ↔
      database.url ≠ "" ∧ validateChains [] chains = .ok () := by
  rw [validate_ok, validateChains_ok]
  constructor
  · rintro ⟨hurl, -, -, hids, hchains⟩
    exact ⟨hurl, fun chain _ => List.not_mem_nil, hids, hchains⟩
  · rintro ⟨hurl, -, hids, hchains⟩
    exact ⟨hurl, rfl, .inl rfl, hids, hchains⟩

end Validate

/-- A chain of an accepted config starts no later than any of its contracts. -/
theorem ChainCfg.Valid.exists_startBlock {chain : ChainCfg} (h : chain.Valid) :
    ∃ start, chain.startBlock = some start ∧
      ∀ c ∈ chain.contracts, ∀ b, c.startBlock = some b → start ≤ b := by
  obtain ⟨start, hstart⟩ := Option.ne_none_iff_exists'.mp h.start
  refine ⟨start, hstart, fun c hc b hb => ?_⟩
  exact (List.min?_eq_some_iff.mp hstart).2 b (List.mem_filterMap.mpr ⟨c, hc, hb⟩)

namespace Registry

structure PlanProfile extends RpcLogSource.PlanProfile where
  maxRps : UInt32
  maxCuPerSec : Option UInt32
  maxBatch : UInt32
  monthlyQuota : Option Nat

def PlanProfile.default : PlanProfile where
  maxRps := 25
  maxCuPerSec := none
  maxBatch := 100
  maxGetlogsBlocks := 2000
  maxGetlogsResults := 10000
  monthlyQuota := none

def applyOverrides (plan : PlanProfile) (chain : ChainCfg) : PlanProfile :=
  match chain.source.limits with
  | none => plan
  | some l =>
      { maxRps := l.maxRps.getD plan.maxRps
        maxCuPerSec := l.maxCuPerSec <|> plan.maxCuPerSec
        maxBatch := l.maxBatch.getD plan.maxBatch
        maxGetlogsBlocks := l.maxGetlogsBlocks.getD plan.maxGetlogsBlocks
        maxGetlogsResults := l.maxGetlogsResults.getD plan.maxGetlogsResults
        monthlyQuota := l.monthlyQuotaCu <|> plan.monthlyQuota }

end Registry

/-- The plan `build_evm` makes. -/
def ChainCfg.plan (chain : ChainCfg) : Registry.PlanProfile :=
  Registry.applyOverrides Registry.PlanProfile.default chain

/-- An ingest loop, with whether its source can subscribe. -/
structure IngestLoop where
  cfg : Pipeline.Config
  wsEnabled : Bool

/-- What an attempt of `run_chain_once` hands to `ingest_loop` once it has connected. An unknown kind of
source ends every attempt before that; without a start block its `expect` panics. -/
def ChainCfg.ingest (chain : ChainCfg) (rangeConcurrency : Nat) (tables : List String) :
    Option IngestLoop :=
  (CostModel.forKind chain.source.kind).bind fun _ => chain.startBlock.map fun start =>
    { cfg :=
        { chain := chain.id
          startBlock := start
          step := max chain.plan.maxGetlogsBlocks.toNat 1
          rangeConcurrency := rangeConcurrency
          confirmations := chain.confirmations
          supportsReorg := true
          tables := tables
          step_pos := Nat.lt_of_lt_of_le Nat.one_pos (Nat.le_max_right _ _) }
      wsEnabled := chain.source.ws.any fun url => url != "" }

/-- `EvmDecoder::schemas`, each map in one of the orders it may yield. -/
def EvmDecoder.schemas (decoder : EvmDecoder) : List EventSchema :=
  decoder.abi.schemas ++ decoder.abi.callSchemas ++ Enrichment.auxSchemas

/-- What ends the whole of `run` before it waits for its loops. -/
inductive RunError where
  | source (fault : Fault SourceError)
  | preflight (message : String)

section Boot

variable (readToString : String → Except String String) (alloy : Alloy) (baseDir : String)
  (live : Catalog)

/-- What `run` does with a chain before it spawns its loop. -/
def ChainCfg.boot (chain : ChainCfg) : Except RunError (ChainCfg × EvmDecoder) := do
  let decoder ← (buildDecoder readToString alloy baseDir chain).mapError .source
  (Migrator.preflight live decoder.schemas).mapError .preflight
  .ok (chain, decoder)

/-- The loops that `run` supervises, by the chain's id. One chain without a decoder or out of sync ends
them all. `tables` lists those of a decoder's schemas. -/
def App.Config.run (cfg : App.Config) (rangeConcurrency : Nat) (tables : EvmDecoder → List String) :
    Except RunError (ChainId → Option IngestLoop) := do
  let booted ← cfg.chains.mapM (ChainCfg.boot readToString alloy baseDir live)
  .ok fun id => (booted.find? fun chain => chain.1.id == id).bind fun chain =>
    chain.1.ingest (max rangeConcurrency 1) (tables chain.2)

end Boot

section Loops

variable {readToString : String → Except String String} {alloy : Alloy} {baseDir : String}
  {live : Catalog} {cfg : App.Config} {rangeConcurrency : Nat}
  {tables : EvmDecoder → List String} {loops : ChainId → Option IngestLoop}

/-- A chain that boots has its decoder built and its tables there. -/
theorem ChainCfg.boot_ok {chain : ChainCfg} {booted : ChainCfg × EvmDecoder}
    (h : chain.boot readToString alloy baseDir live = .ok booted) :
    booted.1 = chain ∧ buildDecoder readToString alloy baseDir chain = .ok booted.2 ∧
      Migrator.isInSync live booted.2.schemas = true := by
  rw [ChainCfg.boot, Rows.bind_eq_ok] at h
  obtain ⟨decoder, hdecoder, h⟩ := h
  rw [Rows.bind_eq_ok] at h
  obtain ⟨_, hpreflight, heq⟩ := h
  cases heq
  refine ⟨rfl, Rows.mapError_eq_ok.mp hdecoder, ?_⟩
  have hok := Rows.mapError_eq_ok.mp hpreflight
  rw [Migrator.preflight] at hok
  split at hok
  · cases hok
  · rename_i hsync
    simpa using hsync

theorem App.Config.run_ok
    (h : cfg.run readToString alloy baseDir live rangeConcurrency tables = .ok loops) :
    ∃ booted, cfg.chains.mapM (ChainCfg.boot readToString alloy baseDir live) = .ok booted ∧
      loops = fun id => (booted.find? fun chain => chain.1.id == id).bind fun chain =>
        chain.1.ingest (max rangeConcurrency 1) (tables chain.2) := by
  rw [App.Config.run, Rows.bind_eq_ok] at h
  obtain ⟨booted, hbooted, heq⟩ := h
  cases heq
  exact ⟨booted, hbooted, rfl⟩

theorem App.Config.chain_of_run
    (h : cfg.run readToString alloy baseDir live rangeConcurrency tables = .ok loops) {id : ChainId}
    {loop : IngestLoop} (hloop : loops id = some loop) : loop.cfg.chain = id := by
  obtain ⟨booted, -, rfl⟩ := App.Config.run_ok h
  obtain ⟨chain, hfind, hingest⟩ := Option.bind_eq_some_iff.mp hloop
  obtain ⟨model, -, hstart⟩ := Option.bind_eq_some_iff.mp hingest
  obtain ⟨start, -, rfl⟩ := Option.map_eq_some_iff.mp hstart
  have hid := List.find?_some (p := fun chain : ChainCfg × EvmDecoder => chain.1.id == id) hfind
  exact eq_of_beq hid

/-- Every chain of an accepted config whose kind of source is known has its loop, under its own id. -/
theorem App.Config.Valid.exists_loop (h : cfg.Valid)
    (hrun : cfg.run readToString alloy baseDir live rangeConcurrency tables = .ok loops)
    {chain : ChainCfg} (hchain : chain ∈ cfg.chains)
    (hkind : (CostModel.forKind chain.source.kind).isSome) :
    ∃ decoder loop, buildDecoder readToString alloy baseDir chain = .ok decoder ∧
      Migrator.isInSync live decoder.schemas = true ∧ loops chain.id = some loop ∧
      chain.ingest (max rangeConcurrency 1) (tables decoder) = some loop ∧
      ∀ c ∈ chain.contracts, ∀ b, c.startBlock = some b → loop.cfg.startBlock ≤ b := by
  obtain ⟨start, hstart, hleast⟩ := (h.chains chain hchain).exists_startBlock
  obtain ⟨model, hmodel⟩ := Option.isSome_iff_exists.mp hkind
  obtain ⟨booted, hbooted, rfl⟩ := App.Config.run_ok hrun
  -- the chain's id finds the chain itself
  have hfind : ∃ found, (booted.find? fun other => other.1.id == chain.id) = some found ∧
      chain.boot readToString alloy baseDir live = .ok found := by
    obtain ⟨own, hown⟩ : ∃ own, chain.boot readToString alloy baseDir live = .ok own :=
      Rows.exists_ok_of_mapM hbooted hchain
    have hmem : own ∈ booted := (Rows.mem_mapM_ok hbooted).mpr ⟨chain, hchain, hown⟩
    cases hfound : booted.find? fun other => other.1.id == chain.id with
    | none =>
        have hnone := List.find?_eq_none.mp hfound own hmem
        rw [(ChainCfg.boot_ok hown).1] at hnone
        exact absurd (beq_self_eq_true chain.id) hnone
    | some found =>
        have hid := List.find?_some (p := fun other : ChainCfg × EvmDecoder => other.1.id == chain.id)
          hfound
        obtain ⟨other, hother, hboot⟩ := (Rows.mem_mapM_ok hbooted).mp
          (List.mem_of_find?_eq_some hfound)
        rw [(ChainCfg.boot_ok hboot).1] at hid
        obtain rfl := List.inj_on_of_nodup_map h.ids hother hchain (eq_of_beq hid)
        exact ⟨found, rfl, hboot⟩
  obtain ⟨found, hfound, hboot⟩ := hfind
  obtain ⟨hsame, hdecoder, hsync⟩ := ChainCfg.boot_ok hboot
  have hloop : chain.ingest (max rangeConcurrency 1) (tables found.2) = some _ :=
    Option.bind_eq_some_iff.mpr ⟨model, hmodel, Option.map_eq_some_iff.mpr ⟨start, hstart, rfl⟩⟩
  refine ⟨found.2, _, hdecoder, hsync, ?_, hloop, hleast⟩
  simp only [hfound, Option.bind_some, hsame]
  exact hloop

end Loops

end Topic0
