import Topic0.AbiDecoder
import Topic0.DecodeConverge
import Topic0.PipelineRestart
import Topic0.SharedHex

/-! What is indexed, from the chain to the typed tables. A selected event is found by its selector
alone and stands for the contract listed last; a selected function is found by the address called
and its selector, in the transactions the matched logs came from. A contract creation has no
address and a specification always has one, so a creation is never taken for a call. Whatever run
of the ingestion filled the raw store, and whatever deliveries decoded it, the typed tables then
hold these logs and calls and nothing else. -/

namespace Topic0

open Keyed

variable {alloy : Alloy} {specs : List ContractSpec} {maps : AbiMaps} {c : Chain}
  {layout : String → PkColumns} {store : Store layout} {covered : Nat → Prop}

/-- The selected functions of an address with a selector. -/
def underCall (alloy : Alloy) (specs : List ContractSpec) (address selector : List UInt8) :
    List (ContractSpec × AbiFunction) :=
  (selectedFunctions alloy specs).filter fun s =>
    (s.1.address.bytes, alloy.functionSelector s.2) = (address, selector)

/-- A log of the block, decoded as the event its selector stands for. -/
def LoggedAt (alloy : Alloy) (specs : List ContractSpec) (c : Chain) (h : Nat) (row : EventRow) :
    Prop :=
  ∃ r ∈ c.logs h, ∃ topic spec event decoded, r.topic0 = some topic ∧
    (underTopic alloy specs topic).getLast? = some (spec, event) ∧
    decodeEvent alloy.decodeLogParts event (eventEntry alloy spec event).2.schema r = .ok decoded ∧
    row = ⟨c.id, h, (c.block h).hash, some (c.block h).time, r.txId, r.index, decoded⟩

/-- A transaction of the block, decoded as the call of the function its address and its selector
stand for. -/
def CalledAt (alloy : Alloy) (specs : List ContractSpec) (c : Chain) (h : Nat) (row : EventRow) :
    Prop :=
  ∃ tx ∈ c.txs h, ∃ address spec func decoded, tx.fields.toAddr = some address ∧
    4 ≤ tx.fields.input.length ∧
    (underCall alloy specs address (tx.fields.input.take 4)).getLast? = some (spec, func) ∧
    decodeCall alloy.abiDecodeInput func (callEntry alloy spec func).2.schema tx.fields.input =
      .ok decoded ∧
    row = ⟨c.id, h, (c.block h).hash, some (c.block h).time, tx.txId, tx.fields.txIndex, decoded⟩

/-- Event tables are keyed by position, the tables of transactions, receipts and calls by
transaction. -/
structure KeyedApart (layout : String → PkColumns) (alloy : Alloy) (specs : List ContractSpec) :
    Prop where
  aux : AuxLayout layout
  events : ∀ s ∈ selectedEvents alloy specs, layout (s.1.eventTable s.2) = .event
  calls : ∀ s ∈ selectedFunctions alloy specs, layout (s.1.callTable s.2) = .aux

theorem mem_underCall {address selector : List UInt8} {s : ContractSpec × AbiFunction} :
    s ∈ underCall alloy specs address selector ↔ s ∈ selectedFunctions alloy specs ∧
      s.1.address.bytes = address ∧ alloy.functionSelector s.2 = selector := by
  rw [underCall, List.mem_filter, decide_eq_true_eq, Prod.mk.injEq]

section Decode

variable (h : AbiMaps.build alloy specs = .ok maps)

include h

/-- Under an address and a selector stands the function that was listed last. -/
theorem find?_byCall (address selector : List UInt8) :
    maps.byCall.find? (address, selector) =
      (underCall alloy specs address selector).getLast?.map fun s => callEntry alloy s.1 s.2 := by
  rw [(foldlM_add_ok specs h).2, Table.find?_empty_upsertAll]
  rfl

theorem decode_iff {r : RawRecord} {row : EventRow} :
    (maps.index alloy).decode r = .ok (some row) ↔
      ∃ topic s decoded, r.topic0 = some topic ∧
        (underTopic alloy specs topic).getLast? = some s ∧
        decodeEvent alloy.decodeLogParts s.2 (eventEntry alloy s.1 s.2).2.schema r = .ok decoded ∧
        row = AbiIndex.rowOfRecord r decoded := by
  rw [decode_index]
  cases htopic : r.topic0 with
  | none => simp [AbiMaps.route, htopic]
  | some topic =>
      rw [route_of_topic h htopic]
      cases hlast : (underTopic alloy specs topic).getLast? with
      | none => simp [hlast]
      | some s =>
          simp only [Option.map_some, Option.elim_some, Option.some.injEq, exists_and_left,
            exists_eq_left', hlast]
          rw [Entry.decode, Rows.bind_eq_ok]
          constructor
          · rintro ⟨decoded, hdecoded, heq⟩
            cases heq
            exact ⟨decoded, Rows.mapError_eq_ok.mp hdecoded, rfl⟩
          · rintro ⟨decoded, hdecoded, rfl⟩
            exact ⟨decoded, Rows.mapError_eq_ok.mpr hdecoded, rfl⟩

theorem decodeCall_iff {tx : TxCalldata} {row : EventRow} :
    (maps.index alloy).decodeCall tx = .ok (some row) ↔ 4 ≤ tx.input.length ∧
      ∃ s decoded, (underCall alloy specs tx.toAddr (tx.input.take 4)).getLast? = some s ∧
        decodeCall alloy.abiDecodeInput s.2 (callEntry alloy s.1 s.2).2.schema tx.input =
          .ok decoded ∧
        row = AbiIndex.rowOfCall tx decoded := by
  rw [AbiIndex.decodeCall]
  by_cases hlength : tx.input.length < 4
  · rw [if_pos hlength]
    simp [Nat.not_le.mpr hlength]
  · rw [if_neg hlength, AbiMaps.index]
    simp only [find?_byCall h]
    cases hlast : (underCall alloy specs tx.toAddr (tx.input.take 4)).getLast? with
    | none => simp
    | some s =>
        simp only [Option.map_some, Rows.bind_eq_ok, Option.some.injEq]
        constructor
        · rintro ⟨decoded, hdecoded, heq⟩
          cases heq
          exact ⟨Nat.not_lt.mp hlength, s, decoded, rfl, Rows.mapError_eq_ok.mp hdecoded, rfl⟩
        · rintro ⟨-, s', decoded, rfl, hdecoded, rfl⟩
          exact ⟨decoded, Rows.mapError_eq_ok.mpr hdecoded, rfl⟩

end Decode

theorem table_of_decodeEvent {event : AbiEvent} {schema : EventSchema} {raw : RawRecord}
    {decoded : DecodedEvent}
    (h : decodeEvent alloy.decodeLogParts event schema raw = .ok decoded) :
    decoded.table = schema.table := by
  unfold decodeEvent at h
  split at h
  · split at h
    · cases h
    · rw [Rows.bind_eq_ok] at h
      obtain ⟨fields, -, heq⟩ := h
      cases heq
      rfl
  · cases h

theorem table_of_decodeCall {func : AbiFunction} {schema : EventSchema} {input : List UInt8}
    {decoded : DecodedEvent} (h : decodeCall alloy.abiDecodeInput func schema input = .ok decoded) :
    decoded.table = schema.table := by
  unfold decodeCall at h
  split at h
  · cases h
  · cases h
    rfl

theorem callTable_not_aux (spec : ContractSpec) (func : AbiFunction) :
    spec.callTable func ∉ auxTables := by
  intro hmem
  have hhead : (spec.callTable func).toList.head? = some 'c' := by
    rw [ContractSpec.callTable, String.toList_append, String.toList_append, String.toList_append]
    rfl
  rcases List.mem_cons.mp hmem with heq | hmem
  · rw [heq] at hhead
    exact absurd hhead (by decide)
  · rw [List.mem_singleton.mp hmem] at hhead
    exact absurd hhead (by decide)

/-- What the calldata query reads of a stored transaction. -/
theorem calldataRow_transactionRow (chain : ChainId) (height : Nat) (blockHash txId : Hash)
    (f : TxFields) : calldataRow (transactionRow chain height blockHash txId f) =
      .ok ⟨chain, height, blockHash, txId, f.toAddr.getD [], f.txIndex, f.input⟩ := by
  obtain ⟨sender, txIndex, value, input, gas, nonce, toAddr, gasPrice⟩ := f
  cases toAddr <;> cases gasPrice <;> rfl

theorem mem_specs_of_selected {s : ContractSpec × AbiFunction}
    (h : s ∈ selectedFunctions alloy specs) : s.1 ∈ specs := by
  obtain ⟨spec, hspec, hs⟩ := List.mem_flatMap.mp h
  split at hs
  · exact absurd hs List.not_mem_nil
  · obtain ⟨func, -, rfl⟩ := List.mem_map.mp hs
    exact hspec

/-- A creation, whose address reads as an empty one, stands for no function. -/
theorem toAddr_of_underCall (hlength : ∀ spec ∈ specs, spec.address.bytes.length = 20)
    {toAddr : Option (List UInt8)} {selector : List UInt8} {s : ContractSpec × AbiFunction}
    (h : (underCall alloy specs (toAddr.getD []) selector).getLast? = some s) :
    ∃ address, toAddr = some address := by
  obtain ⟨hselected, haddress, -⟩ := mem_underCall.mp (List.mem_of_getLast? h)
  cases toAddr with
  | some address => exact ⟨address, rfl⟩
  | none =>
      have hempty : s.1.address.bytes.length = 0 := congrArg List.length haddress
      rw [hlength s.1 (mem_specs_of_selected hselected)] at hempty
      exact absurd hempty (by decide)

section Stored

variable (hholds : Holds c store covered)

include hholds

theorem blockTimeAt_of_holds {h : Nat} (hcovered : covered h) (hmatched : c.Matched h) :
    blockTimeAt store c.id h = some (c.block h).time := by
  have hmem : c.block h ∈ store.blocks := by
    rw [hholds.blocks (c.block h) (c.block_at h).1, (c.block_at h).2]
    exact ⟨hcovered, Chain.mem_blocksAt.mpr ⟨hmatched, rfl⟩⟩
  have hget : BlockRepo.get store c.id h = some (c.block h) := by
    rw [BlockRepo.get, Table.find?_eq_some]
    exact ⟨hmem, Prod.ext (c.block_at h).1 (c.block_at h).2⟩
  rw [blockTimeAt, hget]
  rfl

/-- The records of the chain are its logs of the covered heights. -/
theorem mem_logs_of_holds {r : RawRecord} (hr : r ∈ store.rawRecords) (hchain : r.chainId = c.id) :
    covered r.height ∧ r ∈ c.logs r.height :=
  (hholds.rawRecords r hchain).mp hr

/-- The transactions of the chain are those of the covered heights, and each stands at the height of
its records. -/
theorem mem_txs_of_holds {row : EventRow} (hrow : row ∈ store.typed transactionsTable)
    (hchain : row.chainId = c.id) : covered row.height ∧ ∃ tx ∈ c.txs row.height,
      row = transactionRow c.id row.height (c.block row.height).hash tx.txId tx.fields := by
  obtain ⟨hcovered, hmem⟩ := (hholds.transactions row hchain).mp hrow
  exact ⟨hcovered, Chain.mem_transactionsAt.mp hmem⟩

theorem height_of_record {row : EventRow} (hrow : row ∈ store.typed transactionsTable)
    (hchain : row.chainId = c.id) {r : RawRecord} (hr : r ∈ store.rawRecords)
    (hrchain : r.chainId = c.id) (hid : r.txId = row.txId) : row.height = r.height := by
  obtain ⟨-, tx, htx, heq⟩ := mem_txs_of_holds hholds hrow hchain
  obtain ⟨-, hlog⟩ := mem_logs_of_holds hholds hr hrchain
  obtain ⟨tx', htx', hid'⟩ := c.txs_of_log _ r hlog
  have hrowId : row.txId = tx.txId := by
    rw [heq]
    rfl
  apply (c.txs_unique _ _ tx tx' htx htx' _).1
  rw [hid', hid, hrowId]

theorem setting_of_holds (hmaps : AbiMaps.build alloy specs = .ok maps)
    (hapart : KeyedApart layout alloy specs)
    (hempty : ∀ t, t ∉ auxTables → ∀ row, row ∉ store.typed t) :
    Deliveries.Setting (maps.index alloy) store c.id where
  auxKey := hapart.aux.transactions
  txHeights row hrow hchain r hr hrchain hid := height_of_record hholds hrow hchain hr hrchain hid
  eventTables r _ row hdecode := by
    obtain ⟨topic, s, decoded, -, hlast, hdecoded, rfl⟩ := (decode_iff hmaps).mp hdecode
    have htable : decoded.table = s.1.eventTable s.2 := table_of_decodeEvent hdecoded
    have hselected := (mem_underTopic.mp (List.mem_of_getLast? hlast)).1
    have hevent : layout decoded.table = .event := by
      rw [htable]
      exact hapart.events s hselected
    refine ⟨hevent, fun haux => ?_⟩
    have hauxKey : layout decoded.table = .aux := by
      rcases List.mem_cons.mp haux with heq | hmem
      · exact heq ▸ hapart.aux.transactions
      · exact List.mem_singleton.mp hmem ▸ hapart.aux.receipts
    rw [hevent] at hauxKey
    cases hauxKey
  callTables tx row hdecode := by
    obtain ⟨-, s, decoded, hlast, hdecoded, rfl⟩ := (decodeCall_iff hmaps).mp hdecode
    have htable : decoded.table = s.1.callTable s.2 := table_of_decodeCall hdecoded
    have hselected := (mem_underCall.mp (List.mem_of_getLast? hlast)).1
    show layout decoded.table = .aux ∧ decoded.table ∉ auxTables
    rw [htable]
    exact ⟨hapart.calls s hselected, callTable_not_aux s.1 s.2⟩
  empty := hempty

/-- Complete tables hold the selected logs and calls of the covered heights. -/
theorem target_iff (hmaps : AbiMaps.build alloy specs = .ok maps)
    (hlength : ∀ spec ∈ specs, spec.address.bytes.length = 20) {table : String} {row : EventRow} :
    Deliveries.Target (maps.index alloy) store c.id table row ↔ row.event.table = table ∧
      ∃ h, covered h ∧ (LoggedAt alloy specs c h row ∨ CalledAt alloy specs c h row) := by
  constructor
  · rintro ⟨d, hd, rfl, rfl⟩
    refine ⟨rfl, ?_⟩
    rcases hd with ⟨r, hr, hchain, hdecode⟩ | ⟨txRow, htx, hchain, -, calldata, hcalldata, hdecode⟩
    · obtain ⟨topic, s, decoded, htopic, hlast, hdecoded, rfl⟩ := (decode_iff hmaps).mp hdecode
      obtain ⟨hcovered, hlog⟩ := mem_logs_of_holds hholds hr hchain
      refine ⟨r.height, hcovered, .inl ⟨r, hlog, topic, s.1, s.2, decoded, htopic, hlast, hdecoded,
        ?_⟩⟩
      rw [timed, AbiIndex.rowOfRecord, blockTimeAt_of_holds hholds hcovered (List.ne_nil_of_mem hlog),
        hchain, (c.logs_at _ r hlog).2.2]
    · obtain ⟨hcovered, tx, htxs, heq⟩ := mem_txs_of_holds hholds htx hchain
      rw [heq, calldataRow_transactionRow, Except.ok.injEq] at hcalldata
      subst hcalldata
      obtain ⟨hinput, s, decoded, hlast, hdecoded, rfl⟩ := (decodeCall_iff hmaps).mp hdecode
      obtain ⟨address, haddress⟩ := toAddr_of_underCall hlength hlast
      obtain ⟨r, hlog, -⟩ := c.log_of_tx _ tx htxs
      simp only [haddress, Option.getD_some] at hlast
      refine ⟨txRow.height, hcovered, .inr ⟨tx, htxs, address, s.1, s.2, decoded, haddress, hinput,
        hlast, hdecoded, ?_⟩⟩
      rw [timed, AbiIndex.rowOfCall, blockTimeAt_of_holds hholds hcovered (List.ne_nil_of_mem hlog)]
  · rintro ⟨rfl, h, hcovered, hlogged | hcalled⟩
    · obtain ⟨r, hlog, topic, spec, event, decoded, htopic, hlast, hdecoded, rfl⟩ := hlogged
      obtain ⟨hchain, rfl, hhash⟩ := c.logs_at h r hlog
      have hr : r ∈ store.rawRecords := (hholds.rawRecords r hchain).mpr ⟨hcovered, hlog⟩
      refine ⟨AbiIndex.rowOfRecord r decoded, .inl ⟨r, hr, hchain, ?_⟩, rfl, ?_⟩
      · exact (decode_iff hmaps).mpr ⟨topic, (spec, event), decoded, htopic, hlast, hdecoded, rfl⟩
      · rw [timed, AbiIndex.rowOfRecord, blockTimeAt_of_holds hholds hcovered (List.ne_nil_of_mem hlog),
          hchain, hhash]
    · obtain ⟨tx, htxs, address, spec, func, decoded, haddress, hinput, hlast, hdecoded, rfl⟩ := hcalled
      obtain ⟨r, hlog, hid⟩ := c.log_of_tx _ tx htxs
      obtain ⟨hrchain, hheight, -⟩ := c.logs_at h r hlog
      let row := transactionRow c.id h (c.block h).hash tx.txId tx.fields
      have hrow : row ∈ store.typed transactionsTable :=
        (hholds.transactions row rfl).mpr ⟨hcovered, Chain.mem_transactionsAt.mpr ⟨tx, htxs, rfl⟩⟩
      have hr : r ∈ store.rawRecords :=
        (hholds.rawRecords r hrchain).mpr ⟨hheight.symm ▸ hcovered, hheight.symm ▸ hlog⟩
      refine ⟨AbiIndex.rowOfCall ⟨c.id, h, (c.block h).hash, tx.txId, address, tx.fields.txIndex,
        tx.fields.input⟩ decoded, .inr ⟨row, hrow, rfl, ⟨r, hr, hrchain, hid⟩, _,
          calldataRow_transactionRow .., ?_⟩, rfl, ?_⟩
      · rw [haddress]
        exact (decodeCall_iff hmaps).mpr ⟨hinput, (spec, func), decoded, hlast, hdecoded, rfl⟩
      · rw [timed, AbiIndex.rowOfCall, blockTimeAt_of_holds hholds hcovered (List.ne_nil_of_mem hlog)]

end Stored

namespace Pipeline

variable {cfg : Config}

/-- A served commit writes no typed table but the two aux ones. -/
theorem Work.typed_step {w w' : Work layout} {act : DriveAct}
    (hserved : ∀ f ∈ w.drive.channel, Serves c f.fromHeight f.toHeight f)
    (h : Work.Step cfg w act w') {t : String} (ht : t ∉ auxTables) :
    w'.store.typed t = w.store.typed t := by
  cases h with
  | complete hplanned => rfl
  | stop hbusy => rfl
  | commit hchannel hdue hcommit =>
      rename_i fetched rest next outcome
      have hserves := hserved fetched (hchannel ▸ List.mem_cons_self)
      obtain ⟨rows, hperm, heq⟩ := (IngestionService.commit_ok hcommit).typed t
      have hnil : rows = [] := by
        apply List.eq_nil_iff_forall_not_mem.mpr
        intro row hrow
        obtain ⟨henriched, htable⟩ := List.mem_filter.mp (hperm.mem_iff.mp hrow)
        obtain ⟨h, -, htx | hreceipt⟩ := (mem_enrichment hserves).mp henriched
        · rw [table_of_mem_transactionsAt htx, decide_eq_true_eq] at htable
          exact ht (htable ▸ List.mem_cons_self)
        · rw [table_of_mem_receiptsAt hreceipt, decide_eq_true_eq] at htable
          exact ht (htable ▸ List.mem_cons_of_mem _ List.mem_cons_self)
      show next.typed t = w.store.typed t
      rw [heq, hnil, Table.insertAll_nil]
  | advance hdue => rfl

theorem State.typed_step (hid : cfg.chain = c.id) {s s' : State layout} {act : Act}
    (hfaithful : s.Faithful c) (hact : OnChain c s act) (h : State.Step cfg s act s') {t : String}
    (ht : t ∉ auxTables) : s'.store.typed t = s.store.typed t := by
  cases h with
  | startBackfill => rfl
  | startLoop => rfl
  | sweep hbehind => rfl
  | checkpoint hbehind => rfl
  | checkNone hcheck =>
      rw [ReorgService.check_of_not_mismatch (not_mismatch_of_holds hid hfaithful.holds hact)]
        at hcheck
      cases hcheck
      rfl
  | checkSome hcheck =>
      rw [ReorgService.check_of_not_mismatch (not_mismatch_of_holds hid hfaithful.holds hact)]
        at hcheck
      cases hcheck
  | driveBackfill hstep => exact Work.typed_step (w := ⟨_, _, _⟩) hfaithful.served hstep ht
  | driveSweep hstep => exact Work.typed_step (w := ⟨_, _, _⟩) hfaithful.served hstep ht
  | finishBackfill => rfl
  | finishSweep hdue => rfl
  | interrupt => rfl

/-- Ingestion of a fixed chain holds it over what was committed and leaves the typed tables empty. -/
theorem faithful_of_reachable (hlayout : AuxLayout layout) (hid : cfg.chain = c.id)
    {s : State layout}
    (h : Transition.Reachable (system cfg Store.empty) (OnChain c) s) :
    s.Faithful c ∧ ∀ t, t ∉ auxTables → ∀ row, row ∉ s.store.typed t := by
  have hinv : s.Faithful c ∧ ∀ t, t ∉ auxTables → s.store.typed t = Table.empty := by
    refine h.invariant (fun s => s.Faithful c ∧ ∀ t, t ∉ auxTables → s.store.typed t = Table.empty)
      ?_ ?_
    · intro s hinit
      cases hinit
      exact ⟨⟨(holds_empty c).congr fun b => by simp [Covered], trivial⟩, fun _ _ => rfl⟩
    · rintro s act s' ⟨hfaithful, htyped⟩ hact hstep
      have hcases := State.step_cases hstep
      refine ⟨State.faithful_step hlayout hid hfaithful hact hcases, fun t ht => ?_⟩
      exact (State.typed_step hid hfaithful hact hcases ht).trans (htyped t ht)
  refine ⟨hinv.1, fun t ht row => ?_⟩
  rw [hinv.2 t ht]
  exact Table.not_mem_empty row

end Pipeline

/-- The typed tables index the chain. -/
theorem tables_index_chain {readToString : String → Except String String} {baseDir : String}
    {chainCfg : ChainCfg} {decoder : EvmDecoder}
    (hspecs : chainCfg.contracts.mapM (contractSpec readToString baseDir) = .ok specs)
    (hdecoder : buildDecoder readToString alloy baseDir chainCfg = .ok decoder)
    (hapart : KeyedApart layout alloy specs) {cfg : Pipeline.Config} (hid : cfg.chain = c.id)
    {ingested : Pipeline.State layout}
    (hingested : Transition.Reachable (Pipeline.system cfg Store.empty) (Pipeline.OnChain c) ingested)
    {s : Deliveries.State layout}
    (hdelivered : Transition.Reachable
      (Deliveries.system (decoder.index alloy) c.id ingested.store) Transition.anyStep s)
    (hcovered : ∀ h, Pipeline.Covered ingested.committed h → c.Matched h →
      ∃ range ∈ s.completed, range.1 ≤ h ∧ h ≤ range.2)
    {table : String} (htable : table ∉ auxTables) (row : EventRow) :
    row ∈ s.store.typed table ↔ row.event.table = table ∧
      ∃ h, Pipeline.Covered ingested.committed h ∧
        (LoggedAt alloy specs c h row ∨ CalledAt alloy specs c h row) := by
  have hmaps := ((EvmDecoder.buildDecoder_eq hspecs).mp hdecoder).2.1
  obtain ⟨⟨hholds, -⟩, hempty⟩ := Pipeline.faithful_of_reachable hapart.aux hid hingested
  have hset := setting_of_holds hholds hmaps hapart hempty
  have hdone : Deliveries.Covered ingested.store c.id s.completed := by
    intro r hr hchain
    obtain ⟨hcommitted, hlog⟩ := mem_logs_of_holds hholds hr hchain
    exact hcovered r.height hcommitted (List.ne_nil_of_mem hlog)
  have hconverged := (Deliveries.converging_of_reachable hset hdelivered).converged hset hdone
  rw [hconverged.rows table htable row]
  exact target_iff hholds hmaps fun spec hspec => EvmDecoder.length_address hspecs hspec

@[irreducible] def usdcJson : String :=
  "[\x7b\"type\":\"event\",\"name\":\"Transfer\",\"anonymous\":false,\"inputs\":[" ++
  "\x7b\"name\":\"from\",\"type\":\"address\",\"indexed\":true\x7d," ++
  "\x7b\"name\":\"to\",\"type\":\"address\",\"indexed\":true\x7d," ++
  "\x7b\"name\":\"value\",\"type\":\"uint256\",\"indexed\":false\x7d]\x7d," ++
  "\x7b\"type\":\"function\",\"name\":\"transfer\",\"inputs\":[" ++
  "\x7b\"name\":\"to\",\"type\":\"address\"\x7d," ++
  "\x7b\"name\":\"amount\",\"type\":\"uint256\"\x7d]\x7d]"

/-- A word as an unsigned number. -/
def wordValue (bytes : List UInt8) : Nat := bytes.foldl (fun n b => n * 256 + b.toNat) 0

/-- The library on this file, whose logs have two addresses and an amount. -/
def usdcAlloy : Alloy :=
  { transferAlloy with
    parse := fun text =>
      if text = usdcJson then .ok ⟨[erc20Transfer], [transferFunction]⟩
      else .error "expected value at line 1 column 1"
    functionSelector := fun _ => [0xa9, 0x05, 0x9c, 0xbb]
    decodeLogParts := fun _ topics data =>
      if topics.length = 3 ∧ data.length = 32 then
        .ok ⟨(topics.drop 1).map fun topic => .address (topic.bytes.drop 12), [.uint (wordValue data) 256]⟩
      else .error "topic list length mismatch"
    abiDecodeInput := fun _ input =>
      if input.length = 64 then
        .ok [.address ((input.take 32).drop 12), .uint (wordValue (input.drop 32)) 256]
      else .error "buffer overrun while deserializing" }

/-- All events of the token and its transfer calls. -/
def usdcCfg : ChainCfg where
  id := 1
  kind := "evm"
  confirmations := 12
  source := ⟨"alchemy", "https://x", none, none⟩
  contracts :=
    [⟨"0x" ++ hexEncode (List.replicate 20 3), "abis/usdc.json", [], ["transfer"], none, some 1⟩]

def usdcSpec : ContractSpec := ⟨usdcJson, [], ["transfer"], ⟨List.replicate 20 3⟩, "usdc", none⟩

def usdcFiles (path : String) : Except String String :=
  if path = "abis/usdc.json" then .ok usdcJson else .error "No such file or directory (os error 2)"

def usdcDecoder : EvmDecoder where
  abi :=
    { byTopic0 := Table.empty.upsertAll [eventEntry usdcAlloy usdcSpec erc20Transfer]
      byCall := Table.empty.upsertAll [callEntry usdcAlloy usdcSpec transferFunction] }
  addresses := [⟨List.replicate 20 3⟩]

theorem specs_usdc : usdcCfg.contracts.mapM (contractSpec usdcFiles "") = .ok [usdcSpec] := by
  have haddress : parseAddr ("0x" ++ hexEncode (List.replicate 20 3)) =
      .ok ⟨List.replicate 20 3⟩ := by
    rw [parseAddr, (hexDecode_hexEncode (List.replicate 20 3)).2]
    rfl
  have hread : usdcFiles "abis/usdc.json" = .ok usdcJson := if_pos rfl
  have hspec : contractSpec usdcFiles "" ⟨"0x" ++ hexEncode (List.replicate 20 3), "abis/usdc.json",
      [], ["transfer"], none, some 1⟩ = .ok usdcSpec := by
    unfold contractSpec
    simp only [haddress]
    decide +kernel
  rw [usdcCfg, List.mapM_cons, hspec]
  rfl

theorem parse_usdc : usdcAlloy.parse usdcJson = .ok ⟨[erc20Transfer], [transferFunction]⟩ :=
  if_pos rfl

theorem buildDecoder_usdc : buildDecoder usdcFiles usdcAlloy "" usdcCfg = .ok usdcDecoder := by
  have hbuild : AbiMaps.build usdcAlloy [usdcSpec] = .ok usdcDecoder.abi := by
    rw [AbiMaps.build, List.foldlM_cons, AbiMaps.add, usdcSpec, parse_usdc]
    rfl
  exact (EvmDecoder.buildDecoder_eq specs_usdc).mpr ⟨rfl, hbuild, rfl⟩

/-- An amount as a word. -/
def amountWord (amount : UInt8) : List UInt8 := List.replicate 31 0 ++ [amount]

/-- The transfer of block 2, its log and the call it came from. -/
def usdcLog : RawRecord :=
  ⟨1, 2, plainHash (fun _ => 0) 2, 0, ⟨List.replicate 20 3⟩,
    [transferSelector, word 7, word 8], amountWord 5, ⟨[42]⟩, 0, none⟩

def usdcTx : MatchedTx :=
  ⟨⟨[42]⟩, ⟨List.replicate 20 7, 4, "0", [0xa9, 0x05, 0x9c, 0xbb] ++ List.replicate 32 8 ++ amountWord 5,
    "60000", "0", some (List.replicate 20 3), none⟩, none⟩

def usdcChain : Chain where
  id := 1
  logs h := if h = 2 then [usdcLog] else []
  block h := ⟨1, h, plainHash (fun _ => 0) h, plainHash (fun _ => 0) (h - 1), h⟩
  txs h := if h = 2 then [usdcTx] else []
  logs_at h r hr := by
    obtain ⟨rfl, hmem⟩ := List.mem_ite_nil_right.mp hr
    rw [List.mem_singleton.mp hmem]
    exact ⟨rfl, rfl, rfl⟩
  logs_nodup h := by split <;> simp
  block_at h := ⟨rfl, rfl⟩
  txs_of_log h r hr := by
    obtain ⟨rfl, hmem⟩ := List.mem_ite_nil_right.mp hr
    rw [List.mem_singleton.mp hmem]
    exact ⟨usdcTx, List.mem_singleton_self _, rfl⟩
  log_of_tx h tx htx := by
    obtain ⟨rfl, hmem⟩ := List.mem_ite_nil_right.mp htx
    rw [List.mem_singleton.mp hmem]
    exact ⟨usdcLog, List.mem_singleton_self _, rfl⟩
  txs_unique h h' tx tx' htx htx' _ := by
    obtain ⟨rfl, hmem⟩ := List.mem_ite_nil_right.mp htx
    obtain ⟨rfl, hmem'⟩ := List.mem_ite_nil_right.mp htx'
    rw [List.mem_singleton.mp hmem, List.mem_singleton.mp hmem']
    exact ⟨rfl, rfl⟩

def usdcLayout (table : String) : PkColumns :=
  if table = transactionsTable ∨ table = receiptsTable ∨ table = "call_usdc_transfer" then .aux
  else .event

theorem keyedApart_usdc : KeyedApart usdcLayout usdcAlloy [usdcSpec] where
  aux := ⟨rfl, rfl⟩
  events := by decide +kernel
  calls := by decide +kernel

/-- A tick over blocks 1 and 2. -/
def usdcTick : List Pipeline.Act :=
  [.startLoop, .check fun h => some (usdcChain.block h).hash, .sweep 2,
    .drive (.complete 0 (usdcChain.serve 1 2)), .drive .commit, .drive .advance]

/-- The delivery of both blocks, one table after the other. -/
def usdcDelivery : List Deliveries.Act :=
  [.readRaw 1 1 2, .readTimes 1, .decode 1 Order.stable, .upsert 1, .upsert 1, .finish 1]

theorem tables_index_chain_usdc :
    ∃ s : Deliveries.State usdcLayout, s.completed = [(1, 2)] ∧
      (s.store.typed "call_usdc_transfer").rows.map EventRow.index = [4] ∧
      ∀ table, table ∉ auxTables → ∀ row, row ∈ s.store.typed table ↔ row.event.table = table ∧
        ∃ h, Pipeline.Covered [(1, 2)] h ∧
          (LoggedAt usdcAlloy [usdcSpec] usdcChain h row ∨
            CalledAt usdcAlloy [usdcSpec] usdcChain h row) := by
  have hallowed : ∀ a ∈ usdcTick, ∀ u : Pipeline.State usdcLayout, Pipeline.OnChain usdcChain u a := by
    simp only [usdcTick, List.mem_cons, List.not_mem_nil, or_false, forall_eq_or_imp, forall_eq,
      Pipeline.OnChain, implies_true, true_and, and_true, Option.some.injEq]
    exact ⟨fun _ _ _ h => h.symm, fun _ => usdcChain.serves_serve 1 2⟩
  let delivered (u : Pipeline.State usdcLayout) : Option (Deliveries.State usdcLayout) :=
    Transition.exec (Deliveries.system (usdcDecoder.index usdcAlloy) 1 u.store)
      ⟨u.store, fun _ => .idle, []⟩ usdcDelivery
  obtain ⟨ingested, hingested, hobserved⟩ := Transition.Reachable.exists_observed
    (.init rfl : Transition.Reachable (Pipeline.system Pipeline.fromOne Store.empty)
      (Pipeline.OnChain usdcChain) _) usdcTick hallowed
    (fun u => (u.committed, (delivered u).map fun s =>
      (s.completed, (s.store.typed "call_usdc_transfer").rows.map EventRow.index)))
    (b := ([(1, 2)], some ([(1, 2)], [4]))) (by decide +kernel)
  obtain ⟨hcommitted, hsome⟩ := Prod.mk.inj hobserved
  obtain ⟨s, hexec, hs⟩ := Option.map_eq_some_iff.mp hsome
  obtain ⟨hcompleted, hcalls⟩ := Prod.mk.inj hs
  refine ⟨s, hcompleted, hcalls, fun table htable row => ?_⟩
  have hdelivered := Transition.Reachable.exec
    (.init rfl : Transition.Reachable
      (Deliveries.system (usdcDecoder.index usdcAlloy) 1 ingested.store) Transition.anyStep _)
    usdcDelivery (fun _ _ _ => trivial) hexec
  rw [← hcommitted]
  have hid : Pipeline.fromOne.chain = usdcChain.id := rfl
  refine tables_index_chain specs_usdc buildDecoder_usdc keyedApart_usdc hid hingested hdelivered
    (fun h hcovered _ => ⟨(1, 2), ?_, ?_⟩) htable row
  · rw [hcompleted]
    exact List.mem_singleton_self _
  · rw [hcommitted] at hcovered
    obtain ⟨range, hrange, hin⟩ := hcovered
    rw [List.mem_singleton.mp hrange] at hin
    exact hin

end Topic0
