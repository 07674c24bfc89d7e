import Topic0.AbiValues
import Topic0.DecodeRange

/-! The index built from the configured contracts. Events are keyed by their selector alone, a later
insert replacing an earlier one, while functions are keyed by the contract's address as well. So a
log of one contract is decoded by whatever contract was listed last with the same event signature;
it is routed as its own contract says exactly when that contract has the last word. -/

namespace Topic0

open Keyed

/-- A parsed ABI file, its entries in iteration order. -/
structure JsonAbi where
  events : List AbiEvent
  functions : List AbiFunction

/-- The ABI library: parsing, selectors and decoding. -/
structure Alloy where
  parse : String → Except String JsonAbi
  eventSelector : AbiEvent → Hash
  functionSelector : AbiFunction → List UInt8
  decodeLogParts : AbiEvent → List Hash → List UInt8 → Except String DecodedLog
  abiDecodeInput : AbiFunction → List UInt8 → Except String (List DynSolValue)
  eventSelector_length : ∀ event, (eventSelector event).bytes.length = 32

/-- A contract's indexing specification. No events means all of them, no functions none. -/
structure ContractSpec where
  abiJson : String
  events : List String
  functions : List String
  address : AddressBytes
  tablePrefix : String
  tableOverride : Option String
  deriving DecidableEq

structure Entry where
  event : AbiEvent
  schema : EventSchema

structure CallEntry where
  function : AbiFunction
  schema : EventSchema

/-- The two hash maps of the index. -/
structure AbiMaps where
  byTopic0 : Table (fun entry : Hash × Entry => entry.1)
  byCall : Table (fun entry : (List UInt8 × List UInt8) × CallEntry => entry.1)

namespace ContractSpec

def selectsEvent (spec : ContractSpec) (event : AbiEvent) : Bool :=
  spec.events.isEmpty || spec.events.contains event.name

def selectsFunction (spec : ContractSpec) (func : AbiFunction) : Bool :=
  spec.functions.contains func.name

def eventTable (spec : ContractSpec) (event : AbiEvent) : String :=
  spec.tableOverride.getD ("evt_" ++ spec.tablePrefix ++ "_" ++ event.name.toLower)

def callTable (spec : ContractSpec) (func : AbiFunction) : String :=
  "call_" ++ spec.tablePrefix ++ "_" ++ func.name.toLower

end ContractSpec

section Build

variable (alloy : Alloy)

def eventEntry (spec : ContractSpec) (event : AbiEvent) : Hash × Entry :=
  let selector := alloy.eventSelector event
  (selector, ⟨event, schemaFor ("0x" ++ hexEncode selector.bytes) event (spec.eventTable event)⟩)

def callEntry (spec : ContractSpec) (func : AbiFunction) :
    (List UInt8 × List UInt8) × CallEntry :=
  ((spec.address.bytes, alloy.functionSelector func),
    ⟨func, schemaForFunction func (spec.callTable func)⟩)

/-- One contract of `AbiIndex::build`. -/
def AbiMaps.add (maps : AbiMaps) (spec : ContractSpec) : Except DecodeError AbiMaps :=
  match alloy.parse spec.abiJson with
  | .error e => .error (.abi ("parse abi: " ++ e))
  | .ok abi =>
      .ok { byTopic0 := maps.byTopic0.upsertAll
              ((abi.events.filter spec.selectsEvent).map (eventEntry alloy spec))
            byCall := maps.byCall.upsertAll
              ((abi.functions.filter spec.selectsFunction).map (callEntry alloy spec)) }

def AbiMaps.build (specs : List ContractSpec) : Except DecodeError AbiMaps :=
  specs.foldlM (AbiMaps.add alloy) ⟨Table.empty, Table.empty⟩

/-- The events the contracts select, in the order they are listed. -/
def selectedEvents (specs : List ContractSpec) : List (ContractSpec × AbiEvent) :=
  specs.flatMap fun spec =>
    match alloy.parse spec.abiJson with
    | .error _ => []
    | .ok abi => (abi.events.filter spec.selectsEvent).map fun event => (spec, event)

/-- The functions the contracts select. -/
def selectedFunctions (specs : List ContractSpec) : List (ContractSpec × AbiFunction) :=
  specs.flatMap fun spec =>
    match alloy.parse spec.abiJson with
    | .error _ => []
    | .ok abi => (abi.functions.filter spec.selectsFunction).map fun func => (spec, func)

end Build

section Index

variable (alloy : Alloy) (maps : AbiMaps)

/-- The index as a decoder uses it. -/
def AbiMaps.index : AbiIndex where
  byTopic0 topic := (maps.byTopic0.find? topic).map fun entry raw =>
    (decodeEvent alloy.decodeLogParts entry.2.event entry.2.schema raw).mapError DecodeError.toDomain
  byCall address selector := (maps.byCall.find? (address, selector)).map fun entry input =>
    (decodeCall alloy.abiDecodeInput entry.2.function entry.2.schema input).mapError
      DecodeError.toDomain
  callIsEmpty := maps.byCall.rows.isEmpty
  byCall_of_empty hempty address selector := by
    have hnil := List.isEmpty_iff.mp hempty
    rw [Table.find?, hnil]
    rfl

def AbiMaps.schemas : List EventSchema := maps.byTopic0.rows.map fun entry => entry.2.schema

def AbiMaps.callSchemas : List EventSchema := maps.byCall.rows.map fun entry => entry.2.schema

/-- The first selector, where it is a topic. -/
def RawRecord.topic0 (raw : RawRecord) : Option Hash :=
  raw.selectors.head?.filter fun selector => selector.bytes.length = 32

/-- The entry a record is decoded with. -/
def AbiMaps.route (raw : RawRecord) : Option Entry :=
  (raw.topic0.bind maps.byTopic0.find?).map Prod.snd

/-- The row of a record under an entry: its event definition and its table. -/
def Entry.decode (entry : Entry) (raw : RawRecord) : Except DomainError (Option EventRow) := do
  let event ← (decodeEvent alloy.decodeLogParts entry.event entry.schema raw).mapError
    DecodeError.toDomain
  .ok (some (AbiIndex.rowOfRecord raw event))

/-- Decoding a record is decoding it under the entry it is routed to. -/
theorem decode_index (raw : RawRecord) :
    (maps.index alloy).decode raw =
      (maps.route raw).elim (.ok none) fun entry => entry.decode alloy raw := by
  unfold AbiIndex.decode AbiIndex.eventOf AbiMaps.route RawRecord.topic0
  cases raw.selectors with
  | nil => rfl
  | cons selector rest =>
      by_cases hlength : selector.bytes.length = 32
      · simp only [hlength, if_true, List.head?_cons, AbiMaps.index]
        cases hfind : maps.byTopic0.find? selector with
        | none => simp [Option.filter, hlength, hfind]
        | some entry => simp [Option.filter, hlength, hfind, Entry.decode]
      · simp [Option.filter, hlength]

end Index

section Spec

variable {alloy : Alloy}

theorem add_ok {maps maps' : AbiMaps} {spec : ContractSpec}
    (h : maps.add alloy spec = .ok maps') :
    maps'.byTopic0 = maps.byTopic0.upsertAll
        ((selectedEvents alloy [spec]).map fun s => eventEntry alloy s.1 s.2) ∧
      maps'.byCall = maps.byCall.upsertAll
        ((selectedFunctions alloy [spec]).map fun s => callEntry alloy s.1 s.2) := by
  unfold AbiMaps.add at h
  split at h
  · cases h
  · rename_i abi hparse
    cases h
    simp only [selectedEvents, selectedFunctions, List.flatMap_cons, List.flatMap_nil,
      List.append_nil, hparse, List.map_map]
    exact ⟨rfl, rfl⟩

theorem selectedEvents_cons (spec : ContractSpec) (specs : List ContractSpec) :
    selectedEvents alloy (spec :: specs) =
      selectedEvents alloy [spec] ++ selectedEvents alloy specs := by
  simp only [selectedEvents, List.flatMap_cons, List.flatMap_nil, List.append_nil]

theorem selectedFunctions_cons (spec : ContractSpec) (specs : List ContractSpec) :
    selectedFunctions alloy (spec :: specs) =
      selectedFunctions alloy [spec] ++ selectedFunctions alloy specs := by
  simp only [selectedFunctions, List.flatMap_cons, List.flatMap_nil, List.append_nil]

/-- The maps hold the selected entries, inserted in the order they are listed. -/
theorem foldlM_add_ok (specs : List ContractSpec) {maps maps' : AbiMaps}
    (h : specs.foldlM (AbiMaps.add alloy) maps = .ok maps') :
    maps'.byTopic0 = maps.byTopic0.upsertAll
        ((selectedEvents alloy specs).map fun s => eventEntry alloy s.1 s.2) ∧
      maps'.byCall = maps.byCall.upsertAll
        ((selectedFunctions alloy specs).map fun s => callEntry alloy s.1 s.2) := by
  induction specs generalizing maps with
  | nil =>
      cases h
      exact ⟨rfl, rfl⟩
  | cons spec specs ih =>
      rw [List.foldlM_cons, Rows.bind_eq_ok] at h
      obtain ⟨next, hnext, hrest⟩ := h
      obtain ⟨hevents, hcalls⟩ := add_ok hnext
      obtain ⟨hevents', hcalls'⟩ := ih hrest
      rw [hevents', hevents, hcalls', hcalls, ← Table.upsertAll_append, ← Table.upsertAll_append,
        selectedEvents_cons spec specs, selectedFunctions_cons spec specs, List.map_append,
        List.map_append]
      exact ⟨rfl, rfl⟩

/-- Contracts whose files parse are accepted. -/
theorem exists_build_ok {specs : List ContractSpec}
    (h : ∀ spec ∈ specs, ∃ abi, alloy.parse spec.abiJson = .ok abi) :
    ∃ maps, AbiMaps.build alloy specs = .ok maps := by
  obtain ⟨maps, hmaps, -⟩ := Rows.exists_foldlM_ok (AbiMaps.add alloy) (fun _ => True) specs
    (s := ⟨Table.empty, Table.empty⟩) (fun spec hspec maps _ => by
      obtain ⟨abi, habi⟩ := h spec hspec
      rw [AbiMaps.add, habi]
      exact ⟨_, rfl, trivial⟩) trivial
  exact ⟨maps, hmaps⟩

/-- The selected events with a selector. -/
def underTopic (alloy : Alloy) (specs : List ContractSpec) (topic : Hash) :
    List (ContractSpec × AbiEvent) :=
  (selectedEvents alloy specs).filter fun s => alloy.eventSelector s.2 = topic

/-- Under a selector stands the event that was listed last. -/
theorem find?_byTopic0 {specs : List ContractSpec} {maps : AbiMaps}
    (h : AbiMaps.build alloy specs = .ok maps) (topic : Hash) :
    maps.byTopic0.find? topic =
      (underTopic alloy specs topic).getLast?.map fun s => eventEntry alloy s.1 s.2 := by
  rw [(foldlM_add_ok specs h).1, Table.find?_empty_upsertAll]
  rfl

/-- A record is routed exactly as its own contract says: to a table and an event definition if and
only if a specification of its address selects that event under its selector and names that
table. -/
def RoutedByOwn (alloy : Alloy) (specs : List ContractSpec) (maps : AbiMaps) (raw : RawRecord) :
    Prop :=
  ∀ event table,
    (∃ entry, maps.route raw = some entry ∧ entry.event = event ∧ entry.schema.table = table) ↔
      ∃ spec, (spec, event) ∈ selectedEvents alloy specs ∧ spec.address = raw.address ∧
        raw.topic0 = some (alloy.eventSelector event) ∧ spec.eventTable event = table

/-- The record's own contract has the last word on its selector: nobody selects it, or the contract
does, and always with the definition and the table of the event listed last. -/
def OwnPrevails (alloy : Alloy) (specs : List ContractSpec) (raw : RawRecord) : Prop :=
  ∀ topic, raw.topic0 = some topic → underTopic alloy specs topic = [] ∨
    ∃ last, (underTopic alloy specs topic).getLast? = some last ∧
      (∃ own ∈ underTopic alloy specs topic, own.1.address = raw.address) ∧
      ∀ own ∈ underTopic alloy specs topic, own.1.address = raw.address →
        own.2 = last.2 ∧ own.1.eventTable own.2 = last.1.eventTable last.2

theorem mem_underTopic {specs : List ContractSpec} {topic : Hash} {s : ContractSpec × AbiEvent} :
    s ∈ underTopic alloy specs topic ↔
      s ∈ selectedEvents alloy specs ∧ alloy.eventSelector s.2 = topic := by
  rw [underTopic, List.mem_filter, decide_eq_true_eq]

section Route

variable {specs : List ContractSpec} {maps : AbiMaps} {raw : RawRecord} {topic : Hash}

theorem route_of_topic (h : AbiMaps.build alloy specs = .ok maps) (htopic : raw.topic0 = some topic) :
    maps.route raw = (underTopic alloy specs topic).getLast?.map fun s =>
      (eventEntry alloy s.1 s.2).2 := by
  rw [AbiMaps.route, htopic, Option.bind_some, find?_byTopic0 h, Option.map_map]
  rfl

/-- The own contract's selections of a topic, as they appear in the routing statement. -/
theorem exists_own_iff (htopic : raw.topic0 = some topic) {event : AbiEvent} {table : String} :
    (∃ spec, (spec, event) ∈ selectedEvents alloy specs ∧ spec.address = raw.address ∧
        raw.topic0 = some (alloy.eventSelector event) ∧ spec.eventTable event = table) ↔
      ∃ own ∈ underTopic alloy specs topic, own.1.address = raw.address ∧ own.2 = event ∧
        own.1.eventTable own.2 = table := by
  constructor
  · rintro ⟨spec, hmem, haddress, hselector, htable⟩
    rw [htopic, Option.some.injEq] at hselector
    exact ⟨(spec, event), mem_underTopic.mpr ⟨hmem, hselector.symm⟩, haddress, rfl, htable⟩
  · rintro ⟨⟨spec, event'⟩, hmem, haddress, rfl, htable⟩
    obtain ⟨hselected, hselector⟩ := mem_underTopic.mp hmem
    exact ⟨spec, hselected, haddress, by rw [htopic, hselector], htable⟩

end Route

theorem routedByOwn_iff {specs : List ContractSpec} {maps : AbiMaps}
    (h : AbiMaps.build alloy specs = .ok maps) (raw : RawRecord) :
    RoutedByOwn alloy specs maps raw ↔ OwnPrevails alloy specs raw := by
  cases htopic : raw.topic0 with
  | none =>
      have hroute : maps.route raw = none := by rw [AbiMaps.route, htopic]; rfl
      simp [RoutedByOwn, OwnPrevails, hroute, htopic]
  | some topic =>
      have hroute := route_of_topic h htopic
      simp only [RoutedByOwn, exists_own_iff htopic]
      simp only [OwnPrevails, htopic, Option.some.injEq, forall_eq', hroute]
      cases hlast : (underTopic alloy specs topic).getLast? with
      | none =>
          have hnil := List.getLast?_eq_none_iff.mp hlast
          simp [hnil]
      | some last =>
          have hmem := List.mem_of_getLast? hlast
          have hne : underTopic alloy specs topic ≠ [] := List.ne_nil_of_mem hmem
          rw [or_iff_right hne]
          constructor
          · intro hrouted
            refine ⟨last, rfl, ?_, fun own hown haddress => ?_⟩
            · obtain ⟨own, hown, haddress, -⟩ := (hrouted last.2 (last.1.eventTable last.2)).mp
                ⟨_, rfl, rfl, rfl⟩
              exact ⟨own, hown, haddress⟩
            · obtain ⟨entry, hentry, hevent, htable⟩ :=
                (hrouted own.2 (own.1.eventTable own.2)).mpr ⟨own, hown, haddress, rfl, rfl⟩
              cases hentry
              exact ⟨hevent.symm, htable.symm⟩
          · rintro ⟨last', hlast', ⟨own, hown, haddress⟩, hall⟩ event table
            cases hlast'
            constructor
            · rintro ⟨entry, hentry, rfl, rfl⟩
              cases hentry
              exact ⟨own, hown, haddress, hall own hown haddress⟩
            · rintro ⟨own', hown', haddress', rfl, rfl⟩
              obtain ⟨hevent, htable⟩ := hall own' hown' haddress'
              exact ⟨_, rfl, hevent.symm, htable.symm⟩

/-- Records are decoded under the entry they are routed to, which is their own contract's exactly
when that contract prevails. -/
theorem routedByOwn_iff_ownPrevails {specs : List ContractSpec} {maps : AbiMaps}
    (h : AbiMaps.build alloy specs = .ok maps) (raw : RawRecord) :
    (maps.index alloy).decode raw =
        (maps.route raw).elim (.ok none) (fun entry => entry.decode alloy raw) ∧
      (RoutedByOwn alloy specs maps raw ↔ OwnPrevails alloy specs raw) :=
  ⟨decode_index alloy maps raw, routedByOwn_iff h raw⟩

end Spec

/-- `Transfer(address indexed from, address indexed to, uint256 value)`. -/
def erc20Transfer : AbiEvent where
  name := "Transfer"
  inputs := [⟨"address", "from", true⟩, ⟨"address", "to", true⟩, ⟨"uint256", "value", false⟩]
  anonymous := false
  name_ident := by decide

/-- The same signature with its third parameter indexed. -/
def erc721Transfer : AbiEvent where
  name := "Transfer"
  inputs := [⟨"address", "from", true⟩, ⟨"address", "to", true⟩, ⟨"uint256", "tokenId", true⟩]
  anonymous := false
  name_ident := by decide

def transferSelector : Hash :=
  ⟨[0xdd, 0xf2, 0x52, 0xad, 0x1b, 0xe2, 0xc8, 0x9b, 0x69, 0xc2, 0xb0, 0x68, 0xfc, 0x37, 0x8d, 0xaa,
    0x95, 0x2b, 0xa7, 0xf1, 0x63, 0xc4, 0xa1, 0x16, 0x28, 0xf5, 0x5a, 0x4d, 0xf5, 0x23, 0xb3, 0xef]⟩

@[irreducible] def erc20Json : String :=
  "[\x7b\"type\":\"event\",\"name\":\"Transfer\",\"anonymous\":false,\"inputs\":[" ++
  "\x7b\"name\":\"from\",\"type\":\"address\",\"indexed\":true\x7d," ++
  "\x7b\"name\":\"to\",\"type\":\"address\",\"indexed\":true\x7d," ++
  "\x7b\"name\":\"value\",\"type\":\"uint256\",\"indexed\":false\x7d]\x7d]"

@[irreducible] def erc721Json : String :=
  "[\x7b\"type\":\"event\",\"name\":\"Transfer\",\"anonymous\":false,\"inputs\":[" ++
  "\x7b\"name\":\"from\",\"type\":\"address\",\"indexed\":true\x7d," ++
  "\x7b\"name\":\"to\",\"type\":\"address\",\"indexed\":true\x7d," ++
  "\x7b\"name\":\"tokenId\",\"type\":\"uint256\",\"indexed\":true\x7d]\x7d]"

/-- The library on these two files; a log with fewer topics than indexed parameters is not
decoded. -/
def transferAlloy : Alloy where
  parse text :=
    if text = erc20Json then .ok ⟨[erc20Transfer], []⟩
    else if text = erc721Json then .ok ⟨[erc721Transfer], []⟩
    else .error "expected value at line 1 column 1"
  eventSelector event := if event.name = "Transfer" then transferSelector else word 0
  functionSelector _ := [0, 0, 0, 0]
  decodeLogParts _ _ _ := .error "topic list length mismatch"
  abiDecodeInput _ _ := .error "buffer overrun while deserializing"
  eventSelector_length event := by split <;> rfl

def erc20Spec : ContractSpec := ⟨erc20Json, [], [], ⟨List.replicate 20 3⟩, "erc20", none⟩

def erc721Spec : ContractSpec := ⟨erc721Json, [], [], ⟨List.replicate 20 4⟩, "erc721", none⟩

theorem parse_erc20 : transferAlloy.parse erc20Spec.abiJson = .ok ⟨[erc20Transfer], []⟩ := if_pos rfl

theorem parse_erc721 : transferAlloy.parse erc721Spec.abiJson = .ok ⟨[erc721Transfer], []⟩ := by
  have hne : erc721Json ≠ erc20Json := by decide +kernel
  exact (if_neg hne).trans (if_pos rfl)

/-- A transfer log of the first contract. -/
def erc20Log : RawRecord := { logOf [transferSelector] with address := erc20Spec.address }

/-- Of two contracts with one signature, the one listed last keeps its logs. -/
theorem routedByOwn_listed_last :
    ∃ maps, AbiMaps.build transferAlloy [erc721Spec, erc20Spec] = .ok maps ∧
      RoutedByOwn transferAlloy [erc721Spec, erc20Spec] maps erc20Log := by
  have hbuild : ∃ maps, AbiMaps.build transferAlloy [erc721Spec, erc20Spec] = .ok maps :=
    exists_build_ok (List.forall_mem_cons.mpr
      ⟨⟨_, parse_erc721⟩, List.forall_mem_singleton.mpr ⟨_, parse_erc20⟩⟩)
  obtain ⟨maps, hmaps⟩ := hbuild
  refine ⟨maps, hmaps, (routedByOwn_iff_ownPrevails hmaps erc20Log).2.mpr fun topic htopic => ?_⟩
  have hselector : topic = transferSelector := (Option.some.inj htopic).symm
  subst hselector
  have hunder : underTopic transferAlloy [erc721Spec, erc20Spec] transferSelector =
      [(erc721Spec, erc721Transfer), (erc20Spec, erc20Transfer)] := by decide +kernel
  rw [hunder]
  refine .inr ⟨(erc20Spec, erc20Transfer), rfl,
    ⟨_, List.mem_cons_of_mem _ (List.mem_singleton.mpr rfl), rfl⟩, ?_⟩
  intro own hown haddress
  rcases List.mem_cons.mp hown with rfl | hown
  · exact absurd haddress (by decide)
  · rw [List.mem_singleton.mp hown]
    exact ⟨rfl, rfl⟩

/-- With a second contract of the same signature, the first one's logs go to the second's table. -/
theorem not_routedByOwn_two_contracts :
    ¬∀ (alloy : Alloy) (specs : List ContractSpec) (maps : AbiMaps) (raw : RawRecord),
      AbiMaps.build alloy specs = .ok maps → RoutedByOwn alloy specs maps raw := by
  intro hevery
  have hbuild : ∃ maps, AbiMaps.build transferAlloy [erc20Spec, erc721Spec] = .ok maps :=
    exists_build_ok (List.forall_mem_cons.mpr
      ⟨⟨_, parse_erc20⟩, List.forall_mem_singleton.mpr ⟨_, parse_erc721⟩⟩)
  obtain ⟨maps, hmaps⟩ := hbuild
  have hunder : underTopic transferAlloy [erc20Spec, erc721Spec] transferSelector =
      [(erc20Spec, erc20Transfer), (erc721Spec, erc721Transfer)] := by decide +kernel
  have hprevails := (routedByOwn_iff hmaps erc20Log).mp (hevery _ _ _ _ hmaps) transferSelector rfl
  rw [hunder] at hprevails
  rcases hprevails with hnil | ⟨last, hlast, -, hall⟩
  · cases hnil
  · obtain ⟨hevent, -⟩ := hall (erc20Spec, erc20Transfer) List.mem_cons_self rfl
    cases hlast
    exact absurd hevent (by decide)

end Topic0
