import Topic0.AbiRouting
import Topic0.QueryRepository
import Topic0.SourceFetch

/-! The filter of the fetched logs: the addresses of the contracts and the selectors of the index.
An empty set matches anything. A name that a contract lists and its ABI does not have is passed over
when the index is built, so that the set of selectors can be empty for a misspelt name; the filter
then matches every log of the contracts. -/

namespace Topic0

open Keyed

/-- `parse_addr`. -/
def parseAddr (text : String) : Except (Fault SourceError) AddressBytes :=
  match hexDecode text with
  | .error _ => .error .panic
  | .ok (some bytes) =>
      if bytes.length = 20 then .ok ⟨bytes⟩
      else .error (.error (.malformed ("bad address " ++ text)))
  | .ok none => .error (.error (.malformed ("bad address " ++ text)))

/-- The addresses of the specifications come from `parse_addr`. -/
theorem length_of_parseAddr {text : String} {address : AddressBytes}
    (h : parseAddr text = .ok address) : address.bytes.length = 20 := by
  unfold parseAddr at h
  split at h
  · cases h
  · split at h
    · rename_i hlength
      cases h
      exact hlength
    · cases h
  · cases h

/-- Selects records by address and selector. -/
structure RecordFilter where
  addresses : List AddressBytes
  selectors : List Hash

/-- The filter a node is asked with: addresses and first topics, where an empty set is any. -/
structure LogFilter where
  address : List AddressBytes
  topic0 : List Hash

def LogFilter.Matches (filter : LogFilter) (log : Log) : Prop :=
  (filter.address = [] ∨ log.address ∈ filter.address) ∧
    (filter.topic0 = [] ∨ ∃ topic ∈ filter.topic0, log.topics.head? = some topic)

/-- `base_filter`. `none` is the panic of `from_slice` on bytes of another length. -/
def baseFilter (f : RecordFilter) : Option LogFilter :=
  if f.addresses.all (fun a => a.bytes.length == 20) && f.selectors.all fun s => s.bytes.length == 32
  then some ⟨f.addresses, f.selectors⟩
  else none

/-- `AbiIndex::topic0s`. -/
def AbiMaps.topic0s (maps : AbiMaps) : List Hash := maps.byTopic0.rows.map Prod.fst

/-- `EvmDecoder::record_filter`. -/
def recordFilter (maps : AbiMaps) (specs : List ContractSpec) : RecordFilter :=
  ⟨specs.map ContractSpec.address, maps.topic0s⟩

variable {alloy : Alloy}

/-- The names a contract lists are names of its ABI. -/
def NamesFound (alloy : Alloy) (spec : ContractSpec) : Prop :=
  ∃ abi, alloy.parse spec.abiJson = .ok abi ∧
    (∀ name ∈ spec.events, ∃ event ∈ abi.events, event.name = name) ∧
    ∀ name ∈ spec.functions, ∃ func ∈ abi.functions, func.name = name

/-- The log is of a configured contract and of a selected event. -/
def Wanted (alloy : Alloy) (specs : List ContractSpec) (log : Log) : Prop :=
  (∃ spec ∈ specs, spec.address = log.address) ∧
    ∃ s ∈ selectedEvents alloy specs, log.topics.head? = some (alloy.eventSelector s.2)

/-- The index and its filter honour the names: each is found, the filter matches wanted logs only,
and it has selectors when a contract lists events. -/
structure HonoursNames (alloy : Alloy) (specs : List ContractSpec) (maps : AbiMaps) : Prop where
  found : ∀ spec ∈ specs, NamesFound alloy spec
  matched : ∀ filter, baseFilter (recordFilter maps specs) = some filter →
    ∀ log, filter.Matches log → Wanted alloy specs log
  selective : (∃ spec ∈ specs, spec.events ≠ []) → (recordFilter maps specs).selectors ≠ []

section Filter

variable {specs : List ContractSpec} {maps : AbiMaps}

/-- The selectors are those of the selected events. -/
theorem mem_topic0s (h : AbiMaps.build alloy specs = .ok maps) (topic : Hash) :
    topic ∈ maps.topic0s ↔ ∃ s ∈ selectedEvents alloy specs, alloy.eventSelector s.2 = topic := by
  have hkeys : topic ∈ maps.topic0s ↔ maps.byTopic0.find? topic ≠ none := by
    rw [Ne, Table.find?_eq_none]
    simp [AbiMaps.topic0s, Table.mem_def]
  have hlast : maps.byTopic0.find? topic ≠ none ↔ underTopic alloy specs topic ≠ [] := by
    rw [find?_byTopic0 h, Ne, Option.map_eq_none_iff, List.getLast?_eq_none_iff]
  rw [hkeys, hlast]
  constructor
  · intro hne
    obtain ⟨s, hs⟩ := List.exists_mem_of_ne_nil _ hne
    exact ⟨s, mem_underTopic.mp hs⟩
  · intro hsome
    obtain ⟨s, hs⟩ := hsome
    exact List.ne_nil_of_mem (mem_underTopic.mpr hs)

theorem topic0s_eq_nil (h : AbiMaps.build alloy specs = .ok maps) :
    maps.topic0s = [] ↔ selectedEvents alloy specs = [] := by
  constructor
  · intro hnil
    apply List.eq_nil_iff_forall_not_mem.mpr
    intro s hs
    have hmem : alloy.eventSelector s.2 ∈ maps.topic0s := (mem_topic0s h _).mpr ⟨s, hs, rfl⟩
    rw [hnil] at hmem
    exact absurd hmem List.not_mem_nil
  · intro hnil
    apply List.eq_nil_iff_forall_not_mem.mpr
    intro topic htopic
    obtain ⟨s, hs, -⟩ := (mem_topic0s h topic).mp htopic
    rw [hnil] at hs
    exact absurd hs List.not_mem_nil

/-- A filter that is built has the sets it is asked for. -/
theorem baseFilter_eq_some {f : RecordFilter} {filter : LogFilter} (h : baseFilter f = some filter) :
    filter = ⟨f.addresses, f.selectors⟩ := by
  unfold baseFilter at h
  split at h
  · cases h
    rfl
  · cases h

theorem baseFilter_recordFilter (h : AbiMaps.build alloy specs = .ok maps)
    (hlength : ∀ spec ∈ specs, spec.address.bytes.length = 20) :
    baseFilter (recordFilter maps specs) = some ⟨specs.map ContractSpec.address, maps.topic0s⟩ := by
  apply if_pos
  rw [Bool.and_eq_true, List.all_eq_true, List.all_eq_true]
  constructor
  · intro address haddress
    obtain ⟨spec, hspec, rfl⟩ := List.mem_map.mp haddress
    exact beq_iff_eq.mpr (hlength spec hspec)
  · intro selector hselector
    obtain ⟨s, -, rfl⟩ := (mem_topic0s h selector).mp hselector
    exact beq_iff_eq.mpr (alloy.eventSelector_length s.2)

/-- With a selected event, the filter matches wanted logs only. -/
theorem wanted_of_matches (h : AbiMaps.build alloy specs = .ok maps)
    (hselected : selectedEvents alloy specs ≠ []) {filter : LogFilter}
    (hfilter : baseFilter (recordFilter maps specs) = some filter) {log : Log}
    (hmatches : filter.Matches log) : Wanted alloy specs log := by
  rw [baseFilter_eq_some hfilter] at hmatches
  obtain ⟨haddress, htopic⟩ := hmatches
  constructor
  · rcases haddress with hnil | hmem
    · have hspecs : specs = [] := List.map_eq_nil_iff.mp hnil
      rw [hspecs] at hselected
      exact absurd rfl hselected
    · exact List.mem_map.mp hmem
  · rcases htopic with hnil | ⟨topic, htopic, hlog⟩
    · exact absurd ((topic0s_eq_nil h).mp hnil) hselected
    · obtain ⟨s, hs, rfl⟩ := (mem_topic0s h topic).mp htopic
      exact ⟨s, hs, hlog⟩

/-- A log without topics. -/
def bareLog (address : AddressBytes) : Log := ⟨none, none, none, none, none, address, [], []⟩

/-- Without a selected event, the filter matches a log nobody asked for. -/
theorem matches_bareLog (h : AbiMaps.build alloy specs = .ok maps)
    (hlength : ∀ spec ∈ specs, spec.address.bytes.length = 20)
    (hnone : selectedEvents alloy specs = []) :
    ∃ filter address, baseFilter (recordFilter maps specs) = some filter ∧
      filter.Matches (bareLog address) := by
  have hselectors := (topic0s_eq_nil h).mpr hnone
  have hfilter := baseFilter_recordFilter h hlength
  cases specs with
  | nil => exact ⟨_, ⟨[]⟩, hfilter, .inl rfl, .inl hselectors⟩
  | cons spec specs =>
      refine ⟨_, spec.address, hfilter, .inr ?_, .inl hselectors⟩
      exact List.mem_map.mpr ⟨spec, List.mem_cons_self, rfl⟩

/-- The names are honoured exactly when each is found and some event is selected. -/
theorem honoursNames_iff_found (h : AbiMaps.build alloy specs = .ok maps)
    (hlength : ∀ spec ∈ specs, spec.address.bytes.length = 20) :
    HonoursNames alloy specs maps ↔
      (∀ spec ∈ specs, NamesFound alloy spec) ∧ selectedEvents alloy specs ≠ [] := by
  constructor
  · intro hhonours
    refine ⟨hhonours.found, fun hnone => ?_⟩
    obtain ⟨filter, address, hfilter, hmatches⟩ := matches_bareLog h hlength hnone
    obtain ⟨-, s, hs, -⟩ := hhonours.matched filter hfilter _ hmatches
    rw [hnone] at hs
    exact absurd hs List.not_mem_nil
  · intro hcond
    obtain ⟨hfound, hselected⟩ := hcond
    refine ⟨hfound, fun filter hfilter log => wanted_of_matches h hselected hfilter, ?_⟩
    intro hlisted hnil
    exact hselected ((topic0s_eq_nil h).mp hnil)

end Filter

/-- The transfers of a contract by their name. -/
def namedSpec (name : String) : ContractSpec := { erc20Spec with events := [name] }

theorem exists_build_namedSpec (name : String) :
    ∃ maps, AbiMaps.build transferAlloy [namedSpec name] = .ok maps :=
  exists_build_ok (List.forall_mem_singleton.mpr ⟨_, parse_erc20⟩)

theorem honoursNames_transfer :
    ∃ maps, AbiMaps.build transferAlloy [namedSpec "Transfer"] = .ok maps ∧
      HonoursNames transferAlloy [namedSpec "Transfer"] maps := by
  obtain ⟨maps, hmaps⟩ := exists_build_namedSpec "Transfer"
  have hlength : ∀ spec ∈ [namedSpec "Transfer"], spec.address.bytes.length = 20 := by decide
  refine ⟨maps, hmaps, (honoursNames_iff_found hmaps hlength).mpr ⟨?_, by decide +kernel⟩⟩
  intro spec hspec
  rw [List.mem_singleton.mp hspec]
  refine ⟨_, parse_erc20, ?_, fun name hname => absurd hname List.not_mem_nil⟩
  intro name hname
  rw [List.mem_singleton.mp hname]
  exact ⟨erc20Transfer, List.mem_cons_self, rfl⟩

/-- A misspelt name is accepted, and the filter matches a log without topics. -/
theorem not_honoursNames_misspelt :
    ¬∀ (alloy : Alloy) (specs : List ContractSpec) (maps : AbiMaps),
      AbiMaps.build alloy specs = .ok maps →
      (∀ spec ∈ specs, spec.address.bytes.length = 20) → HonoursNames alloy specs maps := by
  intro hevery
  obtain ⟨maps, hmaps⟩ := exists_build_namedSpec "Transfers"
  have hlength : ∀ spec ∈ [namedSpec "Transfers"], spec.address.bytes.length = 20 := by decide
  have hnone : selectedEvents transferAlloy [namedSpec "Transfers"] = [] := by decide +kernel
  obtain ⟨filter, address, hfilter, hmatches⟩ := matches_bareLog hmaps hlength hnone
  obtain ⟨-, s, hs, -⟩ := (hevery _ _ _ hmaps hlength).matched filter hfilter _ hmatches
  rw [hnone] at hs
  exact absurd hs List.not_mem_nil

end Topic0
