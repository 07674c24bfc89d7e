import Topic0.AbiLabels
import Topic0.MigratorDdl

/-! Which of the schemas built from the configured contracts are tables that can be created and
written to. Nothing between the ABI and the database checks the names: a table is named by its
configuration, its columns by the words of the parameters. The conditions are on these, for the
entries that are still there when every contract has been added. -/

namespace Topic0

open Keyed

/-- The columns of every table. -/
def metaNames : List String := ["chain_id", "height", "block_hash", "block_time", "tx_id", "idx"]

/-- The keys a reader adds to an event. -/
def injectedKeys : List String := ["transaction", "receipt"]

/-- A table that can be created, written to and read, `injected` being the keys the reader adds. -/
structure Writable (injected : List String) (schema : EventSchema) : Prop where
  table : isValidIdent schema.table = true
  columns : ∀ c ∈ schema.columns, isValidIdent c.name = true
  distinct : (schema.columns.map ColumnDef.name).Nodup
  no_meta : ∀ c ∈ schema.columns, c.name ∉ metaNames
  no_injected : ∀ c ∈ schema.columns, c.name ∉ injected

section Consequences

variable {injected : List String} {schema : EventSchema}

/-- The columns a statement declares. -/
def Statement.declaredNames : Statement → List String
  | .createTable _ columns _ => columns.map DeclaredColumn.name
  | _ => []

theorem names_metaColumns (table : String) :
    ((Ddl.metaColumns table).map DeclaredColumn.name).Sublist metaNames := by
  unfold Ddl.metaColumns
  cases tableHasIdx table with
  | true => exact List.Sublist.refl _
  | false =>
      show ["chain_id", "height", "block_hash", "block_time", "tx_id"].Sublist metaNames
      decide

/-- No column is declared twice. -/
theorem Writable.nodup_declared (h : Writable injected schema) :
    (Ddl.createTable schema).declaredNames.Nodup := by
  have hmeta := names_metaColumns schema.table
  have hnodup : metaNames.Nodup := by decide
  show (List.map DeclaredColumn.name (Ddl.metaColumns schema.table ++
    schema.columns.map fun c => ⟨c.name, pgType c.ty, false⟩)).Nodup
  rw [List.map_append, List.map_map]
  refine List.nodup_append.mpr ⟨hnodup.sublist hmeta, h.distinct, ?_⟩
  intro name hname name' hname' heq
  obtain ⟨c, hc, rfl⟩ := List.mem_map.mp hname'
  have hsame : name = c.name := heq
  exact h.no_meta c hc (hsame ▸ hmeta.subset hname)

/-- Decoded by the schema, from a log or from the calldata of a transaction. -/
def DecodedBy (schema : EventSchema) (d : DecodedEvent) : Prop :=
  (∃ parts event raw, decodeEvent parts event schema raw = .ok d) ∨
    ∃ decodeInput func input, decodeCall decodeInput func schema input = .ok d

theorem eventFields_names {pairs : List (EventParam × ColumnDef)} {indexed body : List DynSolValue}
    {fields : List (String × EventValue)} (h : eventFields pairs indexed body = .ok fields) :
    fields.map Prod.fst = pairs.map fun p => p.2.name := by
  induction pairs generalizing indexed body fields with
  | nil =>
      cases h
      rfl
  | cons pair pairs ih =>
      obtain ⟨input, col⟩ := pair
      unfold eventFields at h
      split at h
      · cases indexed with
        | nil => cases h
        | cons v indexed =>
            obtain ⟨rest, hrest, hfields⟩ := Rows.bind_eq_ok.mp h
            cases hfields
            rw [List.map_cons, List.map_cons, ih hrest]
      · cases body with
        | nil => cases h
        | cons v body =>
            obtain ⟨rest, hrest, hfields⟩ := Rows.bind_eq_ok.mp h
            cases hfields
            rw [List.map_cons, List.map_cons, ih hrest]

/-- What is decoded goes to the schema's table, under names of its columns. -/
theorem DecodedBy.names {d : DecodedEvent} (h : DecodedBy schema d) :
    d.table = schema.table ∧ ∀ name ∈ d.fields.map Prod.fst, ∃ c ∈ schema.columns, c.name = name := by
  rcases h with ⟨parts, event, raw, h⟩ | ⟨decodeInput, func, input, h⟩
  · unfold decodeEvent at h
    split at h
    · split at h
      · cases h
      · obtain ⟨fields, hfields, hd⟩ := Rows.bind_eq_ok.mp h
        cases hd
        refine ⟨rfl, fun name hname => ?_⟩
        rw [eventFields_names hfields] at hname
        obtain ⟨p, hp, rfl⟩ := List.mem_map.mp hname
        exact ⟨p.2, (List.of_mem_zip hp).2, rfl⟩
    · cases h
  · unfold decodeCall at h
    split at h
    · cases h
    · cases h
      refine ⟨rfl, fun name hname => ?_⟩
      rw [List.map_map] at hname
      obtain ⟨p, hp, rfl⟩ := List.mem_map.mp hname
      exact ⟨p.2, (List.of_mem_zip hp).2, rfl⟩

/-- Statements with sound column lists fail in the database only. -/
theorem insertParts_ne_encode {layout : String → PkColumns} {table message : String}
    (parts : List (List String × List EventRow)) (store : Store layout)
    (h : ∀ part ∈ parts, part.1.mapM safeIdent = .ok part.1) :
    parts.foldlM (EventRepo.insertPart table) store ≠ .error (.encode message) := by
  induction parts generalizing store with
  | nil =>
      intro herror
      cases herror
  | cons part parts ih =>
      rw [List.foldlM_cons, EventRepo.insertPart, h part List.mem_cons_self]
      show (if EventRepo.violatesForeignKey store table part.2 then _ else _) >>= _ ≠ _
      split
      · intro herror
        cases herror
      · exact ih _ fun p hp => h p (List.mem_cons_of_mem _ hp)

/-- Rows decoded by the schema are not refused for their identifiers. -/
theorem Writable.upsert_ne_encode (h : Writable injected schema) {layout : String → PkColumns}
    (store : Store layout) {rows : List EventRow}
    (hrows : ∀ row ∈ rows, DecodedBy schema row.event) (message : String) :
    EventRepo.upsertBatchTx store schema.table rows ≠ .error (.encode message) := by
  rw [EventRepo.upsertBatchTx, safeIdent, if_pos h.table]
  apply insertParts_ne_encode
  intro part hpart
  obtain ⟨⟨row, hrow, hsig⟩, -⟩ := EventRepo.mem_upsertParts hpart
  apply EventRepo.mapM_safeIdent
  intro name hname
  rw [hsig] at hname
  obtain ⟨c, hc, rfl⟩ := (hrows row hrow).names.2 name hname
  exact h.columns c hc

end Consequences

section TableNames

/-- A default table name is an identifier: the prefix has the characters of one, the name of the
entry has no dollar, and with `kind` in front and an underscore between them they are short. -/
structure DefaultTable (kind pre name : String) : Prop where
  chars : pre.toList.all isColumnChar = true
  no_dollar : '$' ∉ name.toList
  short : kind.toList.length + pre.toList.length + 1 + name.toList.length ≤ 63

theorem isColumnChar_toLower {c : Char} (h : isIdentChar c = true) :
    isColumnChar c.toLower = true ↔ c ≠ '$' := by
  simp only [isIdentChar, Bool.or_eq_true, beq_iff_eq] at h
  constructor
  · intro hc heq
    rw [heq] at hc
    exact absurd hc (by decide)
  · intro hne
    rcases h with (halnum | rfl) | rfl
    · have hword := isWordChar_toLower halnum
      rw [isWordChar] at hword
      rw [isColumnChar, hword, Bool.true_or]
    · decide
    · exact absurd rfl hne

theorem all_isColumnChar_toLower {name : String} (h : name.toList.all isIdentChar = true) :
    name.toLower.toList.all isColumnChar = true ↔ '$' ∉ name.toList := by
  rw [String.toLower, String.toList_map, List.all_map, List.all_eq_true]
  rw [List.all_eq_true] at h
  constructor
  · intro hall hmem
    exact (isColumnChar_toLower (h _ hmem)).mp (hall _ hmem) rfl
  · intro hmem c hc
    refine (isColumnChar_toLower (h c hc)).mpr fun heq => ?_
    rw [heq] at hc
    exact hmem hc

theorem isValidIdent_default {kind pre name : String} {c : Char}
    (hkind : kind.toList.all isColumnChar = true) (hhead : kind.toList.head? = some c)
    (hdigit : c.isDigit = false) (hname : name.toList.all isIdentChar = true) :
    isValidIdent (kind ++ pre ++ "_" ++ name.toLower) = true ↔ DefaultTable kind pre name := by
  have hchars : (kind ++ pre ++ "_" ++ name.toLower).toList =
      kind.toList ++ (pre.toList ++ '_' :: name.toLower.toList) := by
    simp [String.toList_append]
  have hlength : name.toLower.toList.length = name.toList.length := by
    rw [String.toLower, String.toList_map, List.length_map]
  have hfirst : (kind.toList ++ (pre.toList ++ '_' :: name.toLower.toList)).head? = some c := by
    rw [List.head?_append, hhead, Option.some_or]
  rw [← String.ofList_toList (s := kind ++ pre ++ "_" ++ name.toLower), isValidIdent_ofList, hchars,
    hfirst]
  simp only [List.all_append, List.all_cons, hkind, Bool.true_and, Bool.and_eq_true,
    all_isColumnChar_toLower hname, List.length_append, List.length_cons, hlength,
    Option.some.injEq, forall_eq', hdigit, and_true]
  have hunderscore : isColumnChar '_' = true := by decide
  constructor
  · intro h
    obtain ⟨-, hshort, hpre, -, hdollar⟩ := h
    exact ⟨hpre, hdollar, by omega⟩
  · intro h
    obtain ⟨hpre, hdollar, hshort⟩ := h
    refine ⟨fun hnil => ?_, by omega, hpre, hunderscore, hdollar⟩
    rw [hnil] at hfirst
    cases hfirst

end TableNames

section Labels

/-- The words of the columns every table has. -/
def metaLabels : List (List (List Char)) :=
  [["chain", "id"], ["height"], ["block", "hash"], ["block", "time"], ["tx", "id"], ["idx"]].map
    (List.map String.toList)

/-- The words of the keys a reader adds. -/
def injectedLabels : List (List (List Char)) := [["transaction".toList], ["receipt".toList]]

/-- The words of the columns of an event. -/
def eventLabels (event : AbiEvent) : List (List (List Char)) :=
  event.inputs.mapIdx fun i p => columnWords i p.name (p.indexed && isDynamic p.ty)

/-- The words of the columns of a function. -/
def callLabels (func : AbiFunction) : List (List (List Char)) :=
  func.inputs.mapIdx fun i p => columnWords i p.name false

theorem name_eventColumn (i : Nat) (p : EventParam) :
    (eventColumn i p).name =
      String.ofList (joinWords (columnWords i p.name (p.indexed && isDynamic p.ty))) := by
  rw [← colName_hashed, eventColumn]
  cases p.indexed && isDynamic p.ty with
  | true => rfl
  | false => rfl

theorem names_schemaFor (topic0 : String) (event : AbiEvent) (table : String) :
    (schemaFor topic0 event table).columns.map ColumnDef.name = labelNames (eventLabels event) := by
  simp only [schemaFor, labelNames, eventLabels, List.mapIdx_eq_zipIdx_map, List.map_map]
  congr 1
  funext p
  exact name_eventColumn p.2 p.1

theorem names_schemaForFunction (func : AbiFunction) (table : String) :
    (schemaForFunction func table).columns.map ColumnDef.name = labelNames (callLabels func) := by
  simp only [schemaForFunction, labelNames, callLabels, List.mapIdx_eq_zipIdx_map, List.map_map]
  congr 1
  funext p
  exact colName_hashed p.2 p.1.name false

theorem columnLabel_eventLabels (event : AbiEvent) : ∀ ws ∈ eventLabels event, ColumnLabel ws := by
  intro ws hws
  obtain ⟨i, hi, rfl⟩ := List.mem_mapIdx.mp hws
  exact columnLabel_columnWords i _ _

theorem columnLabel_callLabels (func : AbiFunction) : ∀ ws ∈ callLabels func, ColumnLabel ws := by
  intro ws hws
  obtain ⟨i, hi, rfl⟩ := List.mem_mapIdx.mp hws
  exact columnLabel_columnWords i _ _

theorem columnLabel_reserved : ∀ ws ∈ metaLabels ++ injectedLabels, ColumnLabel ws ∧ ws ≠ [] := by
  have hchars : ((metaLabels ++ injectedLabels).all fun ws => ws.all fun w => w.all isWordChar) =
      true := by decide
  have hproper : ∀ ws ∈ metaLabels ++ injectedLabels, ws ≠ [[]] ∧ ws ≠ [] := by decide
  simp only [List.all_eq_true] at hchars
  intro ws hws
  exact ⟨⟨hchars ws hws, (hproper ws hws).1⟩, (hproper ws hws).2⟩

/-- A schema can be written to when its table is an identifier and the labels of its columns are
good names for one table. -/
theorem writable_iff {injected : List String} {reserved labels : List (List (List Char))}
    {schema : EventSchema} (hcolumns : schema.columns.map ColumnDef.name = labelNames labels)
    (hlabels : ∀ ws ∈ labels, ColumnLabel ws)
    (hreserved : ∀ ws ∈ reserved, ColumnLabel ws ∧ ws ≠ [])
    (hnames : labelNames reserved = metaNames ++ injected) :
    Writable injected schema ↔
      isValidIdent schema.table = true ∧ DistinctLabels reserved labels := by
  rw [← distinctLabels_iff hlabels hreserved, hnames, ← hcolumns]
  constructor
  · intro h
    refine ⟨h.table, List.forall_mem_map.mpr h.columns, h.distinct, List.forall_mem_map.mpr ?_⟩
    intro c hc hmem
    rcases List.mem_append.mp hmem with hmem | hmem
    · exact h.no_meta c hc hmem
    · exact h.no_injected c hc hmem
  · intro ⟨htable, hident, hnodup, hfree⟩
    rw [List.forall_mem_map] at hident hfree
    exact ⟨htable, hident, hnodup, fun c hc hmem => hfree c hc (List.mem_append_left _ hmem),
      fun c hc hmem => hfree c hc (List.mem_append_right _ hmem)⟩

end Labels

section Surviving

variable {alloy : Alloy} {specs : List ContractSpec} {maps : AbiMaps}

/-- No event selected later has the same selector. -/
def LastEvent (alloy : Alloy) (specs : List ContractSpec) (s : ContractSpec × AbiEvent) : Prop :=
  (underTopic alloy specs (alloy.eventSelector s.2)).getLast? = some s

/-- No function selected later has the same address and selector. -/
def LastCall (alloy : Alloy) (specs : List ContractSpec) (s : ContractSpec × AbiFunction) : Prop :=
  ((selectedFunctions alloy specs).filter fun s' =>
    (callEntry alloy s'.1 s'.2).1 = (callEntry alloy s.1 s.2).1).getLast? = some s

theorem mem_schemas (h : AbiMaps.build alloy specs = .ok maps) {schema : EventSchema} :
    schema ∈ maps.schemas ↔
      ∃ s, LastEvent alloy specs s ∧ (eventEntry alloy s.1 s.2).2.schema = schema := by
  rw [AbiMaps.schemas, (foldlM_add_ok specs h).1]
  exact Table.mem_map_empty_upsertAll
    (fun s : ContractSpec × AbiEvent => eventEntry alloy s.1 s.2) _ _

theorem mem_callSchemas (h : AbiMaps.build alloy specs = .ok maps) {schema : EventSchema} :
    schema ∈ maps.callSchemas ↔
      ∃ s, LastCall alloy specs s ∧ (callEntry alloy s.1 s.2).2.schema = schema := by
  rw [AbiMaps.callSchemas, (foldlM_add_ok specs h).2]
  exact Table.mem_map_empty_upsertAll
    (fun s : ContractSpec × AbiFunction => callEntry alloy s.1 s.2) _ _

end Surviving

/-- An event's names are good: those of its table, as it is configured, and those of its
parameters. -/
structure EventNamed (spec : ContractSpec) (event : AbiEvent) : Prop where
  override : ∀ table, spec.tableOverride = some table → isValidIdent table = true
  table : spec.tableOverride = none → DefaultTable "evt_" spec.tablePrefix event.name
  columns : DistinctLabels (metaLabels ++ injectedLabels) (eventLabels event)

/-- The same for a function, which no override renames and to which no keys are added. -/
structure CallNamed (spec : ContractSpec) (func : AbiFunction) : Prop where
  table : DefaultTable "call_" spec.tablePrefix func.name
  columns : DistinctLabels metaLabels (callLabels func)

theorem isValidIdent_eventTable (spec : ContractSpec) (event : AbiEvent) :
    isValidIdent (spec.eventTable event) = true ↔
      (∀ table, spec.tableOverride = some table → isValidIdent table = true) ∧
        (spec.tableOverride = none → DefaultTable "evt_" spec.tablePrefix event.name) := by
  have hdefault : isValidIdent ("evt_" ++ spec.tablePrefix ++ "_" ++ event.name.toLower) = true ↔
      DefaultTable "evt_" spec.tablePrefix event.name :=
    isValidIdent_default (c := 'e') (by decide) (by decide) (by decide) event.name_ident
  unfold ContractSpec.eventTable
  cases spec.tableOverride with
  | none => simpa using hdefault
  | some table => simp

theorem writable_event_iff (alloy : Alloy) (spec : ContractSpec) (event : AbiEvent) :
    Writable injectedKeys (eventEntry alloy spec event).2.schema ↔ EventNamed spec event := by
  refine (writable_iff (names_schemaFor _ event _) (columnLabel_eventLabels event)
    columnLabel_reserved (by decide)).trans ?_
  show isValidIdent (spec.eventTable event) = true ∧ _ ↔ _
  rw [isValidIdent_eventTable, and_assoc]
  constructor
  · intro ⟨hoverride, htable, hcolumns⟩
    exact ⟨hoverride, htable, hcolumns⟩
  · intro ⟨hoverride, htable, hcolumns⟩
    exact ⟨hoverride, htable, hcolumns⟩

theorem writable_call_iff (alloy : Alloy) (spec : ContractSpec) (func : AbiFunction) :
    Writable [] (callEntry alloy spec func).2.schema ↔ CallNamed spec func := by
  have hdefault : isValidIdent (spec.callTable func) = true ↔
      DefaultTable "call_" spec.tablePrefix func.name :=
    isValidIdent_default (c := 'c') (by decide) (by decide) (by decide) func.name_ident
  refine (writable_iff (names_schemaForFunction func _) (columnLabel_callLabels func)
    (fun ws hws => columnLabel_reserved ws (List.mem_append_left _ hws)) (by decide)).trans ?_
  show isValidIdent (spec.callTable func) = true ∧ _ ↔ _
  rw [hdefault]
  constructor
  · intro ⟨htable, hcolumns⟩
    exact ⟨htable, hcolumns⟩
  · intro ⟨htable, hcolumns⟩
    exact ⟨htable, hcolumns⟩

/-- Every schema of the index can be written to exactly when the entries that are left in it have
good names. Such a schema declares no column twice, and the rows decoded by it are not refused for
their identifiers. -/
theorem schemas_writable_iff_named {alloy : Alloy} {specs : List ContractSpec} {maps : AbiMaps}
    (h : AbiMaps.build alloy specs = .ok maps) :
    (((∀ schema ∈ maps.schemas, Writable injectedKeys schema) ∧
        ∀ schema ∈ maps.callSchemas, Writable [] schema) ↔
      (∀ s, LastEvent alloy specs s → EventNamed s.1 s.2) ∧
        ∀ s, LastCall alloy specs s → CallNamed s.1 s.2) ∧
    ∀ injected schema, Writable injected schema →
      (Ddl.createTable schema).declaredNames.Nodup ∧
      ∀ (layout : String → PkColumns) (store : Store layout) (rows : List EventRow) (message : String),
        (∀ row ∈ rows, DecodedBy schema row.event) →
        EventRepo.upsertBatchTx store schema.table rows ≠ .error (.encode message) := by
  refine ⟨and_congr ?_ ?_, fun injected schema hw => ⟨hw.nodup_declared, ?_⟩⟩
  · constructor
    · intro hall s hs
      exact (writable_event_iff alloy s.1 s.2).mp (hall _ ((mem_schemas h).mpr ⟨s, hs, rfl⟩))
    · intro hnamed schema hschema
      obtain ⟨s, hs, rfl⟩ := (mem_schemas h).mp hschema
      exact (writable_event_iff alloy s.1 s.2).mpr (hnamed s hs)
  · constructor
    · intro hall s hs
      exact (writable_call_iff alloy s.1 s.2).mp (hall _ ((mem_callSchemas h).mpr ⟨s, hs, rfl⟩))
    · intro hnamed schema hschema
      obtain ⟨s, hs, rfl⟩ := (mem_callSchemas h).mp hschema
      exact (writable_call_iff alloy s.1 s.2).mpr (hnamed s hs)
  · intro layout store rows message hrows
    exact hw.upsert_ne_encode store hrows message

theorem schemas_writable_erc20 :
    ∃ maps, AbiMaps.build transferAlloy [erc20Spec] = .ok maps ∧
      (∀ schema ∈ maps.schemas, Writable injectedKeys schema) ∧
      ∀ schema ∈ maps.callSchemas, Writable [] schema := by
  have hbuild : ∃ maps, AbiMaps.build transferAlloy [erc20Spec] = .ok maps :=
    exists_build_ok (List.forall_mem_singleton.mpr ⟨_, parse_erc20⟩)
  obtain ⟨maps, hmaps⟩ := hbuild
  have hevents : selectedEvents transferAlloy [erc20Spec] = [(erc20Spec, erc20Transfer)] := by
    decide +kernel
  have hcalls : selectedFunctions transferAlloy [erc20Spec] = [] := by decide +kernel
  refine ⟨maps, hmaps, (schemas_writable_iff_named hmaps).1.mpr ⟨fun s hs => ?_, fun s hs => ?_⟩⟩
  · have hmem := (mem_underTopic.mp (List.mem_of_getLast? hs)).1
    rw [hevents, List.mem_singleton] at hmem
    rw [hmem]
    exact ⟨nofun, fun _ => ⟨by decide, by decide, by decide⟩, by decide⟩
  · have hmem := (List.mem_filter.mp (List.mem_of_getLast? hs)).1
    rw [hcalls] at hmem
    exact absurd hmem List.not_mem_nil

/-- `Sync(uint112 _0, uint112 _1)`. -/
def syncEvent : AbiEvent where
  name := "Sync"
  inputs := [⟨"uint112", "_0", false⟩, ⟨"uint112", "_1", false⟩]
  anonymous := false
  name_ident := by decide

def syncSelector : Hash :=
  ⟨[0x1c, 0x41, 0x1e, 0x9a, 0x96, 0xe0, 0x71, 0x24, 0x1c, 0x2f, 0x21, 0xf7, 0x72, 0x6b, 0x17, 0xae,
    0x89, 0xe3, 0xca, 0xb4, 0xc7, 0x8b, 0xe5, 0x0e, 0x06, 0x2b, 0x03, 0xa9, 0xff, 0xfb, 0xba, 0xd1]⟩

/-- The library on a file with this event alone. -/
def syncAlloy : Alloy where
  parse _ := .ok ⟨[syncEvent], []⟩
  eventSelector _ := syncSelector
  functionSelector _ := [0, 0, 0, 0]
  decodeLogParts _ _ _ := .error "topic list length mismatch"
  abiDecodeInput _ _ := .error "buffer overrun while deserializing"
  eventSelector_length _ := rfl

def syncSpec : ContractSpec where
  abiJson := "[\x7b\"type\":\"event\",\"name\":\"Sync\",\"inputs\":[" ++
    "\x7b\"name\":\"_0\",\"type\":\"uint112\",\"indexed\":false\x7d," ++
    "\x7b\"name\":\"_1\",\"type\":\"uint112\",\"indexed\":false\x7d]\x7d]"
  events := []
  functions := []
  address := ⟨List.replicate 20 5⟩
  tablePrefix := "pair"
  tableOverride := none

/-- The columns of these parameters are `0` and `1`. -/
theorem not_writable_underscored_digits :
    ¬∀ (alloy : Alloy) (specs : List ContractSpec) (maps : AbiMaps),
      AbiMaps.build alloy specs = .ok maps →
      (∀ schema ∈ maps.schemas, Writable injectedKeys schema) ∧
        ∀ schema ∈ maps.callSchemas, Writable [] schema := by
  intro hevery
  have hbuild : ∃ maps, AbiMaps.build syncAlloy [syncSpec] = .ok maps :=
    exists_build_ok (List.forall_mem_singleton.mpr ⟨_, rfl⟩)
  obtain ⟨maps, hmaps⟩ := hbuild
  have hlast : LastEvent syncAlloy [syncSpec] (syncSpec, syncEvent) := rfl
  have hwritable := (hevery _ _ _ hmaps).1 _ ((mem_schemas hmaps).mpr ⟨_, hlast, rfl⟩)
  have hcolumn : isValidIdent (eventColumn 0 ⟨"uint112", "_0", false⟩).name = true :=
    hwritable.columns _ List.mem_cons_self
  exact absurd hcolumn (by decide)

end Topic0
