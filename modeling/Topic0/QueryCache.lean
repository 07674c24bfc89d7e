import Topic0.BaseCoding
import Topic0.BaseMemo
import Topic0.QueryPaging
import Topic0.QueryRepository

/-! The read cache in front of the repository. Pages are kept under the whole specification and
counts under its table and filters, both as JSON text. How a string is escaped in it is the
serializer's; that it can be told from what follows is all the keys need to differ for different
specifications. Lookups hit or miss as the cache pleases, among the entries inserted under an equal
key. -/

namespace Topic0.CachingEventQueryRepository

open Coding Transition

section Keys

variable (format : StringFormat)

def opText : FilterOp → String
  | .eq => "Eq"
  | .ne => "Ne"
  | .gt => "Gt"
  | .gte => "Gte"
  | .lt => "Lt"
  | .lte => "Lte"

def dirText : SortDir → String
  | .asc => "Asc"
  | .desc => "Desc"

def filterJson (f : Filter) : List Char :=
  [text "\x7b\"column\":", format.quote f.column, text ",\"op\":", format.quote (opText f.op),
    text ",\"value\":", format.quote f.value, text "\x7d"].flatten

def sortJson (s : SortColumn) : List Char :=
  [text "\x7b\"column\":", format.quote s.column, text ",\"dir\":", format.quote (dirText s.dir),
    text "\x7d"].flatten

def arrayJson {α : Type} (item : α → List Char) (items : List α) : List Char :=
  '[' :: sequence item ',' ']' items

def afterJson : Option Cursor → List Char
  | none => text "null"
  | some cursor => format.quote cursor.text

def boolJson (b : Bool) : List Char := if b then text "true" else text "false"

/-- `query_key`: the specification as serde writes it, field by field. -/
def queryKey (spec : QuerySpec) : String :=
  String.ofList [text "\x7b\"table\":", format.quote spec.table,
    text ",\"filters\":", arrayJson (filterJson format) spec.filters,
    text ",\"sort\":", arrayJson (sortJson format) spec.sort,
    text ",\"first\":", Nat.toDigits 10 spec.first,
    text ",\"after\":", afterJson format spec.after,
    text ",\"include_tx\":", boolJson spec.includeTx,
    text ",\"include_receipt\":", boolJson spec.includeReceipt,
    text ",\"descending\":", boolJson spec.descending, text "\x7d"].flatten

/-- `count_key`: a pair, written as an array. -/
def countKey (spec : QuerySpec) : String :=
  String.ofList [text "[", format.quote spec.table, text ",",
    arrayJson (filterJson format) spec.filters, text "]"].flatten

end Keys

section Injective

variable (format : StringFormat)

theorem opText_injective : Function.Injective opText := by
  intro a b h
  cases a <;> cases b <;> first | rfl | exact absurd h (by decide)

theorem dirText_injective : Function.Injective dirText := by
  intro a b h
  cases a <;> cases b <;> first | rfl | exact absurd h (by decide)

theorem selfDelimiting_filterJson : SelfDelimiting (filterJson format) := by
  intro a b r s heq
  simp only [filterJson, List.flatten_cons, List.flatten_nil, List.append_nil,
    List.append_assoc] at heq
  obtain ⟨hcolumn, htail⟩ := (selfDelimiting_quote format).field heq
  obtain ⟨hop, htail⟩ := ((selfDelimiting_quote format).comp opText_injective).field htail
  obtain ⟨hvalue, htail⟩ := (selfDelimiting_quote format).field htail
  refine ⟨?_, List.append_cancel_left htail⟩
  cases a
  cases b
  cases hcolumn
  cases hop
  cases hvalue
  rfl

theorem selfDelimiting_sortJson : SelfDelimiting (sortJson format) := by
  intro a b r s heq
  simp only [sortJson, List.flatten_cons, List.flatten_nil, List.append_nil,
    List.append_assoc] at heq
  obtain ⟨hcolumn, htail⟩ := (selfDelimiting_quote format).field heq
  obtain ⟨hdir, htail⟩ := ((selfDelimiting_quote format).comp dirText_injective).field htail
  refine ⟨?_, List.append_cancel_left htail⟩
  cases a
  cases b
  cases hcolumn
  cases hdir
  rfl

theorem filterJson_object (f : Filter) : ∃ rest, filterJson format f = '\x7b' :: rest := ⟨_, rfl⟩

theorem sortJson_object (s : SortColumn) : ∃ rest, sortJson format s = '\x7b' :: rest := ⟨_, rfl⟩

/-- Arrays of objects delimit themselves. -/
theorem selfDelimiting_arrayJson {α : Type} {item : α → List Char} (h : SelfDelimiting item)
    (hobject : ∀ a, ∃ rest, item a = '\x7b' :: rest) : SelfDelimiting (arrayJson item) := by
  have hsequence : SelfDelimiting (sequence item ',' ']') := by
    apply selfDelimiting_sequence h (by decide)
    · intro a rest heq
      obtain ⟨rest', hrest⟩ := hobject a
      rw [hrest, List.cons.injEq] at heq
      exact absurd heq.1 (by decide)
    · intro a hnil
      obtain ⟨rest', hrest⟩ := hobject a
      rw [hrest] at hnil
      cases hnil
  intro as bs r s heq
  exact hsequence as bs r s (List.cons.inj heq).2

theorem selfDelimiting_afterJson : SelfDelimiting (afterJson format) := by
  have hnull : text "null" = ['n', 'u', 'l', 'l'] := rfl
  have hmark : ∀ (token : String) (r s : List Char),
      format.quote token ++ r ≠ text "null" ++ s := by
    intro token r s heq
    rw [hnull] at heq
    exact absurd (List.cons.inj heq).1 (by decide)
  intro a b r s heq
  cases a with
  | none =>
      cases b with
      | none => exact ⟨rfl, List.append_cancel_left heq⟩
      | some cursor => exact absurd heq.symm (hmark _ _ _)
  | some cursor =>
      cases b with
      | none => exact absurd heq (hmark _ _ _)
      | some cursor' =>
          obtain ⟨htext, hrest⟩ := selfDelimiting_quote format _ _ r s heq
          cases cursor
          cases cursor'
          cases htext
          exact ⟨rfl, hrest⟩

theorem selfDelimiting_boolJson : SelfDelimiting boolJson := by
  apply selfDelimiting_of_prefixFree
  intro a b h
  cases a <;> cases b <;> first | rfl | exact absurd h (by decide)

/-- A number ends at the comma that follows it. -/
theorem selfDelimiting_number : SelfDelimiting fun n : Nat => Nat.toDigits 10 n ++ [','] := by
  apply selfDelimiting_terminated
  · intro m n h
    have hparse := congrArg Decimal.parseNat h
    rw [Decimal.parseNat_toDigits, Decimal.parseNat_toDigits, Option.some.injEq] at hparse
    exact hparse
  · intro n hmem
    exact absurd (Nat.isDigit_of_mem_toDigits (by decide) (by decide) hmem) (by decide)

/-- Different specifications have different keys. -/
theorem queryKey_injective : Function.Injective (queryKey format) := by
  intro a b h
  have heq := String.ofList_inj.mp h
  have hcomma : text ",\"after\":" = [','] ++ text "\"after\":" := rfl
  rw [hcomma] at heq
  simp only [List.flatten_cons, List.flatten_nil, List.append_nil, List.append_assoc] at heq
  obtain ⟨htable, htail⟩ := (selfDelimiting_quote format).field heq
  obtain ⟨hfilters, htail⟩ := (selfDelimiting_arrayJson (selfDelimiting_filterJson format)
    (filterJson_object format)).field htail
  obtain ⟨hsort, htail⟩ := (selfDelimiting_arrayJson (selfDelimiting_sortJson format)
    (sortJson_object format)).field htail
  have hnumber := List.append_cancel_left htail
  rw [← List.append_assoc (Nat.toDigits 10 a.first), ← List.append_assoc (Nat.toDigits 10 b.first)]
    at hnumber
  obtain ⟨hfirst, htail⟩ := selfDelimiting_number _ _ _ _ hnumber
  obtain ⟨hafter, htail⟩ := (selfDelimiting_afterJson format).field htail
  obtain ⟨htx, htail⟩ := selfDelimiting_boolJson.field htail
  obtain ⟨hreceipt, htail⟩ := selfDelimiting_boolJson.field htail
  obtain ⟨hdescending, -⟩ := selfDelimiting_boolJson.field htail
  cases a
  cases b
  simp only [QuerySpec.mk.injEq]
  exact ⟨htable, hfilters, hsort, hfirst, hafter, htx, hreceipt, hdescending⟩

/-- Counts share a key exactly within a table and its filters. -/
theorem countKey_eq_iff {a b : QuerySpec} :
    countKey format a = countKey format b ↔ a.table = b.table ∧ a.filters = b.filters := by
  constructor
  · intro h
    have heq := String.ofList_inj.mp h
    simp only [List.flatten_cons, List.flatten_nil, List.append_nil] at heq
    obtain ⟨htable, htail⟩ := (selfDelimiting_quote format).field heq
    obtain ⟨hfilters, -⟩ := (selfDelimiting_arrayJson (selfDelimiting_filterJson format)
      (filterJson_object format)).field htail
    exact ⟨htable, hfilters⟩
  · intro h
    rw [countKey, countKey, h.1, h.2]

end Injective

section Run

variable {layout : String → PkColumns} (format : StringFormat) (repo : PgEventQueryRepository)
  (pg : Postgres) (store : Store layout)
  (ties : (spec : QuerySpec) → Set (Keyset.Sorter (rowLe spec.descending)))

/-- What the repository may answer to a query: it has one of the orders the database may give to
ties. -/
def QueryAnswers (spec : QuerySpec) (answer : Except (Fault DomainError) (Page Joined)) : Prop :=
  ∃ order ∈ ties spec, repo.query pg store spec order = answer

def CountAnswers (spec : QuerySpec) (answer : Except (Fault DomainError) Nat) : Prop :=
  repo.count pg store spec = answer

/-- The two caches. -/
structure State where
  queries : Memo.State QuerySpec (Fault DomainError) (Page Joined)
  counts : Memo.State QuerySpec (Fault DomainError) Nat

inductive Act where
  | query (act : Memo.Act QuerySpec (Fault DomainError) (Page Joined))
  | count (act : Memo.Act QuerySpec (Fault DomainError) Nat)

def State.step (s : State) : Act → Option State
  | .query act => (s.queries.step (queryKey format) act).map fun queries =>
      { s with queries := queries }
  | .count act => (s.counts.step (countKey format) act).map fun counts => { s with counts := counts }

def system : System State Act where
  init s := s = ⟨Memo.State.empty, Memo.State.empty⟩
  step := State.step format

/-- A miss is answered by the repository, over data that does not change. -/
def Delegated (_ : State) : Act → Prop
  | .query act => Memo.Answered (QueryAnswers repo pg store ties) act
  | .count act => Memo.Answered (CountAnswers repo pg store) act

/-- A count reads nothing but the table and the filters. -/
theorem count_congr {a b : QuerySpec} (htable : a.table = b.table) (hfilters : a.filters = b.filters) :
    repo.count pg store a = repo.count pg store b := by
  rw [PgEventQueryRepository.count, PgEventQueryRepository.count,
    PgEventQueryRepository.validateTable, PgEventQueryRepository.validateTable, htable, hfilters]

theorem determines_query : Memo.Determines (queryKey format) (QueryAnswers repo pg store ties) := by
  intro a b answer hkey hanswer
  rw [← queryKey_injective format hkey]
  exact hanswer

theorem determines_count : Memo.Determines (countKey format) (CountAnswers repo pg store) := by
  intro a b answer hkey hanswer
  obtain ⟨htable, hfilters⟩ := (countKey_eq_iff format).mp hkey
  rw [CountAnswers, ← count_congr repo pg store htable hfilters]
  exact hanswer

variable {format repo pg store ties}

theorem sound_of_reachable {s : State}
    (h : Reachable (system format) (Delegated repo pg store ties) s) :
    Memo.Sound (queryKey format) (QueryAnswers repo pg store ties) s.queries ∧
      Memo.Sound (countKey format) (CountAnswers repo pg store) s.counts := by
  apply h.invariant fun s =>
    Memo.Sound (queryKey format) (QueryAnswers repo pg store ties) s.queries ∧
      Memo.Sound (countKey format) (CountAnswers repo pg store) s.counts
  · intro s hinit
    rw [hinit]
    exact ⟨Memo.sound_empty _ _, Memo.sound_empty _ _⟩
  · intro s act s' hinv hact hstep
    cases act with
    | query act =>
        obtain ⟨queries, hqueries, rfl⟩ := Option.map_eq_some_iff.mp hstep
        exact ⟨Memo.sound_step (determines_query format repo pg store ties) hinv.1 hact hqueries,
          hinv.2⟩
    | count act =>
        obtain ⟨counts, hcounts, rfl⟩ := Option.map_eq_some_iff.mp hstep
        exact ⟨hinv.1, Memo.sound_step (determines_count format repo pg store) hinv.2 hact hcounts⟩

/-- The cache answers as the repository does, serves a page to its own specification and a count
within its table and filters, and keeps answers only. -/
theorem cache_transparent {s : State}
    (h : Reachable (system format) (Delegated repo pg store ties) s) :
    (∀ p ∈ s.queries.returned, ∃ order ∈ ties p.1, repo.query pg store p.1 order = p.2) ∧
      (∀ p ∈ s.counts.returned, repo.count pg store p.1 = p.2) ∧
      (∀ p ∈ s.queries.served, p.2 = p.1) ∧
      (∀ p ∈ s.counts.served, p.2.table = p.1.table ∧ p.2.filters = p.1.filters) ∧
      (∀ p ∈ s.queries.inserted, ∃ order ∈ ties p.1, repo.query pg store p.1 order = .ok p.2) ∧
      ∀ p ∈ s.counts.inserted, repo.count pg store p.1 = .ok p.2 := by
  obtain ⟨hqueries, hcounts⟩ := sound_of_reachable h
  refine ⟨hqueries.returned, hcounts.returned, fun p hp => ?_, fun p hp => ?_, hqueries.inserted,
    hcounts.inserted⟩
  · exact queryKey_injective format (hqueries.served p hp)
  · exact (countKey_eq_iff format).mp (hcounts.served p hp)

/-- One order of ties for each specification. -/
def oneOrder (spec : QuerySpec) : Set (Keyset.Sorter (rowLe spec.descending)) :=
  {rowSorter spec.descending}

/-- A page is asked for twice, and its count from two pages; the second calls hit. -/
theorem cache_transparent_hits :
    ∃ s : State, (s.queries.returned.length, s.queries.served.length, s.counts.returned.length,
        s.counts.served.length) = (2, 1, 2, 1) ∧
      (∀ p ∈ s.queries.returned, ∃ order ∈ oneOrder p.1,
        transferRepo.query chainComparison sharedTable p.1 order = p.2) ∧
      ∀ p ∈ s.counts.returned, transferRepo.count chainComparison sharedTable p.1 = p.2 := by
  have hinit : Reachable (system standardFormat)
      (Delegated transferRepo chainComparison sharedTable oneOrder)
      ⟨Memo.State.empty, Memo.State.empty⟩ := .init rfl
  obtain ⟨s, hs, hobserved⟩ := hinit.exists_observed
    [.query (.miss (transferSpec []) (transferRepo.query chainComparison sharedTable (transferSpec [])
        (rowSorter false))),
      .query (.insert 0), .query (.hit (transferSpec []) 0),
      .count (.miss (transferSpec []) (transferRepo.count chainComparison sharedTable
        (transferSpec []))),
      .count (.insert 0), .count (.hit { transferSpec [] with first := 7 } 0)]
    (by
      intro act hact u
      simp only [List.mem_cons, List.not_mem_nil, or_false] at hact
      rcases hact with rfl | rfl | rfl | rfl | rfl | rfl
      · exact ⟨rowSorter false, rfl, rfl⟩
      · trivial
      · trivial
      · exact rfl
      · trivial
      · trivial)
    (fun s => (s.queries.returned.length, s.queries.served.length, s.counts.returned.length,
      s.counts.served.length)) (b := (2, 1, 2, 1)) (by decide +kernel)
  obtain ⟨hqueries, hcounts, -⟩ := cache_transparent hs
  exact ⟨s, hobserved, hqueries, hcounts⟩

end Run

end Topic0.CachingEventQueryRepository
