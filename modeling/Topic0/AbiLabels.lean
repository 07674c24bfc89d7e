import Topic0.AbiNames

/-! When a column name is an identifier the writer accepts. A name is the words of its parameter,
joined by underscores; whether it is an identifier, and whether two of them are the same, is read off
the words. -/

namespace Topic0

/-- A character of an identifier the writer accepts. -/
def isColumnChar (c : Char) : Bool := c.isLower || c.isDigit || c == '_'

section Ident

theorem utf8Size_of_isColumnChar {c : Char} (h : isColumnChar c = true) : c.utf8Size = 1 := by
  have hle : c.val ≤ 127 := by
    simp only [isColumnChar, Bool.or_eq_true, beq_iff_eq, Char.isLower, Char.isDigit,
      Bool.and_eq_true, decide_eq_true_eq, UInt32.le_iff_toNat_le, ge_iff_le] at h ⊢
    have hz : 'z'.val.toNat = 122 := rfl
    have hnine : '9'.val.toNat = 57 := rfl
    have hmax : (127 : UInt32).toNat = 127 := rfl
    rcases h with (h | h) | rfl
    · omega
    · omega
    · decide
  exact if_pos hle

theorem utf8ByteSize_ofList {text : List Char} (h : text.all isColumnChar = true) :
    (String.ofList text).utf8ByteSize = text.length := by
  induction text with
  | nil => rfl
  | cons c text ih =>
      rw [List.all_cons, Bool.and_eq_true] at h
      have hsplit : String.ofList (c :: text) = String.singleton c ++ String.ofList text := by simp
      rw [hsplit, String.utf8ByteSize_append, String.utf8ByteSize_singleton,
        utf8Size_of_isColumnChar h.1, ih h.2, List.length_cons, Nat.add_comm]

/-- A text is an identifier when its characters are, it is neither empty nor too long, and does not
begin with a digit. -/
theorem isValidIdent_ofList (text : List Char) :
    isValidIdent (String.ofList text) = true ↔
      text ≠ [] ∧ text.length ≤ 63 ∧ text.all isColumnChar = true ∧
        ∀ c, text.head? = some c → c.isDigit = false := by
  have hchars : (text.all fun c => c.isLower || c.isDigit || c == '_') = text.all isColumnChar := rfl
  simp only [isValidIdent, String.toList_ofList, Bool.and_eq_true, Bool.not_eq_true',
    decide_eq_true_eq, hchars, List.isEmpty_eq_false_iff]
  constructor
  · rintro ⟨⟨⟨hne, hsize⟩, hall⟩, hhead⟩
    rw [utf8ByteSize_ofList hall] at hsize
    refine ⟨hne, hsize, hall, fun c hc => ?_⟩
    rw [hc, Option.any_some] at hhead
    exact hhead
  · rintro ⟨hne, hlength, hall, hhead⟩
    refine ⟨⟨⟨hne, ?_⟩, hall⟩, ?_⟩
    · rw [utf8ByteSize_ofList hall]
      exact hlength
    · cases hc : text.head? with
      | none => rfl
      | some c => exact hhead c hc

end Ident

/-- A character of a word. -/
def isWordChar (c : Char) : Bool := c.isLower || c.isDigit

section Words

theorem isWordChar_toLower {c : Char} (h : c.isAlphanum = true) : isWordChar c.toLower = true := by
  cases hupper : c.isUpper with
  | true => rw [isWordChar, isLower_toLower hupper, Bool.true_or]
  | false =>
      rw [toLower_eq_self hupper]
      simpa [Char.isAlphanum, Char.isAlpha, hupper, isWordChar] using h

/-- Words are nonempty runs of small letters and digits. -/
theorem of_mem_wordsFrom {cur : List Char} {prev : Option Char} {chars w : List Char}
    (hcur : ∀ c ∈ cur, isWordChar c = true) (hw : w ∈ wordsFrom cur prev chars) :
    w ≠ [] ∧ ∀ c ∈ w, isWordChar c = true := by
  have hflush : ∀ {cur : List Char}, (∀ c ∈ cur, isWordChar c = true) → w ∈ flushWord cur →
      w ≠ [] ∧ ∀ c ∈ w, isWordChar c = true := by
    intro cur hcur hw
    by_cases hnil : cur = []
    · rw [hnil] at hw
      exact absurd hw List.not_mem_nil
    · rw [flushWord_of_ne_nil hnil] at hw
      rw [List.mem_singleton.mp hw]
      exact ⟨hnil, hcur⟩
  induction chars generalizing cur prev with
  | nil => exact hflush hcur hw
  | cons c rest ih =>
      rw [wordsFrom] at hw
      split at hw
      · rename_i halnum
        have hc := isWordChar_toLower halnum
        split at hw
        · rcases List.mem_append.mp hw with hw | hw
          · exact hflush hcur hw
          · exact ih (List.forall_mem_singleton.mpr hc) hw
        · refine ih (fun d hd => ?_) hw
          rcases List.mem_append.mp hd with hd | hd
          · exact hcur d hd
          · rw [List.mem_singleton.mp hd]
            exact hc
      · rcases List.mem_append.mp hw with hw | hw
        · exact hflush hcur hw
        · exact ih (fun d hd => absurd hd List.not_mem_nil) hw

theorem of_mem_words {name : String} {w : List Char} (h : w ∈ words name) :
    w ≠ [] ∧ ∀ c ∈ w, isWordChar c = true :=
  of_mem_wordsFrom (fun _ hc => absurd hc List.not_mem_nil) h

/-- The words of the `i`-th parameter, which is numbered where it has no name. -/
def paramWords (i : Nat) (name : String) : List (List Char) :=
  if name.isEmpty then ["arg".toList ++ Nat.toDigits 10 i] else words name

/-- The words of its column: a hashed one ends in `hash`, even when its name has no words at all. -/
def columnWords (i : Nat) (name : String) (hashed : Bool) : List (List Char) :=
  if hashed then (if paramWords i name = [] then [[]] else paramWords i name) ++ ["hash".toList]
  else paramWords i name

theorem toList_colName (i : Nat) (name : String) :
    (colName i name).toList = joinWords (paramWords i name) := by
  unfold colName paramWords
  split
  · simp [joinWords]
  · rw [toSnakeCase_eq, String.toList_ofList]

/-- A column is named by its words. -/
theorem colName_hashed (i : Nat) (name : String) (hashed : Bool) :
    (if hashed then colName i name ++ "_hash" else colName i name) =
      String.ofList (joinWords (columnWords i name hashed)) := by
  have hchars : (if hashed then colName i name ++ "_hash" else colName i name).toList =
      joinWords (columnWords i name hashed) := by
    unfold columnWords
    cases hashed with
    | false => exact toList_colName i name
    | true =>
        simp only [if_true, String.toList_append, toList_colName]
        by_cases hnil : paramWords i name = []
        · rw [if_pos hnil, hnil]
          simp [joinWords]
        · rw [if_neg hnil, joinWords_concat hnil]
          rfl
  rw [← hchars, String.ofList_toList]

/-- Words of the characters of identifiers, not the single empty one. -/
structure ColumnLabel (ws : List (List Char)) : Prop where
  chars : ∀ w ∈ ws, ∀ c ∈ w, isWordChar c = true
  proper : ws ≠ [[]]

theorem of_mem_paramWords {i : Nat} {name : String} {w : List Char} (h : w ∈ paramWords i name) :
    w ≠ [] ∧ ∀ c ∈ w, isWordChar c = true := by
  unfold paramWords at h
  split at h
  · rw [List.mem_singleton.mp h]
    refine ⟨by simp, fun c hc => ?_⟩
    rcases List.mem_append.mp hc with hc | hc
    · have harg : "arg".toList.all isWordChar = true := by decide
      exact List.all_eq_true.mp harg c hc
    · rw [isWordChar, Nat.isDigit_of_mem_toDigits (by decide) (by decide) hc, Bool.or_true]
  · exact of_mem_words h

theorem columnLabel_columnWords (i : Nat) (name : String) (hashed : Bool) :
    ColumnLabel (columnWords i name hashed) := by
  have hhash : "hash".toList.all isWordChar = true := by decide
  unfold columnWords
  cases hashed with
  | false =>
      refine ⟨fun w hw => (of_mem_paramWords hw).2, fun heq => ?_⟩
      exact (of_mem_paramWords (heq ▸ List.mem_singleton.mpr rfl)).1 rfl
  | true =>
      rw [if_pos rfl]
      refine ⟨fun w hw => ?_, fun heq => ?_⟩
      · rcases List.mem_append.mp hw with hw | hw
        · split at hw
          · rw [List.mem_singleton.mp hw]
            exact fun c hc => absurd hc List.not_mem_nil
          · exact (of_mem_paramWords hw).2
        · rw [List.mem_singleton.mp hw]
          exact List.all_eq_true.mp hhash
      · have hmem : "hash".toList ∈ ([[]] : List (List Char)) := by
          rw [← heq]
          exact List.mem_append_right _ (List.mem_singleton.mpr rfl)
        exact absurd (List.mem_singleton.mp hmem) (by decide)

end Words

/-- The words make an identifier: there is one, the first does not begin with a digit, and together
with the underscores they have at most 63 characters. -/
structure IdentWords (ws : List (List Char)) : Prop where
  some_word : ws ≠ []
  no_digit : ∀ c, ws.head?.bind List.head? = some c → c.isDigit = false
  short : (ws.map List.length).sum + (ws.length - 1) ≤ 63

instance (ws : List (List Char)) : Decidable (IdentWords ws) :=
  decidable_of_iff (ws ≠ [] ∧ (ws.head?.bind List.head?).all (fun c => !c.isDigit) = true ∧
      (ws.map List.length).sum + (ws.length - 1) ≤ 63) <| by
    rw [Option.all_eq_true]
    simp only [Bool.not_eq_true']
    exact ⟨fun ⟨hsome, hdigit, hshort⟩ => ⟨hsome, hdigit, hshort⟩,
      fun ⟨hsome, hdigit, hshort⟩ => ⟨hsome, hdigit, hshort⟩⟩

section Labels

variable {ws : List (List Char)}

theorem joinWords_eq_nil_iff (h : ColumnLabel ws) : joinWords ws = [] ↔ ws = [] := by
  constructor
  · intro hnil
    cases ws with
    | nil => rfl
    | cons v ws =>
        cases ws with
        | nil =>
            have hv : v = [] := by simpa [joinWords] using hnil
            exact absurd (by rw [hv]) h.proper
        | cons u ws => simp [joinWords] at hnil
  · intro hnil
    rw [hnil]
    rfl

/-- Joined words begin with a digit only when the first word does. -/
theorem head?_joinWords_digit {c : Char} (hc : c.isDigit = true) :
    (joinWords ws).head? = some c ↔ ws.head?.bind List.head? = some c := by
  have hne : '_' ≠ c := by
    rintro rfl
    exact absurd hc (by decide)
  cases ws with
  | nil => rfl
  | cons v ws =>
      cases ws with
      | nil => simp [joinWords]
      | cons u ws =>
          cases v with
          | nil => simp [joinWords, hne]
          | cons d v => simp [joinWords]

theorem all_isColumnChar_joinWords (h : ∀ w ∈ ws, ∀ c ∈ w, isWordChar c = true) :
    (joinWords ws).all isColumnChar = true := by
  have hword : ∀ {c : Char}, isWordChar c = true → isColumnChar c = true := by
    intro c hc
    rw [isWordChar] at hc
    rw [isColumnChar, hc, Bool.true_or]
  induction ws with
  | nil => rfl
  | cons v ws ih =>
      have hv : v.all isColumnChar = true :=
        List.all_eq_true.mpr fun c hc => hword (h v List.mem_cons_self c hc)
      cases ws with
      | nil => simpa [joinWords] using hv
      | cons u ws =>
          have hrest := ih fun w hw => h w (List.mem_cons_of_mem _ hw)
          have hsplit : joinWords (v :: u :: ws) = v ++ '_' :: joinWords (u :: ws) := by
            simp [joinWords]
          rw [hsplit, List.all_append, List.all_cons, hv, hrest]
          decide

theorem isValidIdent_joinWords (h : ColumnLabel ws) :
    isValidIdent (String.ofList (joinWords ws)) = true ↔ IdentWords ws := by
  rw [isValidIdent_ofList]
  constructor
  · rintro ⟨hne, hlength, -, hhead⟩
    refine ⟨fun hnil => hne ((joinWords_eq_nil_iff h).mpr hnil), fun c hc => ?_, ?_⟩
    · cases hdigit : c.isDigit with
      | false => rfl
      | true => rw [← hdigit, hhead c ((head?_joinWords_digit hdigit).mpr hc)]
    · rw [← length_joinWords]
      exact hlength
  · rintro ⟨hsome, hdigit, hshort⟩
    refine ⟨fun hnil => hsome ((joinWords_eq_nil_iff h).mp hnil), ?_,
      all_isColumnChar_joinWords h.chars, fun c hc => ?_⟩
    · rw [length_joinWords]
      exact hshort
    · cases hc' : c.isDigit with
      | false => rfl
      | true => rw [← hc', hdigit c ((head?_joinWords_digit hc').mp hc)]

theorem underscore_not_mem (h : ColumnLabel ws) : ∀ w ∈ ws, '_' ∉ w := fun w hw hmem =>
  absurd (h.chars w hw '_' hmem) (by decide)

/-- Labels of identifiers are told apart by their names. -/
theorem joinWords_label_inj {vs : List (List Char)} (hw : ColumnLabel ws) (hv : ColumnLabel vs)
    (hws : ws ≠ []) (hvs : vs ≠ [])
    (h : String.ofList (joinWords ws) = String.ofList (joinWords vs)) : ws = vs := by
  refine joinWords_inj (underscore_not_mem hw) (underscore_not_mem hv) hws hvs ?_
  have hchars := congrArg String.toList h
  rwa [String.toList_ofList, String.toList_ofList] at hchars

end Labels

/-- The names of labels. -/
def labelNames (labels : List (List (List Char))) : List String :=
  labels.map fun ws => String.ofList (joinWords ws)

/-- Labels whose columns can stand in one table: identifiers, distinct, and none of them reserved. -/
structure DistinctLabels (reserved labels : List (List (List Char))) : Prop where
  ident : ∀ ws ∈ labels, IdentWords ws
  distinct : labels.Nodup
  free : ∀ ws ∈ labels, ws ∉ reserved

instance (reserved labels : List (List (List Char))) : Decidable (DistinctLabels reserved labels) :=
  decidable_of_iff ((∀ ws ∈ labels, IdentWords ws) ∧ labels.Nodup ∧ ∀ ws ∈ labels, ws ∉ reserved)
    ⟨fun ⟨hident, hdistinct, hfree⟩ => ⟨hident, hdistinct, hfree⟩,
      fun ⟨hident, hdistinct, hfree⟩ => ⟨hident, hdistinct, hfree⟩⟩

theorem distinctLabels_iff {reserved labels : List (List (List Char))}
    (hlabels : ∀ ws ∈ labels, ColumnLabel ws)
    (hreserved : ∀ ws ∈ reserved, ColumnLabel ws ∧ ws ≠ []) :
    ((∀ name ∈ labelNames labels, isValidIdent name = true) ∧ (labelNames labels).Nodup ∧
        ∀ name ∈ labelNames labels, name ∉ labelNames reserved) ↔
      DistinctLabels reserved labels := by
  have hident : (∀ name ∈ labelNames labels, isValidIdent name = true) ↔
      ∀ ws ∈ labels, IdentWords ws := by
    simp only [labelNames, List.forall_mem_map]
    exact forall₂_congr fun ws hws => isValidIdent_joinWords (hlabels ws hws)
  constructor
  · rintro ⟨hvalid, hnodup, hfree⟩
    refine ⟨hident.mp hvalid, hnodup.of_map, fun ws hws hmem => ?_⟩
    exact hfree _ (List.mem_map_of_mem hws) (List.mem_map_of_mem hmem)
  · rintro ⟨hwords, hnodup, hfree⟩
    refine ⟨hident.mpr hwords, ?_, ?_⟩
    · refine hnodup.map_on fun ws hws vs hvs heq => ?_
      exact joinWords_label_inj (hlabels ws hws) (hlabels vs hvs) (hwords ws hws).some_word
        (hwords vs hvs).some_word heq
    · intro name hname hmem
      obtain ⟨ws, hws, rfl⟩ := List.mem_map.mp hname
      obtain ⟨vs, hvs, heq⟩ := List.mem_map.mp hmem
      have hsame := joinWords_label_inj (hreserved vs hvs).1 (hlabels ws hws) (hreserved vs hvs).2
        (hwords ws hws).some_word heq
      exact hfree ws hws (hsame ▸ hvs)

end Topic0
