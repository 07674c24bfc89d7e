import Topic0.AbiLabels

/-! The normal form of a snake-cased name. A name in normal form is its own words joined again, so
that nothing is inserted, dropped or changed when it is normalized once more. What is kept of a name
are its letters and digits, in their order. -/

namespace Topic0

/-- Nothing, or nonempty runs of small letters and digits with single underscores between them. -/
structure SnakeNormal (text : List Char) : Prop where
  runs : ∃ ws, text = joinWords ws ∧ ∀ w ∈ ws, w ≠ [] ∧ ∀ c ∈ w, isWordChar c = true
  chars : ∀ c ∈ text, isWordChar c = true ∨ c = '_'
  first : text.head? ≠ some '_'
  last : text.getLast? ≠ some '_'
  single : text.IsChain fun a b => a ≠ '_' ∨ b ≠ '_'

section Normal

variable {c : Char} {w : List Char} {ws : List (List Char)}

theorem joinWords_cons_cons (v u : List Char) (ws : List (List Char)) :
    joinWords (v :: u :: ws) = v ++ '_' :: joinWords (u :: ws) := by
  simp [joinWords]

theorem joinWords_singleton (w : List Char) : joinWords [w] = w := by
  simp [joinWords]

theorem isUpper_of_isWordChar (h : isWordChar c = true) : c.isUpper = false := by
  rw [Bool.eq_false_iff]
  intro hupper
  simp only [isWordChar, Char.isUpper, Char.isLower, Char.isDigit, Bool.or_eq_true, Bool.and_eq_true,
    decide_eq_true_eq, UInt32.le_iff_toNat_le, ge_iff_le] at h hupper
  have hZ : 'Z'.val.toNat = 90 := rfl
  have ha : 'a'.val.toNat = 97 := rfl
  have hA : 'A'.val.toNat = 65 := rfl
  have hnine : '9'.val.toNat = 57 := rfl
  omega

theorem isAlphanum_of_isWordChar (h : isWordChar c = true) : c.isAlphanum = true := by
  rw [isWordChar, Bool.or_eq_true] at h
  rcases h with h | h
  · simp [Char.isAlphanum, Char.isAlpha, h]
  · simp [Char.isAlphanum, h]

theorem ne_underscore_of_isWordChar (h : isWordChar c = true) : c ≠ '_' := by
  rintro rfl
  exact absurd h (by decide)

theorem cleanWords_of_runs (h : ∀ w ∈ ws, w ≠ [] ∧ ∀ c ∈ w, isWordChar c = true) :
    CleanWords ws := by
  intro w hw
  refine ⟨(h w hw).1, ?_⟩
  intro hmem
  exact ne_underscore_of_isWordChar ((h w hw).2 _ hmem) rfl

theorem mem_joinWords (h : c ∈ joinWords ws) : c = '_' ∨ ∃ w ∈ ws, c ∈ w := by
  induction ws with
  | nil => exact absurd h List.not_mem_nil
  | cons v ws ih =>
      cases ws with
      | nil =>
          rw [joinWords_singleton] at h
          exact .inr ⟨v, List.mem_cons_self, h⟩
      | cons u ws =>
          rw [joinWords_cons_cons] at h
          rcases List.mem_append.mp h with hv | h
          · exact .inr ⟨v, List.mem_cons_self, hv⟩
          · rcases List.mem_cons.mp h with rfl | h
            · exact .inl rfl
            · rcases ih h with rfl | ⟨w, hw, hc⟩
              · exact .inl rfl
              · exact .inr ⟨w, List.mem_cons_of_mem _ hw, hc⟩

theorem isChain_of_not_mem (h : '_' ∉ w) : w.IsChain fun a b => a ≠ '_' ∨ b ≠ '_' := by
  apply List.Pairwise.isChain
  rw [List.pairwise_iff_forall_sublist]
  intro a b hsub
  left
  rintro rfl
  exact h (hsub.subset List.mem_cons_self)

theorem isChain_joinWords (h : CleanWords ws) :
    (joinWords ws).IsChain fun a b => a ≠ '_' ∨ b ≠ '_' := by
  induction ws with
  | nil => exact List.IsChain.nil
  | cons v ws ih =>
      have hv := h v List.mem_cons_self
      have hws : CleanWords ws := fun u hu => h u (List.mem_cons_of_mem _ hu)
      cases ws with
      | nil =>
          rw [joinWords_singleton]
          exact isChain_of_not_mem hv.2
      | cons u ws =>
          rw [joinWords_cons_cons, List.isChain_append]
          refine ⟨isChain_of_not_mem hv.2, ?_, ?_⟩
          · refine (ih hws).cons ?_
            intro c hc
            right
            rintro rfl
            exact head?_joinWords_ne hws hc
          · intro a ha b hb
            left
            rintro rfl
            exact hv.2 (List.mem_of_getLast? ha)

theorem snakeNormal_joinWords (h : ∀ w ∈ ws, w ≠ [] ∧ ∀ c ∈ w, isWordChar c = true) :
    SnakeNormal (joinWords ws) where
  runs := ⟨ws, rfl, h⟩
  chars := by
    intro c hc
    rcases mem_joinWords hc with rfl | ⟨w, hw, hc⟩
    · exact .inr rfl
    · exact .inl ((h w hw).2 c hc)
  first := head?_joinWords_ne (cleanWords_of_runs h)
  last := getLast?_joinWords_ne (cleanWords_of_runs h)
  single := isChain_joinWords (cleanWords_of_runs h)

end Normal

section Letters

/-- The words of a text are its letters and digits, in order. -/
theorem flatten_wordsFrom (cur : List Char) (prev : Option Char) (chars : List Char) :
    (wordsFrom cur prev chars).flatten =
      cur ++ (chars.filter Char.isAlphanum).map Char.toLower := by
  have hflush : ∀ cur : List Char, (flushWord cur).flatten = cur := by
    intro cur
    cases cur with
    | nil => rfl
    | cons c cur => simp [flushWord]
  induction chars generalizing cur prev with
  | nil =>
      rw [wordsFrom, hflush]
      simp
  | cons c rest ih =>
      rw [wordsFrom]
      split
      · rename_i halnum
        rw [List.filter_cons_of_pos halnum, List.map_cons]
        split
        · rw [List.flatten_append, hflush, ih]
          rfl
        · rw [ih, List.append_assoc]
          rfl
      · rename_i halnum
        rw [List.filter_cons_of_neg halnum, List.flatten_append, hflush, ih]
        rfl

/-- The letters and digits of joined words are the words. -/
theorem filter_joinWords {ws : List (List Char)}
    (h : ∀ w ∈ ws, w ≠ [] ∧ ∀ c ∈ w, isWordChar c = true) :
    (joinWords ws).filter Char.isAlphanum = ws.flatten := by
  have hword : ∀ w ∈ ws, w.filter Char.isAlphanum = w := by
    intro w hw
    rw [List.filter_eq_self]
    intro c hc
    exact isAlphanum_of_isWordChar ((h w hw).2 c hc)
  induction ws with
  | nil => rfl
  | cons v ws ih =>
      have hv := hword v List.mem_cons_self
      have hrest := ih (fun w hw => h w (List.mem_cons_of_mem _ hw))
        fun w hw => hword w (List.mem_cons_of_mem _ hw)
      cases ws with
      | nil => rw [joinWords_singleton, hv, List.flatten_singleton]
      | cons u ws =>
          have hseparator : ¬('_').isAlphanum = true := by decide
          rw [joinWords_cons_cons, List.filter_append, hv, List.filter_cons_of_neg hseparator, hrest]
          rfl

end Letters

section Again

/-- Small letters and digits go on with the word in progress. -/
theorem wordsFrom_run {w : List Char} (h : ∀ c ∈ w, isWordChar c = true) (cur : List Char)
    (prev : Option Char) (rest : List Char) :
    ∃ prev', wordsFrom cur prev (w ++ rest) = wordsFrom (cur ++ w) prev' rest := by
  induction w generalizing cur prev with
  | nil => exact ⟨prev, by rw [List.nil_append, List.append_nil]⟩
  | cons c w ih =>
      have hc := h c List.mem_cons_self
      have hupper := isUpper_of_isWordChar hc
      have hboundary : wordBoundary prev c (w ++ rest).head? = false := by
        rw [wordBoundary, hupper, Bool.false_and]
      obtain ⟨prev', hrest⟩ := ih (fun d hd => h d (List.mem_cons_of_mem _ hd)) (cur ++ [c]) (some c)
      refine ⟨prev', ?_⟩
      rw [List.cons_append, wordsFrom, if_pos (isAlphanum_of_isWordChar hc), hboundary,
        toLower_eq_self hupper]
      simp only [Bool.false_eq_true, if_false]
      rw [hrest, List.append_assoc, List.singleton_append]

/-- The words of joined words are the words. -/
theorem wordsFrom_joinWords {ws : List (List Char)}
    (h : ∀ w ∈ ws, w ≠ [] ∧ ∀ c ∈ w, isWordChar c = true) (prev : Option Char) :
    wordsFrom [] prev (joinWords ws) = ws := by
  induction ws generalizing prev with
  | nil => rfl
  | cons v ws ih =>
      have hv := h v List.mem_cons_self
      cases ws with
      | nil =>
          obtain ⟨prev', hrun⟩ := wordsFrom_run hv.2 [] prev []
          rw [List.append_nil] at hrun
          rw [joinWords_singleton, hrun, List.nil_append, wordsFrom, flushWord_of_ne_nil hv.1]
      | cons u ws =>
          obtain ⟨prev', hrun⟩ := wordsFrom_run hv.2 [] prev ('_' :: joinWords (u :: ws))
          have hseparator : ('_').isAlphanum = false := by decide
          rw [joinWords_cons_cons, hrun, List.nil_append, wordsFrom, hseparator]
          simp only [Bool.false_eq_true, if_false]
          rw [flushWord_of_ne_nil hv.1, ih fun w hw => h w (List.mem_cons_of_mem _ hw)]
          rfl

end Again

/-- Snake-casing gives the normal form of a name's letters and digits, and gives it again. -/
theorem toSnakeCase_normal (name : String) :
    SnakeNormal (toSnakeCase name).toList ∧
      (toSnakeCase name).toList.filter Char.isAlphanum =
        (name.toList.filter Char.isAlphanum).map Char.toLower ∧
      toSnakeCase (toSnakeCase name) = toSnakeCase name := by
  have hwords : ∀ w ∈ words name, w ≠ [] ∧ ∀ c ∈ w, isWordChar c = true := fun w => of_mem_words
  have hchars : (toSnakeCase name).toList = joinWords (words name) := by
    rw [toSnakeCase_eq, String.toList_ofList]
  refine ⟨?_, ?_, ?_⟩
  · rw [hchars]
    exact snakeNormal_joinWords hwords
  · rw [hchars, filter_joinWords hwords, words, flatten_wordsFrom, List.nil_append]
  · rw [toSnakeCase_eq (toSnakeCase name), words, hchars, wordsFrom_joinWords hwords, toSnakeCase_eq]

end Topic0
