import Mathlib
import Topic0.AbiRouting
import Topic0.StoreTables

/-! The names of the typed tables and their columns. Snake-casing a name is joining its words: runs
of letters and digits, cut again where a capital begins a word. Whether a schema can be written to
is read off the words of its parameters. -/

namespace Topic0

/-- Words joined by underscores. -/
def joinWords (ws : List (List Char)) : List Char := ['_'].intercalate ws

/-- Nonempty words without underscores. -/
def CleanWords (ws : List (List Char)) : Prop := ∀ w ∈ ws, w ≠ [] ∧ '_' ∉ w

section Join

variable {ws : List (List Char)} {w : List Char}

theorem joinWords_concat (hne : ws ≠ []) : joinWords (ws ++ [w]) = joinWords ws ++ '_' :: w := by
  induction ws with
  | nil => exact absurd rfl hne
  | cons v ws ih =>
      cases ws with
      | nil => simp [joinWords]
      | cons u ws =>
          have hrest := ih (List.cons_ne_nil u ws)
          simp only [joinWords, List.cons_append, List.intercalate_cons_cons] at hrest ⊢
          rw [hrest, ← List.append_assoc]

theorem joinWords_ne_nil (hne : ws ≠ []) (h : CleanWords ws) : joinWords ws ≠ [] := by
  cases ws with
  | nil => exact absurd rfl hne
  | cons v ws =>
      have hv := (h v List.mem_cons_self).1
      cases ws with
      | nil => simpa [joinWords] using hv
      | cons u ws => simp [joinWords]

/-- Joined words begin with their first character. -/
theorem head?_joinWords (h : CleanWords ws) : (joinWords ws).head? = ws.head?.bind List.head? := by
  cases ws with
  | nil => rfl
  | cons v ws =>
      obtain ⟨c, rest, hv⟩ := List.exists_cons_of_ne_nil (h v List.mem_cons_self).1
      cases ws with
      | nil => simp [joinWords]
      | cons u ws => simp [joinWords, hv]

theorem getLast?_joinWords_ne (h : CleanWords ws) : (joinWords ws).getLast? ≠ some '_' := by
  induction ws with
  | nil => simp [joinWords]
  | cons v ws ih =>
      have hws : CleanWords ws := fun u hu => h u (List.mem_cons_of_mem _ hu)
      cases ws with
      | nil =>
          intro hlast
          simp only [joinWords, List.intercalate_singleton] at hlast
          exact (h v List.mem_cons_self).2 (List.mem_of_getLast? hlast)
      | cons u ws =>
          have hne : joinWords (u :: ws) ≠ [] := joinWords_ne_nil (List.cons_ne_nil u ws) hws
          have hsplit : joinWords (v :: u :: ws) = (v ++ ['_']) ++ joinWords (u :: ws) := by
            simp [joinWords]
          rw [hsplit, List.getLast?_append_of_ne_nil _ hne]
          exact ih hws

theorem head?_joinWords_ne (h : CleanWords ws) : (joinWords ws).head? ≠ some '_' := by
  rw [head?_joinWords h]
  intro hhead
  obtain ⟨v, hv, hc⟩ := Option.bind_eq_some_iff.mp hhead
  exact (h v (List.mem_of_head? hv)).2 (List.mem_of_head? hc)

/-- Different words join differently. -/
theorem joinWords_inj {vs : List (List Char)} (hw : ∀ w ∈ ws, '_' ∉ w) (hv : ∀ v ∈ vs, '_' ∉ v)
    (hws : ws ≠ []) (hvs : vs ≠ []) (h : joinWords ws = joinWords vs) : ws = vs := by
  have hsplit := congrArg (List.splitOn '_') h
  rw [joinWords, joinWords, List.splitOn_intercalate '_' hw hws,
    List.splitOn_intercalate '_' hv hvs] at hsplit
  exact hsplit

theorem length_joinWords : (joinWords ws).length = (ws.map List.length).sum + (ws.length - 1) := by
  induction ws with
  | nil => rfl
  | cons v ws ih =>
      cases ws with
      | nil => simp [joinWords]
      | cons u ws =>
          have hsplit : joinWords (v :: u :: ws) = v ++ '_' :: joinWords (u :: ws) := by
            simp [joinWords]
          rw [hsplit, List.length_append, List.length_cons, ih]
          simp only [List.map_cons, List.sum_cons, List.length_cons]
          omega

/-- Trimming joined words with an underscore around them leaves the joined words. -/
theorem trimUnderscores_joinWords (h : CleanWords ws) {lead tail : List Char}
    (hlead : lead = [] ∨ lead = ['_']) (htail : tail = [] ∨ tail = ['_']) :
    trimUnderscores (lead ++ joinWords ws ++ tail) = joinWords ws := by
  unfold trimUnderscores
  by_cases hempty : joinWords ws = []
  · rw [hempty]
    rcases hlead with rfl | rfl <;> rcases htail with rfl | rfl <;> rfl
  · have hfirst : ∀ rest, (joinWords ws ++ rest).dropWhile (· == '_') = joinWords ws ++ rest := by
      intro rest
      have hhead := head?_joinWords_ne h
      cases hj : joinWords ws with
      | nil => exact absurd hj hempty
      | cons c cs =>
          rw [hj, List.head?_cons] at hhead
          have hc : (c == '_') = false := beq_eq_false_iff_ne.mpr fun heq => hhead (by rw [heq])
          rw [List.cons_append, List.dropWhile_cons, hc]
          rfl
    have hlast : (joinWords ws).rdropWhile (· == '_') = joinWords ws := by
      rw [List.rdropWhile_eq_self_iff]
      intro hne hc
      have hlast := getLast?_joinWords_ne h
      rw [List.getLast?_eq_getLast_of_ne_nil hne] at hlast
      exact hlast (by rw [beq_iff_eq.mp hc])
    have hdrop : (lead ++ joinWords ws ++ tail).dropWhile (· == '_') = joinWords ws ++ tail := by
      rcases hlead with rfl | rfl
      · exact hfirst tail
      · exact hfirst tail
    rw [hdrop]
    rcases htail with rfl | rfl
    · rw [List.append_nil, hlast]
    · rw [List.rdropWhile_concat_pos _ _ _ (by decide), hlast]

end Join

/-- A word in progress, once it has a character. -/
def flushWord (cur : List Char) : List (List Char) := if cur.isEmpty then [] else [cur]

/-- A capital that begins a word: after a small letter or a digit, or as the last of a run of
capitals before a small letter. -/
def wordBoundary (prev : Option Char) (c : Char) (next : Option Char) : Bool :=
  c.isUpper && prev.any fun p => p.isLower || p.isDigit || (p.isUpper && next.any Char.isLower)

/-- The words of the characters left, the one before them and the word in progress given. -/
def wordsFrom (cur : List Char) (prev : Option Char) : List Char → List (List Char)
  | [] => flushWord cur
  | c :: rest =>
      if c.isAlphanum then
        if wordBoundary prev c rest.head? then
          flushWord cur ++ wordsFrom [c.toLower] (some c) rest
        else wordsFrom (cur ++ [c.toLower]) (some c) rest
      else flushWord cur ++ wordsFrom [] (some c) rest

/-- The words of a name, in small letters. -/
def words (name : String) : List (List Char) := wordsFrom [] none name.toList

section Snake

theorem flushWord_of_ne_nil {cur : List Char} (h : cur ≠ []) : flushWord cur = [cur] :=
  if_neg fun hempty => h (List.isEmpty_iff.mp hempty)

theorem isAlphanum_of_isUpper {c : Char} (h : c.isUpper = true) : c.isAlphanum = true := by
  simp [Char.isAlphanum, Char.isAlpha, h]

theorem toLower_eq_self {c : Char} (h : c.isUpper = false) : c.toLower = c := by
  unfold Char.isUpper at h
  unfold Char.toLower
  exact dif_neg (of_decide_eq_false h)

theorem isLower_toLower {c : Char} (h : c.isUpper = true) : c.toLower.isLower = true := by
  have hrange : c.val ≥ 'A'.val ∧ c.val ≤ 'Z'.val := of_decide_eq_true h
  unfold Char.toLower Char.isLower
  rw [dif_pos hrange]
  simp only [ge_iff_le, UInt32.le_iff_toNat_le, UInt32.toNat_add, Bool.and_eq_true,
    decide_eq_true_eq] at hrange ⊢
  have hA : 'A'.val.toNat = 65 := rfl
  have hZ : 'Z'.val.toNat = 90 := rfl
  have ha : 'a'.val.toNat = 97 := rfl
  have hz : 'z'.val.toNat = 122 := rfl
  have hshift : ('a'.val - 'A'.val).toNat = 32 := rfl
  omega

theorem toLower_ne_underscore {c : Char} (h : c.isAlphanum = true) : c.toLower ≠ '_' := by
  intro heq
  cases hupper : c.isUpper with
  | true =>
      have hlower := isLower_toLower hupper
      rw [heq] at hlower
      exact absurd hlower (by decide)
  | false =>
      rw [toLower_eq_self hupper] at heq
      rw [heq] at h
      exact absurd h (by decide)

/-- How the output of the loop shows the finished words and the one in progress. -/
inductive Rendered : List (List Char) → List Char → List Char → Prop
  | start {lead : List Char} (hlead : lead = [] ∨ lead = ['_']) : Rendered [] [] lead
  | word {done : List (List Char)} {cur lead : List Char} (hlead : lead = [] ∨ lead = ['_'])
      (hdone : CleanWords (done ++ [cur])) :
      Rendered done cur (lead ++ joinWords (done ++ [cur]))
  | separated {done : List (List Char)} {lead : List Char} (hlead : lead = [] ∨ lead = ['_'])
      (hne : done ≠ []) (hdone : CleanWords done) :
      Rendered done [] (lead ++ joinWords done ++ ['_'])

variable {done : List (List Char)} {cur out : List Char} {c : Char}

theorem joinWords_push (done : List (List Char)) (cur : List Char) (c : Char) :
    joinWords (done ++ [cur]) ++ [c] = joinWords (done ++ [cur ++ [c]]) := by
  by_cases hne : done = []
  · rw [hne]
    simp [joinWords]
  · rw [joinWords_concat hne, joinWords_concat hne, List.append_assoc, List.cons_append]

theorem CleanWords.concat {ws : List (List Char)} {w : List Char} (h : CleanWords ws) (hne : w ≠ [])
    (hw : '_' ∉ w) : CleanWords (ws ++ [w]) := by
  intro v hv
  rcases List.mem_append.mp hv with hv | hv
  · exact h v hv
  · rw [List.mem_singleton.mp hv]
    exact ⟨hne, hw⟩

/-- A character joins the word in progress, or begins one. -/
theorem Rendered.push (h : Rendered done cur out) (hc : c ≠ '_') :
    Rendered done (cur ++ [c]) (out ++ [c]) := by
  have hsingle : '_' ∉ [c] := fun hmem => hc (List.mem_singleton.mp hmem).symm
  cases h with
  | start hlead =>
      have hword : Rendered [] [c] _ := .word hlead
        (CleanWords.concat (fun _ hw => absurd hw List.not_mem_nil) (List.cons_ne_nil _ _) hsingle)
      simpa [joinWords] using hword
  | word hlead hdone =>
      rename_i lead
      rw [List.append_assoc, joinWords_push]
      refine .word hlead (CleanWords.concat (fun w hw => ?_) (by simp) ?_)
      · exact hdone w (List.mem_append_left _ hw)
      · have hcur := (hdone cur (by simp)).2
        simp only [List.mem_append, not_or]
        exact ⟨hcur, hsingle⟩
  | separated hlead hne hdone =>
      rename_i lead
      have hword : Rendered done [c] _ :=
        .word hlead (CleanWords.concat hdone (List.cons_ne_nil _ _) hsingle)
      rw [joinWords_concat hne] at hword
      simpa using hword

/-- A capital that begins a word ends the one in progress. -/
theorem Rendered.begin (h : Rendered done cur out) (hcur : cur ≠ []) (hc : c ≠ '_') :
    out.getLast? ≠ some '_' ∧ Rendered (done ++ [cur]) [c] (out ++ ['_'] ++ [c]) := by
  have hsingle : '_' ∉ [c] := fun hmem => hc (List.mem_singleton.mp hmem).symm
  cases h with
  | start hlead => exact absurd rfl hcur
  | separated hlead hne hdone => exact absurd rfl hcur
  | word hlead hdone =>
      rename_i lead
      have hne : joinWords (done ++ [cur]) ≠ [] := joinWords_ne_nil (by simp) hdone
      refine ⟨?_, ?_⟩
      · rw [List.getLast?_append_of_ne_nil _ hne]
        exact getLast?_joinWords_ne hdone
      · have hword : Rendered (done ++ [cur]) [c] _ :=
          .word hlead (CleanWords.concat hdone (List.cons_ne_nil _ _) hsingle)
        rw [joinWords_concat (by simp)] at hword
        simpa using hword

/-- Another character ends the word in progress; underscores do not repeat. -/
theorem Rendered.separate (h : Rendered done cur out) :
    Rendered (done ++ flushWord cur) []
      (if out.getLast? != some '_' then out ++ ['_'] else out) := by
  cases h with
  | start hlead =>
      rcases hlead with rfl | rfl
      · exact .start (.inr rfl)
      · exact .start (.inr rfl)
  | word hlead hdone =>
      rename_i lead
      have hne : joinWords (done ++ [cur]) ≠ [] := joinWords_ne_nil (by simp) hdone
      have hlast : (lead ++ joinWords (done ++ [cur])).getLast? ≠ some '_' := by
        rw [List.getLast?_append_of_ne_nil _ hne]
        exact getLast?_joinWords_ne hdone
      rw [if_pos (bne_iff_ne.mpr hlast), flushWord_of_ne_nil (hdone cur (by simp)).1]
      exact .separated hlead (by simp) hdone
  | separated hlead hne hdone =>
      rw [if_neg (by rw [List.getLast?_concat]; decide)]
      simpa [flushWord] using Rendered.separated hlead hne hdone

theorem Rendered.trim (h : Rendered done cur out) :
    trimUnderscores out = joinWords (done ++ flushWord cur) := by
  cases h with
  | start hlead =>
      have hclean : CleanWords [] := fun _ hw => absurd hw List.not_mem_nil
      have htrim := trimUnderscores_joinWords hclean hlead (.inl rfl)
      simpa [joinWords, flushWord] using htrim
  | word hlead hdone =>
      have htrim := trimUnderscores_joinWords hdone hlead (.inl rfl)
      rw [List.append_nil] at htrim
      rw [flushWord_of_ne_nil (hdone cur (by simp)).1]
      exact htrim
  | separated hlead hne hdone =>
      have htrim := trimUnderscores_joinWords hdone hlead (.inr rfl)
      simpa [flushWord] using htrim

/-- The word in progress is empty only after a character that is no letter or digit. -/
def Separated (cur : List Char) (prev : Option Char) : Prop :=
  cur = [] → ∀ p, prev = some p → p.isAlphanum = false

theorem not_wordBoundary_of_separated {prev next : Option Char} (h : Separated [] prev) :
    wordBoundary prev c next = false := by
  cases prev with
  | none => simp [wordBoundary]
  | some p =>
      have hp := h rfl p rfl
      simp only [Char.isAlphanum, Char.isAlpha, Bool.or_eq_false_iff] at hp
      simp [wordBoundary, hp]

/-- The loop renders the words of the characters it reads. -/
theorem trim_snakeLoop (chars : List Char) {prev : Option Char} (h : Rendered done cur out)
    (hsep : Separated cur prev) :
    trimUnderscores (snakeLoop prev chars out) = joinWords (done ++ wordsFrom cur prev chars) := by
  induction chars generalizing done cur out prev with
  | nil => exact h.trim
  | cons c rest ih =>
      have hnext : ∀ word, word ≠ [] → Separated word (some c) := fun word hne hnil =>
        absurd hnil hne
      rw [snakeLoop, wordsFrom]
      by_cases hupper : c.isUpper = true
      · have halnum := isAlphanum_of_isUpper hupper
        have hc := toLower_ne_underscore halnum
        rw [if_pos hupper, if_pos halnum]
        have hboundary : (prev.any fun p => p.isLower || p.isDigit ||
            (p.isUpper && rest.head?.any Char.isLower)) = wordBoundary prev c rest.head? := by
          rw [wordBoundary, hupper, Bool.true_and]
        simp only [hboundary]
        cases hb : wordBoundary prev c rest.head? with
        | true =>
            have hcur : cur ≠ [] := by
              rintro rfl
              rw [not_wordBoundary_of_separated hsep] at hb
              cases hb
            obtain ⟨hlast, hbegin⟩ := h.begin hcur hc
            rw [Bool.true_and, if_pos (bne_iff_ne.mpr hlast), if_pos rfl,
              ih hbegin (hnext _ (List.cons_ne_nil _ _)), flushWord_of_ne_nil hcur,
              List.append_assoc]
        | false =>
            rw [Bool.false_and, if_neg (by decide), if_neg (by decide),
              ih (h.push hc) (hnext _ (by simp))]
      · have hsmall : c.isUpper = false := by simpa using hupper
        have hb : wordBoundary prev c rest.head? = false := by rw [wordBoundary, hsmall]; rfl
        rw [if_neg hupper]
        by_cases halnum : c.isAlphanum = true
        · have hc := toLower_ne_underscore halnum
          rw [toLower_eq_self hsmall] at hc
          rw [if_pos halnum, if_pos halnum, hb, if_neg (by decide),
            ih (h.push hc) (hnext _ (by simp)), toLower_eq_self hsmall]
        · rw [if_neg halnum, if_neg halnum]
          have hseparated : Separated [] (some c) := by
            intro _ p hp
            cases hp
            simpa using halnum
          have hloop : (if out.getLast? != some '_' then snakeLoop (some c) rest (out ++ ['_'])
              else snakeLoop (some c) rest out) = snakeLoop (some c) rest
                (if out.getLast? != some '_' then out ++ ['_'] else out) := by
            split <;> rfl
          rw [hloop, ih h.separate hseparated, List.append_assoc]

theorem snakeChars_eq (name : String) : snakeChars name.toList = joinWords (words name) := by
  have hsep : Separated [] none := fun _ p hp => absurd hp (by simp)
  exact trim_snakeLoop name.toList (.start (.inl rfl)) hsep

/-- Snake-casing a name joins its words. -/
theorem toSnakeCase_eq (name : String) : toSnakeCase name = String.ofList (joinWords (words name)) := by
  rw [toSnakeCase, snakeChars_eq]

end Snake

end Topic0
