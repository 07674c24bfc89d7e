import Mathlib.Tactic

/-! Texts that can be read back from the front. A coding is self-delimiting when a code word is told
from whatever follows it, so that a concatenation of code words determines each of them. JSON
strings are such a coding once their contents are escaped: a bare quotation mark can only be the
closing one. -/

namespace Coding

variable {α β χ : Type}

/-- A code word is told from what follows it. -/
def SelfDelimiting (enc : α → List χ) : Prop :=
  ∀ a b r s, enc a ++ r = enc b ++ s → a = b ∧ r = s

/-- The code word of a single value is told from those of all others. -/
def Told (enc : α → List χ) (a : α) : Prop := ∀ b r s, enc a ++ r = enc b ++ s → a = b ∧ r = s

section Codes

variable {enc : α → List χ}

theorem SelfDelimiting.injective (h : SelfDelimiting enc) : Function.Injective enc := by
  intro a b heq
  exact (h a b [] [] (by rw [heq])).1

theorem SelfDelimiting.comp (h : SelfDelimiting enc) {f : β → α} (hf : Function.Injective f) :
    SelfDelimiting fun b => enc (f b) := by
  intro a b r s heq
  obtain ⟨hsame, hrest⟩ := h (f a) (f b) r s heq
  exact ⟨hf hsame, hrest⟩

/-- Behind a common text, the code words are the same. -/
theorem SelfDelimiting.field (h : SelfDelimiting enc) {text r s : List χ} {a b : α}
    (heq : text ++ (enc a ++ r) = text ++ (enc b ++ s)) : a = b ∧ r = s :=
  h a b r s (List.append_cancel_left heq)

/-- Where no code word begins another one, they delimit themselves. -/
theorem selfDelimiting_of_prefixFree (h : ∀ a b, enc a <+: enc b → a = b) : SelfDelimiting enc := by
  intro a b r s heq
  have hsame : a = b := by
    have hb : enc b <+: enc a ++ r := ⟨s, heq.symm⟩
    rcases List.prefix_or_prefix_of_prefix (List.prefix_append (enc a) r) hb with hab | hba
    · exact h a b hab
    · exact (h b a hba).symm
  subst hsame
  exact ⟨rfl, List.append_cancel_left heq⟩

/-- A mark that no code word contains ends each of them. -/
theorem selfDelimiting_terminated (hinj : Function.Injective enc) {mark : χ}
    (hmark : ∀ a, mark ∉ enc a) : SelfDelimiting fun a => enc a ++ [mark] := by
  apply selfDelimiting_of_prefixFree
  intro a b hprefix
  apply hinj
  obtain ⟨rest, hrest⟩ := hprefix
  rw [List.append_assoc, List.singleton_append] at hrest
  have hsplit := List.append_eq_append_iff.mp hrest
  rcases hsplit with ⟨mid, hb, htail⟩ | ⟨mid, ha, htail⟩
  · cases mid with
    | nil => rw [hb, List.append_nil]
    | cons c mid =>
        rw [List.cons_append, List.cons.injEq] at htail
        exact absurd (hb ▸ List.mem_append_right _ (htail.1 ▸ List.mem_cons_self)) (hmark b)
  · cases mid with
    | nil => rw [ha, List.append_nil]
    | cons c mid =>
        rw [List.cons_append, List.cons.injEq] at htail
        exact absurd (ha ▸ List.mem_append_right _ (htail.1 ▸ List.mem_cons_self)) (hmark a)

/-- Equal concatenations of self-delimiting, nonempty code words have the same words. -/
theorem flatMap_injective (h : SelfDelimiting enc) (hne : ∀ a, enc a ≠ []) :
    Function.Injective fun as : List α => as.flatMap enc := by
  intro as
  induction as with
  | nil =>
      intro bs heq
      cases bs with
      | nil => rfl
      | cons b bs =>
          have hnil := List.append_eq_nil_iff.mp (show enc b ++ bs.flatMap enc = [] from heq.symm)
          exact absurd hnil.1 (hne b)
  | cons a as ih =>
      intro bs heq
      cases bs with
      | nil =>
          have hnil := List.append_eq_nil_iff.mp (show enc a ++ as.flatMap enc = [] from heq)
          exact absurd hnil.1 (hne a)
      | cons b bs =>
          obtain ⟨rfl, hrest⟩ := h a b (as.flatMap enc) (bs.flatMap enc) heq
          rw [ih hrest]

end Codes

section Sequence

variable (enc : α → List χ) (sep close : χ)

/-- The elements after the first one, each behind a separator. -/
def sequenceTail : List α → List χ
  | [] => [close]
  | a :: as => sep :: (enc a ++ sequenceTail as)

/-- Separated elements up to a closing mark. -/
def sequence : List α → List χ
  | [] => [close]
  | a :: as => enc a ++ sequenceTail enc sep close as

variable {enc sep close} {as : List α}

theorem told_sequenceTail (h : ∀ a ∈ as, Told enc a) (hmarks : sep ≠ close) :
    Told (sequenceTail enc sep close) as := by
  induction as with
  | nil =>
      intro bs r s heq
      cases bs with
      | nil => exact ⟨rfl, (List.cons.inj heq).2⟩
      | cons b bs => exact absurd (List.cons.inj heq).1.symm hmarks
  | cons a as ih =>
      intro bs r s heq
      cases bs with
      | nil => exact absurd (List.cons.inj heq).1 hmarks
      | cons b bs =>
          rw [List.forall_mem_cons] at h
          rw [sequenceTail, sequenceTail, List.cons_append, List.cons_append, List.cons.injEq,
            List.append_assoc, List.append_assoc] at heq
          obtain ⟨rfl, htail⟩ := h.1 b _ _ heq.2
          obtain ⟨rfl, hrs⟩ := ih h.2 bs r s htail
          exact ⟨rfl, hrs⟩

/-- A sequence of elements that are told is told when no element begins with the closing mark. -/
theorem told_sequence (h : ∀ a ∈ as, Told enc a) (hmarks : sep ≠ close)
    (hfirst : ∀ a rest, enc a ≠ close :: rest) (hne : ∀ a, enc a ≠ []) :
    Told (sequence enc sep close) as := by
  have hdiffers : ∀ a r s, enc a ++ r ≠ close :: s := by
    intro a r s heq
    cases hcode : enc a with
    | nil => exact hne a hcode
    | cons c rest =>
        rw [hcode, List.cons_append, List.cons.injEq] at heq
        exact hfirst a rest (heq.1 ▸ hcode)
  intro bs r s heq
  cases as with
  | nil =>
      cases bs with
      | nil => exact ⟨rfl, (List.cons.inj heq).2⟩
      | cons b bs =>
          rw [sequence, sequence, List.append_assoc] at heq
          exact absurd heq.symm (hdiffers b _ _)
  | cons a as =>
      cases bs with
      | nil =>
          rw [sequence, sequence, List.append_assoc] at heq
          exact absurd heq (hdiffers a _ _)
      | cons b bs =>
          rw [List.forall_mem_cons] at h
          rw [sequence, sequence, List.append_assoc, List.append_assoc] at heq
          obtain ⟨rfl, htail⟩ := h.1 b _ _ heq
          obtain ⟨rfl, hrs⟩ := told_sequenceTail h.2 hmarks bs r s htail
          exact ⟨rfl, hrs⟩

/-- Sequences delimit themselves when no element begins with the closing mark. -/
theorem selfDelimiting_sequence (h : SelfDelimiting enc) (hmarks : sep ≠ close)
    (hfirst : ∀ a rest, enc a ≠ close :: rest) (hne : ∀ a, enc a ≠ []) :
    SelfDelimiting (sequence enc sep close) := by
  intro as
  exact told_sequence (fun a _ => h a) hmarks hfirst hne

end Sequence

section Strings

/-- The characters of a literal. -/
def text (literal : String) : List Char := literal.toList

def quotationMark : Char := Char.ofNat 34

def backslash : Char := Char.ofNat 92

/-- The contents of a JSON string: characters that stand for themselves, and escapes. -/
inductive Escaped : List Char → Prop
  | nil : Escaped []
  | plain {c : Char} {rest : List Char} (hquote : c ≠ quotationMark) (hslash : c ≠ backslash)
      (h : Escaped rest) : Escaped (c :: rest)
  | escape (c : Char) {rest : List Char} (h : Escaped rest) : Escaped (backslash :: c :: rest)

/-- The first bare quotation mark after escaped contents is the closing one. -/
theorem Escaped.closes {a b r s : List Char} (ha : Escaped a) (hb : Escaped b)
    (h : a ++ quotationMark :: r = b ++ quotationMark :: s) : a = b ∧ r = s := by
  induction ha generalizing b with
  | nil =>
      cases hb with
      | nil => exact ⟨rfl, (List.cons.inj h).2⟩
      | plain hquote hslash hrest => exact absurd (List.cons.inj h).1.symm hquote
      | escape c hrest => exact absurd (List.cons.inj h).1 (by decide)
  | plain hquote hslash hrest ih =>
      cases hb with
      | nil => exact absurd (List.cons.inj h).1 hquote
      | plain hquote' hslash' hrest' =>
          obtain ⟨rfl, hcontents⟩ := List.cons.inj h
          obtain ⟨rfl, hrs⟩ := ih hrest' hcontents
          exact ⟨rfl, hrs⟩
      | escape c hrest' => exact absurd (List.cons.inj h).1 hslash
  | escape c hrest ih =>
      cases hb with
      | nil => exact absurd (List.cons.inj h).1 (by decide)
      | plain hquote' hslash' hrest' => exact absurd (List.cons.inj h).1.symm hslash'
      | escape c' hrest' =>
          obtain ⟨rfl, hcontents⟩ := List.cons.inj (List.cons.inj h).2
          obtain ⟨rfl, hrs⟩ := ih hrest' hcontents
          exact ⟨rfl, hrs⟩

theorem Escaped.append {a b : List Char} (ha : Escaped a) (hb : Escaped b) : Escaped (a ++ b) := by
  induction ha with
  | nil => exact hb
  | plain hquote hslash hrest ih => exact .plain hquote hslash ih
  | escape c hrest ih => exact .escape c ih

/-- How a serializer writes the contents of a string. -/
structure StringFormat where
  escape : List Char → List Char
  escape_injective : Function.Injective escape
  escaped : ∀ text, Escaped (escape text)

variable (format : StringFormat)

/-- A JSON string. -/
def StringFormat.quote (text : String) : List Char :=
  quotationMark :: (format.escape text.toList ++ [quotationMark])

theorem selfDelimiting_quote : SelfDelimiting format.quote := by
  intro a b r s h
  have hcontents := (List.cons.inj h).2
  have happend : ∀ (text : List Char) (rest : List Char),
      (format.escape text ++ [quotationMark]).append rest =
        format.escape text ++ quotationMark :: rest := by
    intro text rest
    show format.escape text ++ [quotationMark] ++ rest = _
    rw [List.append_assoc, List.singleton_append]
  rw [happend, happend] at hcontents
  obtain ⟨hescape, hrest⟩ := (format.escaped _).closes (format.escaped _) hcontents
  exact ⟨String.toList_injective (format.escape_injective hescape), hrest⟩

/-- The escape of a character by its code, after the backslash: quotation marks, backslashes and
control characters have one. -/
def escapeCode (n : Nat) : Option (List Char) :=
  if n = 34 ∨ n = 92 then some [Char.ofNat n]
  else if n = 8 then some ['b']
  else if n = 9 then some ['t']
  else if n = 10 then some ['n']
  else if n = 12 then some ['f']
  else if n = 13 then some ['r']
  else if n < 32 then some ['u', '0', '0', Nat.digitChar (n / 16), Nat.digitChar (n % 16)]
  else none

def escapeChar (c : Char) : List Char :=
  match escapeCode c.toNat with
  | some code => backslash :: code
  | none => [c]

theorem escapeCode_of_lt {n : Nat} {code : List Char} (h : escapeCode n = some code) : n < 93 := by
  by_contra hge
  rw [escapeCode, if_neg (by omega), if_neg (by omega), if_neg (by omega), if_neg (by omega),
    if_neg (by omega), if_neg (by omega), if_neg (by omega)] at h
  cases h

theorem eq_of_escapeCode_isPrefix :
    ∀ m < 93, ∀ n < 93, (escapeCode m).all (fun a => (escapeCode n).all fun b =>
      !a.isPrefixOf b || m == n) = true := by
  decide +kernel

theorem escaped_escapeCode :
    ∀ n < 93, (escapeCode n).all (fun code => !code.isEmpty && code.tail.all fun c =>
      c != quotationMark && c != backslash) = true := by
  decide +kernel

/-- A character that stands for itself is no backslash and no quotation mark. -/
theorem plain_of_escapeCode {c : Char} (h : escapeCode c.toNat = none) :
    c ≠ quotationMark ∧ c ≠ backslash := by
  constructor
  · rintro rfl
    exact absurd h (by decide)
  · rintro rfl
    exact absurd h (by decide)

theorem eq_of_escapeChar_isPrefix {a b : Char} (h : escapeChar a <+: escapeChar b) : a = b := by
  unfold escapeChar at h
  cases ha : escapeCode a.toNat with
  | none =>
      rw [ha] at h
      cases hb : escapeCode b.toNat with
      | none =>
          rw [hb] at h
          exact (List.cons_prefix_cons.mp h).1
      | some code =>
          rw [hb] at h
          exact absurd (List.cons_prefix_cons.mp h).1 (plain_of_escapeCode ha).2
  | some code =>
      rw [ha] at h
      cases hb : escapeCode b.toNat with
      | none =>
          rw [hb] at h
          exact absurd (List.cons_prefix_cons.mp h).1.symm (plain_of_escapeCode hb).2
      | some code' =>
          rw [hb] at h
          have hprefix := (List.cons_prefix_cons.mp h).2
          have hcodes := eq_of_escapeCode_isPrefix _ (escapeCode_of_lt ha) _ (escapeCode_of_lt hb)
          rw [ha, hb, Option.all_some, Option.all_some, Bool.or_eq_true, Bool.not_eq_true',
            beq_iff_eq, List.isPrefixOf_iff_prefix.mpr hprefix] at hcodes
          rcases hcodes with hfalse | hsame
          · cases hfalse
          · exact Char.toNat_inj.mp hsame

theorem escapeChar_ne_nil (c : Char) : escapeChar c ≠ [] := by
  unfold escapeChar
  cases escapeCode c.toNat with
  | none => exact List.cons_ne_nil _ _
  | some code => exact List.cons_ne_nil _ _

theorem escaped_plain {text : List Char}
    (h : ∀ c ∈ text, c ≠ quotationMark ∧ c ≠ backslash) : Escaped text := by
  induction text with
  | nil => exact .nil
  | cons c text ih =>
      obtain ⟨hquote, hslash⟩ := h c List.mem_cons_self
      exact .plain hquote hslash (ih fun c' hc' => h c' (List.mem_cons_of_mem _ hc'))

theorem escaped_escapeChar (c : Char) : Escaped (escapeChar c) := by
  unfold escapeChar
  cases hcode : escapeCode c.toNat with
  | none =>
      obtain ⟨hquote, hslash⟩ := plain_of_escapeCode hcode
      exact .plain hquote hslash .nil
  | some code =>
      have htail := escaped_escapeCode _ (escapeCode_of_lt hcode)
      rw [hcode, Option.all_some, Bool.and_eq_true, List.all_eq_true] at htail
      cases code with
      | nil => exact absurd htail.1 (by decide)
      | cons first rest =>
          apply Escaped.escape
          apply escaped_plain
          intro c' hc'
          have hplain := htail.2 c' hc'
          rw [Bool.and_eq_true, bne_iff_ne, bne_iff_ne] at hplain
          exact hplain

/-- The serializer that escapes nothing else. -/
def standardFormat : StringFormat where
  escape text := text.flatMap escapeChar
  escape_injective :=
    flatMap_injective (selfDelimiting_of_prefixFree fun _ _ => eq_of_escapeChar_isPrefix) escapeChar_ne_nil
  escaped text := by
    induction text with
    | nil => exact .nil
    | cons c text ih =>
        rw [List.flatMap_cons]
        exact (escaped_escapeChar c).append ih

end Strings

end Coding
