import Topic0.BaseDecimal

/-! Statement texts with numbered placeholders. The placeholders of a text are the numbers that
follow its dollar signs, each with all its digits. A text assembled from pieces without a dollar
sign and from placeholders that no digit follows has exactly the placeholders it was assembled
from. -/

namespace Template

/-- The placeholders of a text, in the order they occur. -/
def placeholders : List Char → List Nat
  | [] => []
  | c :: rest =>
      if c = '$' ∧ rest.takeWhile Char.isDigit ≠ [] then
        Nat.ofDigitChars 10 (rest.takeWhile Char.isDigit) 0 :: placeholders rest
      else placeholders rest

/-- No dollar sign. -/
def Plain (text : List Char) : Prop := ∀ c ∈ text, c ≠ '$'

/-- The text does not go on with a digit. -/
def NoDigit (text : List Char) : Prop := ∀ c, text.head? = some c → c.isDigit = false

def placeholder (n : Nat) : List Char := '$' :: Nat.toDigits 10 n

theorem placeholders_append {a : List Char} (ha : Plain a) (b : List Char) :
    placeholders (a ++ b) = placeholders b := by
  induction a with
  | nil => rfl
  | cons c a ih =>
      have hc := ha c List.mem_cons_self
      rw [List.cons_append, placeholders, if_neg fun h => hc h.1]
      exact ih fun c' hc' => ha c' (List.mem_cons_of_mem _ hc')

theorem takeWhile_append_digits {digits rest : List Char} (hdigits : ∀ c ∈ digits, c.isDigit = true)
    (hrest : NoDigit rest) : (digits ++ rest).takeWhile Char.isDigit = digits := by
  rw [List.takeWhile_append_of_pos hdigits]
  cases rest with
  | nil => rw [List.takeWhile_nil, List.append_nil]
  | cons c rest =>
      rw [List.takeWhile_cons_of_neg, List.append_nil]
      rw [hrest c rfl]
      decide

/-- A placeholder is read with all its digits. -/
theorem placeholders_placeholder (n : Nat) {rest : List Char} (hrest : NoDigit rest) :
    placeholders (placeholder n ++ rest) = n :: placeholders rest := by
  have hdigits : ∀ c ∈ Nat.toDigits 10 n, c.isDigit = true := fun c hc =>
    Nat.isDigit_of_mem_toDigits (by decide) (by decide) hc
  have hplain : Plain (Nat.toDigits 10 n) := by
    rintro c hc rfl
    exact absurd (hdigits '$' hc) (by decide)
  have htake := takeWhile_append_digits hdigits hrest
  rw [placeholder, List.cons_append, placeholders, htake, if_pos ⟨rfl, Nat.toDigits_ne_nil⟩,
    Nat.ofDigitChars_ten_toDigits, placeholders_append hplain]

theorem Plain.append {a b : List Char} (ha : Plain a) (hb : Plain b) : Plain (a ++ b) := by
  intro c hc
  rcases List.mem_append.mp hc with hc | hc
  · exact ha c hc
  · exact hb c hc

theorem plain_append_iff {a b : List Char} : Plain (a ++ b) ↔ Plain a ∧ Plain b := by
  constructor
  · intro h
    exact ⟨fun c hc => h c (List.mem_append_left _ hc), fun c hc => h c (List.mem_append_right _ hc)⟩
  · intro h
    exact h.1.append h.2

theorem Plain.intercalate {sep : List Char} (hsep : Plain sep) {parts : List (List Char)}
    (hparts : ∀ part ∈ parts, Plain part) : Plain (sep.intercalate parts) := by
  induction parts with
  | nil => exact fun c hc => absurd hc List.not_mem_nil
  | cons part parts ih =>
      have hpart := hparts part List.mem_cons_self
      have hrest := ih fun p hp => hparts p (List.mem_cons_of_mem _ hp)
      cases parts with
      | nil =>
          rw [List.intercalate_singleton]
          exact hpart
      | cons next parts =>
          rw [List.intercalate_cons_cons, List.append_assoc]
          exact hpart.append (hsep.append hrest)

theorem plain_toDigits (n : Nat) : Plain (Nat.toDigits 10 n) := by
  rintro c hc rfl
  exact absurd (Nat.isDigit_of_mem_toDigits (by decide) (by decide) hc) (by decide)

theorem NoDigit.append {a b : List Char} (ha : NoDigit a) (hb : NoDigit b) : NoDigit (a ++ b) := by
  cases a with
  | nil => exact hb
  | cons c a => exact ha

/-- In front of anything that is no digit, the text has the given placeholders. -/
def Carries (text : List Char) (ns : List Nat) : Prop :=
  ∀ rest, NoDigit rest → placeholders (text ++ rest) = ns ++ placeholders rest

theorem Plain.carries {a : List Char} (ha : Plain a) : Carries a [] :=
  fun rest _ => placeholders_append ha rest

theorem carries_placeholder (n : Nat) : Carries (placeholder n) [n] :=
  fun _ hrest => placeholders_placeholder n hrest

theorem Carries.append {a b : List Char} {ns ms : List Nat} (ha : Carries a ns) (hb : Carries b ms)
    (hdigit : NoDigit b) : Carries (a ++ b) (ns ++ ms) := by
  intro rest hrest
  rw [List.append_assoc, ha _ (hdigit.append hrest), hb _ hrest, List.append_assoc]

/-- A list of texts joined by a separator has their placeholders, in order. -/
theorem Carries.intercalate {sep : List Char} (hsep : Plain sep) (hmark : NoDigit sep)
    {parts : List (List Char × List Nat)} (hparts : ∀ p ∈ parts, Carries p.1 p.2)
    (hdigit : ∀ p ∈ parts, NoDigit p.1) :
    Carries (sep.intercalate (parts.map Prod.fst)) (parts.flatMap Prod.snd) ∧
      NoDigit (sep.intercalate (parts.map Prod.fst)) := by
  induction parts with
  | nil =>
      refine ⟨fun rest _ => rfl, fun c hc => ?_⟩
      cases hc
  | cons part parts ih =>
      have hpart := hparts part List.mem_cons_self
      have hstart := hdigit part List.mem_cons_self
      obtain ⟨hrest, hnext⟩ := ih (fun p hp => hparts p (List.mem_cons_of_mem _ hp))
        fun p hp => hdigit p (List.mem_cons_of_mem _ hp)
      cases parts with
      | nil =>
          rw [List.map_cons, List.map_nil, List.intercalate_singleton, List.flatMap_cons,
            List.flatMap_nil, List.append_nil]
          exact ⟨hpart, hstart⟩
      | cons next parts =>
          rw [List.map_cons, List.map_cons, List.intercalate_cons_cons, List.append_assoc,
            List.flatMap_cons, ← List.map_cons]
          have htail := hsep.carries.append hrest hnext
          rw [List.nil_append] at htail
          exact ⟨hpart.append htail (hmark.append hnext), hstart.append (hmark.append hnext)⟩

/-- A whole text has the placeholders it carries. -/
theorem Carries.placeholders_eq {a : List Char} {ns : List Nat} (h : Carries a ns) :
    placeholders a = ns := by
  have hnil := h [] fun c hc => by cases hc
  rw [List.append_nil] at hnil
  rw [hnil]
  exact List.append_nil ns

end Template
