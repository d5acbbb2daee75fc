import Mathlib.Tactic.SplitIfs
import QueryChain.Json.Read
import QueryChain.Json.Text

/-!
# Reading what was written

The compact text of a JSON value is read back as the value. Strings are read back whatever their
characters are; a number is read back if its digits are such as the grammar asks for, and nothing
that continues a number stands behind it.
-/

namespace QueryChain

namespace JsonValue

/-! ## Strings -/

theorem toNat_not_surrogate (c : Char) : isLead c.toNat = false ∧ isTrail c.toNat = false := by
  have h : c.toNat < 0xd800 ∨ 0xdfff < c.toNat ∧ c.toNat < 0x110000 := c.valid
  simp only [isLead, isTrail, decide_eq_false_iff_not]
  omega

/-- Characters are read back from their codes: none of them is half of a surrogate pair. -/
theorem decodeCodes_map_toNat (cs : List Char) : decodeCodes (cs.map Char.toNat) = some cs := by
  induction cs with
  | nil => rfl
  | cons c cs ih =>
    obtain ⟨hlead, htrail⟩ := toNat_not_surrogate c
    cases cs with
    | nil => simp [decodeCodes, hlead, htrail]
    | cons d cs =>
      rw [List.map_cons] at ih
      simp [decodeCodes, hlead, htrail, ih]

theorem hexCode?_control :
    ∀ n < 32, hexCode? '0' '0' (hexDigit (n / 16)) (hexDigit n) = some n := by
  decide

/-- What stands for a character in a string is read back as its code. -/
theorem readCodes_escape (c : Char) (rest : List Char) :
    readCodes (escape c ++ rest) = consCode c.toNat (readCodes rest) := by
  unfold escape
  split_ifs with h₁ h₂ h₃ h₄ h₅ h₆ h₇ h₈
  · subst h₁
    rfl
  · subst h₂
    rfl
  · rw [h₃]
    rfl
  · rw [h₄]
    rfl
  · rw [h₅]
    rfl
  · rw [h₆]
    rfl
  · rw [h₇]
    rfl
  · simp [readCodes, hexCode?_control _ h₈]
  · rw [List.singleton_append, readCodes, if_neg h₈]
    · exact h₁
    · rintro _ _ _ _ _ rfl
      exact absurd rfl h₂
    · rintro _ _ rfl
      exact absurd rfl h₂

theorem readCodes_flatMap_escape (cs rest : List Char) :
    readCodes (cs.flatMap escape ++ '"' :: rest) = some (cs.map Char.toNat, rest) := by
  induction cs with
  | nil => rfl
  | cons c cs ih =>
    rw [List.flatMap_cons, List.append_assoc, readCodes_escape, ih]
    rfl

/-- A string is read back behind its opening quote. -/
theorem readString_quoted (s : String) (rest : List Char) :
    readString (s.toList.flatMap escape ++ '"' :: rest) = some (some s, rest) := by
  simp [readString, readCodes_flatMap_escape, decodeCodes_map_toNat]

/-! ## Numbers -/

/-- One or more digits. -/
def Digits (cs : List Char) : Prop :=
  cs ≠ [] ∧ ∀ c ∈ cs, isDigit c

/-- No digit stands first. -/
def NoDigitNext (cs : List Char) : Prop :=
  ∀ c ∈ cs.head?, isDigit c = false

/-- Nothing stands first that continues a number. -/
def NumberEnds (cs : List Char) : Prop :=
  ∀ c ∈ cs.head?, isDigit c = false ∧ c ≠ '.' ∧ c ≠ 'e' ∧ c ≠ 'E'

theorem NumberEnds.noDigitNext {cs : List Char} (h : NumberEnds cs) : NoDigitNext cs :=
  fun c hc => (h c hc).1

theorem readDigits_append {digits rest : List Char} (h : Digits digits) (hrest : NoDigitNext rest) :
    readDigits (digits ++ rest) = some (digits, rest) := by
  have hnone : rest.takeWhile isDigit = [] ∧ rest.dropWhile isDigit = rest := by
    cases rest with
    | nil => exact ⟨rfl, rfl⟩
    | cons c cs =>
      have hc := hrest c rfl
      simp [hc]
  obtain ⟨c, cs, rfl⟩ := List.exists_cons_of_ne_nil h.1
  rw [readDigits, List.takeWhile_append_of_pos h.2, List.dropWhile_append_of_pos h.2, hnone.1,
    hnone.2, List.append_nil]

end JsonValue

namespace Numeral

open JsonValue

/-- The digits of a numeral are such as a text may have. -/
structure WellFormed (n : Numeral) : Prop where
  whole : Digits n.whole
  noNeedlessZero : ∀ c cs, n.whole ≠ '0' :: c :: cs
  fraction : ∀ digits ∈ n.fraction, Digits digits
  exponent : ∀ e ∈ n.exponent, Digits e.2

/-- The characters of a fraction. -/
def fractionChars : Option (List Char) → List Char
  | some digits => '.' :: digits
  | none => []

/-- The characters of an exponent. -/
def exponentChars : Option (Bool × List Char) → List Char
  | some (negative, digits) => 'e' :: (if negative then '-' else '+') :: digits
  | none => []

theorem chars_eq (n : Numeral) :
    n.chars = (if n.negative then ['-'] else [])
      ++ (n.whole ++ (fractionChars n.fraction ++ exponentChars n.exponent)) := by
  simp only [chars, List.append_assoc]
  rfl

theorem readExponent_append {exponent : Option (Bool × List Char)} {rest : List Char}
    (h : ∀ e ∈ exponent, Digits e.2) (hrest : NumberEnds rest) :
    readExponent (exponentChars exponent ++ rest) = some (exponent, rest) := by
  cases exponent with
  | none =>
    cases rest with
    | nil => rfl
    | cons c cs =>
      obtain ⟨-, -, he, hE⟩ := hrest c rfl
      simp [exponentChars, readExponent, he, hE]
  | some e =>
    obtain ⟨negative, digits⟩ := e
    have hdigits := readDigits_append (h _ rfl) hrest.noDigitNext
    cases negative <;> simp [exponentChars, readExponent, readSign, hdigits]

theorem exponentChars_next (exponent : Option (Bool × List Char)) {rest : List Char}
    (hrest : NumberEnds rest) :
    ∀ c ∈ (exponentChars exponent ++ rest).head?, isDigit c = false ∧ c ≠ '.' := by
  cases exponent with
  | none => exact fun c hc => ⟨(hrest c hc).1, (hrest c hc).2.1⟩
  | some e =>
    rintro c ⟨⟩
    decide

theorem readFraction_append {fraction : Option (List Char)} {rest : List Char}
    (h : ∀ digits ∈ fraction, Digits digits)
    (hrest : ∀ c ∈ rest.head?, isDigit c = false ∧ c ≠ '.') :
    readFraction (fractionChars fraction ++ rest) = some (fraction, rest) := by
  cases fraction with
  | none =>
    rw [fractionChars, List.nil_append, readFraction]
    rintro cs rfl
    exact absurd rfl (hrest '.' rfl).2
  | some digits =>
    have hdigits := readDigits_append (h _ rfl) fun c hc => (hrest c hc).1
    simp [fractionChars, readFraction, hdigits]

theorem fractionChars_next (fraction : Option (List Char)) {rest : List Char}
    (hrest : NoDigitNext rest) : NoDigitNext (fractionChars fraction ++ rest) := by
  cases fraction with
  | none => exact hrest
  | some digits =>
    rintro c ⟨⟩
    rfl

/-- A number is read back behind its sign. -/
theorem WellFormed.readNumber_append {n : Numeral} (h : n.WellFormed) {rest : List Char}
    (hrest : NumberEnds rest) :
    readNumber n.negative
        (n.whole ++ (fractionChars n.fraction ++ (exponentChars n.exponent ++ rest)))
      = some (n, rest) := by
  have hnext := exponentChars_next n.exponent hrest
  have hwhole := readDigits_append h.whole
    (fractionChars_next n.fraction fun c hc => (hnext c hc).1)
  have hreadWhole : readWhole (n.whole ++ (fractionChars n.fraction
      ++ (exponentChars n.exponent ++ rest)))
        = some (n.whole, fractionChars n.fraction ++ (exponentChars n.exponent ++ rest)) := by
    rw [readWhole, hwhole]
    split
    · rename_i c cs _ heq
      exact absurd (congrArg Prod.fst (Option.some.inj heq)) (h.noNeedlessZero c cs)
    · rfl
  simp [readNumber, hreadWhole, readFraction_append h.fraction hnext,
    readExponent_append h.exponent hrest]

end Numeral

namespace JsonValue

/-! ## Values -/

/-- All strings of a value have a text, and all its numbers can be written. -/
inductive WellFormed : JsonValue → Prop where
  | null : WellFormed .null
  | bool (value : Bool) : WellFormed (.bool value)
  | number {n : Numeral} : n.WellFormed → WellFormed (.number n)
  | string (s : String) : WellFormed (.string (some s))
  | array {items : List JsonValue} : (∀ v ∈ items, WellFormed v) → WellFormed (.array items)
  | object {fields : List (Option String × JsonValue)} :
    (∀ f ∈ fields, f.1.isSome) → (∀ f ∈ fields, WellFormed f.2) → WellFormed (.object fields)

theorem isDigit_ne {c d : Char} (h : isDigit c) (hd : isDigit d = false) : c ≠ d := by
  rintro rfl
  simp [hd] at h

theorem isSpace_of_isDigit {c : Char} (h : isDigit c) : isSpace c = false := by
  have hne {d : Char} (hd : isDigit d = false) : c ≠ d := isDigit_ne h hd
  simp [isSpace, hne (d := ' ') (by decide), hne (d := '\n') (by decide),
    hne (d := '\t') (by decide), hne (d := '\x0d') (by decide)]

/-- The text of a value begins with no blank and with no closing bracket. -/
theorem WellFormed.chars_eq_cons {v : JsonValue} (h : v.WellFormed) :
    ∃ c cs, v.chars = c :: cs ∧ isSpace c = false ∧ c ≠ ']' := by
  cases h with
  | null => exact ⟨_, _, rfl, by decide, by decide⟩
  | bool value => cases value <;> exact ⟨_, _, rfl, by decide, by decide⟩
  | string | array | object => exact ⟨_, _, rfl, by decide, by decide⟩
  | @number n h =>
    obtain ⟨c, cs, hwhole⟩ := List.exists_cons_of_ne_nil h.whole.1
    have hc : isDigit c := h.whole.2 c (by simp [hwhole])
    simp only [chars, Numeral.chars_eq, hwhole]
    cases n.negative with
    | true => exact ⟨'-', _, rfl, by decide, by decide⟩
    | false => exact ⟨c, _, rfl, isSpace_of_isDigit hc, isDigit_ne hc (by decide)⟩

theorem skipSpace_cons {c : Char} (h : isSpace c = false) (cs : List Char) :
    skipSpace (c :: cs) = c :: cs := by
  simp [skipSpace, h]

theorem readValue_digit (steps : Nat) {c : Char} (hc : isDigit c) (cs : List Char) :
    readValue (steps + 1) (c :: cs)
      = (readNumber false (c :: cs)).map fun (n, rest) => (.number n, rest) := by
  rw [readValue, skipSpace_cons (isSpace_of_isDigit hc)]
  split
  case h_8 => cases readNumber false (c :: cs) <;> rfl
  -- No other value begins with a digit.
  all_goals
    rename_i heq
    cases heq
    exact absurd hc (by decide)

/-- The text of a value is read back, whatever stands behind it, as long as the steps suffice. -/
def ReadsBack (v : JsonValue) : Prop :=
  ∀ steps rest, 2 * v.chars.length ≤ steps → NumberEnds rest →
    readValue steps (v.chars ++ rest) = some (v, rest)

theorem numberEnds_comma (cs : List Char) : NumberEnds (',' :: cs) := by
  rintro c ⟨⟩
  decide

theorem numberEnds_bracket (cs : List Char) : NumberEnds (']' :: cs) := by
  rintro c ⟨⟩
  decide

theorem numberEnds_brace (cs : List Char) : NumberEnds ('\x7d' :: cs) := by
  rintro c ⟨⟩
  decide

theorem separate_cons (cs : List Char) {css : List (List Char)} (h : css ≠ []) :
    separate (cs :: css) = cs ++ ',' :: separate css := by
  cases css with
  | nil => exact absurd rfl h
  | cons => rfl

theorem readItems_separate {items : List JsonValue} (hne : items ≠ [])
    (each : ∀ v ∈ items, v.ReadsBack) (steps : Nat)
    (hsteps : 2 * (separate (itemChars items)).length + 1 ≤ steps) (rest : List Char) :
    readItems steps (separate (itemChars items) ++ ']' :: rest) = some (items, rest) := by
  induction items generalizing steps with
  | nil => exact absurd rfl hne
  | cons v items ih =>
    obtain ⟨steps, rfl⟩ := Nat.exists_eq_add_one_of_ne_zero (by omega : steps ≠ 0)
    rw [List.forall_mem_cons] at each
    rw [itemChars] at hsteps ⊢
    cases items with
    | nil =>
      have hv := each.1 steps (']' :: rest) (by simpa [itemChars, separate] using hsteps)
        (numberEnds_bracket rest)
      simp [readItems, itemChars, separate, hv, skipSpace, isSpace]
    | cons w items =>
      have hmore : itemChars (w :: items) ≠ [] := by simp [itemChars]
      rw [separate_cons _ hmore, List.length_append, List.length_cons] at hsteps
      rw [separate_cons _ hmore, List.append_assoc, List.cons_append]
      have hv := each.1 steps (',' :: (separate (itemChars (w :: items)) ++ ']' :: rest)) (by omega)
        (numberEnds_comma _)
      have hitems := ih (by simp) each.2 steps (by omega)
      simp [readItems, hv, hitems, skipSpace, isSpace]

theorem quote_append (s : String) (rest : List Char) :
    quote s ++ rest = '"' :: (s.toList.flatMap escape ++ '"' :: rest) := by
  simp [quote]

theorem readFields_separate {fields : List (Option String × JsonValue)} (hne : fields ≠ [])
    (named : ∀ f ∈ fields, f.1.isSome) (each : ∀ f ∈ fields, f.2.ReadsBack) (steps : Nat)
    (hsteps : 2 * (separate (fieldChars fields)).length + 1 ≤ steps) (rest : List Char) :
    readFields steps (separate (fieldChars fields) ++ '\x7d' :: rest) = some (fields, rest) := by
  induction fields generalizing steps with
  | nil => exact absurd rfl hne
  | cons f fields ih =>
    obtain ⟨steps, rfl⟩ := Nat.exists_eq_add_one_of_ne_zero (by omega : steps ≠ 0)
    rw [List.forall_mem_cons] at named each
    obtain ⟨name, v⟩ := f
    obtain ⟨name, rfl⟩ := Option.isSome_iff_exists.1 named.1
    rw [fieldChars] at hsteps ⊢
    cases fields with
    | nil =>
      simp only [fieldChars, separate, List.length_append, List.length_cons] at hsteps
      have hv := each.1 steps ('\x7d' :: rest) (by simp only; omega) (numberEnds_brace rest)
      simp [readFields, fieldChars, separate, quote_append, readString_quoted, hv, skipSpace,
        isSpace]
    | cons g fields =>
      have hmore : fieldChars (g :: fields) ≠ [] := by simp [fieldChars]
      rw [separate_cons _ hmore, List.length_append, List.length_append, List.length_cons,
        List.length_cons] at hsteps
      rw [separate_cons _ hmore, List.append_assoc, List.cons_append]
      have hv := each.1 steps (',' :: (separate (fieldChars (g :: fields)) ++ '\x7d' :: rest))
        (by simp only; omega) (numberEnds_comma _)
      have hfields := ih (by simp) named.2 each.2 steps (by omega)
      simp [readFields, quote_append, readString_quoted, hv, hfields, skipSpace, isSpace]

theorem separate_eq_cons (c : Char) (cs : List Char) (css : List (List Char)) :
    ∃ cs', separate ((c :: cs) :: css) = c :: cs' := by
  cases css <;> exact ⟨_, rfl⟩

/-- At least one step is there. -/
theorem WellFormed.readsBack_of_succ {v : JsonValue} (h : v.WellFormed)
    (hread : ∀ steps rest, 2 * v.chars.length ≤ steps + 1 → NumberEnds rest →
      readValue (steps + 1) (v.chars ++ rest) = some (v, rest)) : v.ReadsBack := by
  intro steps rest hsteps hrest
  obtain ⟨c, cs, hchars, -⟩ := h.chars_eq_cons
  cases steps with
  | zero => simp [hchars] at hsteps
  | succ steps => exact hread steps rest hsteps hrest

theorem Numeral.WellFormed.readsBack {n : Numeral} (h : n.WellFormed) :
    ReadsBack (.number n) := by
  refine WellFormed.readsBack_of_succ (.number h) fun steps rest _ hrest => ?_
  have hread := h.readNumber_append hrest
  simp only [chars, Numeral.chars_eq, List.append_assoc]
  cases hnegative : n.negative with
  | true =>
    rw [hnegative] at hread
    simp [readValue, skipSpace, isSpace, hread]
  | false =>
    obtain ⟨c, cs, hwhole⟩ := List.exists_cons_of_ne_nil h.whole.1
    have hc : isDigit c := h.whole.2 c (by simp [hwhole])
    rw [hnegative] at hread
    rw [hwhole] at hread ⊢
    rw [List.cons_append] at hread
    rw [if_neg (by simp), List.nil_append, List.cons_append, readValue_digit steps hc, hread]
    rfl

/-- The text of a value is read back. -/
theorem WellFormed.readsBack {v : JsonValue} (h : v.WellFormed) : v.ReadsBack := by
  induction h with
  | null => exact WellFormed.null.readsBack_of_succ fun steps rest _ _ => rfl
  | bool value =>
    refine (WellFormed.bool value).readsBack_of_succ fun steps rest _ _ => ?_
    cases value <;> rfl
  | string s =>
    refine (WellFormed.string s).readsBack_of_succ fun steps rest _ _ => ?_
    simp [chars, quote_append, readValue, skipSpace, isSpace, readString_quoted]
  | number h => exact Numeral.WellFormed.readsBack h
  | @array items hitems ih =>
    refine (WellFormed.array hitems).readsBack_of_succ fun steps rest hsteps _ => ?_
    cases items with
    | nil => rfl
    | cons v items =>
      simp only [chars, List.length_append, List.length_cons, List.length_nil] at hsteps
      have hread := readItems_separate (by simp) ih steps (by omega) rest
      obtain ⟨c, cs, hv, hc, hbracket⟩ := (hitems v List.mem_cons_self).chars_eq_cons
      obtain ⟨cs', hfirst⟩ := separate_eq_cons c cs (itemChars items)
      rw [itemChars, hv, hfirst] at hread
      simp only [chars, itemChars, hv, hfirst, List.cons_append, List.append_assoc,
        List.nil_append]
      rw [readValue, skipSpace_cons (by decide)]
      simp only [skipSpace_cons hc]
      split
      · rename_i heq
        cases heq
        exact absurd rfl hbracket
      · rw [List.cons_append] at hread
        simp [hread]
  | @object fields hnamed hfields ih =>
    refine (WellFormed.object hnamed hfields).readsBack_of_succ fun steps rest hsteps _ => ?_
    cases fields with
    | nil => rfl
    | cons f fields =>
      simp only [chars, List.length_append, List.length_cons, List.length_nil] at hsteps
      have hread := readFields_separate (by simp) hnamed ih steps (by omega) rest
      obtain ⟨cs', hfirst⟩ : ∃ cs', separate (fieldChars (f :: fields)) = '"' :: cs' :=
        separate_eq_cons _ _ _
      rw [hfirst, List.cons_append] at hread
      simp [chars, hfirst, readValue, skipSpace, isSpace, hread]

/-- A text holds the value that it was written for. -/
theorem WellFormed.read?_text {v : JsonValue} (h : v.WellFormed) : read? v.text = some v := by
  have hread := h.readsBack (2 * v.chars.length + 2) [] (by omega) (by simp [NumberEnds])
  rw [List.append_nil] at hread
  simp [read?, JsonValue.text, hread, skipSpace]

end JsonValue

end QueryChain
