import Mathlib.Tactic.SplitIfs
import QueryChain.Proofs.Json.Texts

/-!
# Numerals that are written

The numeral of an integer and that of a finite double have such digits as a text may have, so they
are read back as numerals. An integer is read back from its numeral too. For a double, what could
go wrong is a zero before other digits; there is none, since the shortest decimal of a positive
double is positive (`Decimal.Binary.shortest_pos`).
-/

namespace QueryChain

open JsonValue (Digits isDigit)

/-! ## Digits -/

theorem isDigit_eq (c : Char) : isDigit c = c.isDigit := by
  rw [Bool.eq_iff_iff, Char.isDigit_iff_toNat, isDigit, decide_eq_true_eq]
  rfl

theorem digits_toDigits (n : Nat) : Digits (Nat.toDigits 10 n) := by
  refine ⟨Nat.toDigits_ne_nil, fun c hc => ?_⟩
  rw [isDigit_eq]
  exact Nat.isDigit_of_mem_toDigits (by decide) (by decide) hc

theorem digitsValue_toDigits (n : Nat) : digitsValue (Nat.toDigits 10 n) = n :=
  Nat.ofDigitChars_ten_toDigits

/-- The digits of a positive number do not begin with a zero. -/
theorem head?_toDigits_ne {n : Nat} (h : 0 < n) : (Nat.toDigits 10 n).head? ≠ some '0' := by
  induction n using Nat.strongRecOn with
  | ind n ih =>
    by_cases hlt : n < 10
    · have hdigit : ∀ n < 10, 0 < n → n.digitChar ≠ '0' := by decide
      rw [Nat.toDigits_of_lt_base hlt]
      exact fun heq => hdigit n hlt h (Option.some.inj heq)
    · have ih := ih (n / 10) (by omega) (by omega)
      obtain ⟨c, cs, hcons⟩ :=
        List.exists_cons_of_ne_nil (Nat.toDigits_ne_nil (n := n / 10) (b := 10))
      rw [Nat.toDigits_of_base_le (by decide) (by omega), hcons]
      rwa [hcons] at ih

theorem toDigits_noNeedlessZero (n : Nat) (c : Char) (cs : List Char) :
    Nat.toDigits 10 n ≠ '0' :: c :: cs := by
  intro h
  rcases Nat.eq_zero_or_pos n with rfl | hpos
  · rw [Nat.toDigits_zero] at h
    cases h
  · exact head?_toDigits_ne hpos (by rw [h]; rfl)

namespace Numeral

/-! ## Integers -/

theorem wellFormed_ofInt (i : Int) : (ofInt i).WellFormed where
  whole := digits_toDigits _
  noNeedlessZero := toDigits_noNeedlessZero _
  fraction := nofun
  exponent := nofun

/-- An integer is read back from its numeral. -/
theorem int?_ofInt (i : Int64) : (ofInt i.toInt).int? = some i := by
  have hrange : InRange i.toInt := by
    have := i.le_toInt
    have := i.toInt_lt
    constructor <;> omega
  have hvalue : (if i.toInt < 0 then -(i.toInt.natAbs : Int) else i.toInt.natAbs) = i.toInt := by
    omega
  have hzero : ¬(i.toInt < 0 ∧ i.toInt.natAbs = 0) := by
    omega
  simp only [int?, ofInt, digitsValue_toDigits, decide_eq_true_eq, hvalue, if_neg hzero, int64?,
    if_pos hrange, Int64.ofInt_toInt]

end Numeral

/-! ## The shortest decimal of a double -/

namespace Decimal.Binary

/-- A positive finite double: its mantissa and its exponent are in range. -/
structure Proper (b : Binary) : Prop where
  mantissa_pos : 0 < b.mantissa
  mantissa_lt : b.mantissa < Nat.pow 2 (fractionPlaces + 1)
  le_exponent : -1074 ≤ b.exponent
  exponent_le : b.exponent ≤ 971

theorem proper_ofBits {bits : Nat} (hpos : 0 < bits) (h : bits < infinityBits) :
    (ofBits bits).Proper := by
  have hplaces : Nat.pow 2 fractionPlaces = 4503599627370496 := rfl
  have hlimit : Nat.pow 2 (fractionPlaces + 1) = 2 * 4503599627370496 := rfl
  have hinfinity : infinityBits = 2047 * 4503599627370496 := rfl
  unfold ofBits
  rw [hplaces]
  simp only
  split
  · constructor <;> simp only [hlimit] <;> omega
  · constructor <;> simp only [hlimit] <;> omega

theorem Interval.holds_of_nearest? {i : Interval} {tie : Tie} {units : Nat}
    (h : i.nearest? tie = some units) : i.holds units := by
  unfold nearest? at h
  simp only at h
  split at h
  · cases h
  · cases h
    assumption
  · cases h
    assumption
  · rename_i hbelow habove
    split at h
    · cases h
      exact hbelow
    · split at h
      · cases h
        exact habove
      · cases tie with
        | up =>
          cases h
          exact habove
        | toEven =>
          cases h
          split
          · exact hbelow
          · exact habove

/-- The interval of a positive double is above zero. -/
theorem not_holds_zero {b : Binary} (h : 0 < b.mantissa) (place : Int) :
    (b.interval place).holds 0 = false := by
  have hscale : 0 < Nat.pow 2 (b.exponent - 2).toNat * Nat.pow 10 (-place).toNat :=
    Nat.mul_pos (Nat.pow_pos (by decide)) (Nat.pow_pos (by decide))
  have hlow : 0 < (b.interval place).low := by
    refine Nat.mul_pos ?_ hscale
    split <;> omega
  simp only [Interval.holds, Nat.zero_mul]
  split
  · simp
    omega
  · simp

/-- A search finds a positive number of units, if one unit of the last grid is no more than the
double. -/
theorem search_pos {b : Binary} (h : 0 < b.mantissa) (tie : Tie) {steps : Nat} {place : Int}
    (hend : (b.interval (place - steps)).denominator ≤ (b.interval (place - steps)).value) :
    0 < (b.search tie steps place).significand := by
  induction steps generalizing place with
  | zero =>
    rw [Int.natCast_zero, Int.sub_zero] at hend
    refine Nat.div_pos hend ?_
    exact Nat.mul_pos (Nat.pow_pos (by decide)) (Nat.pow_pos (by decide))
  | succ steps ih =>
    rw [search]
    cases hnearest : (b.interval place).nearest? tie with
    | none =>
      refine ih ?_
      rwa [Int.sub_sub, Int.add_comm 1, ← Int.natCast_succ]
    | some units =>
      refine Nat.pos_of_ne_zero ?_
      rintro rfl
      have hholds := Interval.holds_of_nearest? hnearest
      rw [not_holds_zero h] at hholds
      cases hholds

/-- A unit of a grid is no more than a double with so many binary places before the point, when the
grid is fine enough. -/
theorem denominator_le_value {b : Binary} {place : Int}
    (h : 4 * place ≤ Nat.log2 b.mantissa + b.exponent
      ∧ 3 * place ≤ Nat.log2 b.mantissa + b.exponent)
    (hpos : 0 < b.mantissa) : (b.interval place).denominator ≤ (b.interval place).value := by
  have hmantissa : 2 ^ Nat.log2 b.mantissa ≤ b.mantissa := Nat.log2_self_le (by omega)
  have hten (n : Nat) : 2 ^ (3 * n) ≤ 10 ^ n ∧ 10 ^ n ≤ 2 ^ (4 * n) := by
    rw [Nat.pow_mul, Nat.pow_mul]
    exact ⟨Nat.pow_le_pow_left (by decide) n, Nat.pow_le_pow_left (by decide) n⟩
  calc 2 ^ (2 - b.exponent).toNat * 10 ^ place.toNat
      ≤ 2 ^ (2 - b.exponent).toNat * 2 ^ (4 * place.toNat) := Nat.mul_le_mul_left _ (hten _).2
    _ = 2 ^ ((2 - b.exponent).toNat + 4 * place.toNat) := (Nat.pow_add ..).symm
    _ ≤ 2 ^ (2 + Nat.log2 b.mantissa + ((b.exponent - 2).toNat + 3 * (-place).toNat)) :=
      Nat.pow_le_pow_right (by decide) (by omega)
    _ = 4 * 2 ^ Nat.log2 b.mantissa * (2 ^ (b.exponent - 2).toNat * 2 ^ (3 * (-place).toNat)) := by
      simp only [Nat.pow_add]
    _ ≤ 4 * b.mantissa * (2 ^ (b.exponent - 2).toNat * 10 ^ (-place).toNat) :=
      Nat.mul_le_mul (Nat.mul_le_mul_left 4 hmantissa) (Nat.mul_le_mul_left _ (hten _).1)

/-- The shortest decimal of a positive double is positive. -/
theorem shortest_pos {b : Binary} (h : b.Proper) (tie : Tie) :
    0 < (b.shortest tie).significand := by
  obtain ⟨hpos, hlt, hle, hge⟩ := h
  have hlog : Nat.log2 b.mantissa < 53 := (Nat.log2_lt (by omega)).2 hlt
  refine search_pos hpos tie (denominator_le_value ?_ hpos)
  simp only [topPlace]
  split <;> constructor <;> omega

end Decimal.Binary

/-! ## Doubles -/

namespace Numeral

theorem digits_append {ds es : List Char} (hds : Digits ds) (hes : ∀ c ∈ es, isDigit c) :
    Digits (ds ++ es) :=
  ⟨by simp [hds.1], fun c hc => (List.mem_append.1 hc).elim (hds.2 c) (hes c)⟩

theorem digits_of_subset {ds es : List Char} (hne : es ≠ []) (h : es ⊆ ds) (hds : Digits ds) :
    Digits es :=
  ⟨hne, fun c hc => hds.2 c (h hc)⟩

theorem isDigit_of_mem_replicate {n : Nat} : ∀ c ∈ List.replicate n '0', isDigit c := by
  intro c hc
  rw [List.eq_of_mem_replicate hc]
  rfl

theorem digits_zero : Digits ['0'] :=
  ⟨by simp, List.forall_mem_singleton.2 rfl⟩

/-- The numeral of a positive decimal can be read, in whichever way it is written out. -/
theorem wellFormed_ofDecimal (negative : Bool) {d : Decimal} (h : 0 < d.significand) :
    (ofDecimal negative d).WellFormed := by
  have hdigits : Digits d.digits := digits_toDigits _
  have hhead : d.digits.head? ≠ some '0' := head?_toDigits_ne h
  have hlength : 0 < d.digits.length := List.length_pos_iff.2 hdigits.1
  have hzero {ds : List Char} (hds : ds.head? = d.digits.head?) (c : Char) (cs : List Char) :
      ds ≠ '0' :: c :: cs := by
    rintro rfl
    exact hhead hds.symm
  have htake {k : Nat} (hk : 0 < k) :
      Digits (d.digits.take k) ∧ ∀ c cs, d.digits.take k ≠ '0' :: c :: cs := by
    refine ⟨digits_of_subset ?_ (List.take_subset _ _) hdigits, hzero ?_⟩
    · rw [ne_eq, List.take_eq_nil_iff, not_or]
      exact ⟨by omega, hdigits.1⟩
    · rw [List.head?_take, if_neg (by omega)]
  have hdrop {k : Nat} (hk : k < d.digits.length) : Digits (d.digits.drop k) :=
    digits_of_subset (by simpa using hk) (List.drop_subset _ _) hdigits
  unfold ofDecimal
  simp only
  split_ifs with hwhole hpoint hsmall hone
  · refine ⟨digits_append hdigits isDigit_of_mem_replicate, hzero ?_, ?_, nofun⟩
    · obtain ⟨c, cs, hcons⟩ := List.exists_cons_of_ne_nil hdigits.1
      simp [hcons]
    · rintro _ ⟨⟩
      exact digits_zero
  · have htake := htake (k := (d.digits.length + d.exponent).toNat) (by omega)
    refine ⟨htake.1, htake.2, ?_, nofun⟩
    rintro _ ⟨⟩
    exact hdrop (by omega)
  · refine ⟨digits_zero, by simp, ?_, nofun⟩
    rintro _ ⟨⟩
    exact ⟨by simp [hdigits.1], fun c hc =>
      (List.mem_append.1 hc).elim (isDigit_of_mem_replicate c) (hdigits.2 c)⟩
  · refine ⟨(htake Nat.one_pos).1, (htake Nat.one_pos).2, nofun, ?_⟩
    rintro _ ⟨⟩
    exact digits_toDigits _
  · refine ⟨(htake Nat.one_pos).1, (htake Nat.one_pos).2, ?_, ?_⟩
    · rintro _ ⟨⟩
      exact hdrop (by omega)
    · rintro _ ⟨⟩
      exact digits_toDigits _

/-- The numeral of a double can be read. -/
theorem wellFormed_of_ofFloat? {x : Float} {n : Numeral} (h : ofFloat? x = some n) :
    n.WellFormed := by
  unfold ofFloat? at h
  split at h
  · cases h
  · cases h
  · cases h
    refine ⟨digits_zero, by simp, ?_, nofun⟩
    rintro _ ⟨⟩
    exact digits_zero
  · rename_i negative magnitude hshape
    cases h
    refine wellFormed_ofDecimal _ (Decimal.Binary.shortest_pos ?_ _)
    unfold FloatShape.ofFloat FloatShape.ofBits at hshape
    simp only at hshape
    split_ifs at hshape with h₁ h₂ h₃
    cases hshape
    exact Decimal.Binary.proper_ofBits (by omega) (by omega)

end Numeral

end QueryChain
