import QueryChain.Proofs.Expr.Folding
import QueryChain.Proofs.Expr.Parts

/-!
# Folding integer arithmetic

A calculation is built from integer constants by negation and the five operators of arithmetic. It
has an exact value over the unbounded integers, unless it divides by zero (`Expr.exactValue?`).
Folding works with integers of 64 bits: it finds the exact value if every step of the calculation
fits (`Expr.FitsThroughout`), and leaves an operator at the root if one does not
(`folds_to_exact_value`).
-/

namespace QueryChain

/-! ## Range -/

theorem inRange_toInt (i : Int64) : InRange i.toInt := by
  have := i.le_toInt
  have := i.toInt_lt
  unfold InRange
  omega

theorem toInt_ofInt {i : Int} (h : InRange i) : (Int64.ofInt i).toInt = i := by
  unfold InRange at h
  apply Int64.toInt_ofInt_of_le
  · omega
  · omega

theorem natAbs_tdiv_le_half {l r : Int} (h : 2 ≤ r.natAbs) :
    (l.tdiv r).natAbs ≤ l.natAbs / 2 := by
  rw [Int.natAbs_tdiv]
  exact Nat.div_le_div_left h (by decide)

/-- A quotient leaves the range only where the least integer is divided by minus one. -/
theorem inRange_tdiv_iff {l r : Int} (hl : InRange l) (hr : r ≠ 0) :
    InRange (l.tdiv r) ↔ ¬(l = -9223372036854775808 ∧ r = -1) := by
  unfold InRange at *
  by_cases hneg : r = -1
  · subst hneg
    rw [Int.tdiv_neg, Int.tdiv_one]
    omega
  · by_cases hone : r = 1
    · subst hone
      rw [Int.tdiv_one]
      omega
    · have := natAbs_tdiv_le_half (l := l) (r := r) (by omega)
      omega

theorem inRange_tmod {l r : Int} (hr : InRange r) (hzero : r ≠ 0) : InRange (l.tmod r) := by
  have hremainder : (l.tmod r).natAbs = l.natAbs % r.natAbs := Int.natAbs_tmod l r
  have hlt : l.natAbs % r.natAbs < r.natAbs := Nat.mod_lt _ (by omega)
  unfold InRange at *
  omega

theorem ofInt?_eq_some_iff {i : Int} {value : Constant} :
    Constant.ofInt? i = some value ↔ InRange i ∧ value = .int (.ofInt i) := by
  unfold Constant.ofInt? int64?
  by_cases h : InRange i
  · simp [h, eq_comm]
  · simp [h]

/-! ## One operator -/

namespace BinaryOp

/-- Whether an operator divides its left operand by its right one. -/
def divides : BinaryOp → Bool
  | .divide | .modulo => true
  | _ => false

/-- Whether an operator makes an integer of two integers. -/
def isArithmetic : BinaryOp → Bool
  | .add | .subtract | .multiply | .divide | .modulo => true
  | _ => false

/-- The exact result of an operator of arithmetic. Division goes toward zero, and the remainder has
the sign of the left operand; nothing is divided by zero. -/
def exactResult? : BinaryOp → Int → Int → Option Int
  | .add, l, r => some (l + r)
  | .subtract, l, r => some (l - r)
  | .multiply, l, r => some (l * r)
  | .divide, l, r => if r = 0 then none else some (l.tdiv r)
  | .modulo, l, r => if r = 0 then none else some (l.tmod r)
  | _, _, _ => none

/-- An operation on two integers stays within 64 bits. -/
structure Fits (op : BinaryOp) (l r : Int) : Prop where
  value : ∀ i, op.exactResult? l r = some i → InRange i
  divisor : op.divides → r ≠ 0
  quotient : op.divides → ¬(l = -9223372036854775808 ∧ r = -1)

theorem exists_exact {op : BinaryOp} (hop : op.isArithmetic) {l r : Int}
    (hr : op.divides → r ≠ 0) : ∃ i, op.exactResult? l r = some i := by
  cases op with
  | add | subtract | multiply => exact ⟨_, rfl⟩
  | divide | modulo => exact ⟨_, if_neg (hr rfl)⟩
  | _ => cases hop

theorem fits_iff_of_not_divides {op : BinaryOp} (hop : op.divides = false) {l r : Int} :
    op.Fits l r ↔ ∀ i, op.exactResult? l r = some i → InRange i :=
  ⟨fun h => h.value, fun h => ⟨h, by simp [hop], by simp [hop]⟩⟩

theorem fits_iff_of_divides {op : BinaryOp} (hop : op.divides) {l r : Int} (hl : InRange l)
    (hr : InRange r) : op.Fits l r ↔ r ≠ 0 ∧ InRange (l.tdiv r) := by
  constructor
  · intro h
    have hzero := h.divisor hop
    exact ⟨hzero, (inRange_tdiv_iff hl hzero).2 (h.quotient hop)⟩
  · intro ⟨hzero, hquotient⟩
    refine ⟨fun i hi => ?_, fun _ => hzero, fun _ => (inRange_tdiv_iff hl hzero).1 hquotient⟩
    cases op with
    | divide =>
      simp only [exactResult?, if_neg hzero, Option.some.injEq] at hi
      exact hi ▸ hquotient
    | modulo =>
      simp only [exactResult?, if_neg hzero, Option.some.injEq] at hi
      exact hi ▸ inRange_tmod hr hzero
    | _ => cases hop

/-- Folding an operation finds its exact result if it fits, and nothing otherwise. -/
theorem onConstants?_int_eq_some_iff {op : BinaryOp} (hop : op.isArithmetic) {l r : Int64}
    {value : Constant} :
    op.onConstants? (.int l) (.int r) = some value ↔
      op.Fits l.toInt r.toInt ∧
        ∃ i, op.exactResult? l.toInt r.toInt = some i ∧ value = .int (.ofInt i) := by
  have hl := inRange_toInt l
  have hr := inRange_toInt r
  cases op with
  | add | subtract | multiply =>
    rw [fits_iff_of_not_divides rfl]
    simp only [onConstants?, onNumbers?, onInts?, exactResult?, ofInt?_eq_some_iff,
      Option.some.injEq, forall_eq', exists_eq_left']
  | divide =>
    rw [fits_iff_of_divides rfl hl hr]
    by_cases hzero : r.toInt = 0
    · simp [onConstants?, onNumbers?, onInts?, hzero]
    · simp [onConstants?, onNumbers?, onInts?, exactResult?, hzero, ofInt?_eq_some_iff]
  | modulo =>
    rw [fits_iff_of_divides rfl hl hr]
    by_cases hzero : r.toInt = 0
    · simp [onConstants?, onNumbers?, onInts?, hzero]
    · have hremainder := inRange_tmod (l := l.toInt) hr hzero
      simp [onConstants?, onNumbers?, onInts?, exactResult?, hzero, hremainder, ofInt?_eq_some_iff]
  | _ => cases hop

end BinaryOp

/-! ## Calculations -/

namespace Expr

/-- An expression built from integer constants by negation and the operators of arithmetic. -/
inductive Calculation : Expr → Prop where
  | constant (i : Int64) (type : String) : Calculation (.constant (.int i) type)
  | negate {operand : Expr} (type : String) :
    Calculation operand → Calculation (.unary .negate operand type)
  | binary {op : BinaryOp} {left right : Expr} (type : String) :
    op.isArithmetic → Calculation left → Calculation right →
      Calculation (.binary op left right type)

/-- The exact value of a calculation. There is none if something is divided by zero on the way. -/
def exactValue? : Expr → Option Int
  | .constant (.int i) _ => some i.toInt
  | .unary .negate operand _ => operand.exactValue?.map fun i => -i
  | .binary op left right _ => do op.exactResult? (← left.exactValue?) (← right.exactValue?)
  | _ => none
termination_by structural e => e

/-- The last step of a calculation stays within 64 bits. -/
structure Fits (e : Expr) : Prop where
  value : ∀ i, e.exactValue? = some i → InRange i
  divisor : ∀ op l r type, e = .binary op l r type → op.divides → r.exactValue? ≠ some 0
  quotient : ∀ op l r type, e = .binary op l r type → op.divides →
    ¬(l.exactValue? = some (-9223372036854775808) ∧ r.exactValue? = some (-1))

/-- All steps of a calculation stay within 64 bits. -/
def FitsThroughout (e : Expr) : Prop :=
  ∀ c ∈ e.parts, c.Fits

theorem fitsThroughout_iff {e : Expr} :
    e.FitsThroughout ↔ e.Fits ∧ ∀ c ∈ e.subterms, c.FitsThroughout :=
  forall_parts_iff

theorem fits_constant (i : Int64) (type : String) : (constant (.int i) type).Fits where
  value j hj := by
    cases hj
    exact inRange_toInt i
  divisor := nofun
  quotient := nofun

theorem fits_negate_iff {operand : Expr} {type : String} {i : Int}
    (hi : operand.exactValue? = some i) :
    (unary .negate operand type).Fits ↔ InRange (-i) := by
  have hvalue : (unary .negate operand type).exactValue? = some (-i) := by simp [exactValue?, hi]
  exact ⟨fun h => h.value _ hvalue, fun h => ⟨by simp [hvalue, h], nofun, nofun⟩⟩

theorem fits_binary_iff {op : BinaryOp} {left right : Expr} {type : String} {i j : Int}
    (hi : left.exactValue? = some i) (hj : right.exactValue? = some j) :
    (binary op left right type).Fits ↔ op.Fits i j := by
  have hvalue : (binary op left right type).exactValue? = op.exactResult? i j := by
    simp [exactValue?, hi, hj]
  constructor
  · intro h
    refine ⟨by simpa [hvalue] using h.value, fun hop => ?_, fun hop => ?_⟩
    · simpa [hj] using h.divisor _ _ _ _ rfl hop
    · simpa [hi, hj] using h.quotient _ _ _ _ rfl hop
  · intro h
    refine ⟨by simpa [hvalue] using h.value, ?_, ?_⟩
    · intro op' l r type' he hop
      cases he
      simpa [hj] using h.divisor hop
    · intro op' l r type' he hop
      cases he
      simpa [hi, hj] using h.quotient hop

/-- A step that does not fit spoils every calculation around it. -/
theorem not_fitsThroughout {c e : Expr} (hc : c ∈ e.subterms) (h : ¬c.FitsThroughout) :
    ¬e.FitsThroughout :=
  fun he => h ((fitsThroughout_iff.1 he).2 c hc)

theorem foldNode_negate_of_inRange {i : Int64} (h : InRange (-i.toInt)) (s type : String) :
    (unary .negate (constant (.int i) s) type).foldNode
      = ofConstant (.int (.ofInt (-i.toInt))) := by
  have hfold : UnaryOp.onConstant? .negate (.int i) = some (.int (.ofInt (-i.toInt))) :=
    ofInt?_eq_some_iff.2 ⟨h, rfl⟩
  rw [foldNode_unary_constant, hfold]
  rfl

theorem foldNode_negate_of_not_inRange {i : Int64} (h : ¬InRange (-i.toInt)) (s type : String) :
    (unary .negate (constant (.int i) s) type).foldNode.constant? = none := by
  have hfold : UnaryOp.onConstant? .negate (.int i) = none := by
    simp [UnaryOp.onConstant?, Constant.ofInt?, int64?, h]
  rw [foldNode_unary_constant, hfold]
  rfl

theorem foldNode_binary_of_fits {op : BinaryOp} (hop : op.isArithmetic) {i j : Int64}
    (h : op.Fits i.toInt j.toInt) (s t type : String) :
    ∃ k, op.exactResult? i.toInt j.toInt = some k ∧ InRange k ∧
      (binary op (constant (.int i) s) (constant (.int j) t) type).foldNode
        = ofConstant (.int (.ofInt k)) := by
  obtain ⟨k, hk⟩ := op.exists_exact hop h.divisor
  have hfold := (op.onConstants?_int_eq_some_iff hop).2 ⟨h, k, hk, rfl⟩
  refine ⟨k, hk, h.value k hk, ?_⟩
  rw [foldNode_binary_constants, hfold]
  rfl

theorem foldNode_binary_of_not_fits {op : BinaryOp} (hop : op.isArithmetic) {i j : Int64}
    (h : ¬op.Fits i.toInt j.toInt) (s t type : String) :
    (binary op (constant (.int i) s) (constant (.int j) t) type).foldNode.constant? = none := by
  have hfold : op.onConstants? (.int i) (.int j) = none := by
    rw [Option.eq_none_iff_forall_ne_some]
    intro value hvalue
    exact h ((op.onConstants?_int_eq_some_iff hop).1 hvalue).1
  rw [foldNode_binary_constants, hfold]
  rfl

/-- Either all steps of a calculation fit, and it is folded to its exact value, or one does not, and
then it is not folded to a constant. -/
theorem evaluate_cases {e : Expr} (h : e.Calculation) :
    (e.FitsThroughout ∧
        ∃ i type, e.evaluate = .constant (.int i) type ∧ e.exactValue? = some i.toInt)
      ∨ (¬e.FitsThroughout ∧ e.evaluate.constant? = none) := by
  induction h with
  | constant i type =>
    have hfits : (constant (.int i) type).FitsThroughout :=
      fitsThroughout_iff.2 ⟨fits_constant i type, by simp [subterms]⟩
    exact .inl ⟨hfits, i, type, evaluate_constant _ _, rfl⟩
  | @negate operand type _ ih =>
    rw [evaluate_unary]
    obtain ⟨hfits, i, s, hevaluate, hexact⟩ | ⟨hnot, hnone⟩ := ih
    · rw [fitsThroughout_iff, fits_negate_iff hexact, hevaluate]
      by_cases hrange : InRange (-i.toInt)
      · refine .inl ⟨⟨hrange, by simp [subterms, hfits]⟩, .ofInt (-i.toInt), "Int32",
          foldNode_negate_of_inRange hrange s type, ?_⟩
        rw [toInt_ofInt hrange]
        simp [exactValue?, hexact]
      · exact .inr ⟨fun h => hrange h.1, foldNode_negate_of_not_inRange hrange s type⟩
    · rw [foldNode_unary_of_none hnone]
      exact .inr ⟨not_fitsThroughout (by simp [subterms]) hnot, rfl⟩
  | @binary op left right type hop _ _ ihl ihr =>
    have hcoalesce : op ≠ .coalesce := by
      intro h
      subst h
      cases hop
    rw [evaluate_binary]
    obtain ⟨hfitsl, i, s, hl, hi⟩ | ⟨hnot, hnone⟩ := ihl
    · obtain ⟨hfitsr, j, t, hr, hj⟩ | ⟨hnot, hnone⟩ := ihr
      · rw [fitsThroughout_iff, fits_binary_iff hi hj, hl, hr]
        by_cases hfits : op.Fits i.toInt j.toInt
        · obtain ⟨k, hk, hrange, hfold⟩ := foldNode_binary_of_fits hop hfits s t type
          refine .inl ⟨⟨hfits, by simp [subterms, hfitsl, hfitsr]⟩, .ofInt k, "Int32", hfold, ?_⟩
          rw [toInt_ofInt hrange]
          simp [exactValue?, hi, hj, hk]
        · exact .inr ⟨fun h => hfits h.1, foldNode_binary_of_not_fits hop hfits s t type⟩
      · rw [foldNode_binary_of_none hcoalesce (.inr hnone)]
        exact .inr ⟨not_fitsThroughout (by simp [subterms]) hnot, rfl⟩
    · rw [foldNode_binary_of_none hcoalesce (.inl hnone)]
      exact .inr ⟨not_fitsThroughout (by simp [subterms]) hnot, rfl⟩

/-- A calculation folds to an integer constant exactly if no divisor is zero, every value on the way
fits in 64 bits and the least integer is never divided by minus one; the constant is the exact
value, and otherwise the outcome is no constant. -/
theorem folds_to_exact_value {e : Expr} (h : e.Calculation) :
    ((∃ i, e.evaluate.constant? = some (.int i)) ↔ e.FitsThroughout) ∧
      (∀ i, e.evaluate.constant? = some (.int i) → e.exactValue? = some i.toInt) ∧
      (¬e.FitsThroughout → e.evaluate.constant? = none) := by
  obtain ⟨hfits, i, type, hevaluate, hexact⟩ | ⟨hnot, hnone⟩ := evaluate_cases h
  · have hvalue : e.evaluate.constant? = some (.int i) := by rw [hevaluate]; rfl
    refine ⟨⟨fun _ => hfits, fun _ => ⟨i, hvalue⟩⟩, fun j hj => ?_, absurd hfits⟩
    rw [hvalue] at hj
    cases hj
    exact hexact
  · refine ⟨⟨?_, fun hfits => absurd hfits hnot⟩, ?_, fun _ => hnone⟩
    · intro ⟨i, hi⟩
      rw [hnone] at hi
      cases hi
    · intro i hi
      rw [hnone] at hi
      cases hi

/-- `-7 / 2 * 3 % -4` folds to its exact value. `least % -1 + 1` has an exact value too, but is not
folded, for the quotient of the remainder is out of range. -/
theorem folds_to_exact_value_remainder :
    let int (i : Int64) := Expr.ofConstant (.int i)
    let e := Expr.operation .modulo
      (.operation .multiply (.operation .divide (int (-7)) (int 2)) (int 3)) (int (-4))
    let d := Expr.operation .add
      (.operation .modulo (int Int64.minValue) (.unary .negate (int 1) "Int32")) (int 1)
    (e.Calculation ∧ e.evaluate.constant? = some (.int (-1)) ∧ e.FitsThroughout ∧
      e.exactValue? = some (-1)) ∧
    (d.Calculation ∧ d.exactValue? = some 1 ∧ ¬d.FitsThroughout ∧ d.evaluate.constant? = none) := by
  intro int e d
  have he : e.Calculation :=
    .binary _ rfl (.binary _ rfl (.binary _ rfl (.constant _ _) (.constant _ _)) (.constant _ _))
      (.constant _ _)
  have hd : d.Calculation :=
    .binary _ rfl (.binary _ rfl (.constant _ _) (.negate _ (.constant _ _))) (.constant _ _)
  have hevaluate : e.evaluate.constant? = some (.int (-1)) := by rfl
  have hnone : d.evaluate.constant? = none := by rfl
  have hnot : ¬d.FitsThroughout := by
    rw [← (folds_to_exact_value hd).1, hnone]
    intro ⟨i, hi⟩
    cases hi
  exact ⟨⟨he, hevaluate, (folds_to_exact_value he).1.1 ⟨_, hevaluate⟩,
    (folds_to_exact_value he).2.1 _ hevaluate⟩, hd, by rfl, hnot, hnone⟩

end Expr

end QueryChain
