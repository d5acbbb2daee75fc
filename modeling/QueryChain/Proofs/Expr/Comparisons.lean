import QueryChain.Proofs.Expr.Folding
import QueryChain.Proofs.Number.Order

/-!
# Comparisons of numbers

The comparisons of two numbers are coherent if one of less, equal and greater holds, and the other
three follow from these (`Coherent`). Folding compares by order as doubles where an integer stands
beside a double, but takes no integer to be equal to a double. So its answers are coherent for
all numbers but an integer and a double that are the same as doubles (`coherent_iff`).
-/

namespace QueryChain

namespace Constant

/-- The constants that are numbers: integers, and doubles other than the one that is no number. -/
inductive IsNumber : Constant → Prop where
  | int (i : Int64) : IsNumber (.int i)
  | float {x : Float} : x.isNaN = false → IsNumber (.float x)

/-- An integer beside a double that is the same as a double, in either order. -/
inductive SameAsDoubles : Constant → Constant → Prop where
  | intFloat {i : Int64} {x : Float} : nearestDouble i == x → SameAsDoubles (.int i) (.float x)
  | floatInt {x : Float} {i : Int64} : x == nearestDouble i → SameAsDoubles (.float x) (.int i)

/-- The comparison of two constants by `op` is folded to `answer`, whatever types are announced. -/
def Answers (op : BinaryOp) (l r : Constant) (answer : Bool) : Prop :=
  ∀ s t type, (Expr.binary op (.constant l s) (.constant r t) type).evaluate
    = .ofConstant (.bool answer)

/-- The answers to comparisons agree with each other. -/
structure Coherent (l r : Constant) : Prop where
  exactlyOne : ∃! op, op ∈ [BinaryOp.lessThan, .equal, .greaterThan] ∧ Answers op l r true
  notEqual : ∃ answer, Answers .equal l r answer ∧ Answers .notEqual l r !answer
  lessThanOrEqual : Answers .lessThanOrEqual l r true ↔
    Answers .lessThan l r true ∨ Answers .equal l r true
  greaterThanOrEqual : Answers .greaterThanOrEqual l r true ↔
    Answers .greaterThan l r true ∨ Answers .equal l r true

variable {l r : Constant}

theorem answers_iff {op : BinaryOp} {answer : Bool} :
    Answers op l r answer ↔ op.onConstants? l r = some (.bool answer) := by
  simp only [Answers, Expr.evaluate_binary, Expr.evaluate_constant, Expr.foldNode_binary_constants]
  cases h : op.onConstants? l r with
  | none => simp [Expr.ofConstant]
  | some value =>
    constructor
    · intro hall
      cases hall "" "" ""
      rfl
    · intro hvalue s t type
      cases hvalue
      rfl

/-- A comparison has at most one answer. -/
theorem answers_inj {op : BinaryOp} {a b : Bool} (ha : Answers op l r a) (hb : Answers op l r b) :
    a = b := by
  rw [answers_iff] at ha hb
  cases ha.symm.trans hb
  rfl

theorem answers_true_iff {op : BinaryOp} {a : Bool} (h : Answers op l r a) :
    Answers op l r true ↔ a = true :=
  ⟨fun ht => answers_inj h ht, fun ha => ha ▸ h⟩

/-- Equality is told by value, and never takes an integer to be a double. -/
theorem answers_equal : Answers .equal l r (l.same r) :=
  answers_iff.2 rfl

theorem answers_notEqual : Answers .notEqual l r !l.same r :=
  answers_iff.2 rfl

/-! ## Order -/

/-- The answers to the four comparisons by order are those that the order `o` gives. -/
structure OrderedBy (l r : Constant) (o : Ordering) : Prop where
  lessThan : Answers .lessThan l r (o == .lt)
  lessThanOrEqual : Answers .lessThanOrEqual l r (o != .gt)
  greaterThan : Answers .greaterThan l r (o == .gt)
  greaterThanOrEqual : Answers .greaterThanOrEqual l r (o != .lt)

section

variable {α : Type} [LT α] [LE α] [BEq α] {a b : α} {o : Ordering}

theorem orderedBy_of_compares [Decidable (a < b)] [Decidable (a ≤ b)] [Decidable (b < a)]
    [Decidable (b ≤ a)] (h : Compares a b o)
    (hlt : BinaryOp.onConstants? .lessThan l r = some (.bool (a < b)))
    (hle : BinaryOp.onConstants? .lessThanOrEqual l r = some (.bool (a ≤ b)))
    (hgt : BinaryOp.onConstants? .greaterThan l r = some (.bool (b < a)))
    (hge : BinaryOp.onConstants? .greaterThanOrEqual l r = some (.bool (b ≤ a))) :
    OrderedBy l r o := by
  have hlt' : decide (a < b) = (o == .lt) := by
    rw [Bool.eq_iff_iff, decide_eq_true_iff, beq_iff_eq, h.lt]
  have hle' : decide (a ≤ b) = (o != .gt) := by
    rw [Bool.eq_iff_iff, decide_eq_true_iff, bne_iff_ne, h.le]
  have hgt' : decide (b < a) = (o == .gt) := by
    rw [Bool.eq_iff_iff, decide_eq_true_iff, beq_iff_eq, h.gt]
  have hge' : decide (b ≤ a) = (o != .lt) := by
    rw [Bool.eq_iff_iff, decide_eq_true_iff, bne_iff_ne, h.ge]
  exact ⟨answers_iff.2 (hlt' ▸ hlt), answers_iff.2 (hle' ▸ hle), answers_iff.2 (hgt' ▸ hgt),
    answers_iff.2 (hge' ▸ hge)⟩

end

section

variable {i : Int64} {x : Float}

theorem sameAsDoubles_intFloat : SameAsDoubles (.int i) (.float x) ↔ nearestDouble i == x := by
  constructor
  · intro h
    cases h with
    | intFloat h => exact h
  · exact .intFloat

theorem sameAsDoubles_floatInt : SameAsDoubles (.float x) (.int i) ↔ x == nearestDouble i := by
  constructor
  · intro h
    cases h with
    | floatInt h => exact h
  · exact .floatInt

end

/-- The equality of two numbers agrees with their order `o`, unless they are an integer and a double
that are the same as doubles: these stand in the order of equals and are not equal. -/
def Settled (l r : Constant) (o : Ordering) : Prop :=
  SameAsDoubles l r ∧ o = .eq ∧ l.same r = false ∨
    ¬SameAsDoubles l r ∧ l.same r = (o == .eq)

theorem settled_of_same {o : Ordering} (hnot : ¬SameAsDoubles l r) (h : l.same r ↔ o = .eq) :
    Settled l r o := by
  refine .inr ⟨hnot, ?_⟩
  rw [Bool.eq_iff_iff, beq_iff_eq]
  exact h

/-- An integer and a double are never equal. -/
theorem settled_of_mixed {o : Ordering} (hsame : l.same r = false)
    (h : SameAsDoubles l r ↔ o = .eq) : Settled l r o := by
  by_cases ho : o = .eq
  · exact .inl ⟨h.2 ho, ho, hsame⟩
  · refine .inr ⟨fun hdoubles => ho (h.1 hdoubles), ?_⟩
    rw [hsame, beq_false_of_ne ho]

theorem exists_orderedBy (hl : l.IsNumber) (hr : r.IsNumber) :
    ∃ o, OrderedBy l r o ∧ Settled l r o := by
  cases hl with
  | int i =>
    cases hr with
    | int j =>
      obtain ⟨o, ho⟩ := exists_compares_int64 i j
      exact ⟨o, orderedBy_of_compares ho rfl rfl rfl rfl, settled_of_same nofun ho.beq⟩
    | float hy =>
      obtain ⟨o, ho⟩ := exists_compares_double (isNaN_nearestDouble i) hy
      exact ⟨o, orderedBy_of_compares ho rfl rfl rfl rfl,
        settled_of_mixed rfl (sameAsDoubles_intFloat.trans ho.beq)⟩
  | float hx =>
    cases hr with
    | int j =>
      obtain ⟨o, ho⟩ := exists_compares_double hx (isNaN_nearestDouble j)
      exact ⟨o, orderedBy_of_compares ho rfl rfl rfl rfl,
        settled_of_mixed rfl (sameAsDoubles_floatInt.trans ho.beq)⟩
    | float hy =>
      obtain ⟨o, ho⟩ := exists_compares_double hx hy
      exact ⟨o, orderedBy_of_compares ho rfl rfl rfl rfl, settled_of_same nofun ho.beq⟩

/-! ## Coherence -/

/-- The one of less, equal and greater that holds of numbers in an order. -/
def holding : Ordering → BinaryOp
  | .lt => .lessThan
  | .eq => .equal
  | .gt => .greaterThan

variable {o : Ordering}

theorem coherent_of_orderedBy (h : OrderedBy l r o) (hsame : l.same r = (o == .eq)) :
    Coherent l r := by
  have hlt := answers_true_iff h.lessThan
  have hgt := answers_true_iff h.greaterThan
  have heq : Answers .equal l r true ↔ (o == .eq) = true := by
    rw [answers_true_iff answers_equal, hsame]
  refine ⟨?_, ⟨_, answers_equal, answers_notEqual⟩, ?_, ?_⟩
  · have hone (op : BinaryOp) :
        op ∈ [BinaryOp.lessThan, .equal, .greaterThan] ∧ Answers op l r true ↔
          op = holding o := by
      constructor
      · intro ⟨hop, hanswer⟩
        simp only [List.mem_cons, List.not_mem_nil, or_false] at hop
        obtain rfl | rfl | rfl := hop
        · rw [beq_iff_eq.1 (hlt.1 hanswer), holding]
        · rw [beq_iff_eq.1 (heq.1 hanswer), holding]
        · rw [beq_iff_eq.1 (hgt.1 hanswer), holding]
      · intro hop
        cases o <;> subst hop
        · exact ⟨by simp [holding], hlt.2 rfl⟩
        · exact ⟨by simp [holding], heq.2 rfl⟩
        · exact ⟨by simp [holding], hgt.2 rfl⟩
    simp only [hone]
    exact existsUnique_eq
  · rw [answers_true_iff h.lessThanOrEqual, hlt, heq]
    cases o <;> decide
  · rw [answers_true_iff h.greaterThanOrEqual, hgt, heq]
    cases o <;> decide

/-- Numbers that are ordered as equals but are not equal are neither less, equal nor greater. -/
theorem not_coherent_of_orderedBy (h : OrderedBy l r .eq) (hsame : l.same r = false) :
    ¬Coherent l r := by
  intro hcoherent
  have hle := answers_true_iff h.lessThanOrEqual
  obtain hlt | heq := hcoherent.lessThanOrEqual.1 (hle.2 rfl)
  · cases (answers_true_iff h.lessThan).1 hlt
  · cases hsame.symm.trans ((answers_true_iff answers_equal).1 heq)

/-- The comparisons of two numbers are coherent exactly if they are not an integer and a double that
are the same as doubles. Such numbers are folded to be neither less, equal nor greater, and yet to
be less or equal, and greater or equal. -/
theorem coherent_iff (hl : l.IsNumber) (hr : r.IsNumber) :
    (Coherent l r ↔ ¬SameAsDoubles l r) ∧
      (SameAsDoubles l r →
        (∀ op ∈ [BinaryOp.lessThan, .equal, .greaterThan], Answers op l r false) ∧
        ∀ op ∈ [BinaryOp.lessThanOrEqual, .notEqual, .greaterThanOrEqual],
          Answers op l r true) := by
  obtain ⟨o, horder, ⟨hdoubles, rfl, hsame⟩ | ⟨hdoubles, hsame⟩⟩ := exists_orderedBy hl hr
  · refine ⟨iff_of_false (not_coherent_of_orderedBy horder hsame) (not_not_intro hdoubles), ?_⟩
    intro _
    simp only [List.forall_mem_cons, List.not_mem_nil, false_implies, implies_true, and_true]
    have hequal : Answers .equal l r false := hsame ▸ answers_equal
    have hnotEqual : Answers .notEqual l r true := by
      have := answers_notEqual (l := l) (r := r)
      rwa [hsame] at this
    exact ⟨⟨horder.lessThan, hequal, horder.greaterThan⟩,
      horder.lessThanOrEqual, hnotEqual, horder.greaterThanOrEqual⟩
  · exact ⟨iff_of_true (coherent_of_orderedBy horder hsame) hdoubles, fun h => absurd h hdoubles⟩

/-- The integer one and the double one are neither less, equal nor greater. -/
theorem coherent_iff_one :
    ¬Coherent (.int 1) (.float 1.0) ∧
      ∀ op ∈ [BinaryOp.lessThan, .equal, .greaterThan],
        Answers op (.int 1) (.float 1.0) false := by
  have hsame : SameAsDoubles (.int 1) (.float 1.0) := .intFloat (by decide)
  obtain ⟨hiff, hdoubles⟩ := coherent_iff (.int 1) (.float (x := 1.0) (by decide))
  exact ⟨fun h => hiff.1 h hsame, (hdoubles hsame).1⟩

end Constant

end QueryChain
