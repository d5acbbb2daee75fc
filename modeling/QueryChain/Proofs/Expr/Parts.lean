import QueryChain.Proofs.Chain.Embedded

/-!
# Parts of expressions

`Expr.parts` lists every node of an expression with all that stands below it. What a reference
refers to is a query of its own and no part of the expression; `Expr.refs` lists the references.
-/

namespace QueryChain.Expr

/-- An expression and all expressions in it, each before those that stand in it. -/
def parts (e : Expr) : List Expr :=
  e :: e.subterms.attach.flatMap fun ⟨c, _⟩ => c.parts
termination_by e.size
decreasing_by exact size_lt_of_mem_subterms (by assumption)

theorem parts_eq (e : Expr) : e.parts = e :: e.subterms.flatMap parts := by
  rw [parts]
  simp

theorem mem_parts {c e : Expr} : c ∈ e.parts ↔ c = e ∨ ∃ d ∈ e.subterms, c ∈ d.parts := by
  rw [parts_eq]
  simp

theorem mem_parts_self (e : Expr) : e ∈ e.parts :=
  mem_parts.2 (.inl rfl)

theorem mem_parts_of_subterm {c d e : Expr} (hd : d ∈ e.subterms) (hc : c ∈ d.parts) :
    c ∈ e.parts :=
  mem_parts.2 (.inr ⟨d, hd, hc⟩)

/-- What holds of all parts holds of the node itself and of all parts of its subterms. -/
theorem forall_parts_iff {e : Expr} {P : Expr → Prop} :
    (∀ c ∈ e.parts, P c) ↔ P e ∧ ∀ d ∈ e.subterms, ∀ c ∈ d.parts, P c := by
  rw [parts_eq, List.forall_mem_cons, List.forall_mem_flatMap]

/-- The parts of a part are parts of the whole. -/
theorem parts_trans {c d e : Expr} (hd : d ∈ e.parts) (hc : c ∈ d.parts) : c ∈ e.parts := by
  induction e using subterms_induction with
  | node e ih =>
    obtain rfl | ⟨b, hb, hd⟩ := mem_parts.1 hd
    · exact hc
    · exact mem_parts_of_subterm hb (ih b hb hd)

theorem size_le_of_mem_parts {c e : Expr} (h : c ∈ e.parts) : c.size ≤ e.size := by
  induction e using subterms_induction with
  | node e ih =>
    obtain rfl | ⟨d, hd, hc⟩ := mem_parts.1 h
    · exact Nat.le_refl _
    · have := ih d hd hc
      have := size_lt_of_mem_subterms hd
      omega

theorem unquoted_mem_parts (e : Expr) : e.unquoted ∈ e.parts := by
  induction e using subterms_induction with
  | node e ih =>
    cases e with
    | unary op operand type =>
      cases op with
      | quote =>
        have hoperand : operand ∈ subterms (.unary .quote operand type) := by simp [subterms]
        exact mem_parts_of_subterm hoperand (ih operand hoperand)
      | _ => exact mem_parts_self _
    | _ => exact mem_parts_self _

/-! ## Embedded chains -/

theorem mem_parts_of_mem_outerChainsAll {c : Expr} {es : List Expr}
    (each : ∀ e ∈ es, c ∈ e.outerChains → c ∈ e.parts) (h : c ∈ outerChainsAll es) :
    ∃ e ∈ es, c ∈ e.parts := by
  induction es with
  | nil => simp [outerChainsAll] at h
  | cons e es ih =>
    rw [outerChainsAll, List.mem_append] at h
    rw [List.exists_mem_cons_iff]
    rw [List.forall_mem_cons] at each
    exact h.imp each.1 (ih each.2)

/-- The chains embedded in an expression are parts of it. -/
theorem mem_parts_of_mem_outerChains {c e : Expr} (h : c ∈ e.outerChains) : c ∈ e.parts := by
  induction e using subterms_induction with
  | node e ih =>
    by_cases hchain : e.isChain
    · rw [outerChains_of_isChain hchain, List.mem_singleton] at h
      exact h ▸ mem_parts_self c
    · rw [outerChains_of_not_isChain hchain] at h
      exact mem_parts.2 (.inr (mem_parts_of_mem_outerChainsAll ih h))

/-! ## References -/

/-- The query that a reference refers to. -/
def query? : Expr → Option QueryRef
  | .subQuery query => some query
  | _ => none

/-- The references to queries in an expression, in the order they are written. -/
def refs (e : Expr) : List QueryRef :=
  e.parts.filterMap query?

theorem refs_eq (e : Expr) : e.refs = e.query?.toList ++ e.subterms.flatMap refs := by
  rw [refs, parts_eq, List.filterMap_cons, List.filterMap_flatMap]
  cases e.query? <;> rfl

@[simp] theorem refs_constant (value : Constant) (type : String) :
    (constant value type).refs = [] :=
  refs_eq _

@[simp] theorem refs_parameter (p : Parameter) : (parameter p).refs = [] :=
  refs_eq _

@[simp] theorem refs_member (object : Expr) (m : Member) :
    (member object m).refs = object.refs := by
  simp [refs_eq (member object m), subterms, query?]

@[simp] theorem refs_staticCall (method : String) (arguments : List Expr) (type : String) :
    (staticCall method arguments type).refs = arguments.flatMap refs :=
  refs_eq _

@[simp] theorem refs_unary (op : UnaryOp) (operand : Expr) (type : String) :
    (unary op operand type).refs = operand.refs := by
  simp [refs_eq (unary op operand type), subterms, query?]

@[simp] theorem refs_lambda (parameters : List Parameter) (body : Expr) :
    (lambda parameters body).refs = body.refs := by
  simp [refs_eq (lambda parameters body), subterms, query?]

@[simp] theorem refs_new (type : String) (arguments : List Expr) (members : List Member) :
    (new type arguments members).refs = arguments.flatMap refs :=
  refs_eq _

theorem refs_eq_nil {e : Expr} : e.refs = [] ↔ ∀ c ∈ e.parts, c.query? = none := by
  simp [refs]

theorem refs_of_mem_parts {c e : Expr} (h : e.refs = []) (hc : c ∈ e.parts) : c.refs = [] := by
  rw [refs_eq_nil] at h ⊢
  intro d hd
  exact h d (parts_trans hc hd)

theorem query?_withSubterms (e : Expr) (es : List Expr) :
    (e.withSubterms es).query? = e.query? := by
  cases e with
  | subQuery => rfl
  | _ => rcases es with _ | ⟨a, _ | ⟨b, _ | ⟨c, _ | _⟩⟩⟩ <;> rfl

theorem refs_withSubterms {e : Expr} {es : List Expr} (h : es.length = e.subterms.length) :
    (e.withSubterms es).refs = e.query?.toList ++ es.flatMap refs := by
  rw [refs_eq, query?_withSubterms, subterms_withSubterms h]

end QueryChain.Expr
