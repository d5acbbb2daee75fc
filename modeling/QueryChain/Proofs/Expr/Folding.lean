import QueryChain.Expr.Fold
import QueryChain.Proofs.Expr.Walks

/-!
# Folding bottom-up

Folding an expression folds its subterms, puts the node over what they became, and folds that node
if it can be folded (`evaluate_eq`).
-/

namespace QueryChain.Expr

/-- What a node folds to when its subterms are folded: itself if it cannot be folded. -/
def foldNode (e : Expr) : Expr :=
  (fold? e).getD e

theorem value_after_folder (e : Expr) : Outcome.value (folder.after e) = e.foldNode := by
  simp only [folder, foldNode]
  cases fold? e <;> rfl

theorem folder_handsBack {e d : Expr} (h : folder.after e = .unchanged d) : d = e := by
  simp only [folder] at h
  split at h <;> cases h
  rfl

theorem folded_eq (e : Expr) :
    e.folded = Outcome.atop (folder.after (e.rebuilt (e.subterms.map folded)).value)
      (e.rebuilt (e.subterms.map folded)) := by
  have hmapM (es : List Expr) : es.mapM (m := Id) (walk folder) = es.map folded := by
    induction es with
    | nil => rfl
    | cons e es ih => rw [List.mapM_cons, ih]; rfl
  unfold folded
  rw [walk_eq, hmapM]
  rfl

/-- An expression without a constant part to fold comes out as it is. -/
theorem folded_handedBack {e d : Expr} (h : e.folded = .unchanged d) : d = e := by
  rw [folded_eq] at h
  exact handedBack_of_atop (fun c hc => folder_handsBack hc) h

/-- Folding folds the subterms, and then the node over what they became. -/
theorem evaluate_eq (e : Expr) :
    e.evaluate = (e.withSubterms (e.subterms.map evaluate)).foldNode := by
  have hback : HandedBack e.subterms (e.subterms.map folded) :=
    List.forall₂_map_right_iff.2 (List.forall₂_same.2 fun c _ d hd => folded_handedBack hd)
  have hvalue : (e.rebuilt (e.subterms.map folded)).value
      = e.withSubterms (e.subterms.map evaluate) := by
    rw [value_rebuilt hback, List.map_map]
    rfl
  rw [evaluate, folded_eq, Outcome.value_atop, value_after_folder, hvalue]

/-! ## Nodes by kind -/

theorem evaluate_constant (value : Constant) (type : String) :
    (constant value type).evaluate = constant value type := by
  rw [evaluate_eq]
  rfl

theorem evaluate_unary (op : UnaryOp) (operand : Expr) (type : String) :
    (unary op operand type).evaluate = (unary op operand.evaluate type).foldNode := by
  rw [evaluate_eq]
  rfl

theorem evaluate_binary (op : BinaryOp) (left right : Expr) (type : String) :
    (binary op left right type).evaluate
      = (binary op left.evaluate right.evaluate type).foldNode := by
  rw [evaluate_eq]
  rfl

theorem evaluate_lambda (parameters : List Parameter) (body : Expr) :
    (lambda parameters body).evaluate = lambda parameters body.evaluate := by
  rw [evaluate_eq]
  rfl

theorem lambda?_eq_some {e : Expr} {l : List Parameter × Expr} (h : e.lambda? = some l) :
    e = .lambda l.1 l.2 := by
  cases e with
  | lambda =>
    cases h
    rfl
  | _ => cases h

theorem foldNode_unary_constant (op : UnaryOp) (value : Constant) (s type : String) :
    (unary op (constant value s) type).foldNode
      = ((op.onConstant? value).map ofConstant).getD (unary op (constant value s) type) :=
  rfl

theorem foldNode_binary_constants (op : BinaryOp) (l r : Constant) (s t type : String) :
    (binary op (constant l s) (constant r t) type).foldNode
      = ((op.onConstants? l r).map ofConstant).getD
        (binary op (constant l s) (constant r t) type) := by
  unfold foldNode fold?
  rfl

/-- An operator on what is no constant stays as it is. -/
theorem foldNode_unary_of_none {op : UnaryOp} {operand : Expr} (h : operand.constant? = none)
    (type : String) : (unary op operand type).foldNode = unary op operand type := by
  cases operand with
  | constant => cases h
  | _ => rfl

/-- An operator beside what is no constant stays as it is, unless it picks one of the two. -/
theorem foldNode_binary_of_none {op : BinaryOp} {left right : Expr} (hop : op ≠ .coalesce)
    (h : left.constant? = none ∨ right.constant? = none) (type : String) :
    (binary op left right type).foldNode = binary op left right type := by
  have hfold : fold? (binary op left right type) = none := by
    unfold fold?
    split <;> simp_all [constant?]
  rw [foldNode, hfold, Option.getD_none]

end QueryChain.Expr
