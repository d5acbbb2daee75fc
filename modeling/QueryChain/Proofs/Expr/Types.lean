import QueryChain.Proofs.Chain.NodeTypes
import QueryChain.Proofs.Expr.Normal

/-!
# Types of folded expressions

A folded constant has the type of its bare value, whatever type the folded node announces. In an
expression whose types agree with each other (`Consistent`), folding changes the type of a node only
if some part of it is of one of a few kinds (`Retyped`):

* over constants (`Lossy`), a conversion to another type, a variable or item read under a type that
  is not its own, an integer taken for a double, and an array;
* an invocation of a function that folding shows to be a lambda.

Where there is no such part all nodes keep their types, and the elements of a source have the type
that the source announces (`keepsTypes_iff`).
-/

namespace QueryChain

open QueryChain.TypeName

theorem TypeName.array_inj {element element' : String} :
    array element = array element' ↔ element = element' := by
  simp only [array, ← String.toList_inj, String.toList_append, List.append_cancel_right_eq]

/-! ## Types of folded values -/

theorem Constant.type_ofInt? {i : Int} {value : Constant} (h : Constant.ofInt? i = some value) :
    value.type = "Int32" := by
  obtain ⟨j, _, rfl⟩ := Option.map_eq_some_iff.1 h
  rfl

theorem UnaryOp.type_onConstant? {op : UnaryOp} {value folded : Constant}
    (h : op.onConstant? value = some folded) :
    folded.type = if op = .arrayLength then "Int32" else value.type := by
  unfold UnaryOp.onConstant? at h
  split at h
  case h_4 | h_7 => exact Constant.type_ofInt? h
  case h_8 => cases h
  all_goals
    cases h
    rfl

namespace BinaryOp

theorem type_onInts? {op : BinaryOp} {l r : Int64} {folded : Constant}
    (h : op.onInts? l r = some folded) :
    folded.type = if op.isPredicate then "Boolean" else "Int32" := by
  cases op with
  | add | subtract | multiply => exact Constant.type_ofInt? h
  | divide | modulo =>
    unfold onInts? at h
    simp only at h
    split at h
    · cases h
    · exact Constant.type_ofInt? h
  | _ =>
    cases h
    try rfl

theorem type_onFloats? {op : BinaryOp} {l r : Float} {folded : Constant}
    (h : op.onFloats? l r = some folded) :
    folded.type = if op.isPredicate then "Boolean" else "Double" := by
  cases op with
  | _ =>
    cases h
    try rfl

theorem type_onNumbers? {op : BinaryOp} {l r folded : Constant}
    (h : op.onNumbers? l r = some folded)
    (hmixed : op.isPredicate = false → ∀ i x, l = .int i → r ≠ .float x) :
    folded.type = if op.isPredicate then "Boolean" else l.type := by
  unfold onNumbers? at h
  split at h
  · exact type_onInts? h
  · exact type_onFloats? h
  · have htype := type_onFloats? h
    cases hpredicate : op.isPredicate with
    | true => rwa [hpredicate] at htype
    | false => exact absurd rfl (hmixed hpredicate _ _ rfl)
  · exact type_onFloats? h
  · cases h

/-- A question has a Boolean answer. Any other operation has a value of its left operand's type,
unless it takes an item out of a list, chooses an operand or takes an integer for a double. -/
theorem type_onConstants? {op : BinaryOp} {l r folded : Constant}
    (h : op.onConstants? l r = some folded) (hitem : op ≠ .arrayIndex) (hchoice : op ≠ .coalesce)
    (hmixed : op.isPredicate = false → ∀ i x, l = .int i → r ≠ .float x) :
    folded.type = if op.isPredicate then "Boolean" else l.type := by
  unfold onConstants? at h
  split at h
  case h_1 => exact absurd rfl hchoice
  case h_7 => exact absurd rfl hitem
  case h_8 => exact type_onNumbers? h hmixed
  all_goals
    cases h
    rfl

/-- An integer beside a double is taken for a double. -/
theorem type_onConstants?_mixed {op : BinaryOp} {i : Int64} {x : Float} {folded : Constant}
    (h : op.onConstants? (.int i) (.float x) = some folded) (hpredicate : op.isPredicate = false)
    (hchoice : op ≠ .coalesce) :
    op ∈ [BinaryOp.add, .subtract, .multiply, .divide] ∧ folded.type = "Double" := by
  cases op with
  | add | subtract | multiply | divide =>
    cases h
    exact ⟨by simp, rfl⟩
  | modulo | arrayIndex => cases h
  | coalesce => exact absurd rfl hchoice
  | _ => cases hpredicate

end BinaryOp

namespace Expr

/-! ## Consistent types -/

/-- What a node announces as its type agrees with the types of the nodes right below it. A
conversion may announce any type, and so may what reads an item of an array. -/
def Annotated : Expr → Prop
  | .constant value type => type = value.type
  | .unary .convert _ _ | .unary .typeAs _ _ => True
  | .unary .arrayLength _ type => type = "Int32"
  | .unary _ operand type => type = operand.type
  | .binary .arrayIndex _ _ _ => True
  | .binary .coalesce left right type => left.type = right.type ∧ type = left.type
  | .binary op left _ type => type = if op.isPredicate then "Boolean" else left.type
  | .conditional _ ifTrue ifFalse => ifTrue.type = ifFalse.type
  | _ => True

/-- The types that the nodes of an expression announce agree with each other. -/
def Consistent (e : Expr) : Prop :=
  ∀ c ∈ e.parts, c.Annotated

theorem consistent_iff {e : Expr} :
    e.Consistent ↔ e.Annotated ∧ ∀ c ∈ e.subterms, c.Consistent :=
  forall_parts_iff

theorem consistent_ofConstant (value : Constant) : (ofConstant value).Consistent := by
  rw [consistent_iff]
  exact ⟨rfl, by simp [ofConstant, subterms]⟩

/-- Only the types of the subterms matter for what a node may announce. -/
theorem Annotated.withSubterms {e : Expr} {es : List Expr} (h : e.Annotated)
    (hes : es.map type = e.subterms.map type) : (e.withSubterms es).Annotated := by
  have hlength : es.length = e.subterms.length := by simpa using congrArg List.length hes
  cases e with
  | unary op operand type =>
    obtain ⟨operand', rfl⟩ := List.length_eq_one_iff.1 hlength
    have htype : operand'.type = operand.type := by simpa [subterms] using hes
    cases op with
    | convert | typeAs => trivial
    | _ => simpa only [Expr.withSubterms, Annotated, htype] using h
  | binary op left right type =>
    obtain ⟨left', right', rfl⟩ := List.length_eq_two.1 hlength
    obtain ⟨hleft, hright⟩ : left'.type = left.type ∧ right'.type = right.type := by
      simpa [subterms] using hes
    cases op with
    | arrayIndex => trivial
    | _ => simpa only [Expr.withSubterms, Annotated, hleft, hright] using h
  | conditional test ifTrue ifFalse =>
    obtain ⟨test', ifTrue', ifFalse', rfl⟩ := List.length_eq_three.1 hlength
    obtain ⟨-, htrue, hfalse⟩ : test'.type = test.type ∧ ifTrue'.type = ifTrue.type
        ∧ ifFalse'.type = ifFalse.type := by
      simpa [subterms] using hes
    simpa only [Expr.withSubterms, Annotated, htrue, hfalse] using h
  | constant => exact h
  | _ => rcases es with _ | ⟨a, _ | ⟨b, _ | ⟨c, _ | _⟩⟩⟩ <;> trivial

/-! ## Nodes over constants -/

/-- The nodes over constants that fold to a value whose type is not the one they announce. -/
inductive Lossy : Expr → Prop where
  | conversion {op : UnaryOp} {value : Constant} {s type : String} :
    op = .convert ∨ op = .typeAs → value.type ≠ type →
    Lossy (.unary op (.constant value s) type)
  | captured {value found : Constant} {s : String} {m : Member} :
    value.captured? m.name = some found → found.type ≠ m.type →
    Lossy (.member (.constant value s) m)
  | item {l r item : Constant} {s t type : String} :
    BinaryOp.onConstants? .arrayIndex l r = some item → item.type ≠ type →
    Lossy (.binary .arrayIndex (.constant l s) (.constant r t) type)
  | promotion {op : BinaryOp} {i : Int64} {x : Float} {s t type : String} :
    op ∈ [BinaryOp.add, .subtract, .multiply, .divide] → type ≠ "Double" →
    Lossy (.binary op (.constant (.int i) s) (.constant (.float x) t) type)
  | array {elementType : String} {elements : List Expr} {values : List Constant} :
    constants? elements = some values → elementType ≠ "Object" →
    Lossy (.newArray elementType elements)

theorem Lossy.type_foldNode {e : Expr} (h : e.Lossy) : e.foldNode.type ≠ e.type := by
  cases h with
  | conversion hop hne =>
    obtain rfl | rfl := hop
    · exact hne
    · exact hne
  | captured hfound hne =>
    simp only [foldNode, fold?, hfound]
    exact hne
  | item hitem hne =>
    rw [foldNode_binary_constants, hitem]
    exact hne
  | @promotion op i x s t type hop hne =>
    have hfold : ∃ y, BinaryOp.onConstants? op (.int i) (.float x) = some (.float y) := by
      simp only [List.mem_cons, List.not_mem_nil, or_false] at hop
      obtain rfl | rfl | rfl | rfl := hop <;> exact ⟨_, rfl⟩
    obtain ⟨y, hy⟩ := hfold
    rw [foldNode_binary_constants, hy]
    exact hne.symm
  | array hvalues hne =>
    simp only [foldNode, fold?, hvalues]
    intro htype
    exact hne (array_inj.1 htype.symm)

/-! ## One node -/

theorem Annotated.type_unary {op : UnaryOp} {operand : Expr} {type : String}
    (h : (unary op operand type).Annotated) (hop : ¬(op = .convert ∨ op = .typeAs)) :
    type = if op = .arrayLength then "Int32" else operand.type := by
  cases op with
  | convert => exact absurd (.inl rfl) hop
  | typeAs => exact absurd (.inr rfl) hop
  | _ => exact h

theorem Annotated.type_binary {op : BinaryOp} {left right : Expr} {type : String}
    (h : (binary op left right type).Annotated) (hitem : op ≠ .arrayIndex) :
    type = if op.isPredicate then "Boolean" else left.type := by
  cases op with
  | arrayIndex => exact absurd rfl hitem
  | coalesce => exact h.2
  | _ => exact h

theorem type_folded_unary {op : UnaryOp} {value folded : Constant} {s type : String}
    (h : (unary op (constant value s) type).Annotated) (hvalue : s = value.type)
    (hlossy : ¬(unary op (constant value s) type).Lossy)
    (hfolded : op.onConstant? value = some folded) : folded.type = type := by
  rw [UnaryOp.type_onConstant? hfolded]
  by_cases hop : op = .convert ∨ op = .typeAs
  · by_contra hne
    refine hlossy (.conversion hop ?_)
    obtain rfl | rfl := hop <;> exact hne
  · rw [h.type_unary hop, Expr.type, hvalue]

theorem type_folded_binary {op : BinaryOp} {l r folded : Constant} {s t type : String}
    (h : (binary op (constant l s) (constant r t) type).Annotated) (hl : s = l.type)
    (hr : t = r.type) (hlossy : ¬(binary op (constant l s) (constant r t) type).Lossy)
    (hfolded : op.onConstants? l r = some folded) : folded.type = type := by
  by_cases hitem : op = .arrayIndex
  · subst op
    by_contra hne
    exact hlossy (.item hfolded hne)
  have htype : type = if op.isPredicate then "Boolean" else s := h.type_binary hitem
  by_cases hchoice : op = .coalesce
  · -- Both operands have the type of the node.
    subst op
    obtain ⟨hsides, -⟩ : s = t ∧ type = s := h
    cases hfolded
    split
    · exact (htype.trans (hsides.trans hr)).symm
    · exact (htype.trans hl).symm
  by_cases hmixed : op.isPredicate = false → ∀ i x, l = .int i → r ≠ .float x
  · rw [BinaryOp.type_onConstants? hfolded hitem hchoice hmixed, htype, hl]
  · simp only [Classical.not_imp, not_forall, not_not] at hmixed
    obtain ⟨hpredicate, i, x, rfl, rfl⟩ := hmixed
    obtain ⟨hop, hdouble⟩ := BinaryOp.type_onConstants?_mixed hfolded hpredicate hchoice
    by_contra hne
    exact hlossy (.promotion hop fun h => hne (hdouble.trans h.symm))

/-- A node over constants with the types of their values folds to what has its own type, unless it
is lossy. -/
theorem type_fold? {e d : Expr} (h : e.Annotated) (hsubterms : ∀ c ∈ e.subterms, c.Annotated)
    (hlossy : ¬e.Lossy) (hfold : fold? e = some d) : d.type = e.type := by
  unfold fold? at hfold
  split at hfold
  · obtain ⟨folded, hfolded, rfl⟩ := Option.map_eq_some_iff.1 hfold
    exact type_folded_unary h (hsubterms (constant _ _) (by simp [subterms])) hlossy hfolded
  · obtain ⟨folded, hfolded, rfl⟩ := Option.map_eq_some_iff.1 hfold
    exact type_folded_binary h (hsubterms (constant _ _) (by simp [subterms]))
      (hsubterms (constant _ _) (by simp [subterms])) hlossy hfolded
  · cases hfold
    obtain ⟨hsides, htype⟩ := h
    exact (htype.trans hsides).symm
  · cases hfold
    rfl
  · cases hfold
    exact Eq.symm h
  · obtain ⟨found, hfound, rfl⟩ := Option.map_eq_some_iff.1 hfold
    by_contra hne
    exact hlossy (.captured hfound hne)
  · obtain ⟨values, hvalues, rfl⟩ := Option.map_eq_some_iff.1 hfold
    by_contra hne
    refine hlossy (.array hvalues fun helement => hne ?_)
    rw [helement]
    rfl
  · cases hfold

/-! ## Whole expressions -/

/-- The nodes whose types folding changes: those that are lossy over folded subterms, and the
invocations of what only folding shows to be a lambda. -/
inductive Retyped : Expr → Prop where
  | lossy {e : Expr} : (e.withSubterms (e.subterms.map evaluate)).Lossy → Retyped e
  | revealed {function body : Expr} {parameters : List Parameter} {arguments : List Expr} :
    function.lambda? = none → function.evaluate.lambda? = some (parameters, body) →
    body.type ≠ "Object" → Retyped (.invoke function arguments)

/-- The type of a node does not change when its subterms are folded and keep their types, unless
folding reveals a lambda. -/
theorem type_withSubterms_evaluate {e : Expr} (hretyped : ¬e.Retyped)
    (ih : ∀ c ∈ e.subterms, c.evaluate.type = c.type) :
    (e.withSubterms (e.subterms.map evaluate)).type = e.type := by
  cases e with
  | lambda parameters body => exact congrArg function (ih body (by simp [subterms]))
  | conditional test ifTrue ifFalse => exact ih ifTrue (by simp [subterms])
  | invoke function arguments =>
    show (invoke function.evaluate _).type = _
    cases hlambda : function.lambda? with
    | some lambda =>
      have hfunction := ih function (by simp [subterms])
      rw [lambda?_eq_some hlambda, evaluate_lambda] at hfunction ⊢
      exact function_inj.1 hfunction
    | none =>
      rw [type_invoke hlambda]
      cases hevaluate : function.evaluate.lambda? with
      | none => exact type_invoke hevaluate _
      | some lambda =>
        rw [lambda?_eq_some hevaluate]
        by_contra hne
        exact hretyped (.revealed hlambda hevaluate hne)
  | _ => exact type_withSubterms rfl (by simp) (by simp)

theorem type_evaluate_of_retyped {e : Expr} (h : e.Retyped) : e.evaluate.type ≠ e.type := by
  cases h with
  | lossy h =>
    have hnode : (e.withSubterms (e.subterms.map evaluate)).type = e.type := by
      cases e with
      | lambda | conditional | invoke => cases h
      | _ => exact type_withSubterms rfl (by simp) (by simp)
    rw [evaluate_eq, ← hnode]
    exact h.type_foldNode
  | revealed hlambda hevaluate hne =>
    rw [evaluate_eq, type_invoke hlambda]
    show (invoke (evaluate _) _).foldNode.type ≠ _
    rw [lambda?_eq_some hevaluate]
    exact hne

/-- Where no part is of the kinds that folding retypes, folding keeps the type of an expression, and
leaves its types in agreement. -/
theorem consistent_evaluate {e : Expr} (h : e.Consistent) (hretyped : ∀ c ∈ e.parts, ¬c.Retyped) :
    e.evaluate.Consistent ∧ e.evaluate.type = e.type := by
  induction e using subterms_induction with
  | node e ih =>
    obtain ⟨hannotated, hsubterms⟩ := consistent_iff.1 h
    obtain ⟨hnot, hretyped⟩ := forall_parts_iff.1 hretyped
    have ih (c : Expr) (hc : c ∈ e.subterms) := ih c hc (hsubterms c hc) (hretyped c hc)
    have htype := type_withSubterms_evaluate hnot fun c hc => (ih c hc).2
    have hlossy : ¬(e.withSubterms (e.subterms.map evaluate)).Lossy := fun h => hnot (.lossy h)
    have hnode : (e.withSubterms (e.subterms.map evaluate)).Annotated := by
      refine hannotated.withSubterms ?_
      rw [List.map_map]
      exact List.map_congr_left fun c hc => (ih c hc).2
    have hbelow : ∀ c ∈ (e.withSubterms (e.subterms.map evaluate)).subterms, c.Consistent := by
      rw [subterms_withSubterms (by simp)]
      intro c' hc'
      obtain ⟨c, hc, rfl⟩ := List.mem_map.1 hc'
      exact (ih c hc).1
    rw [evaluate_eq, ← htype, foldNode]
    cases hfold : fold? (e.withSubterms (e.subterms.map evaluate)) with
    | none => exact ⟨consistent_iff.2 ⟨hnode, hbelow⟩, rfl⟩
    | some d =>
      refine ⟨?_, type_fold? hnode (fun c hc => (consistent_iff.1 (hbelow c hc)).1) hlossy hfold⟩
      obtain ⟨value, rfl⟩ | hd := fold?_cases hfold
      · exact consistent_ofConstant value
      · exact hbelow d hd

/-! ## Sources -/

/-- Read as a source without a lambda to name its elements, the expression gets a range variable of
the type `type`. -/
def Ranges (e : Expr) (type : String) : Prop :=
  ∀ top s, ∃ p c s', (collectSource e none top).run s = .ok (c, s') ∧
    c.steps = [.range p e.evaluate] ∧ p.type = type

theorem ranges_of_isSource {e : Expr} (h : e.evaluate.isSource) :
    e.Ranges (elementOrSelf e.evaluate.type) := by
  intro top s
  refine ⟨generatedVariable e.evaluate s.generated,
    (Collected.addStep {} (.range (generatedVariable e.evaluate s.generated)
      e.evaluate)).pushGapIf top, { s with generated := s.generated + 1 }, ?_, ?_, rfl⟩
  · simp only [collectSource, h, if_true]
    rfl
  · cases top <;> rfl

theorem evaluate_conversion {op : UnaryOp} {operand : Expr} {value : Constant} {s : String}
    (hop : op = .convert ∨ op = .typeAs) (h : operand.evaluate = .constant value s)
    (type : String) : (unary op operand type).evaluate = ofConstant value := by
  rw [evaluate_unary, h]
  obtain rfl | rfl := hop <;> rfl

/-- Folding keeps the types of all nodes of a consistent expression exactly if no part is of the
kinds that it retypes. Then a range variable made up for the elements of the expression has the
type that the expression announces; but for a converted table it has the type of the table's own
elements, whatever the conversion announces. -/
theorem keepsTypes_iff {e : Expr} (h : e.Consistent) :
    ((∀ c ∈ e.parts, c.evaluate.type = c.type) ↔ ∀ c ∈ e.parts, ¬c.Retyped) ∧
      ((∀ c ∈ e.parts, ¬c.Retyped) → e.evaluate.isSource → e.Ranges (elementOrSelf e.type)) ∧
      ∀ op operand type source s, e = .unary op operand type → op = .convert ∨ op = .typeAs →
        operand.evaluate = .constant (.queryable source) s →
        e.Ranges (elementOrSelf (queryable source.elementType)) := by
  refine ⟨⟨?_, ?_⟩, ?_, ?_⟩
  · intro hkeep c hc hretyped
    exact type_evaluate_of_retyped hretyped (hkeep c hc)
  · intro hretyped c hc
    refine (consistent_evaluate ?_ ?_).2
    · exact fun d hd => h d (parts_trans hc hd)
    · exact fun d hd => hretyped d (parts_trans hc hd)
  · intro hretyped hsource
    rw [← (consistent_evaluate h hretyped).2]
    exact ranges_of_isSource hsource
  · intro op operand type source s he hop hoperand
    have hevaluate : e.evaluate = ofConstant (.queryable source) :=
      he ▸ evaluate_conversion hop hoperand type
    have hranges := ranges_of_isSource (e := e) (by rw [hevaluate]; rfl)
    rwa [hevaluate] at hranges

/-- The students, announced as a query of persons. -/
def studentsAsPersons : Expr :=
  .unary .convert (table "Students" "Student") (queryable "Person")

theorem keepsTypes_iff_studentsAsPersons :
    studentsAsPersons.Consistent ∧
      ¬(∀ c ∈ studentsAsPersons.parts, c.evaluate.type = c.type) ∧
      studentsAsPersons.Ranges "Student" := by
  have hconsistent : studentsAsPersons.Consistent :=
    consistent_iff.2 ⟨trivial, by simp [studentsAsPersons, subterms, table, consistent_ofConstant]⟩
  obtain ⟨hiff, -, hranges⟩ := keepsTypes_iff hconsistent
  refine ⟨hconsistent, ?_, ?_⟩
  · intro hkeep
    refine hiff.1 hkeep _ (mem_parts_self _) (.lossy (.conversion (.inl rfl) ?_))
    decide
  · exact hranges _ _ _ _ _ rfl (.inl rfl) (evaluate_constant _ _)

/-- Five divided by two, both converted to doubles, is two. -/
example :
    let int (i : Int64) := ofConstant (.int i)
    let double (e : Expr) := Expr.unary .convert e "Double"
    (operation .divide (double (int 5)) (double (int 2))).evaluate = int 2 := by
  rfl

end Expr

end QueryChain
