import QueryChain.Proofs.Expr.Folding

/-!
# Folding keeps the meaning

An interpretation gives every expression a meaning: a value for all values of the parameters. It is
free in what the nodes mean, but for what folding relies on: on constants, operators and member
reads give the values that they are folded to, an array of constants is a list, and a conditional
takes the branch that its test tells. Whatever else is chosen, an expression and what it is folded
to have the same meaning (`denote_evaluate`).
-/

namespace QueryChain

universe u

/-- A value for all values of the parameters. -/
abbrev Meaning (V : Type u) : Type u :=
  (Parameter → V) → V

/-- What the nodes of expressions mean. Operators, member reads and arrays work on the values of
their operands, all other nodes on the meanings of their children. -/
structure Interpretation (V : Type u) where
  constant : Constant → V
  staticMember : Member → Meaning V
  member : Member → V → V
  staticCall : String → List (Meaning V) → String → Meaning V
  call : Meaning V → String → List (Meaning V) → String → Meaning V
  unary : UnaryOp → V → V
  binary : BinaryOp → V → V → V
  lambda : List Parameter → Meaning V → Meaning V
  new : String → List (Meaning V) → List Member → Meaning V
  newArray : List V → V
  memberInit : String → List (Meaning V) → List Member → List (Member × Meaning V) →
    Meaning V
  listInit : String → List (Meaning V) → List Member → List (Meaning V) → Meaning V
  conditional : Meaning V → Meaning V → Meaning V → Meaning V
  typeIs : Meaning V → String → Meaning V
  invoke : Meaning V → List (Meaning V) → Meaning V
  subQuery : QueryRef → Meaning V
  unary_constant : ∀ {op c d}, op.onConstant? c = some d → unary op (constant c) = constant d
  binary_constant : ∀ {op b c d}, op.onConstants? b c = some d →
    binary op (constant b) (constant c) = constant d
  /-- What is put in the place of null may be a value that no constant has. -/
  coalesce_null : ∀ {v}, (∀ c, v ≠ constant c) → binary .coalesce (constant .null) v = v
  member_constant : ∀ {m c d}, c.captured? m.name = some d → member m (constant c) = constant d
  newArray_constants : ∀ cs, newArray (cs.map constant) = constant (.list cs)
  conditional_true : ∀ {test ifTrue ifFalse env}, test env = constant (.bool true) →
    conditional test ifTrue ifFalse env = ifTrue env
  conditional_false : ∀ {test ifTrue ifFalse env}, test env = constant (.bool false) →
    conditional test ifTrue ifFalse env = ifFalse env

namespace Interpretation

variable {V : Type u} (I : Interpretation V)

mutual

/-- The meaning of an expression. -/
def denote : Expr → Meaning V
  | .constant value _ => fun _ => I.constant value
  | .parameter p => fun env => env p
  | .staticMember m => I.staticMember m
  | .member object m => fun env => I.member m (denote object env)
  | .staticCall method arguments type => I.staticCall method (denoteAll arguments) type
  | .call object method arguments type => I.call (denote object) method (denoteAll arguments) type
  | .unary op operand _ => fun env => I.unary op (denote operand env)
  | .binary op left right _ => fun env => I.binary op (denote left env) (denote right env)
  | .lambda parameters body => I.lambda parameters (denote body)
  | .new type arguments members => I.new type (denoteAll arguments) members
  | .newArray _ elements => fun env => I.newArray ((denoteAll elements).map (· env))
  | .memberInit type arguments members bindings =>
    I.memberInit type (denoteAll arguments) members (denoteBindings bindings)
  | .listInit type arguments members elements =>
    I.listInit type (denoteAll arguments) members (denoteAll elements)
  | .conditional test ifTrue ifFalse => I.conditional (denote test) (denote ifTrue) (denote ifFalse)
  | .typeIs operand type => I.typeIs (denote operand) type
  | .invoke function arguments => I.invoke (denote function) (denoteAll arguments)
  | .subQuery query => I.subQuery query
termination_by structural e => e

/-- The meanings of expressions. -/
def denoteAll : List Expr → List (Meaning V)
  | [] => []
  | e :: es => denote e :: denoteAll es
termination_by structural es => es

/-- The meanings of the values given to members. -/
def denoteBindings : List (Member × Expr) → List (Member × Meaning V)
  | [] => []
  | (m, e) :: rest => (m, denote e) :: denoteBindings rest
termination_by structural bs => bs

end

theorem split_map_eq {α : Type} {β : Type u} {f : α → β} {as bs cs : List α}
    (h : as.map f = (bs ++ cs).map f) :
    (as.take bs.length).map f = bs.map f ∧ (as.drop bs.length).map f = cs.map f := by
  constructor
  · rw [List.map_take, h, ← List.map_take, List.take_left]
  · rw [List.map_drop, h, ← List.map_drop, List.drop_left]

theorem denoteAll_eq_map (es : List Expr) : I.denoteAll es = es.map I.denote := by
  induction es with
  | nil => rfl
  | cons e es ih => rw [denoteAll, ih, List.map_cons]

theorem denoteBindings_eq_zip (bs : List (Member × Expr)) :
    I.denoteBindings bs = (bs.map Prod.fst).zip ((bs.map Prod.snd).map I.denote) := by
  induction bs with
  | nil => rfl
  | cons b bs ih =>
    obtain ⟨m, e⟩ := b
    rw [denoteBindings, ih]
    rfl

/-- The meaning of a node depends on the meanings of its subterms only. -/
theorem denote_withSubterms {e : Expr} {es : List Expr}
    (h : es.map I.denote = e.subterms.map I.denote) :
    I.denote (e.withSubterms es) = I.denote e := by
  have hlength : es.length = e.subterms.length := by simpa using congrArg List.length h
  cases e with
  | constant | parameter | staticMember | subQuery => rfl
  | staticCall | new | newArray =>
    simp only [Expr.subterms] at h
    simp only [Expr.withSubterms, denote, denoteAll_eq_map, h]
  | member | unary | lambda | typeIs =>
    obtain ⟨a, rfl⟩ := List.length_eq_one_iff.1 hlength
    simp only [Expr.subterms, List.map_cons, List.cons.injEq] at h
    simp only [Expr.withSubterms, denote, h.1]
  | binary =>
    obtain ⟨a, b, rfl⟩ := List.length_eq_two.1 hlength
    simp only [Expr.subterms, List.map_cons, List.cons.injEq] at h
    simp only [Expr.withSubterms, denote, h.1, h.2.1]
  | conditional =>
    obtain ⟨a, b, c, rfl⟩ := List.length_eq_three.1 hlength
    simp only [Expr.subterms, List.map_cons, List.cons.injEq] at h
    simp only [Expr.withSubterms, denote, h.1, h.2.1, h.2.2.1]
  | call | invoke =>
    obtain ⟨a, as, rfl⟩ := List.exists_cons_of_length_pos (l := es)
      (by rw [hlength]; simp [Expr.subterms])
    simp only [Expr.subterms, List.map_cons, List.cons.injEq] at h
    simp only [Expr.withSubterms, denote, denoteAll_eq_map, h.1, h.2]
  | memberInit type arguments members bindings =>
    obtain ⟨hfirst, hrest⟩ := split_map_eq h
    simp only [Expr.subterms, List.length_append, List.length_map] at hlength
    simp only [Expr.withSubterms, denote, denoteAll_eq_map, denoteBindings_eq_zip, hfirst]
    rw [List.map_fst_zip (by simp [hlength]), List.map_snd_zip (by simp [hlength]), hrest]
  | listInit type arguments members elements =>
    obtain ⟨hfirst, hrest⟩ := split_map_eq h
    simp only [Expr.withSubterms, denote, denoteAll_eq_map, hfirst, hrest]

theorem denoteAll_of_constants? {es : List Expr} {values : List Constant}
    (h : Expr.constants? es = some values) (env : Parameter → V) :
    (I.denoteAll es).map (· env) = values.map I.constant := by
  induction es generalizing values with
  | nil =>
    cases h
    rfl
  | cons e es ih =>
    cases e with
    | constant value type =>
      obtain ⟨values, hvalues, rfl⟩ := Option.map_eq_some_iff.1 h
      rw [denoteAll, List.map_cons, ih hvalues]
      rfl
    | _ => cases h

/-- A node and what it folds to have the same meaning. -/
theorem denote_fold {e d : Expr} (h : Expr.fold? e = some d) : I.denote d = I.denote e := by
  unfold Expr.fold? at h
  funext env
  split at h
  · rename_i op value _
    obtain ⟨folded, hfolded, rfl⟩ := Option.map_eq_some_iff.1 h
    exact (I.unary_constant hfolded).symm
  · rename_i op l _ r _ _
    obtain ⟨folded, hfolded, rfl⟩ := Option.map_eq_some_iff.1 h
    exact (I.binary_constant hfolded).symm
  · -- The right operand may have a value that is no constant.
    cases h
    by_cases hconstant : ∃ c, I.denote d env = I.constant c
    · obtain ⟨c, hc⟩ := hconstant
      have hnull : BinaryOp.onConstants? .coalesce .null c = some c := rfl
      show I.denote d env = I.binary .coalesce (I.constant .null) (I.denote d env)
      rw [hc, I.binary_constant hnull]
    · exact (I.coalesce_null fun c hc => hconstant ⟨c, hc⟩).symm
  · cases h
    exact (I.conditional_true rfl).symm
  · cases h
    exact (I.conditional_false rfl).symm
  · obtain ⟨folded, hfolded, rfl⟩ := Option.map_eq_some_iff.1 h
    exact (I.member_constant hfolded).symm
  · obtain ⟨values, hvalues, rfl⟩ := Option.map_eq_some_iff.1 h
    show I.constant (.list values) = I.newArray _
    rw [I.denoteAll_of_constants? hvalues, I.newArray_constants]
  · cases h

theorem denote_foldNode (e : Expr) : I.denote e.foldNode = I.denote e := by
  unfold Expr.foldNode
  cases h : Expr.fold? e with
  | none => rfl
  | some d => exact I.denote_fold h

/-- An expression and what it is folded to have the same meaning. -/
theorem denote_evaluate (e : Expr) : I.denote e.evaluate = I.denote e := by
  induction e using Expr.subterms_induction with
  | node e ih =>
    rw [Expr.evaluate_eq, denote_foldNode]
    refine I.denote_withSubterms ?_
    rw [List.map_map]
    exact List.map_congr_left ih

/-- The interpretation that computes what folding can compute and takes everything else for null. -/
def computed : Interpretation Constant where
  constant := id
  staticMember _ := fun _ => .null
  member m c := (c.captured? m.name).getD .null
  staticCall _ _ _ := fun _ => .null
  call _ _ _ _ := fun _ => .null
  unary op c := (op.onConstant? c).getD .null
  binary op b c := (op.onConstants? b c).getD .null
  lambda _ _ := fun _ => .null
  new _ _ _ := fun _ => .null
  newArray := .list
  memberInit _ _ _ _ := fun _ => .null
  listInit _ _ _ _ := fun _ => .null
  conditional test ifTrue ifFalse := fun env =>
    match test env with
    | .bool true => ifTrue env
    | .bool false => ifFalse env
    | _ => .null
  typeIs _ _ := fun _ => .null
  invoke _ _ := fun _ => .null
  subQuery _ := fun _ => .null
  unary_constant h := by simp [h]
  binary_constant h := by simp [h]
  coalesce_null h := absurd rfl (h _)
  member_constant h := by simp [h]
  newArray_constants cs := by simp
  conditional_true h := by simp [h]
  conditional_false h := by simp [h]

/-- `2 + 3 > 4 ? null ?? x : y` means what `x` means. -/
theorem denote_evaluate_choice :
    let int (i : Int64) := Expr.ofConstant (.int i)
    let x := Expr.parameter { name := "x", type := "Int32" }
    let y := Expr.parameter { name := "y", type := "Int32" }
    let e := Expr.conditional (.operation .greaterThan (.operation .add (int 2) (int 3)) (int 4))
      (.operation .coalesce (.ofConstant .null) x) y
    e.evaluate = x ∧ computed.denote e = computed.denote x := by
  intro int x y e
  have hevaluate : e.evaluate = x := by rfl
  exact ⟨hevaluate, hevaluate ▸ (computed.denote_evaluate e).symm⟩

end Interpretation

end QueryChain
