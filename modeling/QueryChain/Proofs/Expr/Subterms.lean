import QueryChain.Chain.Parse

/-!
# Subterms

Every node of an expression is a constructor over a list of subterms. Seen this way all kinds of
nodes are alike: an expression is its node put over its subterms (`withSubterms_subterms`), and what
holds of a node when it holds of its subterms holds of every expression (`subterms_induction`).
-/

namespace QueryChain

namespace Expr

/-- The expressions directly below the outermost node, in the order they are written. -/
def subterms : Expr → List Expr
  | .constant .. | .parameter .. | .staticMember .. | .subQuery .. => []
  | .member object _ => [object]
  | .staticCall _ arguments _ => arguments
  | .call object _ arguments _ => object :: arguments
  | .unary _ operand _ => [operand]
  | .binary _ left right _ => [left, right]
  | .lambda _ body => [body]
  | .new _ arguments _ => arguments
  | .newArray _ elements => elements
  | .memberInit _ arguments _ bindings => arguments ++ bindings.map Prod.snd
  | .listInit _ arguments _ elements => arguments ++ elements
  | .conditional test ifTrue ifFalse => [test, ifTrue, ifFalse]
  | .typeIs operand _ => [operand]
  | .invoke function arguments => function :: arguments

/-- The outermost node over other subterms, of which there are as many as before. -/
def withSubterms : Expr → List Expr → Expr
  | .member _ m, [object] => .member object m
  | .staticCall method _ type, arguments => .staticCall method arguments type
  | .call _ method _ type, object :: arguments => .call object method arguments type
  | .unary op _ type, [operand] => .unary op operand type
  | .binary op _ _ type, [left, right] => .binary op left right type
  | .lambda parameters _, [body] => .lambda parameters body
  | .new type _ members, arguments => .new type arguments members
  | .newArray type _, elements => .newArray type elements
  | .memberInit type arguments members bindings, es =>
    .memberInit type (es.take arguments.length) members
      ((bindings.map Prod.fst).zip (es.drop arguments.length))
  | .listInit type arguments members _, es =>
    .listInit type (es.take arguments.length) members (es.drop arguments.length)
  | .conditional _ _ _, [test, ifTrue, ifFalse] => .conditional test ifTrue ifFalse
  | .typeIs _ type, [operand] => .typeIs operand type
  | .invoke _ _, function :: arguments => .invoke function arguments
  | e, _ => e

@[simp] theorem withSubterms_subterms (e : Expr) : e.withSubterms e.subterms = e := by
  cases e <;> simp [subterms, withSubterms, List.zip_map']

theorem subterms_withSubterms {e : Expr} {es : List Expr} (h : es.length = e.subterms.length) :
    (e.withSubterms es).subterms = es := by
  cases e with
  | constant | parameter | staticMember | subQuery =>
    obtain rfl := List.length_eq_zero_iff.1 h
    rfl
  | staticCall | new | newArray => rfl
  | member | unary | lambda | typeIs =>
    obtain ⟨a, rfl⟩ := List.length_eq_one_iff.1 h
    rfl
  | binary =>
    match es, h with
    | [_, _], _ => rfl
  | conditional =>
    match es, h with
    | [_, _, _], _ => rfl
  | call | invoke =>
    obtain ⟨a, as, rfl⟩ := List.exists_cons_of_length_pos (l := es) (by rw [h]; simp [subterms])
    rfl
  | memberInit type arguments members bindings =>
    simp only [subterms, List.length_append, List.length_map] at h
    simp only [withSubterms, subterms]
    rw [List.map_snd_zip (by simp [h]), List.take_append_drop]
  | listInit => simp [subterms, withSubterms]

/-! ## Sizes -/

theorem sizeAll_append (es fs : List Expr) : sizeAll (es ++ fs) = sizeAll es + sizeAll fs := by
  induction es with
  | nil => simp [sizeAll]
  | cons e es ih => simp [sizeAll, ih, Nat.add_assoc]

theorem sizeBindings_eq (bs : List (Member × Expr)) :
    sizeBindings bs = sizeAll (bs.map Prod.snd) := by
  induction bs with
  | nil => rfl
  | cons b bs ih => simp [sizeBindings, sizeAll, ih]

theorem size_eq (e : Expr) : e.size = sizeAll e.subterms + 1 := by
  cases e <;> simp [size, sizeAll, subterms, sizeAll_append, sizeBindings_eq]
  omega

theorem size_pos (e : Expr) : 0 < e.size := by
  rw [size_eq]
  omega

theorem size_le_sizeAll {e : Expr} {es : List Expr} (h : e ∈ es) : e.size ≤ sizeAll es := by
  induction es with
  | nil => cases h
  | cons d es ih =>
    rcases List.mem_cons.1 h with rfl | h
    · simp [sizeAll]
    · have := ih h
      simp only [sizeAll]
      omega

theorem size_lt_of_mem_subterms {c e : Expr} (h : c ∈ e.subterms) : c.size < e.size := by
  have := size_le_sizeAll h
  rw [size_eq e]
  omega

/-- What holds of a node when it holds of its subterms holds of every expression. -/
theorem subterms_induction {motive : Expr → Prop}
    (node : ∀ e, (∀ c ∈ e.subterms, motive c) → motive e) (e : Expr) : motive e :=
  node e fun c _ => subterms_induction node c
termination_by e.size
decreasing_by exact size_lt_of_mem_subterms (by assumption)

end Expr

end QueryChain
