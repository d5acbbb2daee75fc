import Mathlib.Data.List.Induction
import QueryChain.Proofs.Chain.Replaced
import QueryChain.Proofs.Chain.Scanned

/-!
# The type of a query's elements

An operator call announces the type of its elements, and a query tells the type of its own. The two
are found at different ends. What a chain announces follows from each operator in turn
(`Layer.makes`); a query reads the last selector, or where the last operator has none, the last
variable that it ranges over.

`elementType_eq_iff` says when the two agree, for chains over a table as comprehensions compile to
them. They do when the last operator has a selector and when no operator has one. In between, where
a filter or an ordering stands above a selector, the query tells the type of a variable from before
the selector made new elements, and the two agree by coincidence only.
-/

namespace QueryChain

/-! ## Type names -/

namespace TypeName

theorem afterBracket_append {before : List Char} (h : '<' ∉ before) (cs : List Char) :
    afterBracket (before ++ '<' :: cs) = cs := by
  induction before with
  | nil => rfl
  | cons c before ih =>
    rw [List.mem_cons, not_or] at h
    rw [List.cons_append, afterBracket, if_neg (Ne.symm h.1), ih h.2]

/-- What stands between brackets is found again. -/
theorem elementOrSelf_bracketed (before : String) {element : String} (h : '<' ∉ before.toList)
    (helement : element ≠ "") : elementOrSelf (before ++ "<" ++ element ++ ">") = element := by
  have hinner :
      afterBracket (before ++ "<" ++ element ++ ">").toList = element.toList ++ ['>'] := by
    simp only [String.toList_append, List.append_assoc]
    exact afterBracket_append h _
  have hlength : 1 ≤ element.toList.length := by
    rw [Nat.one_le_iff_ne_zero]
    simpa using helement
  rw [elementOrSelf, element?, hinner, if_pos ⟨by simp, by simpa using hlength⟩]
  simp

theorem elementOrSelf_queryable {element : String} (h : element ≠ "") :
    elementOrSelf (queryable element) = element :=
  elementOrSelf_bracketed "IQueryable" (by decide) h

theorem elementOrSelf_orderedQueryable {element : String} (h : element ≠ "") :
    elementOrSelf (orderedQueryable element) = element :=
  elementOrSelf_bracketed "IOrderedQueryable" (by decide) h

theorem elementOrSelf_ne_empty {type : String} (h : type ≠ "") : elementOrSelf type ≠ "" := by
  unfold elementOrSelf element?
  simp only
  split
  · rename_i hinner
    have hlength := hinner.2
    rw [Option.getD_some, ne_eq, String.ofList_eq_empty_iff, ← List.length_eq_zero_iff,
      List.length_dropLast]
    omega
  · simpa using h

theorem bracketed_ne_empty (s : String) : s ++ ">" ≠ "" := by
  simp

theorem queryable_ne_empty (element : String) : queryable element ≠ "" :=
  bracketed_ne_empty _

theorem orderedQueryable_ne_empty (element : String) : orderedQueryable element ≠ "" :=
  bracketed_ne_empty _

/-- The elements of a query have the type that it is a query of, unless that has no name. -/
theorem eq_elementOrSelf_queryable_iff {element : String} :
    element = elementOrSelf (queryable element) ↔ element ≠ "" := by
  constructor
  · rintro h rfl
    exact elementOrSelf_ne_empty (queryable_ne_empty "") h.symm
  · exact fun h => (elementOrSelf_queryable h).symm

end TypeName

open QueryChain.TypeName

/-! ## What operators announce -/

namespace Layer

/-- The type of the elements after an operator, where `type` is their type before. -/
def makes (layer : Layer) (type : String) : String :=
  (layer.selector?.map fun selector => elementOrSelf (queryable selector.resultType)).getD type

/-- The variable over the elements of a collection that an operator adds. -/
def ranged? : Layer → Option Parameter
  | .selectMany _ _ _ x _ => some x
  | _ => none

/-- The selector of the last operator that has one. -/
def lastMade? (layers : List Layer) : Option Expr :=
  (layers.filterMap selector?).getLast?

theorem lastMade?_concat (layers : List Layer) (layer : Layer) :
    lastMade? (layers ++ [layer]) = layer.selector?.or (lastMade? layers) := by
  cases h : layer.selector? <;> simp [lastMade?, h]

/-- The last operator with a selector decides what the elements are. -/
theorem foldl_makes (layers : List Layer) (type : String) :
    layers.foldl (fun type layer => layer.makes type) type
      = ((lastMade? layers).map fun made => elementOrSelf (queryable made.resultType)).getD
          type := by
  induction layers using List.reverseRecOn with
  | nil => rfl
  | append_singleton layers layer ih =>
    rw [List.foldl_append, List.foldl_cons, List.foldl_nil, ih, lastMade?_concat]
    cases h : layer.selector? <;> simp [makes, h]

theorem filterMap_ranged? {layers : List Layer} (h : layers.filterMap selector? = []) :
    layers.filterMap ranged? = [] := by
  rw [List.filterMap_eq_nil_iff] at h ⊢
  intro layer hlayer
  have hnone := h layer hlayer
  cases layer with
  | selectMany => cases hnone
  | _ => rfl

theorem lastMade?_of_lastSelector? {layers : List Layer} {selector : Expr}
    (h : lastSelector? layers = some selector) : lastMade? layers = some selector := by
  obtain ⟨layer, hlast, hselector⟩ := Option.bind_eq_some_iff.1 h
  obtain ⟨before, rfl⟩ := List.getLast?_eq_some_iff.1 hlast
  rw [lastMade?_concat, hselector, Option.some_or]

end Layer

/-- The type of the last variable that a chain ranges over. -/
def rangedType (source : Expr) (layers : List Layer) : String :=
  ((layers.filterMap Layer.ranged?).getLast?.map (·.type)).getD (elementOrSelf source.type)

/-- Whether a query tells the type that its chain announces: its last operator has a selector, and
the type has a name; or none of its operators has one; or what it ranges over last happens to have
the type of what it makes last. -/
def TellsElementType (source : Expr) (layers : List Layer) : Prop :=
  match lastSelector? layers, Layer.lastMade? layers with
  | some selector, _ => selector.resultType ≠ ""
  | none, none => True
  | none, some made => rangedType source layers = elementOrSelf (queryable made.resultType)

namespace Expr

theorem chainFree_node {e : Expr} (h : e.isChain = false) :
    e.ChainFree ↔ ∀ c ∈ e.subterms, c.ChainFree := by
  rw [chainFree_iff, and_iff_right h]

@[simp] theorem chainFree_constant (value : Constant) (type : String) :
    (constant value type).ChainFree := by
  simp [chainFree_node (e := constant value type) rfl, subterms]

@[simp] theorem chainFree_parameter (p : Parameter) : (parameter p).ChainFree := by
  simp [chainFree_node (e := parameter p) rfl, subterms]

@[simp] theorem chainFree_member {object : Expr} {m : Member} :
    (member object m).ChainFree ↔ object.ChainFree := by
  simp [chainFree_node (e := member object m) rfl, subterms]

@[simp] theorem chainFree_binary {op : BinaryOp} {left right : Expr} {type : String} :
    (binary op left right type).ChainFree ↔ left.ChainFree ∧ right.ChainFree := by
  simp [chainFree_node (e := binary op left right type) rfl, subterms]

@[simp] theorem chainFree_new {type : String} {arguments : List Expr} {members : List Member} :
    (new type arguments members).ChainFree ↔ ∀ c ∈ arguments, c.ChainFree := by
  simp [chainFree_node (e := new type arguments members) rfl, subterms]

@[simp] theorem chainFree_lambda {parameters : List Parameter} {body : Expr} :
    (lambda parameters body).ChainFree ↔ body.ChainFree := by
  simp [chainFree_node (e := lambda parameters body) rfl, subterms]

end Expr

/-- A chain over a table as comprehensions compile to it: the parameter of each lambda takes an
element of the operator's source, and no chain stands in a lambda. -/
inductive Expr.Compiled : Expr → Prop where
  | table (name elementType : String) : Compiled (.table name elementType)
  | select {e body : Expr} {p : Parameter} :
    e.Compiled → p.type = elementOrSelf e.type → body.ChainFree →
      Compiled (Chain.select e (.lambda [p] body))
  | selectMany {e found body : Expr} {p q x : Parameter} :
    e.Compiled → p.type = elementOrSelf e.type → found.ChainFree → body.ChainFree →
      Compiled (Chain.selectMany e (.lambda [p] found) (.lambda [q, x] body))
  | filter {e body : Expr} {p : Parameter} :
    e.Compiled → p.type = elementOrSelf e.type → body.ChainFree →
      Compiled (Chain.filter e (.lambda [p] body))
  | ordering (direction : Direction) (first : Bool) {e body : Expr} {p : Parameter} :
    e.Compiled → p.type = elementOrSelf e.type → body.ChainFree →
      Compiled (Chain.ordering (Operator.ordering direction first).name e (.lambda [p] body))
  | distinct {e : Expr} : e.Compiled → Compiled (Chain.distinct e)

namespace Expr.Compiled

theorem type_ne_empty {e : Expr} (h : e.Compiled) : e.type ≠ "" := by
  induction h with
  | table _ elementType => exact queryable_ne_empty elementType
  | select | selectMany => exact queryable_ne_empty _
  | filter _ _ _ ih | distinct _ ih => exact ih
  | ordering => exact orderedQueryable_ne_empty _

/-- What a lambda operator of such a chain is like. -/
structure At (layer : Layer) (sourceType type : String) : Prop where
  parameter : layer.parameter.type = elementOrSelf sourceType
  chainFree : ∀ l ∈ layer.lambdas, l.ChainFree
  type : elementOrSelf type = layer.makes (elementOrSelf sourceType)

theorem call {method : String} {source : Expr} {arguments : List Expr} {type : String}
    (h : (Expr.staticCall method (source :: arguments) type).Compiled) :
    source.Compiled ∧ (method = "Distinct" ∧ arguments = [] ∧ type = source.type
      ∨ ∃ layer : Layer, layer.Reads method arguments ∧ At layer source.type type) := by
  generalize he : Expr.staticCall method (source :: arguments) type = e at h
  cases h with
  | table => cases he
  | select h hp hbody =>
    cases he
    exact ⟨h, .inr ⟨_, .select rfl, hp, by simp [Layer.lambdas, hbody], rfl⟩⟩
  | selectMany h hp hfound hbody =>
    cases he
    exact ⟨h, .inr ⟨_, .selectMany rfl rfl, hp, by simp [Layer.lambdas, hfound, hbody], rfl⟩⟩
  | filter h hp hbody =>
    cases he
    exact ⟨h, .inr ⟨_, .filter rfl, hp, by simp [Layer.lambdas, hbody], rfl⟩⟩
  | ordering direction first h hp hbody =>
    cases he
    refine ⟨h, .inr ⟨_, .ordering rfl, hp, by simp [Layer.lambdas, hbody], ?_⟩⟩
    exact elementOrSelf_orderedQueryable (elementOrSelf_ne_empty h.type_ne_empty)
  | distinct h =>
    cases he
    exact ⟨h, .inl ⟨rfl, rfl, rfl⟩⟩

theorem eq_table {e : Expr} (h : e.Compiled) (hnot : ¬e.IsOperatorCall) :
    ∃ name elementType, e = .table name elementType := by
  cases h with
  | table name elementType => exact ⟨name, elementType, rfl⟩
  | select | selectMany | filter | distinct => exact absurd (.operator rfl) hnot
  | ordering => exact absurd (.operator (Operator.ofName?_eq_some.2 rfl)) hnot

/-- What the operators of such a chain say of its elements. -/
structure Announced (source : Expr) (layers : List Layer) (type : String) : Prop where
  parameter : ∀ layer ∈ layers.head?, layer.parameter.type = elementOrSelf source.type
  chainFree : ∀ layer ∈ layers, ∀ l ∈ layer.lambdas, l.ChainFree
  type : elementOrSelf type
    = layers.foldl (fun type layer => layer.makes type) (elementOrSelf source.type)

theorem announced_of_layered {source e : Expr} {layers : List Layer} (h : Layered source e layers)
    (he : e.Compiled) :
    (∃ name elementType, source = .table name elementType) ∧ Announced source layers e.type := by
  induction h with
  | source hnot => exact ⟨he.eq_table hnot, by simp, by simp, rfl⟩
  | @layer e layers method arguments type layer hlayered hreads ih =>
    obtain ⟨he, ⟨rfl, -⟩ | ⟨layer', hreads', hat⟩⟩ := he.call
    · exact absurd rfl hreads.not_distinct
    · obtain rfl := hreads.unique hreads'
      obtain ⟨htable, hbelow⟩ := ih he
      refine ⟨htable, ?_, ?_, ?_⟩
      · cases layers with
        | nil =>
          obtain ⟨rfl, -⟩ := layered_nil hlayered
          simpa using hat.parameter
        | cons first layers => simpa using hbelow.parameter
      · intro layer hlayer
        rcases List.mem_append.1 hlayer with hlayer | hlayer
        · exact hbelow.chainFree layer hlayer
        · obtain rfl := List.mem_singleton.1 hlayer
          exact hat.chainFree
      · rw [List.foldl_append, ← hbelow.type]
        exact hat.type

theorem announced_of_spine {source e : Expr} {layers : List Layer} {distinct : Bool}
    {modifiers : List Modifier} (h : Spine source layers e distinct modifiers) (he : e.Compiled) :
    modifiers = [] ∧ (∃ name elementType, source = .table name elementType)
      ∧ Announced source layers e.type := by
  induction h with
  | lambdas h => exact ⟨rfl, announced_of_layered h he⟩
  | distinct _ ih =>
    obtain ⟨hbelow, ⟨-, -, rfl⟩ | ⟨layer, hreads, -⟩⟩ := he.call
    · exact ih hbelow
    · exact absurd rfl hreads.not_distinct
  | result _ hresult =>
    obtain ⟨-, ⟨rfl, -⟩ | ⟨layer, hreads, -⟩⟩ := he.call
    · exact absurd hresult (by decide)
    · exact absurd hresult (by simp [hreads.not_isResultMethod])

end Expr.Compiled

/-! ## What queries tell -/

theorem Expr.NestedAs.eq_self {found : Expr → QueryRef → Prop} {e e' : Expr}
    (h : e.NestedAs found e') (hfree : e.ChainFree) : e' = e := by
  induction e using Expr.subterms_induction generalizing e' with
  | node e ih =>
    obtain ⟨hnot, hsubterms⟩ := Expr.chainFree_iff.1 hfree
    cases h with
    | chain hchain => simp [hnot] at hchain
    | @node _ es _ hes =>
      have hsame : List.Forall₂ (· = ·) e.subterms es :=
        Expr.forall₂_imp_mem (fun c hc c' _ h => (ih c hc h (hsubterms c hc)).symm) hes
      rw [List.forall₂_eq_eq_eq] at hsame
      rw [← hsame, Expr.withSubterms_subterms]

theorem Layer.selector?_lambda {layer : Layer} {selector : Expr}
    (h : layer.selector? = some selector) :
    selector ∈ layer.lambdas ∧ selector.unquoted = selector := by
  cases layer <;> cases h <;> simp [lambdas, Expr.unquoted]

/-- The clauses of a chain range over what its operators range over, in order. -/
theorem ClausesOf.ranged {embedded sources : List Query} {layers : List Layer}
    {clauses : List Clause} (h : ClausesOf embedded sources layers clauses) :
    ((clauses.filterMap Clause.range?).filter (!·.isBinding)).map (·.identifier)
      = layers.filterMap Layer.ranged? := by
  induction h with
  | nil | selection => rfl
  | binding _ _ _ _ ih | filter _ _ ih | ordering _ _ ih | refinement _ ih => exact ih
  | range _ hkind _ ih => cases hkind <;> exact congrArg (_ :: ·) ih

/-- The type that the query of a chain tells. -/
theorem Rendered.elementType_eq {q : Query} {source : Expr} {layers : List Layer}
    (h : Rendered q source layers)
    (hselector : ∀ selector, lastSelector? layers = some selector → selector.ChainFree) :
    q.elementType = match lastSelector? layers with
      | some selector => selector.unquoted.resultType
      | none => ((layers.filterMap Layer.ranged?).getLast?.map (·.type)).getD
          q.main.identifier.type := by
  have hprojection := h.projection
  unfold Query.elementType
  cases hlast : lastSelector? layers with
  | some selector =>
    rw [hlast] at hprojection
    cases hq : q.select.projection with
    | none => rw [hq] at hprojection; cases hprojection
    | some projection =>
      rw [hq] at hprojection
      cases hprojection with
      | some hnested => rw [hnested.eq_self (hselector selector hlast)]
  | none =>
    rw [hlast] at hprojection
    cases hq : q.select.projection with
    | some projection => rw [hq] at hprojection; cases hprojection
    | none =>
      have hmain : q.main.isBinding = false := by
        obtain ⟨n, hmain⟩ := h.main
        rw [hmain]
        rfl
      rw [← h.body.ranged, List.getLast?_map, Query.rangeClauses,
        List.filter_cons_of_pos (by simp [hmain]), List.getLast?_cons]
      cases ((q.body.filterMap Clause.range?).filter (!·.isBinding)).getLast? <;> rfl

/-- Where the query of a compiled chain tells the type of its elements, and where not: exactly if
the last operator has a selector or none has one, up to a coincidence of types. -/
theorem elementType_eq_iff {e : Expr} {q : Query} (he : e.Compiled) (h : parse e = .ok q) :
    ∃ source layers distinct, Spine source layers e distinct []
      ∧ (q.elementType = elementOrSelf e.type ↔ TellsElementType source layers) := by
  obtain ⟨hexpression, hwithin⟩ := rendered_of_parse h
  obtain ⟨source, layers, hrendered⟩ := hwithin q .self
  have hspine := hexpression ▸ hrendered.spine
  obtain ⟨hmodifiers, ⟨name, elementType, rfl⟩, hannounced⟩ := he.announced_of_spine hspine
  refine ⟨_, layers, q.select.distinct, hmodifiers ▸ hspine, ?_⟩
  have hmain : q.main.identifier.type = elementOrSelf (Expr.table name elementType).type := by
    obtain ⟨n, hmain⟩ := hrendered.main
    rw [hmain]
    cases layers with
    | nil => rfl
    | cons layer layers => exact hannounced.parameter layer rfl
  have hselector : ∀ selector, lastSelector? layers = some selector →
      selector.ChainFree ∧ selector.unquoted = selector := by
    intro selector hselector
    obtain ⟨layer, hlast, hselector⟩ := Option.bind_eq_some_iff.1 hselector
    obtain ⟨hmem, hunquoted⟩ := Layer.selector?_lambda hselector
    exact ⟨hannounced.chainFree layer (List.mem_of_getLast? hlast) selector hmem, hunquoted⟩
  rw [hrendered.elementType_eq fun selector h => (hselector selector h).1, hannounced.type,
    Layer.foldl_makes, hmain]
  unfold TellsElementType
  cases hlast : lastSelector? layers with
  | some selector =>
    rw [Layer.lastMade?_of_lastSelector? hlast]
    simp only [(hselector selector hlast).2, Option.map_some, Option.getD_some]
    exact eq_elementOrSelf_queryable_iff
  | none =>
    cases hmade : Layer.lastMade? layers with
    | some made => rfl
    | none =>
      have hranged := Layer.filterMap_ranged? (List.getLast?_eq_none_iff.1 hmade)
      simp [hranged]

/-- `from s in Students from d in s.Details` with both in a pair, and a filter on the pairs, spelled
as a chain of operators. -/
def mathsPairs : Expr :=
  let s : Parameter := { name := "s", type := "Student" }
  let d : Parameter := { name := "d", type := "Detail" }
  let t : Parameter := { name := "t", type := "Pair" }
  let read (e : Expr) (name type : String) : Expr :=
    .member e { declaringType := e.type, name, type }
  let pairs := Chain.selectMany (.table "Students" "Student")
    (.lambda [s] (read (.parameter s) "Details" "IEnumerable<Detail>"))
    (.lambda [s, d] (.anonymous "Pair" [("s", .parameter s), ("d", .parameter d)]))
  Chain.filter pairs (.lambda [t] (.operation .equal
    (read (read (.parameter t) "d" "Detail") "Subject" "String") (.ofConstant (.string "Maths"))))

theorem compiled_mathsPairs : mathsPairs.Compiled := by
  refine .filter (.selectMany (.table _ _) (by decide) ?_ ?_) (by decide) ?_ <;>
    simp [Expr.anonymous, Expr.operation, Expr.ofConstant]

/-- The pairs are announced as such, and the query tells the type of the details in them. -/
theorem elementType_eq_iff_mathsPairs :
    ∃ q, parse mathsPairs = .ok q
      ∧ (∃ source layers distinct, Spine source layers mathsPairs distinct []
        ∧ (q.elementType = elementOrSelf mathsPairs.type ↔ TellsElementType source layers))
      ∧ q.elementType = "Detail" ∧ elementOrSelf mathsPairs.type = "Pair" :=
  ⟨_, rfl, elementType_eq_iff compiled_mathsPairs rfl, rfl, rfl⟩

end QueryChain
