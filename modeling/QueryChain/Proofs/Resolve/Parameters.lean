import QueryChain.Proofs.Chain.Comprehension
import QueryChain.Proofs.Chain.Replaced
import QueryChain.Proofs.Chain.Scanned
import QueryChain.Proofs.Resolve.Scope

/-!
# Parameters of different names

Each operator of a chain names its elements as it likes, and a query has a variable of its own for
all of them: the parameter of the first operator. Clauses keep their lambdas as they were written,
so their parameters are found by name only.

`owned_by_name` says what becomes of a reference to the parameter of a lambda, for queries that
filter, sort and select the elements of a table. These have one range clause. The reference belongs
to it exactly if the parameter has the name that the first operator uses. Otherwise it is read from
the first of its members that looks like the query's variable, and if there is none, nothing owns
it.
-/

namespace QueryChain

/-- Operators filter and sort elements of type `type`; only the last one may make new elements, by a
`Select`. -/
inductive FlatOver (type : String) : List Layer → Prop where
  | nil : FlatOver type []
  | selection {p : Parameter} (body : Expr) : p.type = type → FlatOver type [.select p body]
  | filter {p : Parameter} (body : Expr) {layers : List Layer} :
    p.type = type → FlatOver type layers → FlatOver type (.filter p body :: layers)
  | ordering (direction : Direction) (first : Bool) {p : Parameter} (body : Expr)
    {layers : List Layer} :
    p.type = type → FlatOver type layers →
      FlatOver type (.ordering direction first p body :: layers)

theorem FlatOver.parameter_type {type : String} {layers : List Layer} (h : FlatOver type layers) :
    ∀ layer ∈ layers, layer.parameter.type = type := by
  induction h with
  | nil => simp
  | selection body hp => simpa [Layer.parameter] using hp
  | filter body hp _ ih | ordering _ _ body hp _ ih =>
    simpa [Layer.parameter] using ⟨hp, ih⟩

/-- The operator takes the lambda `d` of its own parameter. -/
def Layer.Takes (layer : Layer) (d : Expr) : Prop :=
  d ∈ layer.lambdas ∧ ∃ body, d = .lambda [layer.parameter] body

theorem FlatOver.takes_selector {type : String} {layers : List Layer} (h : FlatOver type layers) :
    ∀ layer ∈ layers, ∀ selector, layer.selector? = some selector → layer.Takes selector := by
  induction h with
  | nil => simp
  | selection body _ => simp [Layer.selector?, Layer.Takes, Layer.lambdas, Layer.parameter]
  | filter _ _ _ ih | ordering _ _ _ _ _ ih =>
    rw [List.forall_mem_cons]
    refine ⟨fun selector hselector => ?_, ih⟩
    cases hselector

/-- An expression is the lambda of one of the operators, up to embedded chains. -/
def IsLambdaOf (found : Expr → QueryRef → Prop) (layers : List Layer) (d : Expr) : Prop :=
  ∃ layer ∈ layers, ∃ written, layer.Takes written ∧ written.NestedAs found d

theorem IsLambdaOf.cons {found : Expr → QueryRef → Prop} {layers : List Layer} {d : Expr}
    (h : IsLambdaOf found layers d) (layer : Layer) : IsLambdaOf found (layer :: layers) d :=
  List.exists_mem_cons_of_exists h

theorem takes_refinements {layers : List Layer} :
    ∀ k ∈ refinements layers, ∃ layer ∈ layers, layer.Takes k.key := by
  fun_induction refinements layers with
  | case1 | case2 => simp
  | case3 direction p body layers ih =>
    rw [List.forall_mem_cons]
    exact ⟨⟨_, List.mem_cons_self, List.mem_singleton_self _, body, rfl⟩,
      fun k hk => List.exists_mem_cons_of_exists (ih k hk)⟩
  | case4 layer layers _ _ ih => exact fun k hk => List.exists_mem_cons_of_exists (ih k hk)

/-- Embedded chains aside, keys are the lambdas that they were written as. -/
theorem isLambdaOf_keys {found : Expr → QueryRef → Prop} {layers : List Layer}
    {keys keys' : List SortKey} (h : List.Forall₂ (SortKey.NestedAs found) keys keys')
    (hkeys : ∀ k ∈ keys, ∃ layer ∈ layers, layer.Takes k.key) :
    ∀ k ∈ keys', IsLambdaOf found layers k.key := by
  intro k' hk'
  obtain ⟨k, hk, hnested, -⟩ := forall₂_mem_right h hk'
  obtain ⟨layer, hlayer, htakes⟩ := hkeys k hk
  exact ⟨layer, hlayer, k.key, htakes, hnested⟩

/-- Operators that filter and sort leave clauses without variables of their own. -/
theorem ClausesOf.of_flat {embedded sources : List Query} {type : String} {layers : List Layer}
    {clauses : List Clause} (h : ClausesOf embedded sources layers clauses)
    (hflat : FlatOver type layers) :
    clauses.filterMap Clause.range? = []
      ∧ ∀ d ∈ clauses.flatMap Clause.expressions, IsLambdaOf (MadeOf embedded) layers d := by
  induction hflat generalizing clauses with
  | nil =>
    cases h
    simp
  | selection body _ =>
    cases h with
    | selection => simp
    | binding hlast => exact absurd rfl hlast
  | filter body _ _ ih =>
    cases h with
    | filter hpredicate hclauses =>
      obtain ⟨hranges, hbelow⟩ := ih hclauses
      refine ⟨hranges, ?_⟩
      rw [List.flatMap_cons, List.forall_mem_append]
      refine ⟨?_, fun d hd => (hbelow d hd).cons _⟩
      rw [Clause.expressions, List.forall_mem_singleton]
      exact ⟨_, List.mem_cons_self, _, ⟨List.mem_singleton_self _, body, rfl⟩, hpredicate⟩
  | ordering direction first body _ _ ih =>
    cases h with
    | ordering hkeys hclauses =>
      obtain ⟨hranges, hbelow⟩ := ih hclauses
      refine ⟨hranges, ?_⟩
      rw [List.flatMap_cons, List.forall_mem_append]
      refine ⟨?_, fun d hd => (hbelow d hd).cons _⟩
      rw [Clause.expressions, List.forall_mem_map]
      refine isLambdaOf_keys hkeys ?_
      rw [List.forall_mem_cons]
      exact ⟨⟨_, List.mem_cons_self, List.mem_singleton_self _, body, rfl⟩,
        fun k hk => List.exists_mem_cons_of_exists (takes_refinements k hk)⟩
    | refinement hclauses =>
      obtain ⟨hranges, hbelow⟩ := ih hclauses
      exact ⟨hranges, fun d hd => (hbelow d hd).cons _⟩

/-- The lambdas of a query: of its clauses after the main range, and the selector. -/
def Query.lambdas (q : Query) : List Expr :=
  q.body.flatMap Clause.expressions ++ q.select.projection.toList

/-- What becomes in `q` of a reference that starts at `p`, where `first` is the variable of `q`. -/
structure Query.Owning (q : Query) (first p : Parameter) (members : List Member) : Prop where
  /-- It is owned as it is exactly if it starts at a parameter with the name of the variable. -/
  named : q.findOwner (.read p members) = .ok (some (0, .read p members)) ↔ p.name = first.name
  /-- Otherwise the first member that looks like the variable is taken for it. -/
  captured : p.name ≠ first.name → ∀ before m rest, members = before ++ m :: rest →
    m.asVariable = first → (∀ k ∈ before, k.asVariable ≠ first) →
      q.findOwner (.read p members) = .ok (some (0, .read first rest))
  /-- Without such a member it has no owner, and is not resolved. -/
  foreign : p.name ≠ first.name → (∀ m ∈ members, m.asVariable ≠ first) →
    q.findOwner (.read p members) = .ok none ∧ ∀ schema usage s,
      (resolve schema q q (.read p members) usage).exec s
        = (.error (.noOwner (.read p members)), s)

theorem Query.owning_of_main {e : Expr} {q : Query} {first p : Parameter} (hparse : parse e = .ok q)
    (hclauses : q.rangeClauses = [q.main]) (hmain : q.main.identifier = first)
    (htype : p.type = first.type) (members : List Member) : q.Owning first p members := by
  have hbinds (x : Parameter) : q.Binds x ↔ x = first := by
    simp [Query.Binds, hclauses, hmain, eq_comm]
  have hindex : q.clauseIndex? first = some 0 := by
    simp [clauseIndex?, hclauses, hmain]
  have hsame : p = first ↔ p.name = first.name := by
    obtain ⟨name, type⟩ := p
    obtain ⟨name', type'⟩ := first
    simpa using fun _ => htype
  have hcaptures (ks : List Member) : q.Captures ks ↔ ∃ k ∈ ks, k.asVariable = first := by
    simp only [Query.Captures, hbinds]
  refine ⟨⟨fun howner => ?_, fun hname => ?_⟩, fun hname before m rest hmembers hm hbefore => ?_,
    fun hname hmembers => ?_⟩
  · have hindex := clauseIndex?_of_owner? (findOwner_read_eq_some.1 howner)
    exact hsame.1 ((hbinds p).1 (binds_of_clauseIndex? hindex))
  · rw [hsame.2 hname]
    exact findOwner_read_eq_some.2 (owner?_of_index hindex)
  · rw [hmembers, ← hm]
    refine findOwner_read_eq_some.2 (owner?_of_first (by rwa [hbinds, hsame]) ?_ (hm ▸ hindex))
    rw [hcaptures]
    rintro ⟨k, hk, hfirst⟩
    exact hbefore k hk hfirst
  · have hnone : q.owner? p members = none := by
      refine owner?_eq_none (by rwa [hbinds, hsame]) ?_
      rw [hcaptures]
      rintro ⟨k, hk, hfirst⟩
      exact hmembers k hk hfirst
    refine ⟨findOwner_read_eq_none.2 hnone, fun schema usage s => ?_⟩
    rw [exec_resolve, planIn, reference_read, enclosing_eq hparse .root]
    simp only [Bind.bind, Except.bind, ownerAmong?, hnone]
    rfl

/-- A query that filters, sorts and selects elements of a table has one range clause. Each of its
lambdas is that of an operator, up to embedded chains, and the references to its parameter are owned
by name: as they are exactly if the operator names its elements as the first operator does. -/
theorem owned_by_name {name type : String} {e : Expr} {layers : List Layer} {q : Query}
    (hlayered : Layered (.table name type) e layers) (hflat : FlatOver type layers)
    (h : parse e = .ok q) :
    q.rangeClauses = [q.main]
      ∧ ∀ d ∈ q.lambdas, ∃ layer ∈ layers, ∃ body body',
        .lambda [layer.parameter] body ∈ layer.lambdas
          ∧ body.NestedAs (MadeOf q.embedded) body' ∧ d = .lambda [layer.parameter] body'
          ∧ ∃ first ∈ layers.head?, q.main.identifier = first.parameter
            ∧ ∀ members, q.Owning first.parameter layer.parameter members := by
  obtain ⟨hexpression, hwithin⟩ := rendered_of_parse h
  obtain ⟨source, layers', hrendered⟩ := hwithin q .self
  obtain ⟨rfl, rfl, -⟩ := hlayered.spine_unique (hexpression ▸ hrendered.spine)
  obtain ⟨hranges, hbody⟩ := hrendered.body.of_flat hflat
  have hclauses : q.rangeClauses = [q.main] := by
    rw [Query.rangeClauses, hranges]
  have hlambdas : ∀ d ∈ q.lambdas, IsLambdaOf (MadeOf q.embedded) layers' d := by
    rw [Query.lambdas, List.forall_mem_append]
    refine ⟨hbody, fun d hd => ?_⟩
    have hprojection := hrendered.projection
    rw [Option.mem_toList.1 hd] at hprojection
    obtain ⟨selector, hselector, hnested⟩ := rel_exists_left hprojection
    obtain ⟨layer, hlast, hselector⟩ := Option.bind_eq_some_iff.1 hselector
    have hlayer := List.mem_of_getLast? hlast
    exact ⟨layer, hlayer, selector, hflat.takes_selector layer hlayer selector hselector, hnested⟩
  refine ⟨hclauses, fun d hd => ?_⟩
  obtain ⟨layer, hlayer, written, ⟨hmem, body, rfl⟩, hnested⟩ := hlambdas d hd
  obtain ⟨body', hlambda, hbody'⟩ := hnested.lambda
  obtain ⟨first, hfirst⟩ : ∃ first, layers'.head? = some first := by
    cases layers' with
    | nil => cases hlayer
    | cons first _ => exact ⟨first, rfl⟩
  have hmain : q.main.identifier = first.parameter := by
    obtain ⟨n, hmain⟩ := hrendered.main
    obtain ⟨above, rfl⟩ := List.head?_eq_some_iff.1 hfirst
    rw [hmain]
    rfl
  have htype : layer.parameter.type = first.parameter.type := by
    rw [hflat.parameter_type layer hlayer, hflat.parameter_type first (List.mem_of_head? hfirst)]
  exact ⟨layer, hlayer, body, body', hmem, hbody', hlambda, first, hfirst, hmain,
    Query.owning_of_main h hclauses hmain htype⟩

/-- The first names of the students with the number one, where the filter names a student `s` and
the selection names one `x`. -/
def firstNames : Expr :=
  let s : Parameter := { name := "s", type := "Student" }
  let x : Parameter := { name := "x", type := "Student" }
  Chain.select
    (Chain.filter (.table "Students" "Student") (.lambda [s] (.operation .equal
      (.read s [{ declaringType := "Student", name := "ID", type := "Int32" }])
      (.ofConstant (.int 1)))))
    (.lambda [x] (.read x [{ declaringType := "Student", name := "First", type := "String" }]))

theorem layered_firstNames :
    ∃ layers, Layered (.table "Students" "Student") firstNames layers
      ∧ FlatOver "Student" layers :=
  ⟨_, .layer (.layer (.source nofun) (.filter rfl)) (.select rfl),
    .filter _ rfl (.selection _ rfl)⟩

theorem owned_by_name_firstNames :
    ∃ layers q, Layered (.table "Students" "Student") firstNames layers
      ∧ FlatOver "Student" layers ∧ parse firstNames = .ok q ∧ q.rangeClauses = [q.main]
      ∧ ∀ d ∈ q.lambdas, ∃ layer ∈ layers, ∃ body body',
        .lambda [layer.parameter] body ∈ layer.lambdas
          ∧ body.NestedAs (MadeOf q.embedded) body' ∧ d = .lambda [layer.parameter] body'
          ∧ ∃ first ∈ layers.head?, q.main.identifier = first.parameter
            ∧ ∀ members, q.Owning first.parameter layer.parameter members := by
  obtain ⟨layers, hlayered, hflat⟩ := layered_firstNames
  exact ⟨layers, _, hlayered, hflat, rfl, owned_by_name hlayered hflat rfl⟩

/-- The first name `x.First` that is selected has no owner, as the query's variable is `s`. -/
theorem not_owned_by_parameter :
    ¬∀ (name type : String) (e : Expr) (layers : List Layer) (q : Query),
      Layered (.table name type) e layers → FlatOver type layers → parse e = .ok q →
      ∀ d ∈ q.lambdas, ∀ (p : Parameter) (body : Expr), d = .lambda [p] body →
        ∀ members, Expr.read p members ∈ body.parts →
          ∃ index owned, q.findOwner (.read p members) = .ok (some (index, owned)) := by
  intro h
  obtain ⟨layers, hlayered, hflat⟩ := layered_firstNames
  obtain ⟨index, owned, howner⟩ := h _ _ _ layers _ hlayered hflat rfl _ (by right; left) _ _ rfl
    [{ declaringType := "Student", name := "First", type := "String" }] (Expr.mem_parts_self _)
  rw [findOwner_read] at howner
  cases howner

end QueryChain
