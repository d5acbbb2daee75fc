import Mathlib.Data.List.Nodup
import QueryChain.Proofs.Chain.Clauses
import QueryChain.Proofs.Resolve.Owner

/-!
# Comprehensions

A comprehension compiles to a chain of operators in which each operator has one lambda parameter.
Where a comprehension has several variables, the parameter stands for an object that bundles the
ones before, and a variable is read from it through the bundles.

* `Comprehension.chain` compiles a comprehension, and `Comprehension.query` is the query that it
  says;
* `Leads` is the invariant of the bundles: on the way from the parameter to a variable stand names
  of bundles only;
* `parse_chain` takes the chain back to the query, and every reference to its variable, which the
  search of the query finds to own it.
-/

namespace QueryChain

/-! ## Comprehensions and their chains -/

/-- A clause of a comprehension between the main range and the selection. -/
inductive Part where
  | range (x : Parameter) (collection : Expr)
  | binding (name : String) (value : Expr)
  | filter (predicate : Expr)
  | ordering (first : SortKey) (more : List SortKey)

/-- A comprehension over a table. -/
structure Comprehension where
  main : Parameter
  table : String
  parts : List Part
  selection : Expr

/-- The variable that a clause introduces. -/
def Part.variable? : Part → Option Parameter
  | .range x _ => some x
  | .binding name value => some { name, type := value.type }
  | .filter _ => none
  | .ordering _ _ => none

/-- The expressions in a clause. -/
def Part.expressions : Part → List Expr
  | .range _ collection => [collection]
  | .binding _ value => [value]
  | .filter predicate => [predicate]
  | .ordering first more => (first :: more).map (·.key)

namespace Comprehension

/-- The variables of a comprehension, in order. -/
def rangeVariables (c : Comprehension) : List Parameter :=
  c.main :: c.parts.filterMap Part.variable?

/-- The expressions of a comprehension, in order. -/
def expressions (c : Comprehension) : List Expr :=
  c.parts.flatMap Part.expressions ++ [c.selection]

end Comprehension

/-- The member of a bundle of type `type` that holds `p`. -/
def bundled (type : String) (p : Parameter) : Member :=
  { declaringType := type, name := p.name, type := p.type }

/-- What is in scope at one point of a comprehension. -/
structure Scope where
  /-- The lambda parameter. -/
  current : Parameter
  /-- The variables, with the members that lead to each of them from the lambda parameter. -/
  paths : List (Parameter × List Member)
  /-- The number of bundles so far. -/
  bundles : Nat

namespace Scope

/-- The scope after the main range. -/
def start (x : Parameter) : Scope :=
  { current := x, paths := [(x, [])], bundles := 0 }

/-- The scope in which the bundle `t` holds the lambda parameter of `sc` and the variable `x`. -/
def bundle (sc : Scope) (t x : Parameter) : Scope where
  current := t
  paths := sc.paths.map (fun (v, members) => (v, bundled t.type sc.current :: members))
    ++ [(x, [bundled t.type x])]
  bundles := sc.bundles + 1

/-- The variables in scope, each read from the lambda parameter. -/
def substitution (sc : Scope) : Substitution :=
  fun v => (sc.paths.lookup v).map (.read sc.current)

/-- An expression over the variables in scope as one over the lambda parameter. -/
def translate (sc : Scope) (e : Expr) : Expr :=
  e.substitute sc.substitution

/-- The lambda for an expression over the variables in scope. -/
def lambda (sc : Scope) (e : Expr) : Expr :=
  .lambda [sc.current] (sc.translate e)

variable (names : Nat → Parameter)

/-- The object that bundles the lambda parameter with a value called `name`. -/
def bundling (sc : Scope) (name : String) (value : Expr) : Expr :=
  .anonymous (names sc.bundles).type
    [(sc.current.name, .parameter sc.current), (name, value)]

/-- The scope after a clause. -/
def next (sc : Scope) (part : Part) : Scope :=
  match part.variable? with
  | some x => sc.bundle (names sc.bundles) x
  | none => sc

end Scope

namespace Part

/-- Sorts a chain by a key. -/
def sort (sc : Scope) (first : Bool) (chain : Expr) (k : SortKey) : Expr :=
  match k.direction, first with
  | .ascending, true => Chain.orderBy chain (sc.lambda k.key)
  | .descending, true => Chain.orderByDescending chain (sc.lambda k.key)
  | .ascending, false => Chain.thenBy chain (sc.lambda k.key)
  | .descending, false => Chain.thenByDescending chain (sc.lambda k.key)

variable (names : Nat → Parameter) (sc : Scope)

/-- The chain of a comprehension up to a clause, where `chain` is what stands before it. -/
def apply (chain : Expr) : Part → Expr
  | .range x collection =>
    Chain.selectMany chain (sc.lambda collection)
      (.lambda [sc.current, x] (sc.bundling names x.name (.parameter x)))
  | .binding name value =>
    Chain.select chain (.lambda [sc.current] (sc.bundling names name (sc.translate value)))
  | .filter predicate => Chain.filter chain (sc.lambda predicate)
  | .ordering first more => more.foldl (sort sc false) (sort sc true chain first)

/-- The clause of a query for a clause of a comprehension. -/
def clause : Part → Clause
  | .range x collection => .range {
      identifier := x
      kind := .additional (sc.lambda collection)
        (some (.lambda [sc.current, x] (sc.bundling names x.name (.parameter x)))) }
  | .binding name value => .range {
      identifier := { name, type := value.type }
      kind := .binding (sc.translate value)
        (.lambda [sc.current] (sc.bundling names name (sc.translate value))) }
  | .filter predicate => .filter (sc.lambda predicate)
  | .ordering first more =>
    .ordering ((first :: more).map fun k => { k with key := sc.lambda k.key })

end Part

section Compilation

variable (names : Nat → Parameter)

/-- The chain of further clauses and a selection, where `chain` is what stands before them. -/
def chainFrom (selection : Expr) : Scope → Expr → List Part → Expr
  | sc, chain, [] => Chain.select chain (sc.lambda selection)
  | sc, chain, part :: parts =>
    chainFrom selection (sc.next names part) (part.apply names sc chain) parts

/-- The clauses of a query for clauses of a comprehension. -/
def clausesFrom : Scope → List Part → List Clause
  | _, [] => []
  | sc, part :: parts => part.clause names sc :: clausesFrom (sc.next names part) parts

/-- The scope after clauses. -/
def scopeAfter (sc : Scope) (parts : List Part) : Scope :=
  parts.foldl (·.next names ·) sc

namespace Comprehension

/-- The chain that a comprehension compiles to. The bundles are called `names 0`, `names 1` and so
on. -/
def chain (c : Comprehension) : Expr :=
  chainFrom names c.selection (.start c.main) (.table c.table c.main.type) c.parts

/-- The query that a comprehension says. -/
def query (c : Comprehension) : Query where
  key := 0
  parent := none
  main := { identifier := c.main, kind := .main (.table c.table c.main.type) }
  body := clausesFrom names (.start c.main) c.parts
  select := {
    projection := some ((scopeAfter names (.start c.main) c.parts).lambda c.selection)
    distinct := false
    modifiers := [] }
  expression := c.chain names
  embedded := []
  sources := []

end Comprehension

end Compilation

/-! ## Ways through bundles -/

/-- Reading `members` from `p` leads to the variable `v`, through bundles that are called like none
of `variables`. -/
inductive Leads (taken : List String) : Parameter → List Member → Parameter → Prop where
  | here {v : Parameter} : Leads taken v [] v
  | through {p v : Parameter} {m : Member} {members : List Member} :
    p.name ∉ taken → Leads taken m.asVariable members v → Leads taken p (m :: members) v

namespace Scope

/-- Every variable in scope is found through bundles. -/
def Found (taken : List String) (sc : Scope) : Prop :=
  ∀ entry ∈ sc.paths, Leads taken sc.current entry.2 entry.1

theorem found_start (taken : List String) (x : Parameter) : (start x).Found taken := by
  intro entry h
  obtain rfl := List.mem_singleton.1 h
  exact .here

theorem Found.bundle {taken : List String} {sc : Scope} (h : sc.Found taken) {t : Parameter}
    (ht : t.name ∉ taken) (x : Parameter) : (sc.bundle t x).Found taken := by
  intro entry hentry
  rcases List.mem_append.1 hentry with hentry | hentry
  · obtain ⟨⟨v, members⟩, hmem, rfl⟩ := List.mem_map.1 hentry
    exact .through ht (h _ hmem)
  · obtain rfl := List.mem_singleton.1 hentry
    exact .through ht .here

theorem mem_paths_of_lookup {sc : Scope} {v : Parameter} {members : List Member}
    (h : sc.paths.lookup v = some members) : (v, members) ∈ sc.paths := by
  obtain ⟨before, after, heq, -⟩ := List.lookup_eq_some_iff.1 h
  simp [heq]

end Scope

theorem type_read_cons (p : Parameter) (m : Member) (members : List Member) :
    (Expr.read p (m :: members)).type = (Expr.read m.asVariable members).type := by
  induction members using List.reverseRecOn with
  | nil => rfl
  | append_singleton members k _ =>
    rw [← List.cons_append, Expr.read_concat, Expr.read_concat]
    rfl

theorem Leads.type_read {taken : List String} {p v : Parameter} {members : List Member}
    (h : Leads taken p members v) : (Expr.read p members).type = v.type := by
  induction h with
  | here => rfl
  | through _ _ ih => rw [type_read_cons, ih]

/-- Where every variable is found, translation is a plain substitution. -/
theorem Scope.Found.plain {taken : List String} {sc : Scope} (h : sc.Found taken) :
    sc.substitution.Plain where
  type_eq := by
    intro v e he
    obtain ⟨members, hmembers, rfl⟩ := Option.map_eq_some_iff.1 he
    exact (h _ (mem_paths_of_lookup hmembers)).type_read
  read_eq := by
    intro v e he
    obtain ⟨members, -, rfl⟩ := Option.map_eq_some_iff.1 he
    exact ⟨sc.current, members, rfl⟩

theorem Scope.Found.next {taken : List String} {sc : Scope} {names : Nat → Parameter}
    (h : sc.Found taken) (hnames : ∀ n, (names n).name ∉ taken) (part : Part) :
    (sc.next names part).Found taken := by
  unfold Scope.next
  split
  · exact h.bundle (hnames _) _
  · exact h

/-! ## The spine of a compiled chain -/

namespace Part

variable (names : Nat → Parameter) (sc : Scope)

/-- The lambda operators for a clause. -/
def layers : Part → List Layer
  | .range x collection =>
    [.selectMany sc.current (sc.translate collection) sc.current x
      (sc.bundling names x.name (.parameter x))]
  | .binding name value => [.select sc.current (sc.bundling names name (sc.translate value))]
  | .filter predicate => [.filter sc.current (sc.translate predicate)]
  | .ordering first more =>
    .ordering first.direction true sc.current (sc.translate first.key)
      :: more.map fun k => .ordering k.direction false sc.current (sc.translate k.key)

end Part

/-- The lambda operators for further clauses and a selection. -/
def layersFrom (names : Nat → Parameter) (selection : Expr) : Scope → List Part → List Layer
  | sc, [] => [.select sc.current (sc.translate selection)]
  | sc, part :: parts =>
    part.layers names sc ++ layersFrom names selection (sc.next names part) parts

theorem Layered.sort {source chain : Expr} {layers : List Layer} (h : Layered source chain layers)
    (sc : Scope) (first : Bool) (k : SortKey) :
    Layered source (Part.sort sc first chain k)
      (layers ++ [.ordering k.direction first sc.current (sc.translate k.key)]) := by
  have hreads : (Layer.ordering k.direction first sc.current (sc.translate k.key)).Reads
      (Operator.ordering k.direction first).name [(sc.lambda k.key).quoted] := .ordering rfl
  obtain ⟨key, direction⟩ := k
  cases direction <;> cases first <;> exact .layer h hreads

theorem Layered.refine {source chain : Expr} {layers : List Layer} (h : Layered source chain layers)
    (sc : Scope) (more : List SortKey) :
    Layered source (more.foldl (Part.sort sc false) chain)
      (layers ++ more.map fun k =>
        .ordering k.direction false sc.current (sc.translate k.key)) := by
  induction more generalizing chain layers with
  | nil => simpa using h
  | cons k more ih => simpa using ih (h.sort sc false k)

theorem Layered.apply {source chain : Expr} {layers : List Layer} (h : Layered source chain layers)
    (names : Nat → Parameter) (sc : Scope) (part : Part) :
    Layered source (part.apply names sc chain) (layers ++ part.layers names sc) := by
  cases part with
  | range x collection => exact .layer h (.selectMany rfl rfl)
  | binding name value => exact .layer h (.select rfl)
  | filter predicate => exact .layer h (.filter rfl)
  | ordering first more =>
    simpa [Part.apply, Part.layers] using (h.sort sc true first).refine sc more

theorem Layered.chainFrom {source : Expr} (names : Nat → Parameter) (selection : Expr)
    {parts : List Part} {sc : Scope} {chain : Expr} {layers : List Layer}
    (h : Layered source chain layers) :
    Layered source (chainFrom names selection sc chain parts)
      (layers ++ layersFrom names selection sc parts) := by
  induction parts generalizing sc chain layers with
  | nil => exact .layer h (.select rfl)
  | cons part parts ih =>
    rw [layersFrom, ← List.append_assoc]
    exact ih (h.apply names sc part)

/-! ## Steps of a compiled chain -/

theorem Expr.outerChains_lambda (parameters : List Parameter) {body : Expr}
    (h : body.outerChains = []) : (Expr.lambda parameters body).outerChains = [] := by
  rw [Expr.outerChains_eq_nil]
  simpa [Expr.isChain, Expr.subterms] using h

theorem Scope.outerChains_bundling (names : Nat → Parameter) (sc : Scope) (name : String)
    {value : Expr} (h : value.outerChains = []) :
    (sc.bundling names name value).outerChains = [] := by
  rw [Expr.outerChains_eq_nil]
  simpa [bundling, Expr.anonymous, Expr.isChain, Expr.subterms] using
    ⟨Expr.outerChains_read sc.current [], h⟩

theorem Scope.outerChains_lambda (sc : Scope) (h : sc.substitution.Plain) {e : Expr}
    (he : e.outerChains = []) : (sc.lambda e).outerChains = [] :=
  Expr.outerChains_lambda [sc.current] (Expr.outerChains_substitute h he)

namespace Draft

variable {parseSub : SubParser} {d : Draft}

theorem replace_of_no_chain {e : Expr} (h : e.outerChains = []) :
    d.replace parseSub e = pure (e, d) := by
  simp [replace, nestChains_of_no_chain parseSub h, addEmbedded]

theorem takeProjection_cons {projection : Option Expr} {rest : List (Option Expr)}
    (h : d.projections = projection :: rest) (clause : String) (e : Expr) :
    d.takeProjection clause e = pure (projection, { d with projections := rest }) := by
  simp [takeProjection, h]

theorem addStep_range_eq {p x : Parameter} {found selector : Expr} {rest : List (Option Expr)}
    (hfound : found.outerChains = []) (hselector : selector.outerChains = [])
    (hprojections : d.projections = some selector :: rest) :
    d.addStep parseSub (.range x (.lambda [p] found))
      = pure { d with
          body := d.body
            ++ [.range { identifier := x, kind := .additional (.lambda [p] found) (some selector) }]
          projections := rest } := by
  have hnone : nestedChain? (.lambda [p] found) = none := by
    simp [nestedChain?, Expr.unquoted, Expr.not_isChain_of_outerChains hfound]
  simp only [addStep, takeProjection_cons hprojections, replaceProjection, pure_bind,
    replace_of_no_chain hselector, hnone, replace_of_no_chain (Expr.outerChains_lambda [p] hfound)]
  rfl

theorem addStep_binding_eq {selector value : Expr} {x : Parameter} {rest : List (Option Expr)}
    (hbound : boundVariable? selector = some (x, value)) (hvalue : value.outerChains = [])
    (hprojections : d.projections = some selector :: rest) :
    d.addStep parseSub (.binding selector)
      = pure { d with
          body := d.body ++ [.range { identifier := x, kind := .binding value selector }]
          projections := rest } := by
  simp only [addStep, takeProjection_cons hprojections, pure_bind, hbound,
    replace_of_no_chain hvalue]
  rfl

theorem addStep_filter_eq {e : Expr} (h : e.outerChains = []) :
    d.addStep parseSub (.filter e) = pure { d with body := d.body ++ [.filter e] } := by
  simp only [addStep, pure_bind, replace_of_no_chain h]
  rfl

theorem addStep_ordering_eq {e : Expr} (h : e.outerChains = []) (direction : Direction) :
    d.addStep parseSub (.ordering e direction true)
      = pure { d with
          body := d.body ++ [.ordering [{ key := e, direction }]]
          openOrdering := some d.body.length } := by
  simp only [addStep, pure_bind, replace_of_no_chain h]
  rfl

theorem addStep_refinement_eq {e : Expr} (h : e.outerChains = []) (direction : Direction)
    {index : Nat} (hopen : d.openOrdering = some index) :
    d.addStep parseSub (.ordering e direction false)
      = pure { d with
          body := refineOpen [{ key := e, direction }] d.openOrdering d.body } := by
  simp only [addStep, pure_bind, replace_of_no_chain h, hopen]
  rfl

theorem foldlM_refine (sc : Scope) {more : List SortKey}
    (h : ∀ k ∈ more, (sc.lambda k.key).outerChains = []) {index : Nat}
    (hopen : d.openOrdering = some index) :
    ((more.map fun k => Step.ordering (sc.lambda k.key) k.direction false).foldlM
        (addStep parseSub) d)
      = pure { d with
          body := refineOpen (more.map fun k => { k with key := sc.lambda k.key }) d.openOrdering
            d.body } := by
  induction more generalizing d with
  | nil => simp [refineOpen_nil]
  | cons k more ih =>
    rw [List.map_cons, List.foldlM_cons,
      addStep_refinement_eq (h k List.mem_cons_self) k.direction hopen, pure_bind]
    refine (ih ?_ ?_).trans ?_
    · exact fun k hk => h k (List.mem_cons_of_mem _ hk)
    · exact hopen
    · rw [refineOpen_refineOpen]
      rfl

theorem foldlM_singleton (step : Step) :
    [step].foldlM (addStep parseSub) d = d.addStep parseSub step := by
  simp

/-- The draft `d'` is `d` with further clauses, and no query was found in them. -/
structure Grows (d : Draft) (clauses : List Clause) (d' : Draft) : Prop where
  body : d'.body = d.body ++ clauses
  embedded : d'.embedded = d.embedded
  sources : d'.sources = d.sources

/-- The steps of a clause add the clause. -/
theorem foldlM_layers {names : Nat → Parameter} {sc : Scope} {part : Part}
    {rest : List (Option Expr)} (hplain : sc.substitution.Plain)
    (h : ∀ e ∈ part.expressions, e.outerChains = [])
    (hprojections : d.projections = Layer.projections (part.layers names sc) ++ rest) :
    ∃ d', (nestedSteps (part.layers names sc)).foldlM (addStep parseSub) d = pure d'
      ∧ d.Grows [part.clause names sc] d' ∧ d'.projections = rest := by
  have htranslate : ∀ e ∈ part.expressions, (sc.translate e).outerChains = [] :=
    fun e he => Expr.outerChains_substitute hplain (h e he)
  cases part with
  | range x collection =>
    have hbundling := Expr.outerChains_lambda [sc.current, x]
      (sc.outerChains_bundling names x.name (Expr.outerChains_read x []))
    have hcollection := htranslate collection (by simp [Part.expressions])
    exact ⟨_, (foldlM_singleton _).trans (addStep_range_eq hcollection hbundling hprojections),
      ⟨rfl, rfl, rfl⟩, rfl⟩
  | binding name value =>
    have hvalue := htranslate value (by simp [Part.expressions])
    have hbound : boundVariable?
        (.lambda [sc.current] (sc.bundling names name (sc.translate value)))
          = some ({ name, type := value.type }, sc.translate value) := by
      simp [boundVariable?, Expr.unquoted, Scope.bundling, Expr.anonymous, Scope.translate,
        Expr.type_substitute hplain]
    exact ⟨_, (foldlM_singleton _).trans (addStep_binding_eq hbound hvalue hprojections),
      ⟨rfl, rfl, rfl⟩, rfl⟩
  | filter predicate =>
    have hpredicate := sc.outerChains_lambda hplain (h predicate (by simp [Part.expressions]))
    exact ⟨_, (foldlM_singleton _).trans (addStep_filter_eq hpredicate), ⟨rfl, rfl, rfl⟩,
      hprojections⟩
  | ordering first more =>
    have hkeys : ∀ k ∈ first :: more, (sc.lambda k.key).outerChains = [] := fun k hk =>
      sc.outerChains_lambda hplain (h k.key (List.mem_map_of_mem hk))
    have hnone : Layer.projections ((Part.ordering first more).layers names sc) = [] := by
      simp [Layer.projections, Part.layers, Layer.selector?]
    have hsteps : nestedSteps ((Part.ordering first more).layers names sc)
        = .ordering (sc.lambda first.key) first.direction true
          :: more.map fun k => .ordering (sc.lambda k.key) k.direction false := by
      simp [nestedSteps, Part.layers, Layer.step, Scope.lambda]
    rw [hnone] at hprojections
    rw [hsteps, List.foldlM_cons, addStep_ordering_eq (hkeys first List.mem_cons_self), pure_bind]
    -- The clause of the first key is the open ordering, so the further keys go there.
    refine ⟨_, foldlM_refine sc (fun k hk => hkeys k (List.mem_cons_of_mem _ hk)) rfl,
      ⟨?_, rfl, rfl⟩, hprojections⟩
    exact refineOpen_last d.body [_] _

theorem layersFrom_ne_nil (names : Nat → Parameter) (selection : Expr) (sc : Scope)
    (parts : List Part) : layersFrom names selection sc parts ≠ [] := by
  cases parts with
  | nil => simp [layersFrom]
  | cons part parts => cases part <;> simp [layersFrom, Part.layers]

/-- The steps of clauses and a selection add the clauses. -/
theorem foldlM_layersFrom (parseSub : SubParser) {taken : List String} {names : Nat → Parameter}
    (hnames : ∀ n, (names n).name ∉ taken) {selection : Expr} {parts : List Part} {sc : Scope}
    {rest : List (Option Expr)} (hfound : sc.Found taken)
    (h : ∀ part ∈ parts, ∀ e ∈ part.expressions, e.outerChains = [])
    (hprojections : d.projections
      = Layer.projections (layersFrom names selection sc parts) ++ rest) :
    ∃ d', (topSteps (layersFrom names selection sc parts)).foldlM (addStep parseSub) d = pure d'
      ∧ d.Grows (clausesFrom names sc parts) d' := by
  induction parts generalizing sc d with
  | nil => exact ⟨d, rfl, by simp [clausesFrom], rfl, rfl⟩
  | cons part parts ih =>
    rw [layersFrom, Layer.projections_append, List.append_assoc] at hprojections
    obtain ⟨d₁, hsteps₁, hgrows₁, hprojections₁⟩ :=
      foldlM_layers hfound.plain (h part List.mem_cons_self) hprojections
    obtain ⟨d', hsteps, hgrows⟩ := ih (hfound.next hnames part)
      (fun part hpart => h part (List.mem_cons_of_mem _ hpart)) hprojections₁
    refine ⟨d', ?_, ?_, hgrows.embedded.trans hgrows₁.embedded,
      hgrows.sources.trans hgrows₁.sources⟩
    · rw [layersFrom, topSteps_append _ (layersFrom_ne_nil names _ _ _), List.foldlM_append,
        hsteps₁, pure_bind, hsteps]
    · rw [hgrows.body, hgrows₁.body, List.append_assoc]
      rfl

end Draft

/-! ## The query of a compiled chain -/

theorem lastSelector?_layersFrom (names : Nat → Parameter) (selection : Expr) (sc : Scope)
    (parts : List Part) :
    lastSelector? (layersFrom names selection sc parts)
      = some ((scopeAfter names sc parts).lambda selection) := by
  induction parts generalizing sc with
  | nil => rfl
  | cons part parts ih =>
    rw [layersFrom, lastSelector?,
      List.getLast?_append_of_ne_nil _ (Draft.layersFrom_ne_nil names _ _ _)]
    exact ih (sc.next names part)

theorem head?_layersFrom (names : Nat → Parameter) (selection : Expr) (sc : Scope)
    (parts : List Part) :
    (layersFrom names selection sc parts).head?.map Layer.parameter = some sc.current := by
  cases parts with
  | nil => rfl
  | cons part parts => cases part <;> rfl

theorem mainVariable_layersFrom (source : Expr) (n : Nat) (names : Nat → Parameter)
    (selection : Expr) (sc : Scope) (parts : List Part) :
    mainVariable source n (layersFrom names selection sc parts) = sc.current := by
  have hhead := head?_layersFrom names selection sc parts
  cases hlayers : layersFrom names selection sc parts with
  | nil => simp [hlayers] at hhead
  | cons layer layers => simpa [hlayers, mainVariable] using hhead

theorem evaluate_table (name elementType : String) :
    (Expr.table name elementType).evaluate = .table name elementType := rfl

theorem found_scopeAfter {taken : List String} {names : Nat → Parameter}
    (hnames : ∀ n, (names n).name ∉ taken) {sc : Scope} (h : sc.Found taken) (parts : List Part) :
    (scopeAfter names sc parts).Found taken := by
  induction parts generalizing sc with
  | nil => exact h
  | cons part parts ih => exact ih (h.next hnames part)

namespace Comprehension

/-- The steps and the projections of a compiled chain are assembled to the query that the
comprehension says. -/
theorem assemble_chain {c : Comprehension} {names : Nat → Parameter}
    (hnames : ∀ n, (names n).name ∉ c.rangeVariables.map (·.name))
    (h : ∀ e ∈ c.expressions, e.outerChains = []) (parseSub : SubParser)
    {layers : List Layer}
    (hlayers : layers = layersFrom names c.selection (.start c.main) c.parts) :
    assemble parseSub 0 none (c.chain names) {
        steps := .range c.main (.table c.table c.main.type) :: topSteps layers
        projections := Layer.projections layers ++ topGap layers }
      = pure (c.query names) := by
  have hstart := Scope.found_start (c.rangeVariables.map (·.name)) c.main
  have hparts : ∀ part ∈ c.parts, ∀ e ∈ part.expressions, e.outerChains = [] := by
    intro part hpart e he
    exact h e (List.mem_append_left _ (List.mem_flatMap.2 ⟨part, hpart, he⟩))
  have hselection := Scope.outerChains_lambda _ (found_scopeAfter hnames hstart c.parts).plain
    (h c.selection (by simp [expressions]))
  subst hlayers
  obtain ⟨d, hsteps, hgrows⟩ := Draft.foldlM_layersFrom parseSub
    (d := { projections := Layer.projections (layersFrom names c.selection (.start c.main) c.parts)
      ++ topGap (layersFrom names c.selection (.start c.main) c.parts) }) hnames hstart hparts rfl
  simp only [assemble, pure_bind, hsteps, getLast?_projections, lastSelector?_layersFrom,
    Draft.replaceProjection]
  simp only [Draft.replace_of_no_chain hselection, pure_bind, hgrows.body, hgrows.embedded,
    hgrows.sources]
  rfl

/-- A compiled chain is parsed into the query that the comprehension says. -/
theorem parse_chain_eq {c : Comprehension} {names : Nat → Parameter}
    (hnames : ∀ n, (names n).name ∉ c.rangeVariables.map (·.name))
    (h : ∀ e ∈ c.expressions, e.outerChains = []) :
    parse (c.chain names) = .ok (c.query names) := by
  have hlayered : Layered (.table c.table c.main.type) (c.chain names)
      (layersFrom names c.selection (.start c.main) c.parts) := by
    have hsource : ¬(Expr.table c.table c.main.type).IsOperatorCall := nofun
    exact Layered.chainFrom names c.selection (.source hsource)
  have hcollect := collect_top_of_layered hlayered (Draft.layersFrom_ne_nil names _ _ _)
    (by rfl) none
  rw [mainVariable_layersFrom, evaluate_table] at hcollect
  -- No chain is nested in another here, so the depth that is left for that does not matter.
  obtain ⟨n, hn⟩ : ∃ n, (c.chain names).size = n + 1 := ⟨_, Expr.size_eq _⟩
  have hassemble := assemble_chain hnames h (parseChain n (some 0)) rfl
  have hrun : (parseChain (n + 1) none (c.chain names)).run {}
      = .ok (c.query names, { nextKey := 1 }) := by
    rw [parseChain, hcollect]
    refine ParseM.run_bind_ok.2 ⟨0, { nextKey := 1 }, rfl, ?_⟩
    rw [pure_bind]
    exact congrArg (StateT.run · { nextKey := 1 }) hassemble
  simp only [parse, parseFrom, runParse, hn, hrun]
  rfl

end Comprehension

/-! ## Owners of references -/

theorem clauseIndex?_eq (q : Query) (p : Parameter) :
    q.clauseIndex? p = (q.rangeClauses.map (·.identifier)).findIdx? (· == p) := by
  rw [List.findIdx?_map]
  rfl

theorem clauseIndex?_eq_none {q : Query} {p : Parameter} (h : p.name ∉ q.ownNames) :
    q.clauseIndex? p = none := by
  rw [clauseIndex?_eq, List.findIdx?_eq_none_iff]
  intro x hx
  rw [beq_eq_false_iff_ne]
  rintro rfl
  obtain ⟨clause, hclause, rfl⟩ := List.mem_map.1 hx
  exact h (List.mem_map.2 ⟨clause, hclause, rfl⟩)

/-- Where names are distinct, a variable is that of the clause that introduces it. -/
theorem clauseIndex?_of_nodup {q : Query} (hnodup : q.ownNames.Nodup) {index : Nat} {p : Parameter}
    (h : (q.rangeClauses.map (·.identifier))[index]? = some p) : q.clauseIndex? p = some index := by
  have hidentifiers : (q.rangeClauses.map (·.identifier)).Nodup := by
    refine List.Nodup.of_map (·.name) ?_
    rw [List.map_map]
    exact hnodup
  obtain ⟨hlt, hp⟩ := List.getElem?_eq_some_iff.1 h
  rw [clauseIndex?_eq, List.findIdx?_eq_some_iff_getElem]
  refine ⟨hlt, beq_iff_eq.2 hp, fun j hj hsame => ?_⟩
  have heq := hidentifiers.getElem_inj_iff.1 ((beq_iff_eq.1 hsame).trans hp.symm)
  omega

/-- A reference that leads to a variable is owned by the clause of the variable, with what is read
from it after that. -/
theorem owner?_of_leads {q : Query} {p v : Parameter} {way members : List Member} {index : Nat}
    (h : Leads q.ownNames p way v) (hindex : q.clauseIndex? v = some index) :
    q.owner? p (way ++ members) = some (index, { root := v, members }) := by
  induction h with
  | here =>
    rw [Query.owner?.eq_def, hindex]
    rfl
  | @through p v m way hp _ ih =>
    rw [List.cons_append, Query.owner?.eq_def, clauseIndex?_eq_none hp]
    exact ih hindex

theorem substitute_read (σ : Substitution) (v : Parameter) (members : List Member) :
    (Expr.read v members).substitute σ
      = members.foldl .member ((σ v).getD (.parameter v)) := by
  induction members using List.reverseRecOn with
  | nil => exact Expr.substitute_parameter σ v
  | append_singleton members m ih =>
    rw [Expr.read_concat, Expr.substitute_member, ih, List.foldl_concat]

namespace Comprehension

theorem identifiers_clausesFrom (names : Nat → Parameter) (sc : Scope) (parts : List Part) :
    ((clausesFrom names sc parts).filterMap Clause.range?).map (·.identifier)
      = parts.filterMap Part.variable? := by
  induction parts generalizing sc with
  | nil => rfl
  | cons part parts ih =>
    cases part with
    | range | binding => simp [clausesFrom, Part.clause, Clause.range?, Part.variable?, ih]
    | filter | ordering => exact ih _

theorem identifiers_query (c : Comprehension) (names : Nat → Parameter) :
    (c.query names).rangeClauses.map (·.identifier) = c.rangeVariables := by
  simp [Query.rangeClauses, query, identifiers_clausesFrom, rangeVariables]

theorem variables_scopeAfter (names : Nat → Parameter) (sc : Scope) (parts : List Part) :
    (scopeAfter names sc parts).paths.map Prod.fst
      = sc.paths.map Prod.fst ++ parts.filterMap Part.variable? := by
  induction parts generalizing sc with
  | nil => simp [scopeAfter]
  | cons part parts ih =>
    have hnext : (sc.next names part).paths.map Prod.fst
        = sc.paths.map Prod.fst ++ part.variable?.toList := by
      cases hx : part.variable? <;> simp [Scope.next, hx, Scope.bundle, Function.comp_def]
    show (scopeAfter names (sc.next names part) parts).paths.map Prod.fst = _
    rw [ih, hnext, List.append_assoc]
    cases hx : part.variable? <;> simp [hx]

/-- A variable that is in scope after some clauses has a way that leads to it. -/
theorem lookup_scopeAfter (names : Nat → Parameter) {x v : Parameter} {parts : List Part}
    (h : v ∈ x :: parts.filterMap Part.variable?) :
    ∃ way, (scopeAfter names (.start x) parts).paths.lookup v = some way := by
  apply Option.isSome_iff_exists.1
  rw [List.lookup_isSome_iff]
  have hmem : v ∈ (scopeAfter names (.start x) parts).paths.map Prod.fst := by
    rw [variables_scopeAfter]
    exact h
  obtain ⟨entry, hentry, rfl⟩ := List.mem_map.1 hmem
  exact ⟨entry, hentry, BEq.rfl⟩

/-- Parsing takes a compiled comprehension back to its clauses, and references to their variables:
what is read from a variable in scope is owned by the clause that introduces the variable. -/
theorem parse_chain {c : Comprehension} {names : Nat → Parameter}
    (hdistinct : (c.rangeVariables.map (·.name)).Nodup)
    (hnames : ∀ n, (names n).name ∉ c.rangeVariables.map (·.name))
    (hchains : ∀ e ∈ c.expressions, e.outerChains = []) :
    parse (c.chain names) = .ok (c.query names)
      ∧ (c.query names).rangeClauses.map (·.identifier) = c.rangeVariables
      ∧ ∀ before after, c.parts = before ++ after →
        ∀ v ∈ c.main :: before.filterMap Part.variable?, ∀ members,
          ∃ index, (c.query names).findOwner
              ((scopeAfter names (.start c.main) before).translate (.read v members))
              = .ok (some (index, .read v members))
            ∧ c.rangeVariables[index]? = some v := by
  refine ⟨parse_chain_eq hnames hchains, identifiers_query c names, ?_⟩
  intro before after hparts v hv members
  have hnames' : (c.query names).ownNames = c.rangeVariables.map (·.name) := by
    rw [← identifiers_query c names, List.map_map]
    rfl
  have hmem : v ∈ c.rangeVariables := by
    rw [rangeVariables, hparts, List.filterMap_append]
    exact List.mem_append_left _ hv
  obtain ⟨index, hindex⟩ := List.mem_iff_getElem?.1 hmem
  obtain ⟨way, hway⟩ := lookup_scopeAfter names hv
  have hfound := found_scopeAfter hnames (Scope.found_start _ c.main) before
  have hleads := hfound _ (Scope.mem_paths_of_lookup hway)
  have hclause : (c.query names).clauseIndex? v = some index :=
    clauseIndex?_of_nodup (hnames' ▸ hdistinct) (by rw [identifiers_query, hindex])
  refine ⟨index, ?_, hindex⟩
  rw [Scope.translate, substitute_read, Scope.substitution, hway]
  rw [Option.map_some, Option.getD_some, ← Expr.read_append]
  exact findOwner_read_eq_some.2 (owner?_of_leads (hnames' ▸ hleads) hclause)

/-- `from s in Students from d in s.Details let g = d.Grade where g.Passed
orderby s.Name asc, g desc select s.Name` -/
def passed : Comprehension where
  main := { name := "s", type := "Student" }
  table := "Students"
  parts :=
    [.range { name := "d", type := "Detail" } (.read { name := "s", type := "Student" }
        [{ declaringType := "Student", name := "Details", type := "IEnumerable<Detail>" }]),
      .binding "g" (.read { name := "d", type := "Detail" }
        [{ declaringType := "Detail", name := "Grade", type := "Grade" }]),
      .filter (.read { name := "g", type := "Grade" }
        [{ declaringType := "Grade", name := "Passed", type := "Boolean" }]),
      .ordering
        { key := .read { name := "s", type := "Student" }
            [{ declaringType := "Student", name := "Name", type := "String" }]
          direction := .ascending }
        [{ key := .read { name := "g", type := "Grade" } [], direction := .descending }]]
  selection := .read { name := "s", type := "Student" }
    [{ declaringType := "Student", name := "Name", type := "String" }]

/-- Bundles called as in compiled comprehensions. -/
def transparent (n : Nat) : Parameter :=
  { name := "<>h__TransparentIdentifier" ++ toString n
    type := "<>f__AnonymousType" ++ toString n }

theorem parse_chain_passed :
    parse (passed.chain transparent) = .ok (passed.query transparent)
      ∧ (passed.query transparent).rangeClauses.map (·.identifier) = passed.rangeVariables
      ∧ ∀ before after, passed.parts = before ++ after →
        ∀ v ∈ passed.main :: before.filterMap Part.variable?, ∀ members,
          ∃ index, (passed.query transparent).findOwner
              ((scopeAfter transparent (.start passed.main) before).translate (.read v members))
              = .ok (some (index, .read v members))
            ∧ passed.rangeVariables[index]? = some v := by
  have hdistinct : (passed.rangeVariables.map (·.name)).Nodup := by decide
  have hnames : ∀ n, (transparent n).name ∉ passed.rangeVariables.map (·.name) := by
    intro n hmem
    have hshort : ∀ name ∈ ["s", "d", "g"], name.length = 1 := by decide
    have hlong : "<>h__TransparentIdentifier".length = 26 := by rfl
    have hall : passed.rangeVariables.map (·.name) = ["s", "d", "g"] := rfl
    rw [hall] at hmem
    have hlength : ("<>h__TransparentIdentifier" ++ toString n).length = 1 := hshort _ hmem
    rw [String.length_append, hlong] at hlength
    omega
  have hchains : ∀ e ∈ passed.expressions, e.outerChains = [] := by
    simp [passed, expressions, Part.expressions, Expr.outerChains_read]
  exact parse_chain hdistinct hnames hchains

end Comprehension

end QueryChain
