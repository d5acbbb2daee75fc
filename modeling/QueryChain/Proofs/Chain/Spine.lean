import QueryChain.Proofs.Chain.Embedded

/-!
# The spine of a chain

Read from its source outward, a chain is a source under lambda operators under `Distinct` and result
operators. `Spine` states this as a relation on expressions. A chain is collected only if it has a
spine, and then everything that is collected can be read off it:

* `collect_nested_ok`: below a lambda operator, each operator leaves its step, and each selector its
  projection;
* `collect_top_ok`: at the top of a chain, a `Select` leaves a projection only, and an operator
  without a selector leaves a gap.
-/

namespace QueryChain

/-- The method name of an operator. -/
def Operator.name : Operator → String
  | .select => "Select"
  | .selectMany => "SelectMany"
  | .filter => "Where"
  | .ordering .ascending true => "OrderBy"
  | .ordering .descending true => "OrderByDescending"
  | .ordering .ascending false => "ThenBy"
  | .ordering .descending false => "ThenByDescending"
  | .distinct => "Distinct"

theorem Operator.ofName?_eq_some {method : String} {op : Operator} :
    ofName? method = some op ↔ method = op.name := by
  constructor
  · intro h
    unfold ofName? at h
    grind [name]
  · rintro rfl
    fun_cases name op <;> rfl

/-- A lambda operator of a chain with its lambdas taken apart. -/
inductive Layer where
  | select (parameter : Parameter) (body : Expr)
  | selectMany (parameter : Parameter) (collection : Expr) (outer element : Parameter)
    (result : Expr)
  | filter (parameter : Parameter) (body : Expr)
  | ordering (direction : Direction) (first : Bool) (parameter : Parameter) (body : Expr)

namespace Layer

/-- The parameter for the elements that an operator is applied to. -/
def parameter : Layer → Parameter
  | .select p _ | .selectMany p _ _ _ _ | .filter p _ | .ordering _ _ p _ => p

/-- The lambda that makes the elements of the result, for an operator that makes new ones. -/
def selector? : Layer → Option Expr
  | .select p body => some (.lambda [p] body)
  | .selectMany _ _ p x body => some (.lambda [p, x] body)
  | .filter _ _ | .ordering _ _ _ _ => none

/-- The step that an operator leaves below another lambda operator. -/
def step : Layer → Step
  | .select p body => .binding (.lambda [p] body)
  | .selectMany p collection _ x _ => .range x (.lambda [p] collection)
  | .filter p body => .filter (.lambda [p] body)
  | .ordering direction first p body => .ordering (.lambda [p] body) direction first

/-- The method called `method`, with the arguments `arguments` after its source, is an operator. -/
inductive Reads : String → List Expr → Layer → Prop where
  | select {selector : Expr} {p : Parameter} {body : Expr} :
    selector.unquoted = .lambda [p] body →
      Reads Operator.select.name [selector] (.select p body)
  | selectMany {collection result : Expr} {p q x : Parameter} {found body : Expr} :
    collection.unquoted = .lambda [p] found → result.unquoted = .lambda [q, x] body →
      Reads Operator.selectMany.name [collection, result] (.selectMany p found q x body)
  | filter {predicate : Expr} {p : Parameter} {body : Expr} :
    predicate.unquoted = .lambda [p] body →
      Reads Operator.filter.name [predicate] (.filter p body)
  | ordering {direction : Direction} {first : Bool} {key : Expr} {p : Parameter} {body : Expr} :
    key.unquoted = .lambda [p] body →
      Reads (Operator.ordering direction first).name [key] (.ordering direction first p body)

end Layer

/-- A call of an operator or of a result operator, well-formed or not. -/
inductive Expr.IsOperatorCall : Expr → Prop where
  | operator {method : String} {arguments : List Expr} {type : String} {op : Operator} :
    Operator.ofName? method = some op → IsOperatorCall (.staticCall method arguments type)
  | result {method : String} {arguments : List Expr} {type : String} :
    isResultMethod method → IsOperatorCall (.staticCall method arguments type)

theorem Expr.IsOperatorCall.eq_staticCall {e : Expr} (h : e.IsOperatorCall) :
    ∃ method arguments type, e = .staticCall method arguments type := by
  cases h <;> exact ⟨_, _, _, rfl⟩

/-- `e` is `source` under the lambda operators `layers`, innermost first. -/
inductive Layered (source : Expr) : Expr → List Layer → Prop where
  | source : ¬source.IsOperatorCall → Layered source source []
  | layer {e : Expr} {layers : List Layer} {method : String} {arguments : List Expr} {type : String}
    {layer : Layer} :
    Layered source e layers → layer.Reads method arguments →
      Layered source (.staticCall method (e :: arguments) type) (layers ++ [layer])

/-- `e` is `source` under the lambda operators `layers` and, above these, result operators that
leave the modifiers `modifiers`; `distinct` tells whether there is a `Distinct` among them. -/
inductive Spine (source : Expr) (layers : List Layer) : Expr → Bool → List Modifier → Prop where
  | lambdas {e : Expr} : Layered source e layers → Spine source layers e false []
  | distinct {e : Expr} {distinct : Bool} {modifiers : List Modifier} {type : String} :
    Spine source layers e distinct modifiers →
      Spine source layers (.staticCall "Distinct" [e] type) true modifiers
  | result {e : Expr} {distinct : Bool} {modifiers : List Modifier} {method : String}
    {arguments : List Expr} {type : String} :
    Spine source layers e distinct modifiers → isResultMethod method →
      Spine source layers (.staticCall method (e :: arguments) type) distinct
        (modifiers ++ [⟨method, arguments⟩])

/-! ## What is collected at one operator -/

namespace Collected

/-- What is collected at a lambda operator, after what is below it. -/
def addLayer (c : Collected) (top : Bool) : Layer → Collected
  | .select p body =>
    (if top then c else c.addStep (.binding (.lambda [p] body))).pushProjection
      (some (.lambda [p] body))
  | .selectMany p found q x body =>
    (c.addStep (.range x (.lambda [p] found))).pushProjection (some (.lambda [q, x] body))
  | .filter p body => (c.addStep (.filter (.lambda [p] body))).pushGapIf top
  | .ordering direction first p body =>
    (c.addStep (.ordering (.lambda [p] body) direction first)).pushGapIf top

end Collected

theorem unaryLambda_ok {method : String} {index : Nat} {e argument selector : Expr}
    {p : Parameter} :
    unaryLambda method index e argument = .ok (p, selector)
      ↔ ∃ body, argument.unquoted = .lambda [p] body ∧ selector = .lambda [p] body := by
  unfold unaryLambda
  split
  · rename_i p' body h
    rw [h]
    constructor
    · rintro ⟨⟩
      exact ⟨body, rfl, rfl⟩
    · rintro ⟨body', heq, rfl⟩
      cases heq
      rfl
  · rename_i hnot
    constructor
    · rintro ⟨⟩
    · rintro ⟨body, h, -⟩
      exact absurd h (hnot p body)

theorem binaryLambda_ok {method : String} {index : Nat} {e argument result : Expr} {x : Parameter} :
    binaryLambda method index e argument = .ok (x, result)
      ↔ ∃ q body, argument.unquoted = .lambda [q, x] body ∧ result = .lambda [q, x] body := by
  unfold binaryLambda
  split
  · rename_i q x' body h
    rw [h]
    constructor
    · rintro ⟨⟩
      exact ⟨q, body, rfl, rfl⟩
    · rintro ⟨q', body', heq, rfl⟩
      cases heq
      rfl
  · rename_i hnot
    constructor
    · rintro ⟨⟩
    · rintro ⟨q, body, h, -⟩
      exact absurd h (hnot q x body)

/-- What the arguments of a lambda operator are read as. -/
def Layer.arguments : Layer → OperatorArguments
  | .select p body => .select p (.lambda [p] body)
  | .selectMany p found q x body => .selectMany p x (.lambda [p] found) (.lambda [q, x] body)
  | .filter p body => .filter p (.lambda [p] body)
  | .ordering direction first p body => .ordering p (.lambda [p] body) direction first

theorem Layer.Reads.operatorArguments_eq {method : String} {arguments : List Expr} {layer : Layer}
    (h : layer.Reads method arguments) (e : Expr) :
    ∃ op, Operator.ofName? method = some op
      ∧ operatorArguments op method e arguments = .ok layer.arguments := by
  cases h with
  | select hbody =>
    exact ⟨_, Operator.ofName?_eq_some.2 rfl,
      bind_eq_ok.2 ⟨_, unaryLambda_ok.2 ⟨_, hbody, rfl⟩, rfl⟩⟩
  | selectMany hfound hbody =>
    exact ⟨_, Operator.ofName?_eq_some.2 rfl,
      bind_eq_ok.2 ⟨_, unaryLambda_ok.2 ⟨_, hfound, rfl⟩,
        bind_eq_ok.2 ⟨_, binaryLambda_ok.2 ⟨_, _, hbody, rfl⟩, rfl⟩⟩⟩
  | filter hbody =>
    exact ⟨_, Operator.ofName?_eq_some.2 rfl,
      bind_eq_ok.2 ⟨_, unaryLambda_ok.2 ⟨_, hbody, rfl⟩, rfl⟩⟩
  | ordering hbody =>
    exact ⟨_, Operator.ofName?_eq_some.2 rfl,
      bind_eq_ok.2 ⟨_, unaryLambda_ok.2 ⟨_, hbody, rfl⟩, rfl⟩⟩

theorem operatorArguments_ok {method : String} {op : Operator} {e : Expr} {arguments : List Expr}
    {a : OperatorArguments} (hop : Operator.ofName? method = some op)
    (h : operatorArguments op method e arguments = .ok a) :
    (method = "Distinct" ∧ arguments = [] ∧ a = .distinct)
      ∨ ∃ layer : Layer, layer.Reads method arguments ∧ a = layer.arguments := by
  obtain rfl := Operator.ofName?_eq_some.1 hop
  unfold operatorArguments at h
  split at h
  · obtain ⟨⟨p, _⟩, hselector, ⟨⟩⟩ := bind_eq_ok.1 h
    obtain ⟨body, hbody, rfl⟩ := unaryLambda_ok.1 hselector
    exact .inr ⟨_, .select hbody, rfl⟩
  · obtain ⟨⟨p, _⟩, hcollection, h⟩ := bind_eq_ok.1 h
    obtain ⟨⟨x, _⟩, hresult, ⟨⟩⟩ := bind_eq_ok.1 h
    obtain ⟨found, hfound, rfl⟩ := unaryLambda_ok.1 hcollection
    obtain ⟨q, body, hbody, rfl⟩ := binaryLambda_ok.1 hresult
    exact .inr ⟨_, .selectMany hfound hbody, rfl⟩
  · obtain ⟨⟨p, _⟩, hpredicate, ⟨⟩⟩ := bind_eq_ok.1 h
    obtain ⟨body, hbody, rfl⟩ := unaryLambda_ok.1 hpredicate
    exact .inr ⟨_, .filter hbody, rfl⟩
  · obtain ⟨⟨p, _⟩, hkey, ⟨⟩⟩ := bind_eq_ok.1 h
    obtain ⟨body, hbody, rfl⟩ := unaryLambda_ok.1 hkey
    exact .inr ⟨_, .ordering hbody, rfl⟩
  · cases h
    exact .inl ⟨rfl, rfl, rfl⟩
  · cases h

theorem isResultMethod_of_not_isOperatorCall {method : String} {arguments : List Expr}
    {type : String} (h : ¬(Expr.staticCall method arguments type).IsOperatorCall) :
    Operator.ofName? method = none ∧ isResultMethod method = false := by
  constructor
  · by_contra hop
    obtain ⟨op, hop⟩ := Option.ne_none_iff_exists'.1 hop
    exact h (.operator hop)
  · by_contra hresult
    exact h (.result (by simpa using hresult))

theorem collect_of_not_isOperatorCall {e : Expr} (h : ¬e.IsOperatorCall)
    (identifier : Option Parameter) (top : Bool) :
    collect e identifier top = collectSource e identifier top := by
  unfold collect
  split
  · obtain ⟨hop, hresult⟩ := isResultMethod_of_not_isOperatorCall h
    simp [hop, hresult]
  · obtain ⟨hop, hresult⟩ := isResultMethod_of_not_isOperatorCall h
    simp [hop, hresult]
  · rfl

theorem collect_layer {method : String} {arguments : List Expr} {layer : Layer}
    (h : layer.Reads method arguments) (source : Expr) (type : String)
    (identifier : Option Parameter) (top : Bool) :
    collect (.staticCall method (source :: arguments) type) identifier top
      = (·.addLayer top layer) <$> collect source (some layer.parameter) false := by
  obtain ⟨op, hop, harguments⟩ :=
    h.operatorArguments_eq (.staticCall method (source :: arguments) type)
  rw [map_eq_pure_bind, collect]
  simp only [hop, harguments]
  cases layer <;> rfl

/-- What is collected at an expression, and what below it. -/
inductive CollectedAt (s s' : ParseState) : Expr → Option Parameter → Bool → Collected → Prop where
  | source {e : Expr} {identifier : Option Parameter} {top : Bool} {c : Collected} :
    ¬e.IsOperatorCall → (collectSource e identifier top).run s = .ok (c, s') →
      CollectedAt s s' e identifier top c
  | layer {source : Expr} {method : String} {arguments : List Expr} {type : String} {layer : Layer}
    {identifier : Option Parameter} {top : Bool} {c : Collected} :
    layer.Reads method arguments →
      (collect source (some layer.parameter) false).run s = .ok (c, s') →
      CollectedAt s s' (.staticCall method (source :: arguments) type) identifier top
        (c.addLayer top layer)
  | distinct {source : Expr} {type : String} {identifier : Option Parameter} {c : Collected} :
    (collect source identifier true).run s = .ok (c, s') →
      CollectedAt s s' (.staticCall "Distinct" [source] type) identifier true
        { c with distinct := true }
  | result {source : Expr} {method : String} {arguments : List Expr} {type : String}
    {identifier : Option Parameter} {c : Collected} :
    isResultMethod method → (collect source identifier true).run s = .ok (c, s') →
      CollectedAt s s' (.staticCall method (source :: arguments) type) identifier true
        (c.pushModifier { method, arguments })

theorem collect_ok {e : Expr} {identifier : Option Parameter} {top : Bool} {c : Collected}
    {s s' : ParseState} (h : (collect e identifier top).run s = .ok (c, s')) :
    CollectedAt s s' e identifier top c := by
  by_cases hcall : e.IsOperatorCall
  · obtain ⟨method, arguments, type, rfl⟩ := hcall.eq_staticCall
    cases hop : Operator.ofName? method with
    | some op =>
      cases arguments with
      | nil =>
        simp only [collect, hop, ParseM.run_throw_ok] at h
      | cons source arguments =>
        have hwhole := h
        rw [collect] at h
        simp only [hop] at h
        obtain ⟨a, s₁, ha, h⟩ := ParseM.run_bind_ok.1 h
        obtain ⟨harguments, rfl⟩ := ParseM.run_lift_ok.1 ha
        obtain ⟨rfl, rfl, rfl⟩ | ⟨layer, hreads, -⟩ := operatorArguments_ok hop harguments
        -- `Distinct` stands at the top of a chain only.
        · cases top with
          | false =>
            obtain ⟨_, _, hthrow, -⟩ := ParseM.run_bind_ok.1 h
            exact (ParseM.run_throw_ok.1 hthrow).elim
          | true =>
            obtain ⟨c, s₁, hc, h⟩ := ParseM.run_bind_ok.1 h
            obtain ⟨rfl, rfl⟩ := ParseM.run_pure_ok.1 h
            exact .distinct hc
        · rw [collect_layer hreads] at hwhole
          obtain ⟨c, hc, rfl⟩ := ParseM.run_map_ok.1 hwhole
          exact .layer hreads hc
    | none =>
      have hresult : isResultMethod method := by
        cases hcall with
        | operator hsome => simp [hop] at hsome
        | result hresult => exact hresult
      cases arguments with
      | nil => simp only [collect, hop, hresult, if_true, ParseM.run_throw_ok] at h
      | cons source arguments =>
        rw [collect] at h
        simp only [hop, hresult, if_true] at h
        -- So does a result operator.
        cases top with
        | false =>
          obtain ⟨_, _, hthrow, -⟩ := ParseM.run_bind_ok.1 h
          exact (ParseM.run_throw_ok.1 hthrow).elim
        | true =>
          obtain ⟨c, s₁, hc, h⟩ := ParseM.run_bind_ok.1 h
          obtain ⟨rfl, rfl⟩ := ParseM.run_pure_ok.1 h
          exact .result hresult hc
  · rw [collect_of_not_isOperatorCall hcall] at h
    exact .source hcall h

/-! ## What is collected along a spine -/

/-- The steps that operators leave below another lambda operator, innermost first. -/
def nestedSteps (layers : List Layer) : List Step :=
  layers.map Layer.step

/-- The steps that operators leave at the top of a chain, innermost first: a `Select` without
another operator above it leaves none. -/
def topSteps : List Layer → List Step
  | [] => []
  | [.select _ _] => []
  | layer :: layers => layer.step :: topSteps layers

/-- The selectors of operators, innermost first, as projections. -/
def Layer.projections (layers : List Layer) : List (Option Expr) :=
  (layers.filterMap Layer.selector?).map some

/-- The selector of the last operator, if it has one. -/
def lastSelector? (layers : List Layer) : Option Expr :=
  layers.getLast?.bind Layer.selector?

/-- The gap among the projections at the top of a chain, if the last operator has no selector. -/
def topGap (layers : List Layer) : List (Option Expr) :=
  if (lastSelector? layers).isSome then [] else [none]

theorem topSteps_cons (layer : Layer) {layers : List Layer} (h : layers ≠ []) :
    topSteps (layer :: layers) = layer.step :: topSteps layers := by
  rw [topSteps.eq_3]
  rintro p body - rfl
  exact h rfl

theorem topSteps_append (layers : List Layer) {above : List Layer} (h : above ≠ []) :
    topSteps (layers ++ above) = nestedSteps layers ++ topSteps above := by
  induction layers with
  | nil => rfl
  | cons layer layers ih =>
    rw [List.cons_append, topSteps_cons layer (by simp [h]), ih]
    rfl

theorem mem_topSteps {layers : List Layer} {step : Step} (h : step ∈ topSteps layers) :
    ∃ layer ∈ layers, step = layer.step := by
  fun_induction topSteps layers with
  | case1 => simp at h
  | case2 => simp at h
  | case3 layer layers _ ih =>
    rcases List.mem_cons.1 h with rfl | h
    · exact ⟨layer, List.mem_cons_self, rfl⟩
    · obtain ⟨next, hnext, rfl⟩ := ih h
      exact ⟨next, List.mem_cons_of_mem _ hnext, rfl⟩

theorem Layer.projections_append (layers above : List Layer) :
    projections (layers ++ above) = projections layers ++ projections above := by
  simp [projections]

theorem topGap_concat (layers : List Layer) (layer : Layer) :
    topGap (layers ++ [layer]) = topGap [layer] := by
  have h : lastSelector? (layers ++ [layer]) = lastSelector? [layer] := by simp [lastSelector?]
  rw [topGap, topGap, h]

theorem addLayer_nested (c : Collected) (layer : Layer) :
    c.addLayer false layer
      = { c with
          steps := c.steps ++ [layer.step]
          projections := c.projections ++ Layer.projections [layer] } := by
  cases layer <;> simp [Collected.addLayer, Collected.addStep, Collected.pushProjection,
    Collected.pushGapIf, Layer.step, Layer.projections, Layer.selector?]

theorem addLayer_top (c : Collected) (layer : Layer) :
    c.addLayer true layer
      = { c with
          steps := c.steps ++ topSteps [layer]
          projections := c.projections ++ Layer.projections [layer] ++ topGap [layer] } := by
  cases layer <;> simp [Collected.addLayer, Collected.addStep, Collected.pushProjection,
    Collected.pushGapIf, Layer.step, Layer.projections, Layer.selector?, topSteps, topGap,
    lastSelector?]

/-- The range variable with the number `n` that is made up for the elements of `source`. -/
def generatedVariable (source : Expr) (n : Nat) : Parameter :=
  { name := "<generated>_" ++ toString n, type := TypeName.elementOrSelf source.type }

/-- The range variable for the elements of a source: the parameter of the innermost operator, or one
that is made up. -/
def mainVariable (source : Expr) (n : Nat) : List Layer → Parameter
  | [] => generatedVariable source n
  | layer :: _ => layer.parameter

/-- How many range variables are made up for the source of a chain. -/
def madeUp : List Layer → Nat
  | [] => 1
  | _ :: _ => 0

theorem collectSource_ok {e : Expr} {identifier : Option Parameter} {top : Bool} {c : Collected}
    {s s' : ParseState} (h : (collectSource e identifier top).run s = .ok (c, s')) :
    e.evaluate.isSource ∧ s'.nextKey = s.nextKey
      ∧ c = (Collected.addStep {} (.range
          (identifier.getD (generatedVariable e.evaluate s.generated))
          e.evaluate)).pushGapIf top := by
  unfold collectSource at h
  by_cases hsource : e.evaluate.isSource
  · simp only [hsource, if_true] at h
    cases identifier with
    | none =>
      obtain ⟨p, s₁, hp, h⟩ := ParseM.run_bind_ok.1 h
      obtain ⟨rfl, rfl⟩ := ParseM.run_pure_ok.1 h
      cases hp
      exact ⟨hsource, rfl, rfl⟩
    | some p =>
      obtain ⟨rfl, rfl⟩ := ParseM.run_pure_ok.1 h
      exact ⟨hsource, rfl, rfl⟩
  · simp only [hsource] at h
    obtain ⟨_, _, hthrow, -⟩ := ParseM.run_bind_ok.1 h
    exact (ParseM.run_throw_ok.1 hthrow).elim

/-- What is collected below a lambda operator whose parameter is `p`. -/
theorem collect_nested_ok {e : Expr} {p : Parameter} {c : Collected} {s s' : ParseState}
    (h : (collect e (some p) false).run s = .ok (c, s')) :
    ∃ source layers, Layered source e layers ∧ source.evaluate.isSource
      ∧ s'.nextKey = s.nextKey
      ∧ c = {
          steps := .range ((layers.head?.map Layer.parameter).getD p) source.evaluate
            :: nestedSteps layers
          projections := Layer.projections layers } := by
  induction e using Expr.subterms_induction generalizing p c with
  | node e ih =>
    cases collect_ok h with
    | source hnot hc =>
      obtain ⟨hsource, hkey, rfl⟩ := collectSource_ok hc
      exact ⟨e, [], .source hnot, hsource, hkey, rfl⟩
    | layer hreads hc =>
      obtain ⟨source, layers, hlayers, hsource, hkey, rfl⟩ := ih _ (by simp [Expr.subterms]) hc
      refine ⟨source, _, .layer hlayers hreads, hsource, hkey, ?_⟩
      rw [addLayer_nested, Layer.projections_append]
      cases layers <;> simp [nestedSteps]

/-- What is collected at the top of a chain whose elements may have a name already. -/
theorem collect_named_top_ok {e : Expr} {identifier : Option Parameter} {c : Collected}
    {s s' : ParseState} (h : (collect e identifier true).run s = .ok (c, s')) :
    ∃ source layers distinct modifiers, Spine source layers e distinct modifiers
      ∧ source.evaluate.isSource ∧ s'.nextKey = s.nextKey
      ∧ c = {
          steps := .range ((layers.head?.map Layer.parameter).getD
              (identifier.getD (generatedVariable source.evaluate s.generated))) source.evaluate
            :: topSteps layers
          projections := Layer.projections layers ++ topGap layers
          distinct, modifiers } := by
  induction e using Expr.subterms_induction generalizing c with
  | node e ih =>
    cases collect_ok h with
    | source hnot hc =>
      obtain ⟨hsource, hkey, rfl⟩ := collectSource_ok hc
      exact ⟨e, [], false, [], .lambdas (.source hnot), hsource, hkey, rfl⟩
    | layer hreads hc =>
      obtain ⟨source, layers, hlayers, hsource, hkey, rfl⟩ := collect_nested_ok hc
      refine ⟨source, _, false, [], .lambdas (.layer hlayers hreads), hsource, hkey, ?_⟩
      rw [addLayer_top, Layer.projections_append, topSteps_append _ (List.cons_ne_nil _ _),
        topGap_concat]
      cases layers <;> simp
    | distinct hc =>
      obtain ⟨source, layers, distinct, modifiers, hspine, hsource, hkey, rfl⟩ :=
        ih _ (by simp [Expr.subterms]) hc
      exact ⟨source, layers, true, modifiers, .distinct hspine, hsource, hkey, rfl⟩
    | result hresult hc =>
      obtain ⟨source, layers, distinct, modifiers, hspine, hsource, hkey, rfl⟩ :=
        ih _ (by simp [Expr.subterms]) hc
      exact ⟨source, layers, distinct, _, .result hspine hresult, hsource, hkey, rfl⟩

/-- What is collected at the top of a chain. -/
theorem collect_top_ok {e : Expr} {c : Collected} {s s' : ParseState}
    (h : (collect e none true).run s = .ok (c, s')) :
    ∃ source layers distinct modifiers, Spine source layers e distinct modifiers
      ∧ source.evaluate.isSource ∧ s'.nextKey = s.nextKey
      ∧ c = {
          steps := .range (mainVariable source.evaluate s.generated layers) source.evaluate
            :: topSteps layers
          projections := Layer.projections layers ++ topGap layers
          distinct, modifiers } := by
  obtain ⟨source, layers, distinct, modifiers, hspine, hsource, hkey, rfl⟩ := collect_named_top_ok h
  refine ⟨source, layers, distinct, modifiers, hspine, hsource, hkey, ?_⟩
  cases layers <;> rfl

/-! ## Collecting a chain with a spine -/

theorem collectSource_some {e : Expr} (h : e.evaluate.isSource) (p : Parameter) :
    collectSource e (some p) false = pure { steps := [.range p e.evaluate] } := by
  simp only [collectSource, h, if_true]
  rfl

theorem collect_nested_of_layered {source e : Expr} {layers : List Layer}
    (h : Layered source e layers) (hsource : source.evaluate.isSource) (p : Parameter) :
    collect e (some p) false = pure {
      steps := .range ((layers.head?.map Layer.parameter).getD p) source.evaluate
        :: nestedSteps layers
      projections := Layer.projections layers } := by
  induction h generalizing p with
  | source hnot => rw [collect_of_not_isOperatorCall hnot, collectSource_some hsource]; rfl
  | @layer e layers method arguments type layer _ hreads ih =>
    rw [collect_layer hreads, ih, map_pure, addLayer_nested, Layer.projections_append]
    cases layers <;> simp [nestedSteps]

/-- A chain whose last operator is a lambda operator is collected if its source is one. -/
theorem collect_top_of_layered {source e : Expr} {layers : List Layer}
    (h : Layered source e layers) (hlayers : layers ≠ []) (hsource : source.evaluate.isSource)
    (identifier : Option Parameter) :
    collect e identifier true = pure {
      steps := .range (mainVariable source.evaluate 0 layers) source.evaluate :: topSteps layers
      projections := Layer.projections layers ++ topGap layers } := by
  cases h with
  | source => exact absurd rfl hlayers
  | @layer e layers method arguments type layer hbelow hreads =>
    rw [collect_layer hreads, collect_nested_of_layered hbelow hsource, map_pure, addLayer_top,
      Layer.projections_append, topSteps_append _ (List.cons_ne_nil _ _),
        topGap_concat]
    cases layers <;> simp [mainVariable]

theorem layered_nil {source e : Expr} (h : Layered source e []) :
    e = source ∧ ¬source.IsOperatorCall := by
  generalize hl : ([] : List Layer) = layers at h
  cases h with
  | source hnot => exact ⟨rfl, hnot⟩
  | layer => simp at hl

theorem ofName?_of_isResultMethod {method : String} (h : isResultMethod method) :
    Operator.ofName? method = none := by
  by_contra hsome
  obtain ⟨op, hop⟩ := Option.ne_none_iff_exists'.1 hsome
  obtain rfl := Operator.ofName?_eq_some.1 hop
  revert h
  fun_cases Operator.name op <;> decide

theorem collect_distinct (source : Expr) (type : String) (identifier : Option Parameter) :
    collect (.staticCall "Distinct" [source] type) identifier true
      = (fun c => { c with distinct := true }) <$> collect source identifier true := by
  rw [map_eq_pure_bind, collect]
  rfl

theorem collect_result {method : String} (h : isResultMethod method) (source : Expr)
    (arguments : List Expr) (type : String) (identifier : Option Parameter) :
    collect (.staticCall method (source :: arguments) type) identifier true
      = (·.pushModifier { method, arguments }) <$> collect source identifier true := by
  rw [map_eq_pure_bind, collect]
  simp only [ofName?_of_isResultMethod h, h, if_true]

/-- A chain with a spine is collected if its source is one. All that is counted is the range
variable that is made up if no operator names the elements. -/
theorem run_collect_of_spine {source e : Expr} {layers : List Layer} {distinct : Bool}
    {modifiers : List Modifier} (h : Spine source layers e distinct modifiers)
    (hsource : source.evaluate.isSource) (s : ParseState) :
    (collect e none true).run s = .ok ({
      steps := .range (mainVariable source.evaluate s.generated layers) source.evaluate
        :: topSteps layers
      projections := Layer.projections layers ++ topGap layers
      distinct, modifiers }, { s with generated := s.generated + madeUp layers }) := by
  induction h with
  | @lambdas e h =>
    cases layers with
    | nil =>
      obtain ⟨rfl, hnot⟩ := layered_nil h
      rw [collect_of_not_isOperatorCall hnot]
      simp only [collectSource, hsource, if_true]
      rfl
    | cons layer layers =>
      rw [collect_top_of_layered h (by simp) hsource]
      rfl
  | distinct _ ih =>
    rw [collect_distinct]
    exact ParseM.run_map_ok.2 ⟨_, ih, rfl⟩
  | result _ hresult ih =>
    rw [collect_result hresult]
    exact ParseM.run_map_ok.2 ⟨_, ih, rfl⟩

theorem collect_top_of_spine {source e : Expr} {layers : List Layer} {distinct : Bool}
    {modifiers : List Modifier} (h : Spine source layers e distinct modifiers)
    (hsource : source.evaluate.isSource) (s : ParseState) :
    ∃ s', (collect e none true).run s = .ok ({
      steps := .range (mainVariable source.evaluate s.generated layers) source.evaluate
        :: topSteps layers
      projections := Layer.projections layers ++ topGap layers
      distinct, modifiers }, s') :=
  ⟨_, run_collect_of_spine h hsource s⟩

/-! ## One spine only -/

namespace Layer

theorem arguments_injective : Function.Injective arguments := by
  rintro (_ | _ | _ | _) (_ | _ | _ | _) h <;> cases h <;> rfl

namespace Reads

variable {method : String} {arguments : List Expr} {layer layer' : Layer}

theorem unique (h : layer.Reads method arguments) (h' : layer'.Reads method arguments) :
    layer' = layer := by
  obtain ⟨op, hop, hlayer⟩ := h.operatorArguments_eq (.staticCall method arguments "")
  obtain ⟨op', hop', hlayer'⟩ := h'.operatorArguments_eq (.staticCall method arguments "")
  obtain rfl : op = op' := Option.some.inj (hop.symm.trans hop')
  exact arguments_injective (Except.ok.inj (hlayer'.symm.trans hlayer))

theorem isOperatorCall (h : layer.Reads method arguments) (e : Expr) (type : String) :
    (Expr.staticCall method (e :: arguments) type).IsOperatorCall := by
  obtain ⟨op, hop, -⟩ := h.operatorArguments_eq e
  exact .operator hop

theorem not_distinct (h : layer.Reads method arguments) : method ≠ "Distinct" := by
  intro hmethod
  obtain ⟨op, hop, hlayer⟩ := h.operatorArguments_eq (.staticCall method arguments "")
  rw [hmethod] at hop
  obtain rfl : Operator.distinct = op := Option.some.inj hop
  -- All that `Distinct` reads is that there are no arguments.
  cases arguments with
  | nil => cases layer <;> cases hlayer
  | cons => cases hlayer

theorem not_isResultMethod (h : layer.Reads method arguments) : isResultMethod method = false := by
  by_contra hresult
  obtain ⟨op, hop, -⟩ := h.operatorArguments_eq (.staticCall method arguments "")
  rw [ofName?_of_isResultMethod (by simpa using hresult)] at hop
  cases hop

end Reads

end Layer

theorem Layered.unique {source source' e : Expr} {layers layers' : List Layer}
    (h : Layered source e layers) (h' : Layered source' e layers') :
    source' = source ∧ layers' = layers := by
  induction h generalizing layers' with
  | source hnot =>
    cases h' with
    | source => exact ⟨rfl, rfl⟩
    | layer _ hreads => exact absurd (hreads.isOperatorCall _ _) hnot
  | layer _ hreads ih =>
    cases h' with
    | source hnot => exact absurd (hreads.isOperatorCall _ _) hnot
    | layer h' hreads' =>
      obtain ⟨rfl, rfl⟩ := ih h'
      exact ⟨rfl, by rw [hreads.unique hreads']⟩

/-- A chain without endings has one spine. -/
theorem Layered.spine_unique {source source' e : Expr} {layers layers' : List Layer}
    {distinct : Bool} {modifiers : List Modifier} (h : Layered source e layers)
    (h' : Spine source' layers' e distinct modifiers) :
    source' = source ∧ layers' = layers ∧ distinct = false ∧ modifiers = [] := by
  cases h' with
  | lambdas h' =>
    obtain ⟨rfl, rfl⟩ := h.unique h'
    exact ⟨rfl, rfl, rfl, rfl⟩
  | distinct =>
    cases h with
    | source hnot => exact absurd (.operator rfl) hnot
    | layer _ hreads => exact absurd rfl hreads.not_distinct
  | result _ hresult =>
    cases h with
    | source hnot => exact absurd (.result hresult) hnot
    | layer _ hreads => simp [hreads.not_isResultMethod] at hresult

/-- A chain has one spine. -/
theorem Spine.unique {source source' e : Expr} {layers layers' : List Layer}
    {distinct distinct' : Bool} {modifiers modifiers' : List Modifier}
    (h : Spine source layers e distinct modifiers)
    (h' : Spine source' layers' e distinct' modifiers') :
    source' = source ∧ layers' = layers ∧ distinct' = distinct ∧ modifiers' = modifiers := by
  induction h generalizing distinct' modifiers' with
  | lambdas h => exact h.spine_unique h'
  | distinct h ih =>
    cases h' with
    | lambdas h' => cases (h'.spine_unique (.distinct h)).2.2.1
    | distinct h' =>
      obtain ⟨rfl, rfl, -, rfl⟩ := ih h'
      exact ⟨rfl, rfl, rfl, rfl⟩
    | result _ hresult => cases hresult
  | result h hresult ih =>
    cases h' with
    | lambdas h' =>
      have hnone := (h'.spine_unique (.result h hresult)).2.2.2
      simp at hnone
    | distinct => cases hresult
    | result h' =>
      obtain ⟨rfl, rfl, rfl, rfl⟩ := ih h'
      exact ⟨rfl, rfl, rfl, rfl⟩

end QueryChain
