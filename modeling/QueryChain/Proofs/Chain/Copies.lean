import QueryChain.Proofs.Chain.Acceptance
import QueryChain.Proofs.Chain.Replaced

/-!
# How often embedded chains are parsed

Each chain that is embedded in an operator is parsed into one query, with one exception: the result
selector of a last `SelectMany` belongs to two clauses, the range and the select clause. The chains
in it are parsed for both, and each gets two queries (`nested_once_iff`).

* `Draft.Nests` says which chains the queries were made of that a draft has got, up to their order;
* `Step.scanned` lists what is looked through for the clause of a step, its projection included;
* `Layer.scanned_topSteps` compares this with what is looked through in the operators.
-/

namespace QueryChain

open ParseM

variable {parseSub : SubParser}

/-! ## Queries of a draft -/

theorem SubParser.Keeps.mapM_expressions (hkeeps : parseSub.Keeps) {cs : List Expr}
    {queries : List Query} {s s' : ParseState} (h : (cs.mapM parseSub).run s = .ok (queries, s')) :
    queries.map (·.expression) = cs := by
  have hchains := (SubParser.mapM_ok hkeeps h).1.imp fun _ _ h => h.symm
  rw [← List.forall₂_map_right_iff, List.forall₂_eq_eq_eq] at hchains
  exact hchains.symm

namespace Draft

/-- The queries nested in the query in the making. -/
def children (d : Draft) : List Query :=
  d.embedded ++ d.sources

/-- The queries that `d'` has beside those of `d` were made of the chains `chains`. -/
def Nests (d : Draft) (chains : List Expr) (d' : Draft) : Prop :=
  (d'.children.map (·.expression)).Perm (d.children.map (·.expression) ++ chains)

namespace Nests

variable {d d₁ d' : Draft} {chains chains' : List Expr}

theorem refl (d : Draft) : d.Nests [] d := by
  rw [Nests, List.append_nil]

theorem trans (h : d.Nests chains d₁) (h' : d₁.Nests chains' d') :
    d.Nests (chains ++ chains') d' := by
  rw [Nests, ← List.append_assoc]
  exact List.Perm.trans h' (h.append_right chains')

theorem embedded (d : Draft) (queries : List Query) :
    d.Nests (queries.map (·.expression)) (d.addEmbedded queries) := by
  simp only [Nests, children, addEmbedded, List.map_append, List.append_assoc]
  exact List.perm_append_comm.append_left _

theorem source (d : Draft) (q : Query) :
    d.Nests [q.expression] { d with sources := d.sources ++ [q] } := by
  simp [Nests, children]

end Nests

theorem replace_nests (hkeeps : parseSub.Keeps) {d d' : Draft} {e e' : Expr} {s s' : ParseState}
    (h : (d.replace parseSub e).run s = .ok ((e', d'), s')) : d.Nests e.outerChains d' := by
  obtain ⟨⟨_, queries⟩, _, hnest, hpure⟩ := run_bind_ok.1 h
  cases (run_pure_ok.1 hpure).1
  rw [nestChains_eq] at hnest
  obtain ⟨_, hqueries, heq⟩ := run_map_ok.1 hnest
  cases heq
  rw [← hkeeps.mapM_expressions hqueries]
  exact .embedded d queries

theorem replaceProjection_nests (hkeeps : parseSub.Keeps) {d d' : Draft}
    {projection projection' : Option Expr} {s s' : ParseState}
    (h : (d.replaceProjection parseSub projection).run s = .ok ((projection', d'), s')) :
    d.Nests (projection.toList.flatMap Expr.outerChains) d' := by
  cases projection with
  | none =>
    cases (run_pure_ok.1 h).1
    exact .refl d
  | some e =>
    obtain ⟨⟨_, d₁⟩, _, hreplace, hpure⟩ := run_bind_ok.1 h
    cases (run_pure_ok.1 hpure).1
    simpa using replace_nests hkeeps hreplace

end Draft

/-! ## Queries of a step -/

namespace Step

/-- What is looked through for embedded chains when a step gets its clause, if the projections
`projections` are left to it. -/
def scanned : Step → List (Option Expr) → List Expr
  | .range _ source, projections => projections.head?.join.toList ++ [source]
  | .filter predicate, _ => [predicate]
  | .ordering key _ _, _ => [key]
  | .binding selector, _ =>
    match selector.unquoted with
    | .lambda _ body => (Layer.lastArgument? body).toList
    | _ => []

/-- What is looked through for embedded chains when steps get their clauses in turn. -/
def scannedAll : List Step → List (Option Expr) → List Expr
  | [], _ => []
  | step :: steps, projections =>
    step.scanned projections ++ scannedAll steps (step.leaves projections)

theorem scanned_binding {selector value : Expr} {x : Parameter}
    (h : Draft.boundVariable? selector = some (x, value)) (projections : List (Option Expr)) :
    (Step.binding selector).scanned projections = [value] := by
  unfold Draft.boundVariable? at h
  split at h
  · rename_i parameters type arguments members hselector
    split at h
    · split at h
      · rename_i hlast
        cases h
        simp [scanned, hselector, Layer.lastArgument?, hlast]
      · cases h
    · cases h
  · cases h

end Step

namespace Draft

/-- A step adds one query for each chain embedded in what is looked through for it. -/
theorem addStep_nests (hkeeps : parseSub.Keeps) {d d' : Draft} {step : Step} {s s' : ParseState}
    (h : (d.addStep parseSub step).run s = .ok (d', s')) :
    d.Nests ((step.scanned d.projections).flatMap Expr.outerChains) d' := by
  cases addStep_stepped h with
  | filter hreplace | ordering hreplace | refinement hreplace =>
    have hnests := replace_nests hkeeps hreplace
    rw [Step.scanned, List.flatMap_singleton]
    exact hnests
  | @nested x source chain _ _ _ q _ _ d₁ hrest hprojection hchain hq =>
    have hsource := Nests.source d₁ q
    rw [hkeeps hq, ← outerChains_of_nestedChain? hchain] at hsource
    rw [Step.scanned, hrest, List.flatMap_append, List.flatMap_singleton]
    exact (replaceProjection_nests hkeeps hprojection).trans hsource
  | additional hrest hprojection _ hsource =>
    have hnests := (replaceProjection_nests hkeeps hprojection).trans (replace_nests hkeeps hsource)
    rw [Step.scanned, hrest, List.flatMap_append, List.flatMap_singleton]
    exact hnests
  | binding hrest hbound hvalue =>
    have hnests := replace_nests hkeeps hvalue
    rw [Step.scanned_binding hbound, List.flatMap_singleton]
    exact hnests

/-- So do steps in turn, where each finds the projections that the ones before it left. -/
theorem foldlM_nests (hkeeps : parseSub.Keeps) {steps : List Step} {d d' : Draft}
    {s s' : ParseState} (h : (steps.foldlM (addStep parseSub) d).run s = .ok (d', s')) :
    d.Nests ((Step.scannedAll steps d.projections).flatMap Expr.outerChains) d' := by
  induction steps generalizing d s with
  | nil =>
    cases (run_pure_ok.1 h).1
    exact .refl _
  | cons step steps ih =>
    rw [List.foldlM_cons] at h
    obtain ⟨d₁, s₁, hstep, hsteps⟩ := run_bind_ok.1 h
    have hrest := ih hsteps
    rw [(addStep_leaves hstep).1] at hrest
    rw [Step.scannedAll, List.flatMap_append]
    exact (addStep_nests hkeeps hstep).trans hrest

end Draft

theorem assemble_nests (hkeeps : parseSub.Keeps) {key : Nat} {parent : Option Nat} {e source : Expr}
    {c : Collected} {identifier : Parameter} {steps : List Step} {q : Query} {s s' : ParseState}
    (hcollected : c.steps = .range identifier source :: steps)
    (h : (assemble parseSub key parent e c).run s = .ok (q, s')) :
    (q.children.map (·.expression)).Perm
      ((Step.scannedAll steps c.projections ++ c.projections.getLast?.join.toList).flatMap
        Expr.outerChains) := by
  obtain ⟨_, _, _, projection, d, _, projection', d', hfirst, hlast, hfold, hreplace, rfl⟩ :=
    assemble_eq_ok.1 h
  cases hcollected.symm.trans hfirst
  rw [hlast, List.flatMap_append]
  exact (Draft.foldlM_nests hkeeps hfold).trans (Draft.replaceProjection_nests hkeeps hreplace)

/-! ## Queries of a chain -/

namespace Layer

/-- The result selector of a last `SelectMany`, which belongs to the range and to the select
clause. -/
def sharedSelector? (layers : List Layer) : Option Expr :=
  match layers.getLast? with
  | some (.selectMany _ _ q x body) => some (.lambda [q, x] body)
  | _ => none

theorem scanned_step (layer : Layer) (layers : List Layer) (rest : List (Option Expr)) :
    (layer.step.scanned (projections (layer :: layers) ++ rest)).Perm layer.scanned := by
  cases layer with
  | selectMany p found q x body => exact .swap _ _ _
  | _ => exact .refl _

/-- What is looked through for the clauses of operators, the select clause included, are the
expressions of the operators, and once more a selector that two clauses share. -/
theorem scanned_topSteps (layers : List Layer) (rest : List (Option Expr)) :
    (Step.scannedAll (topSteps layers) (projections layers ++ rest)
        ++ (lastSelector? layers).toList).Perm
      (scannedAll layers ++ (sharedSelector? layers).toList) := by
  fun_induction topSteps layers with
  | case1 => exact .nil
  | case2 p body => exact .refl _
  | case3 layer layers hnot ih =>
    rw [Step.scannedAll, leaves_step, scannedAll.eq_3 _ _ hnot, List.append_assoc,
      List.append_assoc]
    refine (scanned_step layer layers rest).append ?_
    cases layers with
    | nil =>
      cases layer with
      | select p body => exact absurd rfl (hnot p body rfl)
      | _ => exact .refl _
    | cons next layers => exact ih

/-- The chains embedded in the operators of a chain, one for each place where one stands. -/
def embedded (layers : List Layer) : List Expr :=
  (scannedAll layers).flatMap Expr.outerChains

/-- Those among the embedded chains that two clauses share. -/
def shared (layers : List Layer) : List Expr :=
  (sharedSelector? layers).toList.flatMap Expr.outerChains

end Layer

/-- The queries nested directly in a query were made of the embedded chains, one for each, and one
more for each that two clauses share. -/
theorem Query.Parsed.children_perm {q : Query} (h : q.Parsed) :
    ∃ source layers, Spine source layers q.expression q.select.distinct q.select.modifiers
      ∧ (q.children.map (·.expression)).Perm (Layer.embedded layers ++ Layer.shared layers) := by
  obtain ⟨depth, parent, s, s', h⟩ := h
  obtain ⟨depth, c, s₁, rfl, hc, hassemble⟩ := parseChain_eq_ok.1 h
  obtain ⟨source, layers, distinct, modifiers, hspine, -, -, rfl⟩ := collect_top_ok hc
  have hkeeps : SubParser.Keeps (parseChain depth (some s.nextKey)) :=
    fun h => (parseChain_ok h).2.1
  obtain ⟨-, -, hrendered, -⟩ := assemble_ok hkeeps hspine hassemble
  refine ⟨source, layers, hrendered.spine, ?_⟩
  have hchildren := assemble_nests hkeeps rfl hassemble
  rw [getLast?_projections] at hchildren
  rw [Layer.embedded, Layer.shared, ← List.flatMap_append]
  exact hchildren.trans ((Layer.scanned_topSteps layers (topGap layers)).flatMap_right _)

theorem Layer.part_of_embedded {layers : List Layer} {c : Expr}
    (h : c ∈ embedded layers ++ shared layers) :
    ∃ layer ∈ layers, ∃ l ∈ layer.lambdas, c ∈ l.parts := by
  rcases List.mem_append.1 h with h | h
  · obtain ⟨d, hd, hc⟩ := List.mem_flatMap.1 h
    obtain ⟨layer, hlayer, l, hl, hd⟩ := scannedAll_parts hd
    exact ⟨layer, hlayer, l, hl, Expr.parts_trans hd (Expr.mem_parts_of_mem_outerChains hc)⟩
  · obtain ⟨l, hl, hc⟩ := List.mem_flatMap.1 h
    rw [Option.mem_toList, sharedSelector?] at hl
    split at hl
    · rename_i p found q x body hlast
      cases hl
      exact ⟨_, List.mem_of_getLast? hlast, _, by simp [lambdas],
        Expr.mem_parts_of_mem_outerChains hc⟩
    · cases hl

/-- The chains of nested queries stand in the chain of the query around them. -/
theorem Query.Parsed.child_part {q c : Query} (h : q.Parsed) (hc : c ∈ q.children) :
    c.expression ∈ q.expression.parts := by
  obtain ⟨source, layers, hspine, hperm⟩ := h.children_perm
  have hmem := hperm.mem_iff.1 (List.mem_map_of_mem hc)
  obtain ⟨layer, hlayer, l, hl, hpart⟩ := Layer.part_of_embedded hmem
  exact (hspine.part_of_lambda hlayer hl hpart).1

theorem Query.Parsed.part_within {q m : Query} (h : q.Parsed) (hm : q.Within m) :
    m.expression ∈ q.expression.parts := by
  induction hm with
  | self => exact Expr.mem_parts_self _
  | child hm hc ih => exact Expr.parts_trans ih ((h.within hm).child_part hc)

/-- Each place where a chain is embedded makes one query, but those in the result selector of a last
`SelectMany` make two. So there is one query for each exactly if no chain stands in that
selector. -/
theorem nested_once_iff {e : Expr} {q m : Query} (h : parse e = .ok q) (hm : q.Within m) :
    ∃ source layers, Spine source layers m.expression m.select.distinct m.select.modifiers
      ∧ (m.children.map (·.expression)).Perm (Layer.embedded layers ++ Layer.shared layers)
      ∧ (m.children.length = (Layer.embedded layers).length ↔ Layer.shared layers = []) := by
  obtain ⟨source, layers, hspine, hperm⟩ := ((Query.Parsed.of_parse h).within hm).children_perm
  refine ⟨source, layers, hspine, hperm, ?_⟩
  have hlength := hperm.length_eq
  rw [List.length_map, List.length_append] at hlength
  rw [hlength, ← List.length_eq_zero_iff]
  omega

/-- `from s in Students from d in s.Details select from o in Orders where o.StudentID == s.ID`,
spelled as a chain of operators. -/
def ordersForDetails : Expr :=
  let s : Parameter := { name := "s", type := "Student" }
  let d : Parameter := { name := "d", type := "StudentDetail" }
  let o : Parameter := { name := "o", type := "Order" }
  let read (p : Parameter) (name type : String) :=
    Expr.member (.parameter p) { declaringType := p.type, name, type }
  let orders := Chain.filter (.table "Orders" "Order")
    (.lambda [o] (.operation .equal (read o "StudentID" "Int32") (read s "ID" "Int32")))
  Chain.selectMany (.table "Students" "Student")
    (.lambda [s] (read s "Details" "IEnumerable<StudentDetail>")) (.lambda [s, d] orders)

/-- One chain is embedded, and two queries are nested. -/
theorem nested_once_iff_ordersForDetails :
    ∃ q, parse ordersForDetails = .ok q ∧ q.Within q ∧ q.children.length = 2
      ∧ ∃ source layers, Spine source layers q.expression q.select.distinct q.select.modifiers
        ∧ (Layer.embedded layers).length = 1
        ∧ (q.children.map (·.expression)).Perm (Layer.embedded layers ++ Layer.shared layers)
        ∧ (q.children.length = (Layer.embedded layers).length ↔ Layer.shared layers = []) := by
  obtain ⟨q, hparse, hlength⟩ : ∃ q, parse ordersForDetails = .ok q ∧ q.children.length = 2 :=
    ⟨_, rfl, rfl⟩
  obtain ⟨source, layers, hspine, hperm, hiff⟩ := nested_once_iff hparse .self
  refine ⟨q, hparse, .self, hlength, source, layers, hspine, ?_, hperm, hiff⟩
  have hlayered : Layered (.table "Students" "Student") ordersForDetails _ :=
    .layer (.source nofun) (.selectMany rfl rfl)
  rw [(rendered_of_parse hparse).1] at hspine
  obtain ⟨-, rfl, -⟩ := hlayered.spine_unique hspine
  simp [Layer.embedded, Layer.scannedAll, Layer.scanned, Expr.outerChains, Expr.isChain,
    Expr.subterms, Expr.outerChainsAll, Chain.filter, Operator.ofName?]

end QueryChain
