import QueryChain.Proofs.Chain.Enclosing
import QueryChain.Proofs.Chain.Replaced
import QueryChain.Proofs.Chain.Scanned

/-!
# Links between nested queries

While a chain is parsed, the queries made of the chains embedded in it are set aside, and references
to them are put into its expressions. `Draft.Holds` is the invariant that keeps the two in step: the
references in the clauses, and in what is replaced already but belongs to no clause yet, are those
to the queries set aside, one for each. Every place that replaces chains adds to both, so no query
is lost and none is referred to from elsewhere.

In a parsed tree each query is then linked to those nested in it both ways (`Query.Linked`): its
references lead to its children, and their parents lead back to it and on to the root.
-/

namespace QueryChain

namespace Expr

theorem length_fillAll (es : List Expr) (refs : List QueryRef) :
    (fillAll es refs).length = es.length := by
  induction es generalizing refs with
  | nil => simp [fillAll]
  | cons e es ih => simp [fillAll, ih]

theorem flatMap_refs_fillAll {es : List Expr} {refs : List QueryRef}
    (each : ∀ e ∈ es, ∀ refs, refs.length = e.outerChains.length → (e.fill refs).refs = refs)
    (h : refs.length = (outerChainsAll es).length) :
    (fillAll es refs).flatMap Expr.refs = refs := by
  induction es generalizing refs with
  | nil =>
    obtain rfl : refs = [] := by simpa [outerChainsAll] using h
    simp [fillAll]
  | cons e es ih =>
    simp only [outerChainsAll, List.length_append] at h
    rw [List.forall_mem_cons] at each
    rw [fillAll, List.flatMap_cons, each.1 _ (by simp; omega), ih each.2 (by simp; omega),
      List.take_append_drop]

/-- The references in a filled expression are those that were filled in. -/
theorem refs_fill {e : Expr} {refs : List QueryRef} (h : e.refs = [])
    (hlength : refs.length = e.outerChains.length) : (e.fill refs).refs = refs := by
  induction e using subterms_induction generalizing refs with
  | node e ih =>
    by_cases hchain : e.isChain
    · rw [outerChains_of_isChain hchain] at hlength
      obtain ⟨ref, rfl⟩ := List.length_eq_one_iff.1 hlength
      rw [fill_of_isChain hchain, refs_eq]
      rfl
    · rw [outerChains_of_not_isChain hchain] at hlength
      rw [refs_eq, List.append_eq_nil_iff, List.flatMap_eq_nil_iff] at h
      rw [fill_of_not_isChain hchain, refs_withSubterms (length_fillAll _ _), h.1, List.nil_append]
      exact flatMap_refs_fillAll (fun c hc refs => ih c hc (h.2 c hc)) hlength

end Expr

variable {parseSub : SubParser}

/-- Where there were no references, those to the queries found are the only ones, in the order in
which they were found. -/
theorem nestChains_refs (hkeeps : parseSub.Keeps) {e e' : Expr} {queries : List Query}
    {s s' : ParseState} (hrefs : e.refs = [])
    (h : (nestChains parseSub e).run s = .ok ((e', queries), s')) :
    e'.refs = queries.map Query.ref ∧ ∀ q ∈ queries, q.expression.refs = [] := by
  rw [nestChains_eq] at h
  obtain ⟨qs, hqs, heq⟩ := ParseM.run_map_ok.1 h
  cases heq
  refine ⟨Expr.refs_fill hrefs (by simp [run_mapM_length hqs]), fun q hq => ?_⟩
  obtain ⟨c, hc, rfl⟩ := forall₂_mem_right (SubParser.mapM_ok hkeeps hqs).1 hq
  exact Expr.refs_of_mem_parts hrefs (Expr.mem_parts_of_mem_outerChains hc)

namespace Draft

/-- The references in the clauses of a draft, and in the replaced expressions `pending` that no
clause has got yet, are those to the embedded queries. -/
structure Holds (d : Draft) (pending : List Expr) : Prop where
  held : ((d.body.flatMap Clause.expressions ++ pending).flatMap Expr.refs).Perm
    (d.embedded.map Query.ref)
  projections : ∀ projection ∈ d.projections, ∀ e ∈ projection, e.refs = []
  chains : ∀ q ∈ d.embedded ++ d.sources, q.expression.refs = []
  openOrdering : ∀ index ∈ d.openOrdering, ∃ keys, d.body[index]? = some (.ordering keys)

namespace Holds

variable {d : Draft} {pending : List Expr}

theorem replace (h : d.Holds pending) (hkeeps : parseSub.Keeps) {e e' : Expr} {d' : Draft}
    {s s' : ParseState} (hrefs : e.refs = [])
    (hrun : (d.replace parseSub e).run s = .ok ((e', d'), s')) : d'.Holds (pending ++ [e']) := by
  obtain ⟨⟨e', queries⟩, _, hnest, hpure⟩ := ParseM.run_bind_ok.1 hrun
  cases (ParseM.run_pure_ok.1 hpure).1
  obtain ⟨heq, hchains⟩ := nestChains_refs hkeeps hrefs hnest
  refine ⟨?_, h.projections, ?_, h.openOrdering⟩
  · simpa [addEmbedded, heq, List.append_assoc] using h.held.append_right (queries.map Query.ref)
  · intro q hq
    simp only [addEmbedded, List.mem_append] at hq
    rcases hq with (hq | hq) | hq
    · exact h.chains q (by simp [hq])
    · exact hchains q hq
    · exact h.chains q (by simp [hq])

theorem replaceProjection (h : d.Holds pending) (hkeeps : parseSub.Keeps)
    {projection projection' : Option Expr} {d' : Draft} {s s' : ParseState}
    (hrefs : ∀ e ∈ projection, e.refs = [])
    (hrun : (d.replaceProjection parseSub projection).run s = .ok ((projection', d'), s')) :
    d'.Holds (pending ++ projection'.toList) := by
  cases projection with
  | none =>
    cases (ParseM.run_pure_ok.1 hrun).1
    simpa using h
  | some e =>
    obtain ⟨⟨e', d'⟩, _, hreplace, hpure⟩ := ParseM.run_bind_ok.1 hrun
    cases (ParseM.run_pure_ok.1 hpure).1
    exact h.replace hkeeps (hrefs e rfl) hreplace

theorem takeProjection (h : d.Holds pending) {projection : Option Expr}
    {rest : List (Option Expr)} (hrest : d.projections = projection :: rest) :
    Holds { d with projections := rest } pending ∧ ∀ e ∈ projection, e.refs = [] := by
  have hprojections := h.projections
  rw [hrest, List.forall_mem_cons] at hprojections
  exact ⟨⟨h.held, hprojections.2, h.chains, h.openOrdering⟩, hprojections.1⟩

theorem addClause (h : d.Holds pending) {clause : Clause}
    (hpending : pending.Perm clause.expressions) : (d.addClause clause).Holds [] where
  held := by
    refine List.Perm.trans (List.Perm.flatMap_right _ ?_) h.held
    simpa [Draft.addClause] using (hpending.append_left _).symm
  projections := h.projections
  chains := h.chains
  openOrdering := by
    intro index hindex
    obtain ⟨keys, hkeys⟩ := h.openOrdering index hindex
    have hlt := (List.getElem?_eq_some_iff.1 hkeys).1
    exact ⟨keys, by rw [Draft.addClause, List.getElem?_append_left hlt, hkeys]⟩

theorem addSource (h : d.Holds pending) {q : Query} (hq : q.expression.refs = []) :
    Holds { d with sources := d.sources ++ [q] } pending where
  held := h.held
  projections := h.projections
  chains := by
    rw [← List.append_assoc, List.forall_mem_append]
    exact ⟨h.chains, by simpa using hq⟩
  openOrdering := h.openOrdering

end Holds

section

variable {body : List Clause} {index : Nat} {keys : List SortKey}

theorem getElem?_refine (h : body[index]? = some (.ordering keys)) (added : SortKey) :
    (refine body index added)[index]? = some (.ordering (keys ++ [added])) := by
  simp [refine, h]

theorem refine_expressions (h : body[index]? = some (.ordering keys)) (added : SortKey) :
    ((refine body index added).flatMap Clause.expressions).Perm
      (body.flatMap Clause.expressions ++ [added.key]) := by
  obtain ⟨hlt, hget⟩ := List.getElem?_eq_some_iff.1 h
  have hsplit : body = body.take index ++ .ordering keys :: body.drop (index + 1) := by
    rw [← hget, List.getElem_cons_drop, List.take_append_drop]
  rw [refine, List.modify_eq_take_cons_drop hlt, hget]
  conv => rhs; rw [hsplit]
  simp only [List.flatMap_append, List.flatMap_cons, Clause.expressions, List.map_append,
    List.map_cons, List.map_nil, List.append_assoc]
  have hswap : ([added.key] ++ (body.drop (index + 1)).flatMap Clause.expressions).Perm
      ((body.drop (index + 1)).flatMap Clause.expressions ++ [added.key]) := List.perm_append_comm
  exact (hswap.append_left _).append_left _

end

theorem addStep_holds (hkeeps : parseSub.Keeps) {d d' : Draft} {step : Step} {s s' : ParseState}
    (h : d.Holds []) (hrefs : step.expression.refs = [])
    (hrun : (d.addStep parseSub step).run s = .ok (d', s')) : d'.Holds [] := by
  cases addStep_stepped hrun with
  | filter hreplace => exact (h.replace hkeeps hrefs hreplace).addClause (.refl _)
  | @ordering _ e' direction _ _ hreplace =>
    have hclause : [e'].Perm (Clause.expressions (.ordering [{ key := e', direction }])) := .refl _
    have hadded := (h.replace hkeeps hrefs hreplace).addClause hclause
    refine ⟨hadded.held, hadded.projections, hadded.chains, ?_⟩
    rintro index ⟨⟩
    exact ⟨_, List.getElem?_concat_length⟩
  | @refinement _ _ _ index _ d₁ hreplace hopen =>
    have h₁ := h.replace hkeeps hrefs hreplace
    obtain ⟨keys, hkeys⟩ := h₁.openOrdering index hopen
    refine ⟨?_, h₁.projections, h₁.chains, ?_⟩
    · rw [List.append_nil]
      exact ((refine_expressions hkeys _).flatMap_right _).trans h₁.held
    · intro index' hindex'
      obtain rfl : index' = index := by simpa [hopen] using hindex'.symm
      exact ⟨_, getElem?_refine hkeys _⟩
  | @nested x source chain _ projection' _ q _ _ _ hrest hprojection hchain hq =>
    obtain ⟨h₁, hprojectionrefs⟩ := h.takeProjection hrest
    have h₂ := h₁.replaceProjection hkeeps hprojectionrefs hprojection
    have hqrefs : q.expression.refs = [] := by
      rw [hkeeps hq]
      refine Expr.refs_of_mem_parts hrefs (Expr.mem_parts_of_mem_outerChains ?_)
      show chain ∈ source.outerChains
      simp [outerChains_of_nestedChain? hchain]
    have hclause : projection'.toList.Perm
        (Clause.expressions (.range { identifier := x, kind := .nested q.ref projection' })) :=
      .refl _
    exact (h₂.addSource hqrefs).addClause hclause
  | additional hrest hprojection _ hsource =>
    obtain ⟨h₁, hprojectionrefs⟩ := h.takeProjection hrest
    have h₂ := h₁.replaceProjection hkeeps hprojectionrefs hprojection
    exact (h₂.replace hkeeps hrefs hsource).addClause List.perm_append_comm
  | binding hrest hbound hvalue =>
    have hvaluerefs := Expr.refs_of_mem_parts hrefs (boundVariable?_mem_parts hbound)
    exact ((h.takeProjection hrest).1.replace hkeeps hvaluerefs hvalue).addClause (.refl _)

theorem foldlM_addStep_holds (hkeeps : parseSub.Keeps) {steps : List Step} {d d' : Draft}
    {s s' : ParseState} (h : d.Holds []) (hrefs : ∀ step ∈ steps, step.expression.refs = [])
    (hrun : (steps.foldlM (addStep parseSub) d).run s = .ok (d', s')) : d'.Holds [] := by
  induction steps generalizing d s with
  | nil =>
    obtain ⟨rfl, -⟩ := ParseM.run_pure_ok.1 hrun
    exact h
  | cons step steps ih =>
    rw [List.forall_mem_cons] at hrefs
    rw [List.foldlM_cons] at hrun
    obtain ⟨d₁, s₁, hstep, hsteps⟩ := ParseM.run_bind_ok.1 hrun
    exact ih (addStep_holds hkeeps h hrefs.1 hstep) hrefs.2 hsteps

end Draft

/-- Each reference in an expression of a query is to an embedded query, each embedded query is
referred to once, and the chains that the children were made of hold no references themselves. -/
structure Query.Holds (q : Query) : Prop where
  held : (q.expressions.flatMap Expr.refs).Perm (q.embedded.map Query.ref)
  chains : ∀ c ∈ q.children, c.expression.refs = []

/-- What is assembled of expressions without references. -/
theorem assemble_holds (hkeeps : parseSub.Keeps) {key : Nat} {parent : Option Nat} {e source : Expr}
    {c : Collected} {identifier : Parameter} {steps : List Step} {q : Query} {s s' : ParseState}
    (hcollected : c.steps = .range identifier source :: steps) (hsource : source.refs = [])
    (hsteps : ∀ step ∈ steps, step.expression.refs = [])
    (hprojections : ∀ projection ∈ c.projections, ∀ e ∈ projection, e.refs = [])
    (h : (assemble parseSub key parent e c).run s = .ok (q, s')) : q.Holds := by
  obtain ⟨_, _, _, projection, d, _, projection', d', hfirst, hlast, hfold, hreplace, rfl⟩ :=
    assemble_eq_ok.1 h
  cases hcollected.symm.trans hfirst
  have hdraft := Draft.foldlM_addStep_holds hkeeps
    ⟨by simp, hprojections, by simp, by simp⟩ hsteps hfold
  have hselector := hdraft.replaceProjection hkeeps
    (hprojections _ (List.mem_of_getLast? hlast)) hreplace
  refine ⟨?_, hselector.chains⟩
  simpa [Query.expressions, RangeKind.expressions, hsource] using hselector.held

theorem Expr.refs_of_isSource {e : Expr} (h : e.isSource) : e.refs = [] := by
  rw [refs_eq_nil]
  intro c hc
  rcases mem_parts_of_isSource h hc with ⟨_, _, rfl⟩ | ⟨_, rfl⟩ | ⟨_, _, rfl⟩ <;> rfl

namespace Layer

theorem step_expression_mem (layer : Layer) : layer.step.expression ∈ layer.lambdas := by
  cases layer <;> simp [step, Step.expression, lambdas]

theorem mem_projections {layers : List Layer} {projection : Option Expr} {e : Expr}
    (h : projection ∈ projections layers ++ topGap layers) (he : e ∈ projection) :
    ∃ layer ∈ layers, e ∈ layer.lambdas := by
  rcases List.mem_append.1 h with h | h
  · obtain ⟨e', he', rfl⟩ := List.mem_map.1 h
    obtain ⟨layer, hlayer, hselector⟩ := List.mem_filterMap.1 he'
    obtain rfl : e' = e := Option.some.inj he
    refine ⟨layer, hlayer, ?_⟩
    cases layer <;> simp_all [selector?, lambdas]
  · unfold topGap at h
    split at h
    · simp at h
    · obtain rfl : projection = none := by simpa using h
      cases he

end Layer

theorem Query.Parsed.holds {q : Query} (h : q.Parsed) (hrefs : q.expression.refs = []) :
    q.Holds := by
  obtain ⟨depth, parent, s, s', h⟩ := h
  obtain ⟨_, c, _, -, hc, h⟩ := parseChain_eq_ok.1 h
  obtain ⟨source, layers, distinct, modifiers, hspine, hsource, -, rfl⟩ := collect_top_ok hc
  have hlambda : ∀ layer ∈ layers, ∀ l ∈ layer.lambdas, l.refs = [] := by
    intro layer hlayer l hl
    obtain ⟨b, hb, hl⟩ := hspine.subterm_of_lambda hlayer hl
    exact Expr.refs_of_mem_parts hrefs (Expr.mem_parts_of_subterm hb hl)
  refine assemble_holds (fun h => (parseChain_ok h).2.1) rfl (Expr.refs_of_isSource hsource)
    (fun step hstep => ?_) (fun projection hprojection e he => ?_) h
  · obtain ⟨layer, hlayer, rfl⟩ := mem_topSteps hstep
    exact hlambda layer hlayer _ layer.step_expression_mem
  · obtain ⟨layer, hlayer, hl⟩ := Layer.mem_projections hprojection he
    exact hlambda layer hlayer e hl

/-- The queries of a tree are made of chains without references if the whole chain has none. -/
theorem Query.Parsed.refs_within {q m : Query} (h : q.Parsed) (hrefs : q.expression.refs = [])
    (hm : Query.Within q m) : m.expression.refs = [] := by
  induction hm with
  | self => exact hrefs
  | child hm hc ih => exact ((h.within hm).holds ih).chains _ hc

/-- The sub-query that a range clause ranges over is among the sources. -/
theorem ClausesOf.nested_mem {embedded sources : List Query} {layers : List Layer}
    {clauses : List Clause} (h : ClausesOf embedded sources layers clauses) {x : Parameter}
    {ref : QueryRef} {projection : Option Expr}
    (hclause : .range { identifier := x, kind := .nested ref projection } ∈ clauses) :
    ∃ c ∈ sources, c.ref = ref := by
  induction h with
  | nil | selection => simp at hclause
  | refinement _ ih => exact ih hclause
  | binding _ _ _ _ ih | filter _ _ ih | ordering _ _ ih =>
    exact ih (by simpa using hclause)
  | range _ hkind _ ih =>
    rcases List.mem_cons.1 hclause with heq | hclause
    · cases heq
      cases hkind with
      | nested _ hmade =>
        obtain ⟨c, hc, -, href⟩ := hmade
        exact ⟨c, hc, href⟩
    · exact ih hclause

/-- How the query `q` of the tree under `root` is linked to the queries nested in it. -/
structure Query.Linked (root q : Query) : Prop where
  /-- The references in the expressions of `q` are those to its embedded queries, one for each. -/
  held : (q.expressions.flatMap Expr.refs).Perm (q.embedded.map Query.ref)
  /-- A reference tells the queries nested in `q` apart. -/
  keys : (q.children.map (·.key)).Nodup
  sources : ∀ clause ∈ q.rangeClauses, ∀ ref projection,
    clause.kind = .nested ref projection → ∃ c ∈ q.sources, c.ref = ref
  parents : ∀ c ∈ q.children, c.parent = some q.key ∧ root.enclosing c = q :: root.enclosing q

theorem Query.Within.under {root q : Query} (h : root.Within q) : ∃ above, root.Under q above := by
  induction h with
  | self => exact ⟨[], .root⟩
  | child _ hc ih =>
    obtain ⟨above, habove⟩ := ih
    exact ⟨_, .child habove hc⟩

/-- The way up from a query inside a child ends at the root. -/
theorem Query.Within.under_child {root c q : Query} (hc : c ∈ root.children) (h : c.Within q) :
    ∃ above, root.Under q above ∧ above.getLast? = some root := by
  induction h with
  | self => exact ⟨_, .child .root hc, rfl⟩
  | child _ hchild ih =>
    obtain ⟨above, habove, hlast⟩ := ih
    exact ⟨_, .child habove hchild, by rw [List.getLast?_cons, hlast]; rfl⟩

theorem Query.mem_nested_iff_child {q m : Query} :
    m ∈ q.nested ↔ ∃ c ∈ q.children, c.Within m := by
  rw [mem_nested]
  exact exists_congr fun c => and_congr_right' (by rw [← mem_nested_iff, List.mem_cons])

theorem Query.sublist_flatMap_tree (qs : List Query) : qs.Sublist (qs.flatMap tree) := by
  induction qs with
  | nil => exact .slnil
  | cons q qs ih => exact (ih.trans (List.sublist_append_right _ _)).cons_cons q

theorem Query.Parsed.children_keys_nodup {q : Query} (h : q.Parsed) :
    (q.children.map (·.key)).Nodup := by
  obtain ⟨_, _, _, _, h⟩ := h
  have htree := ((q.tree_perm.map (·.key)).nodup_iff).1 (parseChain_keysWithin h).2.nodup
  exact (htree.sublist ((List.sublist_cons_self _ _).map _)).sublist
    ((Query.sublist_flatMap_tree q.children).map _)

theorem Query.Parsed.nested_mem {q : Query} (h : q.Parsed) {clause : RangeClause}
    (hclause : clause ∈ q.rangeClauses) {ref : QueryRef} {projection : Option Expr}
    (hkind : clause.kind = .nested ref projection) : ∃ c ∈ q.sources, c.ref = ref := by
  obtain ⟨_, layers, hrendered⟩ := h.rendered
  rcases List.mem_cons.1 hclause with rfl | hclause
  · obtain ⟨n, hmain⟩ := hrendered.main
    rw [hmain] at hkind
    cases hkind
  · obtain ⟨x, kind⟩ := clause
    obtain rfl := hkind
    exact hrendered.body.nested_mem (Query.mem_ranges.1 hclause)

/-- Every query of a parsed tree is linked to the queries nested in it and to the one around it: the
ways up all end at the root, and the list of nested queries has each one once. -/
theorem linked_of_parse {e : Expr} {q : Query} (hrefs : e.refs = []) (h : parse e = .ok q) :
    (∀ m, q.Within m → q.Linked m)
      ∧ q.parent = none
      ∧ (∀ m ∈ q.nested, (q.enclosing m).getLast? = some q)
      ∧ (∀ m, m ∈ q.nested ↔ ∃ c ∈ q.children, c.Within m)
      ∧ (q.tree.map (·.key)).Nodup
      ∧ ∀ m, q.Within m → ∀ clause ∈ m.rangeClauses, clause.identifier.name ∈ q.variableNames := by
  have hparsed := Query.Parsed.of_parse h
  obtain ⟨_, hrun⟩ := parse_eq_ok.1 h
  have hexpression := (parseChain_ok hrun).2.1
  refine ⟨fun m hm => ?_, parseChain_parent hrun, fun m hm => ?_,
    fun m => Query.mem_nested_iff_child, keys_nodup h,
    fun m hm clause hclause => Query.mem_variableNames.2 ⟨m, hm, clause, hclause, rfl⟩⟩
  · have hm' := hparsed.within hm
    have hmrefs := hparsed.refs_within (hexpression ▸ hrefs) hm
    obtain ⟨above, habove⟩ := hm.under
    exact {
      held := (hm'.holds hmrefs).held
      keys := hm'.children_keys_nodup
      sources := fun clause hclause ref projection => hm'.nested_mem hclause
      parents := fun c hc => ⟨(hm'.child_keys hc).1, by
        rw [enclosing_eq h habove, enclosing_eq h (.child habove hc)]⟩ }
  · obtain ⟨c, hc, hm⟩ := Query.mem_nested_iff_child.1 hm
    obtain ⟨above, habove, hlast⟩ := hm.under_child hc
    rw [enclosing_eq h habove, hlast]

theorem refs_gradesChain : gradesChain.refs = [] := by
  simp [gradesChain, Chain.distinct, Chain.select, Chain.selectMany, Chain.ordering,
    Chain.orderBy, Chain.thenByDescending, Chain.filter, Chain.result, Expr.table, Expr.quoted,
    Expr.anonymous, Expr.ofConstant]

theorem linked_of_parse_grades :
    gradesChain.refs = [] ∧ ∃ q, parse gradesChain = .ok q ∧ (∀ m, q.Within m → q.Linked m)
      ∧ q.parent = none
      ∧ (∀ m ∈ q.nested, (q.enclosing m).getLast? = some q)
      ∧ (∀ m, m ∈ q.nested ↔ ∃ c ∈ q.children, c.Within m)
      ∧ (q.tree.map (·.key)).Nodup
      ∧ ∀ m, q.Within m → ∀ clause ∈ m.rangeClauses, clause.identifier.name ∈ q.variableNames := by
  obtain ⟨q, h⟩ := parse_gradesChain
  exact ⟨refs_gradesChain, q, h, linked_of_parse refs_gradesChain h⟩

end QueryChain
