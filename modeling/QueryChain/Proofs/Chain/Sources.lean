import QueryChain.Proofs.Chain.Links

/-!
# Clauses over nested queries

The nested queries that the clauses of a query range over are its sources, in the order of the
clauses (`Query.Parsed.nested_clauses`). So each such clause has a nested query of its own, and no
other clause of the tree ranges over it (`nested_unique`).
-/

namespace QueryChain

/-- The nested query that a clause ranges over. -/
def RangeClause.nested? (clause : RangeClause) : Option QueryRef :=
  match clause.kind with
  | .nested ref _ => some ref
  | _ => none

/-- Changing an item so that it is mapped to the same is not noticed. -/
theorem filterMap_modify {α β : Type} {g : α → Option β} {f : α → α} (hf : ∀ a, g (f a) = g a)
    (items : List α) (index : Nat) : (items.modify index f).filterMap g = items.filterMap g := by
  induction items generalizing index with
  | nil => simp
  | cons item items ih =>
    cases index with
    | zero => simp [List.filterMap_cons, hf]
    | succ index => simp [List.filterMap_cons, ih]

/-- An item of a list is found at one place only if what it is mapped to stands once. -/
theorem index_unique_of_filterMap {α β : Type} {f : α → Option β} {items : List α}
    (h : (items.filterMap f).Nodup) {i k : Nat} {a a' : α} {b : β} (hi : items[i]? = some a)
    (hk : items[k]? = some a') (ha : f a = some b) (ha' : f a' = some b) : i = k := by
  rw [List.Nodup, List.pairwise_filterMap, List.pairwise_iff_getElem] at h
  obtain ⟨hilt, rfl⟩ := List.getElem?_eq_some_iff.1 hi
  obtain ⟨hklt, rfl⟩ := List.getElem?_eq_some_iff.1 hk
  rcases Nat.lt_trichotomy i k with hlt | rfl | hlt
  · exact absurd rfl (h i k hilt hklt hlt b ha b ha')
  · rfl
  · exact absurd rfl (h k i hklt hilt hlt b ha' b ha)

namespace Draft

variable {parseSub : SubParser}

/-- The clauses of a draft range over its sources, in order. -/
def InOrder (d : Draft) : Prop :=
  (d.body.filterMap Clause.range?).filterMap RangeClause.nested? = d.sources.map Query.ref

theorem inOrder_start (projections : List (Option Expr)) : InOrder { projections } :=
  rfl

theorem InOrder.addClause {d : Draft} (h : d.InOrder) {clause : Clause}
    (hclause : clause.range?.bind RangeClause.nested? = none) : (d.addClause clause).InOrder := by
  unfold InOrder Draft.addClause
  rw [List.filterMap_append, List.filterMap_append, h]
  cases clause with
  | range clause =>
    have hnested : clause.nested? = none := hclause
    simp [Clause.range?, hnested]
  | filter | ordering => simp [Clause.range?]

theorem addStep_inOrder {d d' : Draft} {step : Step} {s s' : ParseState} (h : d.InOrder)
    (hrun : (d.addStep parseSub step).run s = .ok (d', s')) : d'.InOrder := by
  cases addStep_stepped hrun with
  | filter hreplace | ordering hreplace =>
    obtain ⟨queries, rfl⟩ := replace_draft hreplace
    exact InOrder.addClause (d := d.addEmbedded queries) h rfl
  | refinement hreplace =>
    obtain ⟨queries, rfl⟩ := replace_draft hreplace
    unfold InOrder refine
    rw [filterMap_modify fun clause => by cases clause <;> rfl]
    exact h
  | nested _ hprojection =>
    obtain ⟨queries, rfl⟩ := replaceProjection_draft hprojection
    unfold InOrder at h ⊢
    simp only [addEmbedded, Draft.addClause, List.filterMap_append, h, List.map_append]
    rfl
  | additional _ hprojection _ hsource =>
    obtain ⟨queries, rfl⟩ := replaceProjection_draft hprojection
    obtain ⟨queries', rfl⟩ := replace_draft hsource
    exact InOrder.addClause (d := addEmbedded _ queries') h rfl
  | binding _ _ hvalue =>
    obtain ⟨queries, rfl⟩ := replace_draft hvalue
    exact InOrder.addClause (d := addEmbedded _ queries) h rfl

theorem foldlM_addStep_inOrder {steps : List Step} {d d' : Draft} {s s' : ParseState}
    (h : d.InOrder) (hrun : (steps.foldlM (addStep parseSub) d).run s = .ok (d', s')) :
    d'.InOrder := by
  induction steps generalizing d s with
  | nil =>
    obtain ⟨rfl, -⟩ := ParseM.run_pure_ok.1 hrun
    exact h
  | cons step steps ih =>
    rw [List.foldlM_cons] at hrun
    obtain ⟨d₁, _, hstep, hsteps⟩ := ParseM.run_bind_ok.1 hrun
    exact ih (addStep_inOrder h hstep) hsteps

end Draft

theorem assemble_nested_clauses {parseSub : SubParser} {key : Nat} {parent : Option Nat} {e : Expr}
    {c : Collected} {q : Query} {s s' : ParseState}
    (h : (assemble parseSub key parent e c).run s = .ok (q, s')) :
    q.rangeClauses.filterMap RangeClause.nested? = q.sources.map Query.ref := by
  obtain ⟨_, _, _, _, d, _, _, _, -, -, hfold, hprojection, rfl⟩ := assemble_eq_ok.1 h
  have hdraft := Draft.foldlM_addStep_inOrder (Draft.inOrder_start _) hfold
  obtain ⟨queries, rfl⟩ := Draft.replaceProjection_draft hprojection
  exact hdraft

/-- The clauses of a query range over its sources, in order. -/
theorem Query.Parsed.nested_clauses {q : Query} (h : q.Parsed) :
    q.rangeClauses.filterMap RangeClause.nested? = q.sources.map Query.ref := by
  obtain ⟨depth, parent, s, s', h⟩ := h
  obtain ⟨_, _, _, -, -, h⟩ := parseChain_eq_ok.1 h
  exact assemble_nested_clauses h

theorem Query.sources_keys_nodup {q : Query} (h : q.Parsed) :
    ((q.sources.map Query.ref).map QueryRef.key).Nodup := by
  have hchildren := h.children_keys_nodup
  rw [Query.children, List.map_append] at hchildren
  rw [List.map_map]
  exact hchildren.of_append_right

/-- No two clauses of a tree range over the same nested query. -/
theorem nested_unique {e : Expr} {root q q' : Query} (hparse : parse e = .ok root)
    (hq : root.Within q) (hq' : root.Within q') {i i' : Nat} {clause clause' : RangeClause}
    {ref ref' : QueryRef} (hclause : q.rangeClauses[i]? = some clause)
    (hclause' : q'.rangeClauses[i']? = some clause') (href : clause.nested? = some ref)
    (href' : clause'.nested? = some ref') (hkey : ref.key = ref'.key) : q = q' ∧ i = i' := by
  have hroot := Query.Parsed.of_parse hparse
  have hkeys := keys_nodup hparse
  have hchild {q : Query} (hq : root.Within q) {i : Nat} {clause : RangeClause} {ref : QueryRef}
      (hclause : q.rangeClauses[i]? = some clause) (href : clause.nested? = some ref) :
      ∃ c ∈ root.tree, c.ref = ref ∧ c.parent = some q.key := by
    have hmem := List.mem_filterMap.2 ⟨clause, List.mem_of_getElem? hclause, href⟩
    rw [(hroot.within hq).nested_clauses] at hmem
    obtain ⟨c, hc, rfl⟩ := List.mem_map.1 hmem
    have hc : c ∈ q.children := List.mem_append_right _ hc
    exact ⟨c, Query.mem_nested_iff.2 (.child hq hc), rfl, ((hroot.within hq).child_keys hc).1⟩
  obtain ⟨c, hc, rfl, hparent⟩ := hchild hq hclause href
  obtain ⟨c', hc', rfl, hparent'⟩ := hchild hq' hclause' href'
  -- The nested query has one parent, and that has one clause over it.
  obtain rfl : c = c' := List.inj_on_of_nodup_map hkeys hc hc' hkey
  have hsame : q.key = q'.key := Option.some.inj (hparent.symm.trans hparent')
  obtain rfl : q = q' := List.inj_on_of_nodup_map hkeys (Query.mem_nested_iff.2 hq)
    (Query.mem_nested_iff.2 hq') hsame
  refine ⟨rfl, index_unique_of_filterMap ?_ hclause hclause' href href'⟩
  rw [(hroot.within hq).nested_clauses]
  exact (Query.sources_keys_nodup (hroot.within hq)).of_map _

end QueryChain
