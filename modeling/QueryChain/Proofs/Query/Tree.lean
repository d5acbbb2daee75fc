import QueryChain.Query.Basic

/-!
# The tree of nested queries

A query and the queries nested in it form a tree. `Query.nested` lists it; `Within` says by steps
from a query to its children which queries belong to it. The two agree (`mem_nested_iff`), so
whatever is collected over the list covers every query of the tree.
-/

namespace QueryChain.Query

/-- `m` is `q` or a query nested in `q` at any depth. -/
inductive Within (q : Query) : Query → Prop where
  | self : Within q q
  | child {m c : Query} : Within q m → c ∈ m.children → Within q c

theorem sizeOf_lt_of_mem_children {q c : Query} (h : c ∈ q.children) : sizeOf c < sizeOf q := by
  obtain ⟨key, parent, main, body, select, expression, embedded, sources⟩ := q
  simp only [children, List.mem_append] at h
  rcases h with h | h
  · have := List.sizeOf_lt_of_mem h
    simp only [mk.sizeOf_spec]
    omega
  · have := List.sizeOf_lt_of_mem h
    simp only [mk.sizeOf_spec]
    omega

/-- What holds of a query when it holds of its children holds of every query. -/
theorem children_induction {motive : Query → Prop}
    (node : ∀ q, (∀ c ∈ q.children, motive c) → motive q) (q : Query) : motive q :=
  node q fun c _ => children_induction node c
termination_by sizeOf q
decreasing_by exact sizeOf_lt_of_mem_children (by assumption)

theorem mem_nestedAll {m : Query} {qs : List Query} :
    m ∈ nestedAll qs ↔ ∃ c ∈ qs, m = c ∨ m ∈ c.nested := by
  induction qs with
  | nil => simp [nestedAll]
  | cons q qs ih => simp [nestedAll, ih, or_comm]

theorem mem_nested {m q : Query} : m ∈ q.nested ↔ ∃ c ∈ q.children, m = c ∨ m ∈ c.nested := by
  obtain ⟨key, parent, main, body, select, expression, embedded, sources⟩ := q
  simp only [nested, children, List.mem_append, mem_nestedAll]
  constructor
  · rintro (⟨c, hc, h⟩ | ⟨c, hc, h⟩)
    · exact ⟨c, .inr hc, h⟩
    · exact ⟨c, .inl hc, h⟩
  · rintro ⟨c, hc | hc, h⟩
    · exact .inr ⟨c, hc, h⟩
    · exact .inl ⟨c, hc, h⟩

theorem mem_nested_of_mem_children {c q : Query} (h : c ∈ q.children) : c ∈ q.nested :=
  mem_nested.2 ⟨c, h, .inl rfl⟩

theorem nested_trans {q m c : Query} (hm : m ∈ q.nested) (hc : c ∈ m.nested) : c ∈ q.nested := by
  induction q using children_induction with
  | node q ih =>
    obtain ⟨d, hd, rfl | hmd⟩ := mem_nested.1 hm
    · exact mem_nested.2 ⟨m, hd, .inr hc⟩
    · exact mem_nested.2 ⟨d, hd, .inr (ih d hd hmd)⟩

theorem Within.trans {q m c : Query} (hm : Within q m) (hc : Within m c) : Within q c := by
  induction hc with
  | self => exact hm
  | child _ h ih => exact .child ih h

/-- The list of a tree holds exactly the queries of the tree. -/
theorem mem_nested_iff {q m : Query} : m ∈ q :: q.nested ↔ Within q m := by
  constructor
  · intro h
    induction q using children_induction with
    | node q ih =>
      rcases List.mem_cons.1 h with rfl | h
      · exact .self
      · obtain ⟨c, hc, hmc⟩ := mem_nested.1 h
        exact Within.trans (.child .self hc) (ih c hc (List.mem_cons.2 hmc))
  · intro h
    induction h with
    | self => simp
    | child _ hc ih =>
      rcases List.mem_cons.1 ih with rfl | ih
      · exact List.mem_cons_of_mem _ (mem_nested_of_mem_children hc)
      · exact List.mem_cons_of_mem _ (nested_trans ih (mem_nested_of_mem_children hc))

/-- A query and the queries nested in it. -/
def tree (q : Query) : List Query :=
  q :: q.nested

theorem nestedAll_perm (qs : List Query) : (nestedAll qs).Perm (qs.flatMap tree) := by
  induction qs with
  | nil => exact .nil
  | cons q qs ih =>
    simp only [nestedAll, List.flatMap_cons]
    exact List.perm_append_comm.trans (ih.append_left (q.tree))

/-- The tree under a query is made of the query and the trees under its children. -/
theorem tree_perm (q : Query) : q.tree.Perm (q :: q.children.flatMap tree) := by
  obtain ⟨key, parent, main, body, select, expression, embedded, sources⟩ := q
  refine .cons _ ?_
  simp only [nested, children, List.flatMap_append]
  exact ((nestedAll_perm sources).append (nestedAll_perm embedded)).trans List.perm_append_comm

theorem mem_ranges {body : List Clause} {clause : RangeClause} :
    clause ∈ body.filterMap Clause.range? ↔ .range clause ∈ body := by
  have hrange : ∀ c : Clause, c.range? = some clause ↔ c = .range clause := by
    intro c
    cases c <;> simp [Clause.range?]
  simp [hrange]

theorem mem_ownNames {q : Query} {name : String} :
    name ∈ q.ownNames ↔ ∃ c ∈ q.rangeClauses, c.identifier.name = name := by
  simp [ownNames]

/-- The names of a query's variables are those of the range clauses of its whole tree. -/
theorem mem_variableNames {q : Query} {name : String} :
    name ∈ q.variableNames ↔ ∃ m, Within q m ∧ ∃ c ∈ m.rangeClauses, c.identifier.name = name := by
  simp only [variableNames, List.mem_append, List.mem_flatMap, mem_ownNames, ← mem_nested_iff,
    List.mem_cons]
  constructor
  · rintro (h | ⟨m, hm, h⟩)
    · exact ⟨q, .inl rfl, h⟩
    · exact ⟨m, .inr hm, h⟩
  · rintro ⟨m, rfl | hm, h⟩
    · exact .inl h
    · exact .inr ⟨m, hm, h⟩

end QueryChain.Query
