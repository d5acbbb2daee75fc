import QueryChain.Proofs.Chain.Keys

/-!
# Enclosing queries

A nested query names the query around it by key. In a parsed tree these names lead from every query
up to the root (`enclosing_eq`): each query has the key of the one around it for a parent, no two
queries have one key, and keys fall on the way up, so that the search along them does not run out of
steps.
-/

namespace QueryChain

/-- The query `q` stands in the tree under `root`, inside the queries `above`, the nearest one
first. -/
inductive Query.Under (root : Query) : Query → List Query → Prop where
  | root : Under root root []
  | child {m c : Query} {above : List Query} :
    Under root m above → c ∈ m.children → Under root c (m :: above)

theorem Query.Under.within {root q : Query} {above : List Query} (h : root.Under q above) :
    root.Within q := by
  induction h with
  | root => exact .self
  | child _ hc ih => exact .child ih hc

theorem SubParser.InTurn.forall {parseSub : SubParser} {motive : Query → Prop}
    (hparse : ∀ {c : Expr} {s s' : ParseState} {q : Query},
      (parseSub c).run s = .ok (q, s') → motive q)
    {s s' : ParseState} {queries : List Query} (h : parseSub.InTurn s queries s') :
    ∀ q ∈ queries, motive q := by
  induction h with
  | nil => simp
  | cons hq _ ih => exact List.forall_mem_cons.2 ⟨hparse hq, ih⟩

theorem assemble_parent {parseSub : SubParser} {key : Nat} {parent : Option Nat} {e : Expr}
    {c : Collected} {q : Query} {s s' : ParseState}
    (h : (assemble parseSub key parent e c).run s = .ok (q, s')) : q.parent = parent := by
  obtain ⟨_, _, _, _, _, _, _, _, -, -, -, -, rfl⟩ := assemble_eq_ok.1 h
  rfl

theorem parseChain_parent {depth : Nat} {parent : Option Nat} {e : Expr} {q : Query}
    {s s' : ParseState} (h : (parseChain depth parent e).run s = .ok (q, s')) :
    q.parent = parent := by
  obtain ⟨_, _, _, -, -, h⟩ := parseChain_eq_ok.1 h
  exact assemble_parent h

/-- A child has the key of the query around it for its parent, and a larger key itself. -/
theorem Query.Parsed.child_keys {q c : Query} (h : q.Parsed) (hc : c ∈ q.children) :
    c.parent = some q.key ∧ q.key < c.key := by
  obtain ⟨_, _, _, _, h⟩ := h
  obtain ⟨hkey, -, -, _, _, queries, -, hnext, hturn, hperm⟩ := parseChain_ok h
  have hc : c ∈ queries := hperm.mem_iff.1 hc
  have hbounds := (keysWithin_addsUp.inTurn parseChain_keysWithin hturn).2.bounds c
    (List.mem_flatMap.2 ⟨c, hc, List.mem_cons_self⟩)
  exact ⟨hturn.forall parseChain_parent c hc, by omega⟩

theorem find?_key {queries : List Query} (hkeys : (queries.map (·.key)).Nodup) {q : Query}
    (hq : q ∈ queries) : queries.find? (·.key == q.key) = some q := by
  cases hfind : queries.find? (·.key == q.key) with
  | none => simpa using List.find?_eq_none.1 hfind q hq
  | some m =>
    have hkey : m.key = q.key := by simpa using List.find?_some hfind
    rw [List.inj_on_of_nodup_map hkeys (List.mem_of_find?_eq_some hfind) hq hkey]

/-- The queries that enclose a query of a parsed tree, found by their keys, are those that it stands
in. -/
theorem enclosing_eq {e : Expr} {root q : Query} {above : List Query} (hparse : parse e = .ok root)
    (h : root.Under q above) : root.enclosing q = above := by
  have hkeys := keys_nodup hparse
  obtain ⟨_, hchain⟩ := parse_eq_ok.1 hparse
  obtain ⟨-, hexpression, -⟩ := parseChain_ok hchain
  have hparsed : root.Parsed := ⟨_, _, _, _, hexpression ▸ hchain⟩
  -- The way up takes at most as many steps as the key of the query says.
  suffices hsteps : ∀ steps, q.key ≤ steps →
      Query.enclosingFrom root.tree steps q.parent = above from hsteps q.key (Nat.le_refl _)
  induction h with
  | root =>
    intro steps _
    rw [parseChain_parent hchain]
    cases steps <;> rfl
  | @child m c above hm hc ih =>
    intro steps hle
    obtain ⟨hparent, hlt⟩ := (hparsed.within hm.within).child_keys hc
    obtain ⟨n, rfl⟩ : ∃ n, steps = n + 1 := ⟨steps - 1, by omega⟩
    rw [hparent, Query.enclosingFrom, find?_key hkeys (Query.mem_nested_iff.2 hm.within)]
    simp only [ih n (by omega)]

end QueryChain
