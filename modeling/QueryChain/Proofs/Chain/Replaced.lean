import QueryChain.Proofs.Chain.Clauses
import QueryChain.Proofs.Expr.Parts

/-!
# No chain is left in a clause

Chains embedded in the expressions of clauses are replaced by references, and what is put in their
place makes no new chain of the nodes around it: a call is a chain by its method or by its source,
and a reference is no chain. So the expressions of a parsed query hold none at any depth
(`Query.Parsed.chainFree`), and replacing leaves an expression as it is exactly if it held none
(`nestChains_eq_self_iff`).
-/

namespace QueryChain

theorem forall₂_mem_right {α β : Type} {R : α → β → Prop} {as : List α} {bs : List β} {b : β}
    (h : List.Forall₂ R as bs) (hb : b ∈ bs) : ∃ a ∈ as, R a b := by
  induction h with
  | nil => cases hb
  | cons hab _ ih =>
    rcases List.mem_cons.1 hb with rfl | hb
    · exact ⟨_, List.mem_cons_self, hab⟩
    · obtain ⟨a, ha, hab⟩ := ih hb
      exact ⟨a, List.mem_cons_of_mem _ ha, hab⟩

namespace Expr

/-- No part of an expression is a chain. What a reference refers to is no part. -/
def ChainFree (e : Expr) : Prop :=
  ∀ c ∈ e.parts, c.isChain = false

theorem chainFree_iff {e : Expr} :
    e.ChainFree ↔ e.isChain = false ∧ ∀ c ∈ e.subterms, c.ChainFree := by
  constructor
  · intro h
    exact ⟨h e (mem_parts_self e), fun c hc d hd => h d (mem_parts_of_subterm hc hd)⟩
  · rintro ⟨hnot, h⟩ d hd
    obtain rfl | ⟨c, hc, hd⟩ := mem_parts.1 hd
    · exact hnot
    · exact h c hc d hd

theorem chainFree_iff_outerChains {e : Expr} : e.ChainFree ↔ e.outerChains = [] := by
  induction e using subterms_induction with
  | node e ih =>
    rw [chainFree_iff, outerChains_eq_nil]
    exact and_congr_right' (forall₂_congr ih)

/-- A node that is no chain becomes none over subterms that are none. -/
theorem not_isChain_withSubterms {e : Expr} {es : List Expr} (h : e.isChain = false)
    (hes : ∀ c ∈ es, c.isChain = false) : (e.withSubterms es).isChain = false := by
  cases e with
  | staticCall method arguments type =>
    have hop : (Operator.ofName? method).isSome = false := by
      cases arguments <;> simp_all [isChain]
    cases es with
    | nil => simp [withSubterms, isChain, hop]
    | cons c es => simp [withSubterms, isChain, hop, hes c List.mem_cons_self]
  | _ => rcases es with _ | ⟨a, _ | ⟨b, _ | ⟨c, _ | _⟩⟩⟩ <;> rfl

/-- Once references stand in the places of its outermost chains, an expression holds no chain. -/
theorem NestedAs.chainFree {found : Expr → QueryRef → Prop} {e e' : Expr}
    (h : e.NestedAs found e') : e'.ChainFree := by
  induction e using subterms_induction generalizing e' with
  | node e ih =>
    cases h with
    | chain => exact chainFree_iff.2 ⟨rfl, by simp [subterms]⟩
    | @node _ es hnot hes =>
      have hfree : ∀ c ∈ es, c.ChainFree := by
        intro c' hc'
        obtain ⟨c, hc, hnested⟩ := forall₂_mem_right hes hc'
        exact ih c hc hnested
      rw [chainFree_iff, subterms_withSubterms hes.length_eq.symm]
      have hsubterms : ∀ c ∈ es, c.isChain = false := fun c hc => (chainFree_iff.1 (hfree c hc)).1
      exact ⟨not_isChain_withSubterms (by simpa using hnot) hsubterms, hfree⟩

theorem mem_parts_of_isParameterMember {c e : Expr} (h : e.isParameterMember)
    (hc : c ∈ e.parts) : (∃ p, c = .parameter p) ∨ ∃ object m, c = .member object m := by
  induction e using isParameterMember.induct with
  | case1 p m =>
    obtain rfl | ⟨d, hd, hcd⟩ := mem_parts.1 hc
    · exact .inr ⟨_, m, rfl⟩
    · obtain rfl := List.mem_singleton.1 hd
      exact .inl ⟨p, (mem_parts.1 hcd).resolve_right (by simp [subterms])⟩
  | case2 object m _ ih =>
    obtain rfl | ⟨d, hd, hcd⟩ := mem_parts.1 hc
    · exact .inr ⟨object, m, rfl⟩
    · obtain rfl := List.mem_singleton.1 hd
      rw [isParameterMember] at h
      · exact ih h hcd
      · assumption
  | case3 => simp [isParameterMember] at h

/-- A source is made of a value alone, or of a parameter and the members read from it. -/
theorem mem_parts_of_isSource {c e : Expr} (h : e.isSource) (hc : c ∈ e.parts) :
    (∃ value type, c = .constant value type) ∨ (∃ p, c = .parameter p)
      ∨ ∃ object m, c = .member object m := by
  cases e with
  | constant value type =>
    exact .inl ⟨value, type, (mem_parts.1 hc).resolve_right (by simp [subterms])⟩
  | _ => exact .inr (mem_parts_of_isParameterMember h hc)

/-- A value, or a member of a range variable, holds no chain. -/
theorem ChainFree.of_isSource {e : Expr} (h : e.isSource) : e.ChainFree := by
  intro c hc
  rcases mem_parts_of_isSource h hc with ⟨_, _, rfl⟩ | ⟨_, rfl⟩ | ⟨_, _, rfl⟩ <;> rfl

end Expr

/-! ## Replacing chains -/

theorem run_mapM_length {parseSub : SubParser} {cs : List Expr} {qs : List Query}
    {s s' : ParseState} (h : (cs.mapM parseSub).run s = .ok (qs, s')) : qs.length = cs.length := by
  induction cs generalizing s s' qs with
  | nil =>
    obtain ⟨rfl, -⟩ := ParseM.run_pure_ok.1 h
    rfl
  | cons c cs ih =>
    rw [List.mapM_cons] at h
    obtain ⟨q, _, -, h⟩ := ParseM.run_bind_ok.1 h
    obtain ⟨qs, _, hqs, h⟩ := ParseM.run_bind_ok.1 h
    obtain ⟨rfl, -⟩ := ParseM.run_pure_ok.1 h
    simp [ih hqs]

theorem nestChains_chainFree {parseSub : SubParser} {e e' : Expr} {queries : List Query}
    {s s' : ParseState} (h : (nestChains parseSub e).run s = .ok ((e', queries), s')) :
    e'.ChainFree := by
  rw [nestChains_eq] at h
  obtain ⟨qs, hqs, heq⟩ := ParseM.run_map_ok.1 h
  cases heq
  have hlength : e.outerChains.length = (queries.map Query.ref).length := by
    simp [run_mapM_length hqs]
  have hnested : e.NestedAs (fun _ _ => True) (e.fill (queries.map Query.ref)) :=
    Expr.fill_nestedAs (List.forall₂_iff_get.2 ⟨hlength, fun _ _ _ => trivial⟩)
  exact hnested.chainFree

/-- Replacing the chains embedded in an expression leaves it as it is exactly if there are none. -/
theorem nestChains_eq_self_iff {parseSub : SubParser} {e e' : Expr} {queries : List Query}
    {s s' : ParseState} (h : (nestChains parseSub e).run s = .ok ((e', queries), s')) :
    e' = e ↔ e.ChainFree := by
  constructor
  · rintro rfl
    exact nestChains_chainFree h
  · intro hfree
    rw [nestChains_of_no_chain parseSub (Expr.chainFree_iff_outerChains.1 hfree)] at h
    cases (ParseM.run_pure_ok.1 h).1
    rfl

/-- The walk that replaces chains says that it changed an expression exactly if there are any. -/
theorem walk_isChanged_iff {parseSub : SubParser} {e : Expr} {outcome : Outcome Expr}
    {noted queries : List Query} {s s' : ParseState}
    (h : ((e.walk (chainNester parseSub)).run noted).run s = .ok ((outcome, queries), s')) :
    outcome.isChanged = false ↔ e.ChainFree := by
  rw [Expr.run_walk_chainNester] at h
  obtain ⟨qs, -, heq⟩ := ParseM.run_map_ok.1 h
  cases heq
  rw [Expr.chainFree_iff_outerChains, Expr.filled]
  split <;> simp [Outcome.isChanged, *]

/-! ## The expressions of a query -/

/-- The expressions of a range clause in which chains are replaced. The selector that introduced a
binding is kept as it was written. -/
def RangeKind.expressions : RangeKind → List Expr
  | .main source => [source]
  | .additional selector projection => selector :: projection.toList
  | .nested _ projection => projection.toList
  | .binding value _ => [value]

/-- The expressions of a clause in which chains are replaced. -/
def Clause.expressions : Clause → List Expr
  | .range clause => clause.kind.expressions
  | .filter predicate => [predicate]
  | .ordering keys => keys.map SortKey.key

/-- The expressions of a query in which chains are replaced: the main source, those of the clauses,
and the selector. The further arguments of result operators are kept as they were written. -/
def Query.expressions (q : Query) : List Expr :=
  q.main.kind.expressions ++ q.body.flatMap Clause.expressions ++ q.select.projection.toList

theorem ClausesOf.chainFree {embedded sources : List Query} {layers : List Layer}
    {clauses : List Clause} (h : ClausesOf embedded sources layers clauses) :
    ∀ d ∈ clauses.flatMap Clause.expressions, d.ChainFree := by
  induction h with
  | nil | selection => simp
  | refinement _ ih => exact ih
  | binding _ _ hvalue _ ih =>
    simp only [List.flatMap_cons, List.forall_mem_append]
    exact ⟨by simpa [Clause.expressions, RangeKind.expressions] using hvalue.chainFree, ih⟩
  | range hselector hkind _ ih =>
    simp only [List.flatMap_cons, List.forall_mem_append]
    refine ⟨?_, ih⟩
    cases hkind with
    | additional _ hfound =>
      simpa [Clause.expressions, RangeKind.expressions] using
        ⟨hfound.chainFree, hselector.chainFree⟩
    | nested => simpa [Clause.expressions, RangeKind.expressions] using hselector.chainFree
  | filter hpredicate _ ih =>
    simp only [List.flatMap_cons, List.forall_mem_append]
    exact ⟨by simpa [Clause.expressions] using hpredicate.chainFree, ih⟩
  | ordering hkeys _ ih =>
    simp only [List.flatMap_cons, List.forall_mem_append]
    refine ⟨fun d hd => ?_, ih⟩
    obtain ⟨k, hk, rfl⟩ := List.mem_map.1 hd
    obtain ⟨k', -, hkey⟩ := forall₂_mem_right hkeys hk
    exact hkey.1.chainFree

theorem assemble_main {parseSub : SubParser} {key : Nat} {parent : Option Nat} {e : Expr}
    {c : Collected} {identifier : Parameter} {source : Expr} {steps : List Step} {q : Query}
    {s s' : ParseState} (hsteps : c.steps = .range identifier source :: steps)
    (h : (assemble parseSub key parent e c).run s = .ok (q, s')) :
    q.main = { identifier, kind := .main source } := by
  obtain ⟨_, _, _, _, _, _, _, _, hfirst, -, -, -, rfl⟩ := assemble_eq_ok.1 h
  cases hsteps.symm.trans hfirst
  rfl

/-- The main source of a parsed query is one. -/
theorem Query.Parsed.main_isSource {q : Query} (h : q.Parsed) :
    ∃ source, q.main.kind = .main source ∧ source.isSource := by
  obtain ⟨depth, parent, s, s', h⟩ := h
  obtain ⟨_, c, _, -, hc, h⟩ := parseChain_eq_ok.1 h
  obtain ⟨source, layers, distinct, modifiers, -, hsource, -, rfl⟩ := collect_top_ok hc
  exact ⟨source.evaluate, congrArg RangeClause.kind (assemble_main rfl h), hsource⟩

theorem rel_exists_left {α β : Type} {R : α → β → Prop} {a : Option α} {b : β}
    (h : Option.Rel R a (some b)) : ∃ a' ∈ a, R a' b := by
  cases h with
  | some hab => exact ⟨_, rfl, hab⟩

theorem Query.Parsed.rendered {q : Query} (h : q.Parsed) :
    ∃ source layers, Rendered q source layers := by
  obtain ⟨depth, parent, s, s', h⟩ := h
  exact (parseChain_ok h).2.2.1

/-- No chain is left in the expressions of a parsed query. -/
theorem Query.Parsed.chainFree {q : Query} (h : q.Parsed) : ∀ d ∈ q.expressions, d.ChainFree := by
  obtain ⟨source, hmain, hsource⟩ := h.main_isSource
  obtain ⟨_, layers, hrendered⟩ := h.rendered
  simp only [Query.expressions, List.forall_mem_append]
  refine ⟨⟨?_, hrendered.body.chainFree⟩, ?_⟩
  · simpa [hmain, RangeKind.expressions] using Expr.ChainFree.of_isSource hsource
  · intro d hd
    have hprojection := hrendered.projection
    rw [Option.mem_toList.1 hd] at hprojection
    obtain ⟨selector, -, hnested⟩ := rel_exists_left hprojection
    exact hnested.chainFree

theorem Query.Parsed.of_parse {e : Expr} {q : Query} (h : parse e = .ok q) : q.Parsed := by
  obtain ⟨s', h⟩ := parse_eq_ok.1 h
  exact ⟨_, _, _, _, (parseChain_ok h).2.1 ▸ h⟩

/-- No chain is left in the expressions of a parsed tree. Whatever parses the chains in an
expression, replacing them leaves the expression as it is exactly if there are none, and that is
when the walk says that it changed nothing. -/
theorem chainFree_of_parse {e : Expr} {q : Query} (h : parse e = .ok q) :
    (∀ m, Query.Within q m → ∀ d ∈ m.expressions, d.ChainFree)
      ∧ ∀ (parseSub : SubParser) (d : Expr) (queries : List Query) (s s' : ParseState),
        (∀ d', (nestChains parseSub d).run s = .ok ((d', queries), s') → (d' = d ↔ d.ChainFree))
          ∧ ∀ o, ((d.walk (chainNester parseSub)).run []).run s = .ok ((o, queries), s') →
            (o.isChanged = false ↔ d.ChainFree) :=
  ⟨fun _ hm => ((Query.Parsed.of_parse h).within hm).chainFree,
    fun _ _ _ _ _ => ⟨fun _ => nestChains_eq_self_iff, fun _ => walk_isChanged_iff⟩⟩

theorem chainFree_of_parse_grades :
    ∃ q, parse gradesChain = .ok q ∧ (∀ m, Query.Within q m → ∀ d ∈ m.expressions, d.ChainFree)
      ∧ ∀ (parseSub : SubParser) (d : Expr) (queries : List Query) (s s' : ParseState),
        (∀ d', (nestChains parseSub d).run s = .ok ((d', queries), s') → (d' = d ↔ d.ChainFree))
          ∧ ∀ o, ((d.walk (chainNester parseSub)).run []).run s = .ok ((o, queries), s') →
            (o.isChanged = false ↔ d.ChainFree) := by
  obtain ⟨q, h⟩ := parse_gradesChain
  exact ⟨q, h, chainFree_of_parse h⟩

end QueryChain
