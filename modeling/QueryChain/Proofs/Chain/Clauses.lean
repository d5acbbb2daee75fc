import QueryChain.Chain.Build
import QueryChain.Proofs.Chain.Spine
import QueryChain.Proofs.Query.Tree

/-!
# The clauses of a chain

A parsed query says what its chain says. Steps and projections are collected in two lists and paired
again when the query is assembled; `foldlM_addStep_ok` carries the invariant that the projections
left over always begin with the selectors of the operators whose steps are still to come, so each
clause gets the selector of its own operator.

* `Draft.Stepped` and `assemble_eq_ok` say what a step can do and what a query is assembled from;
* `ClausesOf` reads clauses off the operators of a spine, one for each, up to embedded chains;
* `Rendered` says the same of a whole query;
* `rendered_of_parse`: every query of a parsed tree renders its chain.
-/

namespace QueryChain

/-! ## Clauses of operators -/

/-- The keys by which the operators after an ordering refine it, up to the next ordering. -/
def refinements : List Layer → List SortKey
  | [] => []
  | .ordering _ true _ _ :: _ => []
  | .ordering direction false p body :: layers =>
    { key := .lambda [p] body, direction } :: refinements layers
  | _ :: layers => refinements layers

/-- A key to sort by, up to embedded chains. -/
def SortKey.NestedAs (found : Expr → QueryRef → Prop) (k k' : SortKey) : Prop :=
  k.key.NestedAs found k'.key ∧ k'.direction = k.direction

/-- What a `SelectMany` is made into: a range over a nested query, or over a collection found for
each element. -/
inductive RangeOf (embedded sources : List Query) (p : Parameter) (found : Expr)
    (selector : Option Expr) : RangeKind → Prop where
  | additional {collection : Expr} :
    ¬found.isChain → (Expr.lambda [p] found).NestedAs (MadeOf embedded) collection →
      RangeOf embedded sources p found selector (.additional collection selector)
  | nested {ref : QueryRef} :
    found.isChain → MadeOf sources found ref →
      RangeOf embedded sources p found selector (.nested ref selector)

theorem SortKey.NestedAs.mono {found found' : Expr → QueryRef → Prop}
    (hle : ∀ c ref, found c ref → found' c ref) {k k' : SortKey} (h : k.NestedAs found k') :
    k.NestedAs found' k' :=
  ⟨h.1.mono hle, h.2⟩

theorem RangeOf.mono {embedded embedded' sources sources' : List Query} {p : Parameter}
    {found : Expr} {selector : Option Expr} {kind : RangeKind} (hembedded : embedded ⊆ embedded')
    (hsources : sources ⊆ sources') (h : RangeOf embedded sources p found selector kind) :
    RangeOf embedded' sources' p found selector kind := by
  cases h with
  | additional hnot hfound =>
    exact .additional hnot (hfound.mono fun c ref => MadeOf.mono hembedded)
  | nested hchain href => exact .nested hchain (href.mono hsources)

/-- The clauses that lambda operators stand for, innermost first, up to the queries `embedded` in
their expressions and the queries `sources` that they range over. -/
inductive ClausesOf (embedded sources : List Query) : List Layer → List Clause → Prop where
  | nil : ClausesOf embedded sources [] []
  /-- The last `Select` adds no clause. -/
  | selection {p : Parameter} {body : Expr} : ClausesOf embedded sources [.select p body] []
  | binding {p : Parameter} {type : String} {arguments : List Expr} {members : List Member}
    {value value' : Expr} {m : Member} {layers : List Layer} {clauses : List Clause} :
    layers ≠ [] → arguments.length = members.length → value.NestedAs (MadeOf embedded) value' →
      ClausesOf embedded sources layers clauses →
      ClausesOf embedded sources
        (.select p (.new type (arguments ++ [value]) (members ++ [m])) :: layers)
        (.range {
          identifier := { name := m.name, type := m.type }
          kind :=
            .binding value' (.lambda [p] (.new type (arguments ++ [value]) (members ++ [m]))) }
          :: clauses)
  | range {p q x : Parameter} {found body selector : Expr} {kind : RangeKind}
    {layers : List Layer} {clauses : List Clause} :
    (Expr.lambda [q, x] body).NestedAs (MadeOf embedded) selector →
      RangeOf embedded sources p found (some selector) kind →
      ClausesOf embedded sources layers clauses →
      ClausesOf embedded sources (.selectMany p found q x body :: layers)
        (.range { identifier := x, kind } :: clauses)
  | filter {p : Parameter} {body predicate : Expr} {layers : List Layer} {clauses : List Clause} :
    (Expr.lambda [p] body).NestedAs (MadeOf embedded) predicate →
      ClausesOf embedded sources layers clauses →
      ClausesOf embedded sources (.filter p body :: layers) (.filter predicate :: clauses)
  | ordering {direction : Direction} {p : Parameter} {body : Expr} {keys : List SortKey}
    {layers : List Layer} {clauses : List Clause} :
    List.Forall₂ (SortKey.NestedAs (MadeOf embedded))
        ({ key := .lambda [p] body, direction } :: refinements layers) keys →
      ClausesOf embedded sources layers clauses →
      ClausesOf embedded sources (.ordering direction true p body :: layers)
        (.ordering keys :: clauses)
  /-- A further key stands in the clause of the ordering that it refines. -/
  | refinement {direction : Direction} {p : Parameter} {body : Expr} {layers : List Layer}
    {clauses : List Clause} :
    ClausesOf embedded sources layers clauses →
      ClausesOf embedded sources (.ordering direction false p body :: layers) clauses

theorem ClausesOf.mono {embedded embedded' sources sources' : List Query} {layers : List Layer}
    {clauses : List Clause} (hembedded : embedded ⊆ embedded') (hsources : sources ⊆ sources')
    (h : ClausesOf embedded sources layers clauses) :
    ClausesOf embedded' sources' layers clauses := by
  have hmade : ∀ c ref, MadeOf embedded c ref → MadeOf embedded' c ref :=
    fun _ _ h => h.mono hembedded
  induction h with
  | nil => exact .nil
  | selection => exact .selection
  | binding hlast hlength hvalue _ ih => exact .binding hlast hlength (hvalue.mono hmade) ih
  | range hselector hkind _ ih =>
    exact .range (hselector.mono hmade) (hkind.mono hembedded hsources) ih
  | filter hpredicate _ ih => exact .filter (hpredicate.mono hmade) ih
  | ordering hkeys _ ih => exact .ordering (hkeys.imp fun k k' h => h.mono hmade) ih
  | refinement _ ih => exact .refinement ih

/-! ## Drafts -/

namespace Draft

variable {parseSub : SubParser}

/-- The draft `d'` has all nested queries of `d`, and those parsed in turn since. -/
structure Gains (parseSub : SubParser) (s : ParseState) (d : Draft) (s' : ParseState) (d' : Draft) :
    Prop where
  embedded : d.embedded ⊆ d'.embedded
  sources : d.sources ⊆ d'.sources
  inTurn : ∃ queries, parseSub.InTurn s queries s'
    ∧ (d'.embedded ++ d'.sources).Perm (d.embedded ++ d.sources ++ queries)

namespace Gains

theorem refl (s : ParseState) (d : Draft) : Gains parseSub s d s d where
  embedded := fun _ h => h
  sources := fun _ h => h
  inTurn := ⟨[], .nil, by simp⟩

theorem trans {s s₁ s' : ParseState} {d d₁ d' : Draft} (h : Gains parseSub s d s₁ d₁)
    (h' : Gains parseSub s₁ d₁ s' d') : Gains parseSub s d s' d' where
  embedded := fun _ hq => h'.embedded (h.embedded hq)
  sources := fun _ hq => h'.sources (h.sources hq)
  inTurn := by
    obtain ⟨qs, hqs, hperm⟩ := h.inTurn
    obtain ⟨qs', hqs', hperm'⟩ := h'.inTurn
    refine ⟨qs ++ qs', hqs.append hqs', hperm'.trans ?_⟩
    rw [← List.append_assoc]
    exact hperm.append_right qs'

theorem source {c : Expr} {q : Query} {s s' : ParseState} (h : (parseSub c).run s = .ok (q, s'))
    (d : Draft) : Gains parseSub s d s' { d with sources := d.sources ++ [q] } where
  embedded := fun _ h => h
  sources := by simp
  inTurn := ⟨[q], .cons h .nil, by simp⟩

end Gains

theorem replace_ok (hkeeps : parseSub.Keeps) {d d' : Draft} {e e' : Expr} {s s' : ParseState}
    (h : (d.replace parseSub e).run s = .ok ((e', d'), s')) :
    e.NestedAs (MadeOf d'.embedded) e' ∧ Gains parseSub s d s' d'
      ∧ ∃ queries, d' = d.addEmbedded queries := by
  obtain ⟨⟨e', queries⟩, s₁, hnest, h⟩ := ParseM.run_bind_ok.1 h
  obtain ⟨heq, rfl⟩ := ParseM.run_pure_ok.1 h
  cases heq
  obtain ⟨hnested, hturn⟩ := nestChains_ok hkeeps hnest
  refine ⟨hnested.mono fun c ref => MadeOf.mono (by simp [addEmbedded]), ⟨?_, ?_, ?_⟩, queries, rfl⟩
  · simp [addEmbedded]
  · simp [addEmbedded]
  · refine ⟨queries, hturn, ?_⟩
    simp only [addEmbedded, List.append_assoc]
    exact (List.perm_append_comm).append_left _

theorem replaceProjection_ok (hkeeps : parseSub.Keeps) {d d' : Draft} {e : Expr}
    {projection : Option Expr} {s s' : ParseState}
    (h : (d.replaceProjection parseSub (some e)).run s = .ok ((projection, d'), s')) :
    ∃ e', projection = some e' ∧ e.NestedAs (MadeOf d'.embedded) e' ∧ Gains parseSub s d s' d'
      ∧ ∃ queries, d' = d.addEmbedded queries := by
  obtain ⟨⟨e', d'⟩, s₁, he, h⟩ := ParseM.run_bind_ok.1 h
  obtain ⟨heq, rfl⟩ := ParseM.run_pure_ok.1 h
  cases heq
  exact ⟨e', rfl, replace_ok hkeeps he⟩

theorem replace_draft {d d' : Draft} {e e' : Expr} {s s' : ParseState}
    (h : (d.replace parseSub e).run s = .ok ((e', d'), s')) :
    ∃ queries, d' = d.addEmbedded queries := by
  obtain ⟨⟨_, queries⟩, _, _, hpure⟩ := ParseM.run_bind_ok.1 h
  cases (ParseM.run_pure_ok.1 hpure).1
  exact ⟨queries, rfl⟩

theorem replaceProjection_draft {d d' : Draft} {projection projection' : Option Expr}
    {s s' : ParseState}
    (h : (d.replaceProjection parseSub projection).run s = .ok ((projection', d'), s')) :
    ∃ queries, d' = d.addEmbedded queries := by
  cases projection with
  | none =>
    cases (ParseM.run_pure_ok.1 h).1
    exact ⟨[], by simp [addEmbedded]⟩
  | some e =>
    obtain ⟨⟨_, d₁⟩, _, hreplace, hpure⟩ := ParseM.run_bind_ok.1 h
    cases (ParseM.run_pure_ok.1 hpure).1
    exact replace_draft hreplace

theorem takeProjection_ok {d d' : Draft} {clause : String} {e : Expr}
    {projection : Option Expr} {s s' : ParseState}
    (h : (d.takeProjection clause e).run s = .ok ((projection, d'), s')) :
    s' = s ∧ ∃ rest, d.projections = projection :: rest ∧ d' = { d with projections := rest } := by
  unfold takeProjection at h
  split at h
  · exact (ParseM.run_throw_ok.1 h).elim
  · rename_i first rest hprojections
    obtain ⟨heq, rfl⟩ := ParseM.run_pure_ok.1 h
    cases heq
    exact ⟨rfl, rest, hprojections, rfl⟩

theorem boundVariable?_lambda {p x : Parameter} {body value : Expr}
    (h : boundVariable? (.lambda [p] body) = some (x, value)) :
    ∃ type arguments members m, body = .new type (arguments ++ [value]) (members ++ [m])
      ∧ arguments.length = members.length ∧ x = { name := m.name, type := m.type } := by
  unfold boundVariable? at h
  split at h
  · rename_i parameters type arguments members heq
    cases heq
    split at h
    · rename_i hlength
      split at h
      · rename_i m value' hm hvalue
        cases h
        obtain ⟨members, rfl⟩ := List.getLast?_eq_some_iff.1 hm
        obtain ⟨arguments, rfl⟩ := List.getLast?_eq_some_iff.1 hvalue
        refine ⟨type, arguments, members, m, rfl, ?_, rfl⟩
        simpa using hlength.symm
      · cases h
    · cases h
  · cases h

/-! ## Steps -/

/-- What a step can do to a draft: which expressions it replaces, in which states of the parser, and
the draft that its clause is added to. -/
inductive Stepped (parseSub : SubParser) (s : ParseState) (d : Draft) :
    Step → ParseState → Draft → Prop where
  | filter {e e' : Expr} {s' : ParseState} {d' : Draft} :
    (d.replace parseSub e).run s = .ok ((e', d'), s') →
      Stepped parseSub s d (.filter e) s' (d'.addClause (.filter e'))
  | ordering {e e' : Expr} {direction : Direction} {s' : ParseState} {d' : Draft} :
    (d.replace parseSub e).run s = .ok ((e', d'), s') →
      Stepped parseSub s d (.ordering e direction true) s'
        { d'.addClause (.ordering [{ key := e', direction }]) with
          openOrdering := some d'.body.length }
  /-- A further key is added to the ordering that is open. -/
  | refinement {e e' : Expr} {direction : Direction} {index : Nat} {s' : ParseState} {d' : Draft} :
    (d.replace parseSub e).run s = .ok ((e', d'), s') → d'.openOrdering = some index →
      Stepped parseSub s d (.ordering e direction false) s'
        { d' with body := refine d'.body index { key := e', direction } }
  /-- The chain that is ranged over is parsed after those in the projection. -/
  | nested {x : Parameter} {source chain : Expr} {projection projection' : Option Expr}
    {rest : List (Option Expr)} {q : Query} {s₁ s' : ParseState} {d' : Draft} :
    d.projections = projection :: rest →
      (replaceProjection { d with projections := rest } parseSub projection).run s
        = .ok ((projection', d'), s₁) →
      nestedChain? source = some chain → (parseSub chain).run s₁ = .ok (q, s') →
      Stepped parseSub s d (.range x source) s'
        { d'.addClause (.range { identifier := x, kind := .nested q.ref projection' }) with
          sources := d'.sources ++ [q] }
  | additional {x : Parameter} {source source' : Expr} {projection projection' : Option Expr}
    {rest : List (Option Expr)} {s₁ s' : ParseState} {d₁ d' : Draft} :
    d.projections = projection :: rest →
      (replaceProjection { d with projections := rest } parseSub projection).run s
        = .ok ((projection', d₁), s₁) →
      nestedChain? source = none → (d₁.replace parseSub source).run s₁ = .ok ((source', d'), s') →
      Stepped parseSub s d (.range x source) s'
        (d'.addClause (.range { identifier := x, kind := .additional source' projection' }))
  | binding {x : Parameter} {selector value value' : Expr} {projection : Option Expr}
    {rest : List (Option Expr)} {s' : ParseState} {d' : Draft} :
    d.projections = projection :: rest → boundVariable? selector = some (x, value) →
      (replace { d with projections := rest } parseSub value).run s = .ok ((value', d'), s') →
      Stepped parseSub s d (.binding selector) s' (d'.addClause (.range {
        identifier := x
        kind := .binding value' (projection.getD selector) }))

theorem addStep_stepped {d d' : Draft} {step : Step} {s s' : ParseState}
    (h : (d.addStep parseSub step).run s = .ok (d', s')) : d.Stepped parseSub s step s' d' := by
  cases step with
  | filter predicate =>
    obtain ⟨⟨e', d₁⟩, s₁, hreplace, h⟩ := ParseM.run_bind_ok.1 h
    obtain ⟨rfl, rfl⟩ := ParseM.run_pure_ok.1 h
    exact .filter hreplace
  | ordering key direction first =>
    obtain ⟨⟨e', d₁⟩, s₁, hreplace, h⟩ := ParseM.run_bind_ok.1 h
    cases first with
    | true =>
      obtain ⟨rfl, rfl⟩ := ParseM.run_pure_ok.1 h
      exact .ordering hreplace
    | false =>
      cases hopen : d₁.openOrdering with
      | none =>
        simp only [hopen] at h
        exact (ParseM.run_throw_ok.1 h).elim
      | some index =>
        simp only [hopen] at h
        obtain ⟨rfl, rfl⟩ := ParseM.run_pure_ok.1 h
        rw [← hopen]
        exact .refinement hreplace hopen
  | range x source =>
    obtain ⟨⟨projection, d₁⟩, s₁, htake, h⟩ := ParseM.run_bind_ok.1 h
    obtain ⟨rfl, rest, hrest, rfl⟩ := takeProjection_ok htake
    obtain ⟨⟨projection', d₁⟩, s₁, hprojection, h⟩ := ParseM.run_bind_ok.1 h
    cases hchain : nestedChain? source with
    | some chain =>
      simp only [hchain] at h
      obtain ⟨q, s₂, hq, h⟩ := ParseM.run_bind_ok.1 h
      obtain ⟨rfl, rfl⟩ := ParseM.run_pure_ok.1 h
      exact .nested hrest hprojection hchain hq
    | none =>
      simp only [hchain] at h
      obtain ⟨⟨source', d₂⟩, s₂, hsource, h⟩ := ParseM.run_bind_ok.1 h
      obtain ⟨rfl, rfl⟩ := ParseM.run_pure_ok.1 h
      exact .additional hrest hprojection hchain hsource
  | binding selector =>
    obtain ⟨⟨projection, d₁⟩, s₁, htake, h⟩ := ParseM.run_bind_ok.1 h
    obtain ⟨rfl, rest, hrest, rfl⟩ := takeProjection_ok htake
    cases hbound : boundVariable? selector with
    | none =>
      simp only [hbound] at h
      exact (ParseM.run_throw_ok.1 h).elim
    | some bound =>
      obtain ⟨x, value⟩ := bound
      simp only [hbound] at h
      obtain ⟨⟨value', d₁⟩, s₁, hvalue, h⟩ := ParseM.run_bind_ok.1 h
      obtain ⟨rfl, rfl⟩ := ParseM.run_pure_ok.1 h
      exact .binding hrest hbound hvalue

/-- The draft `d'` has one more clause than `d`, and the projections `rest` are left. -/
structure Adds (d : Draft) (clause : Clause) (rest : List (Option Expr)) (d' : Draft) : Prop where
  body : d'.body = d.body ++ [clause]
  projections : d'.projections = rest
  openOrdering : d'.openOrdering = d.openOrdering

theorem addStep_filter_ok (hkeeps : parseSub.Keeps) {d d' : Draft} {e : Expr} {s s' : ParseState}
    (h : (d.addStep parseSub (.filter e)).run s = .ok (d', s')) :
    Gains parseSub s d s' d'
      ∧ ∃ e', e.NestedAs (MadeOf d'.embedded) e' ∧ d.Adds (.filter e') d.projections d' := by
  cases addStep_stepped h with
  | filter he =>
    obtain ⟨hnested, hgains, queries, rfl⟩ := replace_ok hkeeps he
    exact ⟨⟨hgains.embedded, hgains.sources, hgains.inTurn⟩, _, hnested, ⟨rfl, rfl, rfl⟩⟩

theorem addStep_binding_ok (hkeeps : parseSub.Keeps) {d d' : Draft} {p : Parameter} {body : Expr}
    {projection : Option Expr} {rest : List (Option Expr)} {s s' : ParseState}
    (hprojections : d.projections = projection :: rest)
    (h : (d.addStep parseSub (.binding (.lambda [p] body))).run s = .ok (d', s')) :
    Gains parseSub s d s' d'
      ∧ ∃ type arguments members m value value',
        body = .new type (arguments ++ [value]) (members ++ [m])
          ∧ arguments.length = members.length ∧ value.NestedAs (MadeOf d'.embedded) value'
          ∧ d.Adds (.range {
              identifier := { name := m.name, type := m.type }
              kind := .binding value' (projection.getD (.lambda [p] body)) }) rest d' := by
  cases addStep_stepped h with
  | binding hrest hbound hvalue =>
    rw [hprojections] at hrest
    cases hrest
    obtain ⟨type, arguments, members, m, rfl, hlength, rfl⟩ := boundVariable?_lambda hbound
    obtain ⟨hnested, hgains, queries, rfl⟩ := replace_ok hkeeps hvalue
    exact ⟨⟨hgains.embedded, hgains.sources, hgains.inTurn⟩, type, arguments, members, m, _, _,
      rfl, hlength, hnested, ⟨rfl, rfl, rfl⟩⟩

theorem nestedChain?_lambda (parameters : List Parameter) (body : Expr) :
    nestedChain? (.lambda parameters body) = if body.isChain then some body else none :=
  rfl

theorem addStep_range_ok (hkeeps : parseSub.Keeps) {d d' : Draft} {p x : Parameter}
    {found selector : Expr} {rest : List (Option Expr)} {s s' : ParseState}
    (hprojections : d.projections = some selector :: rest)
    (h : (d.addStep parseSub (.range x (.lambda [p] found))).run s = .ok (d', s')) :
    Gains parseSub s d s' d'
      ∧ ∃ selector' kind, selector.NestedAs (MadeOf d'.embedded) selector'
        ∧ RangeOf d'.embedded d'.sources p found (some selector') kind
        ∧ d.Adds (.range { identifier := x, kind }) rest d' := by
  cases addStep_stepped h with
  | nested hrest hselector hfound hq =>
    rw [hprojections] at hrest
    cases hrest
    obtain ⟨selector', rfl, hnested, hgains, queries, rfl⟩ := replaceProjection_ok hkeeps hselector
    obtain ⟨hchain, hfound⟩ := Option.ite_none_right_eq_some.1 hfound
    cases hfound
    have htwice := hgains.trans (.source hq _)
    refine ⟨⟨htwice.embedded, htwice.sources, htwice.inTurn⟩, selector', _, hnested,
      .nested hchain ⟨_, ?_, hkeeps hq, rfl⟩, ⟨rfl, rfl, rfl⟩⟩
    simp
  | additional hrest hselector hfound hcollection =>
    rw [hprojections] at hrest
    cases hrest
    obtain ⟨selector', rfl, hnested, hgains, queries, rfl⟩ := replaceProjection_ok hkeeps hselector
    obtain ⟨hnested', hgains', queries', rfl⟩ := replace_ok hkeeps hcollection
    have hchain : ¬found.isChain := by simpa [nestedChain?_lambda] using hfound
    have htwice := hgains.trans hgains'
    exact ⟨⟨htwice.embedded, htwice.sources, htwice.inTurn⟩, selector', _,
      hnested.mono fun c ref => MadeOf.mono hgains'.embedded, .additional hchain hnested',
      ⟨rfl, rfl, rfl⟩⟩

/-- Adds keys to an ordering. -/
def addKeys (keys : List SortKey) : Clause → Clause
  | .ordering keys' => .ordering (keys' ++ keys)
  | clause => clause

/-- Adds keys to the open ordering of a body. -/
def refineOpen (keys : List SortKey) (openOrdering : Option Nat) (body : List Clause) :
    List Clause :=
  match openOrdering with
  | none => body
  | some index => body.modify index (addKeys keys)

theorem refineOpen_nil (openOrdering : Option Nat) (body : List Clause) :
    refineOpen [] openOrdering body = body := by
  have hid : addKeys [] = id := by
    funext clause
    cases clause <;> simp [addKeys]
  cases openOrdering <;> simp [refineOpen, hid]

theorem refineOpen_refineOpen (keys keys' : List SortKey) (openOrdering : Option Nat)
    (body : List Clause) :
    refineOpen keys' openOrdering (refineOpen keys openOrdering body)
      = refineOpen (keys ++ keys') openOrdering body := by
  have hcomp : addKeys keys' ∘ addKeys keys = addKeys (keys ++ keys') := by
    funext clause
    cases clause <;> simp [addKeys]
  cases openOrdering <;> simp [refineOpen, List.modify_modify_eq, hcomp]

theorem length_refineOpen (keys : List SortKey) (openOrdering : Option Nat) (body : List Clause) :
    (refineOpen keys openOrdering body).length = body.length := by
  cases openOrdering <;> simp [refineOpen]

theorem refineOpen_append {keys : List SortKey} {openOrdering : Option Nat} {body : List Clause}
    (h : ∀ index ∈ openOrdering, index < body.length) (clauses : List Clause) :
    refineOpen keys openOrdering (body ++ clauses)
      = refineOpen keys openOrdering body ++ clauses := by
  cases openOrdering with
  | none => rfl
  | some index =>
    have hlt : index < body.length := h index rfl
    simp only [refineOpen]
    rw [List.modify_eq_take_cons_drop hlt, List.modify_eq_take_cons_drop (by simp; omega)]
    simp [List.take_append_of_le_length (Nat.le_of_lt hlt), List.getElem_append_left hlt,
      List.drop_append_of_le_length hlt]

/-- Keys that are added to the ordering at the end of a body. -/
theorem refineOpen_last (body : List Clause) (keys keys' : List SortKey) :
    refineOpen keys' (some body.length) (body ++ [.ordering keys])
      = body ++ [.ordering (keys ++ keys')] := by
  simp only [refineOpen]
  rw [List.modify_eq_take_cons_drop (by simp)]
  simp [addKeys]

theorem addStep_ordering_ok (hkeeps : parseSub.Keeps) {d d' : Draft} {e : Expr}
    {direction : Direction} {s s' : ParseState}
    (h : (d.addStep parseSub (.ordering e direction true)).run s = .ok (d', s')) :
    Gains parseSub s d s' d'
      ∧ ∃ key, SortKey.NestedAs (MadeOf d'.embedded) { key := e, direction } key
        ∧ d'.body = d.body ++ [.ordering [key]] ∧ d'.projections = d.projections
        ∧ d'.openOrdering = some d.body.length := by
  cases addStep_stepped h with
  | @ordering _ e' _ _ _ he =>
    obtain ⟨hnested, hgains, queries, rfl⟩ := replace_ok hkeeps he
    exact ⟨⟨hgains.embedded, hgains.sources, hgains.inTurn⟩, { key := e', direction },
      ⟨hnested, rfl⟩, rfl, rfl, rfl⟩

theorem addStep_refinement_ok (hkeeps : parseSub.Keeps) {d d' : Draft} {e : Expr}
    {direction : Direction} {s s' : ParseState}
    (h : (d.addStep parseSub (.ordering e direction false)).run s = .ok (d', s')) :
    Gains parseSub s d s' d'
      ∧ ∃ key, SortKey.NestedAs (MadeOf d'.embedded) { key := e, direction } key
        ∧ d'.body = refineOpen [key] d.openOrdering d.body ∧ d'.projections = d.projections
        ∧ d'.openOrdering = d.openOrdering ∧ d.openOrdering ≠ none := by
  cases addStep_stepped h with
  | @refinement _ e' _ index _ _ he hopen =>
    obtain ⟨hnested, hgains, queries, rfl⟩ := replace_ok hkeeps he
    have hopen : d.openOrdering = some index := hopen
    refine ⟨⟨hgains.embedded, hgains.sources, hgains.inTurn⟩, { key := e', direction },
      ⟨hnested, rfl⟩, ?_, rfl, rfl, ?_⟩
    · rw [hopen]
      rfl
    · simp [hopen]

/-! ## All steps -/

namespace Adds

variable {d d₁ : Draft} {clause : Clause} {rest : List (Option Expr)}

theorem openOrdering_lt (h : d.Adds clause rest d₁)
    (hopen : ∀ index ∈ d.openOrdering, index < d.body.length) :
    ∀ index ∈ d₁.openOrdering, index < d₁.body.length := by
  intro index hindex
  have hlt := hopen index (h.openOrdering ▸ hindex)
  rw [h.body, List.length_append]
  omega

theorem refineOpen_body (h : d.Adds clause rest d₁)
    (hopen : ∀ index ∈ d.openOrdering, index < d.body.length) (keys : List SortKey)
    (clauses : List Clause) :
    refineOpen keys d₁.openOrdering d₁.body ++ clauses
      = refineOpen keys d.openOrdering d.body ++ clause :: clauses := by
  rw [h.openOrdering, h.body, refineOpen_append hopen, List.append_assoc]
  rfl

end Adds

/-- Whatever the projections left over are, they begin with the selectors of the operators whose
steps are still to come; so each clause gets the selector of its own operator. -/
theorem foldlM_addStep_ok (hkeeps : parseSub.Keeps) {layers : List Layer} {d d' : Draft}
    {rest : List (Option Expr)} {s s' : ParseState}
    (hopen : ∀ index ∈ d.openOrdering, index < d.body.length)
    (hprojections : d.projections = Layer.projections layers ++ rest)
    (h : ((topSteps layers).foldlM (addStep parseSub) d).run s = .ok (d', s')) :
    Gains parseSub s d s' d'
      ∧ ∃ keys clauses, d'.body = refineOpen keys d.openOrdering d.body ++ clauses
        ∧ List.Forall₂ (SortKey.NestedAs (MadeOf d'.embedded)) (refinements layers) keys
        ∧ ClausesOf d'.embedded d'.sources layers clauses
        ∧ (d.openOrdering = none → keys = []) := by
  induction layers generalizing d s with
  | nil =>
    obtain ⟨rfl, rfl⟩ := ParseM.run_pure_ok.1 h
    exact ⟨.refl s d, [], [], by simp [refineOpen_nil], .nil, .nil, fun _ => rfl⟩
  | cons layer layers ih =>
    cases layer with
    | select p body =>
      by_cases hlast : layers = []
      -- The last `Select` leaves no step, and its selector is left to the select clause.
      · subst hlast
        obtain ⟨rfl, rfl⟩ := ParseM.run_pure_ok.1 h
        exact ⟨.refl s d, [], [], by simp [refineOpen_nil], .nil, .selection, fun _ => rfl⟩
      · rw [topSteps_cons _ hlast, List.foldlM_cons] at h
        obtain ⟨d₁, s₁, hstep, hsteps⟩ := ParseM.run_bind_ok.1 h
        obtain ⟨hgains₁, type, arguments, members, m, value, value', rfl, hlength, hvalue, hadds⟩ :=
          addStep_binding_ok hkeeps hprojections hstep
        obtain ⟨hgains, keys, clauses, hbody, hkeys, hclauses, hnone⟩ :=
          ih (hadds.openOrdering_lt hopen) hadds.projections hsteps
        refine ⟨hgains₁.trans hgains, keys, _,
          hbody.trans (hadds.refineOpen_body hopen keys clauses), hkeys,
          .binding hlast hlength ?_ hclauses, hadds.openOrdering ▸ hnone⟩
        exact hvalue.mono fun c ref => MadeOf.mono hgains.embedded
    | selectMany p found q x body =>
      rw [topSteps.eq_3 _ _ (by simp), List.foldlM_cons] at h
      obtain ⟨d₁, s₁, hstep, hsteps⟩ := ParseM.run_bind_ok.1 h
      obtain ⟨hgains₁, selector, kind, hselector, hkind, hadds⟩ :=
        addStep_range_ok hkeeps hprojections hstep
      obtain ⟨hgains, keys, clauses, hbody, hkeys, hclauses, hnone⟩ :=
        ih (hadds.openOrdering_lt hopen) hadds.projections hsteps
      have hselector := hselector.mono fun c ref => MadeOf.mono hgains.embedded
      have hkind := hkind.mono hgains.embedded hgains.sources
      exact ⟨hgains₁.trans hgains, keys, _, hbody.trans (hadds.refineOpen_body hopen keys clauses),
        hkeys, .range hselector hkind hclauses, hadds.openOrdering ▸ hnone⟩
    | filter p body =>
      rw [topSteps.eq_3 _ _ (by simp), List.foldlM_cons] at h
      obtain ⟨d₁, s₁, hstep, hsteps⟩ := ParseM.run_bind_ok.1 h
      obtain ⟨hgains₁, predicate, hpredicate, hadds⟩ := addStep_filter_ok hkeeps hstep
      obtain ⟨hgains, keys, clauses, hbody, hkeys, hclauses, hnone⟩ :=
        ih (hadds.openOrdering_lt hopen) (hadds.projections.trans hprojections) hsteps
      refine ⟨hgains₁.trans hgains, keys, _, hbody.trans (hadds.refineOpen_body hopen keys clauses),
        hkeys, .filter ?_ hclauses, hadds.openOrdering ▸ hnone⟩
      exact hpredicate.mono fun c ref => MadeOf.mono hgains.embedded
    | ordering direction first p body =>
      rw [topSteps.eq_3 _ _ (by simp), List.foldlM_cons] at h
      obtain ⟨d₁, s₁, hstep, hsteps⟩ := ParseM.run_bind_ok.1 h
      cases first with
      | true =>
        -- The new clause is the open ordering from now on, so the keys to come are its own.
        obtain ⟨hgains₁, key, hkey, hbody₁, hprojections₁, hopen₁⟩ :=
          addStep_ordering_ok hkeeps hstep
        obtain ⟨hgains, keys, clauses, hbody, hkeys, hclauses, -⟩ :=
          ih (by simp [hopen₁, hbody₁]) (hprojections₁.trans hprojections) hsteps
        refine ⟨hgains₁.trans hgains, [], .ordering (key :: keys) :: clauses, ?_, .nil,
          .ordering (.cons ?_ hkeys) hclauses, fun _ => rfl⟩
        · rw [hbody, hopen₁, hbody₁, refineOpen_last, refineOpen_nil, List.append_assoc]
          rfl
        · exact hkey.mono fun c ref => MadeOf.mono hgains.embedded
      | false =>
        -- The key goes to the ordering that is open, whose clause stands in the body of `d`.
        obtain ⟨hgains₁, key, hkey, hbody₁, hprojections₁, hopen₁, hsome⟩ :=
          addStep_refinement_ok hkeeps hstep
        obtain ⟨hgains, keys, clauses, hbody, hkeys, hclauses, -⟩ :=
          ih (by rw [hopen₁, hbody₁, length_refineOpen]; exact hopen)
            (hprojections₁.trans hprojections) hsteps
        refine ⟨hgains₁.trans hgains, key :: keys, clauses, ?_, .cons ?_ hkeys,
          .refinement hclauses, fun hnone => absurd hnone hsome⟩
        · rw [hbody, hopen₁, hbody₁, refineOpen_refineOpen]
          rfl
        · exact hkey.mono fun c ref => MadeOf.mono hgains.embedded

end Draft

theorem getLast?_projections (layers : List Layer) :
    (Layer.projections layers ++ topGap layers).getLast? = some (lastSelector? layers) := by
  unfold topGap
  cases hlast : lastSelector? layers with
  | none => simp
  | some selector =>
    obtain ⟨layer, hlayer, hselector⟩ := Option.bind_eq_some_iff.1 hlast
    obtain ⟨before, rfl⟩ := List.getLast?_eq_some_iff.1 hlayer
    simp [Layer.projections, hselector]

/-- A query says what the operators of its chain say, where `source` is the source of the chain and
`layers` are its lambda operators. -/
structure Rendered (q : Query) (source : Expr) (layers : List Layer) : Prop where
  spine : Spine source layers q.expression q.select.distinct q.select.modifiers
  main : ∃ n, q.main
    = { identifier := mainVariable source.evaluate n layers, kind := .main source.evaluate }
  body : ClausesOf q.embedded q.sources layers q.body
  /-- No key refines an ordering that is not there. -/
  ordered : refinements layers = []
  projection : Option.Rel (Expr.NestedAs (MadeOf q.embedded)) (lastSelector? layers)
    q.select.projection

/-- What is assembled, and from what: the first step gives the main range, the others the body, and
the last projection the select clause. -/
theorem assemble_eq_ok {parseSub : SubParser} {key : Nat} {parent : Option Nat} {e : Expr}
    {c : Collected} {q : Query} {s s' : ParseState} :
    (assemble parseSub key parent e c).run s = .ok (q, s')
      ↔ ∃ identifier source steps projection d s₁ projection' d',
        c.steps = .range identifier source :: steps ∧ c.projections.getLast? = some projection
        ∧ (steps.foldlM (Draft.addStep parseSub) { projections := c.projections }).run s
          = .ok (d, s₁)
        ∧ (d.replaceProjection parseSub projection).run s₁ = .ok ((projection', d'), s')
        ∧ q = {
          key, parent
          main := { identifier, kind := .main source }
          body := d'.body
          select := {
            projection := projection'
            distinct := c.distinct
            modifiers := c.modifiers }
          expression := e
          embedded := d'.embedded
          sources := d'.sources } := by
  unfold assemble
  constructor
  · intro h
    simp only at h
    split at h
    · rename_i identifier source steps hsteps
      simp only [pure_bind] at h
      obtain ⟨d, s₁, hfold, h⟩ := ParseM.run_bind_ok.1 h
      split at h
      · rename_i projection hlast
        obtain ⟨⟨projection', d'⟩, s₂, hprojection, h⟩ := ParseM.run_bind_ok.1 h
        obtain ⟨rfl, rfl⟩ := ParseM.run_pure_ok.1 h
        exact ⟨identifier, source, steps, projection, d, s₁, projection', d', hsteps, hlast, hfold,
          hprojection, rfl⟩
      · obtain ⟨_, _, hthrow, -⟩ := ParseM.run_bind_ok.1 h
        exact (ParseM.run_throw_ok.1 hthrow).elim
    · obtain ⟨_, _, hthrow, -⟩ := ParseM.run_bind_ok.1 h
      exact (ParseM.run_throw_ok.1 hthrow).elim
  · rintro ⟨identifier, source, steps, projection, d, s₁, projection', d', hsteps, hlast, hfold,
      hprojection, rfl⟩
    simp only [hsteps, hlast, pure_bind]
    exact ParseM.run_bind_ok.2 ⟨d, s₁, hfold, ParseM.run_bind_ok.2 ⟨_, _, hprojection, rfl⟩⟩

/-- The query that is assembled from what a chain with a spine leaves. -/
theorem assemble_ok {parseSub : SubParser} (hkeeps : parseSub.Keeps) {key : Nat}
    {parent : Option Nat} {e source : Expr} {layers : List Layer} {distinct : Bool}
    {modifiers : List Modifier} {n : Nat} {q : Query} {s s' : ParseState}
    (hspine : Spine source layers e distinct modifiers)
    (h : (assemble parseSub key parent e {
        steps := .range (mainVariable source.evaluate n layers) source.evaluate :: topSteps layers
        projections := Layer.projections layers ++ topGap layers
        distinct, modifiers }).run s = .ok (q, s')) :
    q.key = key ∧ q.expression = e ∧ Rendered q source layers
      ∧ ∃ queries, parseSub.InTurn s queries s' ∧ q.children.Perm queries := by
  obtain ⟨_, _, _, _, d, s₁, projection', d', ⟨⟩, hlast, hsteps, hprojection, rfl⟩ :=
    assemble_eq_ok.1 h
  cases (getLast?_projections layers).symm.trans hlast
  obtain ⟨hgains, keys, clauses, hbody, hkeys, hclauses, hnone⟩ :=
    Draft.foldlM_addStep_ok hkeeps (by simp) rfl hsteps
  -- No ordering was open at the start, so no key was left for one.
  obtain rfl := hnone rfl
  have hordered : refinements layers = [] := by
    cases hrefinements : refinements layers with
    | nil => rfl
    | cons k ks =>
      rw [hrefinements] at hkeys
      cases hkeys
  obtain rfl : d.body = clauses := hbody
  cases hselector : lastSelector? layers with
  | none =>
    rw [hselector] at hprojection
    obtain ⟨heq, rfl⟩ := ParseM.run_pure_ok.1 hprojection
    cases heq
    obtain ⟨queries, hturn, hperm⟩ := hgains.inTurn
    exact ⟨rfl, rfl, ⟨hspine, ⟨n, rfl⟩, hclauses, hordered, by rw [hselector]; exact .none⟩,
      queries, hturn, hperm⟩
  | some selector =>
    rw [hselector] at hprojection
    obtain ⟨selector', rfl, hnested, hgains', queries', rfl⟩ :=
      Draft.replaceProjection_ok hkeeps hprojection
    obtain ⟨queries, hturn, hperm⟩ := (hgains.trans hgains').inTurn
    refine ⟨rfl, rfl, ⟨hspine, ⟨n, rfl⟩, hclauses.mono hgains'.embedded hgains'.sources, hordered,
      ?_⟩, queries, hturn, hperm⟩
    rw [hselector]
    exact .some hnested

/-! ## Parsed trees -/

/-- A chain is parsed to what is assembled of the steps that are collected along it. -/
theorem parseChain_eq_ok {depth : Nat} {parent : Option Nat} {e : Expr} {q : Query}
    {s s' : ParseState} :
    (parseChain depth parent e).run s = .ok (q, s')
      ↔ ∃ depth' c s₁, depth = depth' + 1
        ∧ (collect e none true).run { s with nextKey := s.nextKey + 1 } = .ok (c, s₁)
        ∧ (assemble (parseChain depth' (some s.nextKey)) s.nextKey parent e c).run s₁
          = .ok (q, s') := by
  cases depth with
  | zero => exact iff_of_false (fun h => (ParseM.run_throw_ok.1 h).elim) (by simp)
  | succ depth =>
    constructor
    · intro h
      obtain ⟨_, _, hkey, h⟩ := ParseM.run_bind_ok.1 h
      cases hkey
      obtain ⟨c, s₁, hc, h⟩ := ParseM.run_bind_ok.1 h
      exact ⟨depth, c, s₁, rfl, hc, h⟩
    · rintro ⟨_, c, s₁, ⟨⟩, hc, h⟩
      exact ParseM.run_bind_ok.2 ⟨_, _, rfl, ParseM.run_bind_ok.2 ⟨c, s₁, hc, h⟩⟩

/-- What parsing one chain gives: a query that renders it, over queries that are parsed in turn,
less deep. -/
theorem parseChain_ok {depth : Nat} {parent : Option Nat} {e : Expr} {q : Query}
    {s s' : ParseState} (h : (parseChain depth parent e).run s = .ok (q, s')) :
    q.key = s.nextKey ∧ q.expression = e ∧ (∃ source layers, Rendered q source layers)
      ∧ ∃ depth' s₁ queries, depth = depth' + 1 ∧ s₁.nextKey = s.nextKey + 1
        ∧ SubParser.InTurn (parseChain depth' (some q.key)) s₁ queries s'
        ∧ q.children.Perm queries := by
  induction depth generalizing parent e q s s' with
  | zero => exact (ParseM.run_throw_ok.1 h).elim
  | succ depth ih =>
    obtain ⟨_, c, s₂, ⟨⟩, hc, h⟩ := parseChain_eq_ok.1 h
    obtain ⟨source, layers, distinct, modifiers, hspine, -, hnext, rfl⟩ := collect_top_ok hc
    have hkeeps : SubParser.Keeps (parseChain depth (some s.nextKey)) := fun h => (ih h).2.1
    obtain ⟨hkey, hexpression, hrendered, queries, hturn, hperm⟩ := assemble_ok hkeeps hspine h
    exact ⟨hkey, hexpression, ⟨source, layers, hrendered⟩, depth, s₂, queries, rfl, hnext,
      hkey ▸ hturn, hperm⟩

/-- A query was parsed, as a whole or nested in another one. -/
def Query.Parsed (q : Query) : Prop :=
  ∃ depth parent s s', (parseChain depth parent q.expression).run s = .ok (q, s')

theorem SubParser.InTurn.parsed {depth : Nat} {parent : Option Nat} {s s' : ParseState}
    {queries : List Query} (h : InTurn (parseChain depth parent) s queries s') :
    ∀ q ∈ queries, q.Parsed := by
  induction h with
  | nil => simp
  | cons hq _ ih =>
    rintro q (_ | ⟨_, hmem⟩)
    · obtain rfl := (parseChain_ok hq).2.1
      exact ⟨depth, parent, _, _, hq⟩
    · exact ih q hmem

theorem Query.Parsed.child {q c : Query} (h : q.Parsed) (hc : c ∈ q.children) : c.Parsed := by
  obtain ⟨depth, parent, s, s', h⟩ := h
  obtain ⟨-, -, -, depth', s₁, queries, -, -, hturn, hperm⟩ := parseChain_ok h
  exact hturn.parsed c (hperm.mem_iff.1 hc)

theorem Query.Parsed.within {q m : Query} (h : q.Parsed) (hm : Within q m) : m.Parsed := by
  induction hm with
  | self => exact h
  | child _ hc ih => exact ih.child hc

theorem runParse_eq_ok {α : Type} {e : Expr} {firstKey : Nat} {action : ParseM α} {a : α}
    {s' : ParseState} :
    runParse e firstKey action = .ok (a, s')
      ↔ action.run { nextKey := firstKey } = .ok (a, s') := by
  unfold runParse
  split <;> rename_i hrun <;> simp [hrun]

theorem parse_eq_ok {e : Expr} {q : Query} :
    parse e = .ok q ↔ ∃ s', (parseChain e.size none e).run {} = .ok (q, s') := by
  constructor
  · intro h
    obtain ⟨⟨_, _⟩, hfrom, heq⟩ := bind_eq_ok.1 h
    cases heq
    obtain ⟨⟨_, s'⟩, hrun, heq⟩ := bind_eq_ok.1 hfrom
    cases heq
    exact ⟨s', runParse_eq_ok.1 hrun⟩
  · rintro ⟨s', h⟩
    exact bind_eq_ok.2 ⟨(q, s'.nextKey), bind_eq_ok.2 ⟨_, runParse_eq_ok.2 h, rfl⟩, rfl⟩

/-- Every query of a parsed tree renders its chain. -/
theorem rendered_of_parse {e : Expr} {q : Query} (h : parse e = .ok q) :
    q.expression = e ∧ ∀ m, Query.Within q m → ∃ source layers, Rendered m source layers := by
  obtain ⟨s', h⟩ := parse_eq_ok.1 h
  obtain rfl := (parseChain_ok h).2.1
  refine ⟨rfl, fun m hm => ?_⟩
  have hparsed : q.Parsed := ⟨_, _, _, _, h⟩
  obtain ⟨depth, parent, s, s', hm⟩ := hparsed.within hm
  exact (parseChain_ok hm).2.2.1

/-- `from s in Students from d in s.Details let g = d.Grade where g orderby s.Name asc, g desc
select Count(from x in Students where x.Active)`, spelled as a chain of operators. -/
def gradesChain : Expr :=
  let s : Parameter := { name := "s", type := "Student" }
  let d : Parameter := { name := "d", type := "Detail" }
  let t : Parameter := { name := "t", type := "Pair" }
  let u : Parameter := { name := "u", type := "Triple" }
  let students := Expr.table "Students" "Student"
  let read (p : Parameter) (name type : String) :=
    Expr.member (.parameter p) { declaringType := p.type, name, type }
  let pairs := Chain.selectMany students
    (.lambda [s] (read s "Details" "IEnumerable<Detail>"))
    (.lambda [s, d] (.anonymous "Pair" [("s", .parameter s), ("d", .parameter d)]))
  let graded := Chain.select pairs
    (.lambda [t] (.anonymous "Triple" [("t", .parameter t), ("g", read t "d" "Detail")]))
  let sorted := Chain.thenByDescending (Chain.orderBy graded
    (.lambda [u] (read u "t" "Pair"))) (.lambda [u] (read u "g" "Detail"))
  Chain.distinct (Chain.select sorted (.lambda [u]
    (Chain.result "Count" (Chain.filter students (.lambda [s] (read s "Active" "Boolean"))) [])))

theorem parse_gradesChain : ∃ q, parse gradesChain = .ok q :=
  ⟨_, rfl⟩

theorem rendered_of_parse_grades :
    ∃ q, parse gradesChain = .ok q ∧ q.expression = gradesChain
      ∧ ∀ m, Query.Within q m → ∃ source layers, Rendered m source layers :=
  ⟨_, rfl, rendered_of_parse rfl⟩

end QueryChain
