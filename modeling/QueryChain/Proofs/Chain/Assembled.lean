import QueryChain.Proofs.Chain.Faults

/-!
# Assembling any steps

Steps and projections need not be those of a chain: a query is assembled of whatever was collected.
If the chains embedded in it are parsed, five conditions on steps and projections decide whether a
query is made (`Collected.Assembles`), and then nothing of them is lost (`Query.AssembledOf`).

* `Step.allFit_iff` separates the conditions on steps, which one pass over them checks;
* `BodyOf` says what a body holds of steps and projections, and `BodyOf.append` that bodies of
  consecutive steps stand one after the other;
* `Draft.Covers` is what each step preserves. Besides, the index of the open ordering is that of the
  last one, so that a key comes last of all when it is added there, whatever clauses have followed.
-/

namespace QueryChain

open ParseM

/-! ## Conditions on steps and projections -/

namespace Step

/-- A step starts an ordering. -/
def starts : Step → Bool
  | .ordering _ _ first => first
  | .range _ _ | .filter _ | .binding _ => false

/-- A step adds its key to an ordering that was started before. -/
def refines : Step → Bool
  | .ordering _ _ first => !first
  | .range _ _ | .filter _ | .binding _ => false

/-- Each step that refines an ordering has one before it that starts an ordering, unless one is open
from the start. -/
def Refinable (steps : List Step) (isOpen : Bool) : Prop :=
  ∀ before step after, steps = before ++ step :: after →
    step.refines → isOpen ∨ ∃ start ∈ before, start.starts

end Step

/-- A lambda, quotes stripped, that makes an object with as many members as arguments, and at least
one. -/
def Expr.MakesObject (selector : Expr) : Prop :=
  ∃ parameters type arguments members,
    selector.unquoted = .lambda parameters (.new type arguments members)
      ∧ members ≠ [] ∧ members.length = arguments.length

/-- What was collected can be assembled, as far as it is not up to embedded chains. -/
structure Collected.Assembles (c : Collected) : Prop where
  range : ∃ identifier source steps, c.steps = .range identifier source :: steps
  /-- A projection is there for each step after the first that introduces a variable. -/
  enough : c.steps.tail.countP Step.introduces ≤ c.projections.length
  projection : c.projections ≠ []
  ordered : ∀ before step after, c.steps = before ++ step :: after →
    step.refines → ∃ start ∈ before, start.starts
  bound : ∀ selector, .binding selector ∈ c.steps → selector.MakesObject

namespace Draft

theorem boundVariable?_some {selector value : Expr} {x : Parameter}
    (h : boundVariable? selector = some (x, value)) :
    ∃ parameters type arguments members,
      selector.unquoted = .lambda parameters (.new type arguments members)
        ∧ members ≠ [] ∧ members.length = arguments.length ∧ value ∈ arguments := by
  unfold boundVariable? at h
  split at h
  · rename_i parameters type arguments members hselector
    split at h
    · rename_i hlength
      split at h
      · rename_i hmember hargument
        cases h
        exact ⟨parameters, type, arguments, members, hselector,
          List.ne_nil_of_mem (List.mem_of_getLast? hmember), hlength,
          List.mem_of_getLast? hargument⟩
      · cases h
    · cases h
  · cases h

/-- A selector says which variable it binds exactly if it makes an object. -/
theorem boundVariable?_isSome {selector : Expr} :
    (∃ x value, boundVariable? selector = some (x, value)) ↔ selector.MakesObject := by
  constructor
  · rintro ⟨x, value, h⟩
    obtain ⟨parameters, type, arguments, members, hselector, hmembers, hlength, -⟩ :=
      boundVariable?_some h
    exact ⟨parameters, type, arguments, members, hselector, hmembers, hlength⟩
  · rintro ⟨parameters, type, arguments, members, hselector, hmembers, hlength⟩
    have harguments : arguments ≠ [] := by
      rintro rfl
      exact hmembers (List.length_eq_zero_iff.1 hlength)
    obtain ⟨arguments, value, rfl⟩ := (List.eq_nil_or_concat' arguments).resolve_left harguments
    obtain ⟨members, m, rfl⟩ := (List.eq_nil_or_concat' members).resolve_left hmembers
    simp [boundVariable?, hselector, hlength]

end Draft

namespace Expr

theorem mem_outerChainsAll {chain e : Expr} {es : List Expr} (he : e ∈ es)
    (h : chain ∈ e.outerChains) : chain ∈ outerChainsAll es := by
  induction es with
  | nil => cases he
  | cons d es ih =>
    rw [outerChainsAll, List.mem_append]
    rcases List.mem_cons.1 he with rfl | he
    · exact .inl h
    · exact .inr (ih he)

/-- The chains in the value that a selector binds stand in no other chain of the selector. -/
theorem mem_outerChains_of_bound {chain selector value : Expr} {x : Parameter}
    (hbound : Draft.boundVariable? selector = some (x, value)) (h : chain ∈ value.outerChains) :
    chain ∈ selector.outerChains := by
  obtain ⟨parameters, type, arguments, members, hselector, -, -, hvalue⟩ :=
    Draft.boundVariable?_some hbound
  rw [← outerChains_unquoted, hselector, outerChains_lambda_eq,
    outerChains_of_not_isChain (by simp [isChain])]
  exact mem_outerChainsAll hvalue h

end Expr

namespace Step

theorem refinable_cons {step : Step} {steps : List Step} {isOpen : Bool} :
    Refinable (step :: steps) isOpen
      ↔ (step.refines → isOpen) ∧ Refinable steps (step.opens isOpen) := by
  unfold Refinable
  rw [Layer.forall_split_cons]
  -- A step that starts an ordering opens one for those after it, wherever they stand.
  have hopens : ∀ before : List Step,
      (isOpen ∨ ∃ start ∈ step :: before, start.starts)
        ↔ (step.opens isOpen ∨ ∃ start ∈ before, start.starts) := by
    intro before
    cases step with
    | ordering key direction first => cases first <;> simp [starts, opens]
    | _ => simp [starts, opens]
  simp only [hopens, List.not_mem_nil, false_and, exists_false, or_false]

theorem leaves_eq_drop (step : Step) (projections : List (Option Expr)) :
    step.leaves projections = projections.drop ([step].countP introduces) := by
  cases step <;> simp [leaves, introduces]

/-- Projections are enough for steps if the first one finds its projection and enough are left. -/
theorem countP_cons_le {step : Step} {steps : List Step} {projections : List (Option Expr)} :
    (step :: steps).countP introduces ≤ projections.length
      ↔ (step.introduces → projections ≠ [])
        ∧ steps.countP introduces ≤ (step.leaves projections).length := by
  rw [leaves_eq_drop, List.length_drop, List.countP_cons, List.countP_singleton,
    ← List.length_pos_iff]
  cases step.introduces <;> simp
  omega

section

variable {makes : Expr → Prop}

/-- When the embedded chains make queries, what is left to ask of a step. -/
theorem fits_iff {step : Step} {projections : List (Option Expr)} {isOpen : Bool}
    (hstep : ∀ chain ∈ step.expression.outerChains, makes chain)
    (hprojections : ∀ e, some e ∈ projections → ∀ chain ∈ e.outerChains, makes chain) :
    step.Fits makes projections isOpen
      ↔ (step.introduces → projections ≠ []) ∧ (step.refines → isOpen)
        ∧ ∀ selector, step = .binding selector → selector.MakesObject := by
  cases step with
  | range x source =>
    have hhead : ∀ e ∈ projections.head?.join, ∀ chain ∈ e.outerChains, makes chain := by
      intro e he
      cases projections with
      | nil => cases he
      | cons projection rest =>
        obtain rfl : projection = some e := he
        exact hprojections e List.mem_cons_self
    constructor
    · rintro ⟨hsome, -, -⟩
      exact ⟨fun _ => hsome, nofun, nofun⟩
    · rintro ⟨hsome, -, -⟩
      exact ⟨hsome rfl, hhead, hstep⟩
  | filter predicate => exact iff_of_true hstep ⟨nofun, nofun, nofun⟩
  | ordering key direction first =>
    constructor
    · rintro ⟨-, hopen⟩
      exact ⟨nofun, fun hrefines => hopen (by simpa [refines] using hrefines), nofun⟩
    · rintro ⟨-, hopen, -⟩
      exact ⟨hstep, fun hfirst => hopen (by simp [refines, hfirst])⟩
  | binding selector =>
    have hbound : (∃ x value, Draft.boundVariable? selector = some (x, value)
          ∧ ∀ chain ∈ value.outerChains, makes chain) ↔ selector.MakesObject := by
      rw [← Draft.boundVariable?_isSome]
      refine exists_congr fun x => exists_congr fun value => and_iff_left_of_imp fun h => ?_
      exact fun chain hchain => hstep chain (Expr.mem_outerChains_of_bound h hchain)
    simp [Fits, introduces, refines, hbound]

/-- When the embedded chains make queries, what is left to ask of steps: one pass over them checks
that projections are enough, that there is an ordering to refine, and what selectors bind. -/
theorem allFit_iff {steps : List Step} {projections : List (Option Expr)} {isOpen : Bool}
    (hsteps : ∀ step ∈ steps, ∀ chain ∈ step.expression.outerChains, makes chain)
    (hprojections : ∀ e, some e ∈ projections → ∀ chain ∈ e.outerChains, makes chain) :
    AllFit makes steps projections isOpen
      ↔ steps.countP introduces ≤ projections.length ∧ Refinable steps isOpen
        ∧ ∀ selector, .binding selector ∈ steps → selector.MakesObject := by
  induction steps generalizing projections isOpen with
  | nil => simp [AllFit, Refinable]
  | cons step steps ih =>
    rw [List.forall_mem_cons] at hsteps
    have hleft : ∀ e, some e ∈ step.leaves projections → ∀ chain ∈ e.outerChains, makes chain := by
      intro e he
      rw [leaves_eq_drop] at he
      exact hprojections e (List.mem_of_mem_drop he)
    have hbindings : (∀ selector, .binding selector ∈ step :: steps → selector.MakesObject)
        ↔ (∀ selector, step = .binding selector → selector.MakesObject)
          ∧ ∀ selector, .binding selector ∈ steps → selector.MakesObject := by
      simp only [List.mem_cons, or_imp, forall_and, eq_comm]
    rw [AllFit, fits_iff hsteps.1 hprojections, ih hsteps.2 hleft, countP_cons_le, refinable_cons,
      hbindings]
    tauto

end

end Step

/-! ## What steps and projections become -/

/-- The keys of an ordering. -/
def Clause.sortKeys : Clause → List SortKey
  | .ordering keys => keys
  | .range _ | .filter _ => []

/-- The projection that a range clause carries. -/
def RangeKind.projection? : RangeKind → Option Expr
  | .main _ => none
  | .additional _ projection | .nested _ projection => projection
  | .binding _ projection => some projection

namespace Step

/-- The key that a step sorts by, and its direction. -/
def sortKey? : Step → Option SortKey
  | .ordering key direction _ => some { key, direction }
  | .range _ _ | .filter _ | .binding _ => none

/-- The clause that a step is made into, up to embedded chains and to what it takes from other steps
and from a projection. -/
inductive Becomes (embedded sources : List Query) : Step → Clause → Prop where
  | additional {x : Parameter} {source source' : Expr} {projection : Option Expr} :
    Draft.nestedChain? source = none → source.NestedAs (MadeOf embedded) source' →
      Becomes embedded sources (.range x source)
        (.range { identifier := x, kind := .additional source' projection })
  | nested {x : Parameter} {source chain : Expr} {ref : QueryRef} {projection : Option Expr} :
    Draft.nestedChain? source = some chain → MadeOf sources chain ref →
      Becomes embedded sources (.range x source)
        (.range { identifier := x, kind := .nested ref projection })
  | filter {predicate predicate' : Expr} :
    predicate.NestedAs (MadeOf embedded) predicate' →
      Becomes embedded sources (.filter predicate) (.filter predicate')
  | ordering {key : Expr} {direction : Direction} {added : SortKey} {further : List SortKey} :
    SortKey.NestedAs (MadeOf embedded) { key, direction } added →
      Becomes embedded sources (.ordering key direction true) (.ordering (added :: further))
  | binding {selector value value' projection : Expr} {x : Parameter} :
    Draft.boundVariable? selector = some (x, value) → value.NestedAs (MadeOf embedded) value' →
      Becomes embedded sources (.binding selector)
        (.range { identifier := x, kind := .binding value' projection })

/-- A range clause carries the projection of its step, up to embedded chains. A binding carries it
as it is, and its own selector in place of a gap. -/
def Carries (embedded : List Query) (step : Step) (projection : Option Expr)
    (clause : RangeClause) : Prop :=
  match step with
  | .binding selector => clause.kind.projection? = some (projection.getD selector)
  | _ => Option.Rel (Expr.NestedAs (MadeOf embedded)) projection clause.kind.projection?

end Step

/-- The clauses `body` are what `steps` and `projections` become, up to the queries `embedded` in
their expressions and the queries `sources` that they range over. -/
structure BodyOf (embedded sources : List Query) (steps : List Step)
    (projections : List (Option Expr)) (body : List Clause) : Prop where
  /-- There is one clause for each step, but none for those that refine an ordering. -/
  clauses : List.Forall₂ (Step.Becomes embedded sources) (steps.filter (!·.refines)) body
  /-- The keys of all orderings, one after the other, are those of the steps. -/
  keys : List.Forall₂ (SortKey.NestedAs (MadeOf embedded)) (steps.filterMap Step.sortKey?)
    (body.flatMap Clause.sortKeys)
  /-- The clauses that introduce variables carry the projections, in order. -/
  carried : List.Forall₂ (fun taken clause => taken.1.Carries embedded taken.2 clause)
    ((steps.filter Step.introduces).zip projections) (body.filterMap Clause.range?)

/-- The query `q` is what the steps and projections in `c` become. -/
structure Query.AssembledOf (q : Query) (e : Expr) (c : Collected) : Prop where
  expression : q.expression = e
  main : ∃ identifier source steps, c.steps = .range identifier source :: steps
    ∧ q.main = { identifier, kind := .main source }
  body : BodyOf q.embedded q.sources c.steps.tail c.projections q.body
  projection : ∃ projection, c.projections.getLast? = some projection
    ∧ Option.Rel (Expr.NestedAs (MadeOf q.embedded)) projection q.select.projection
  distinct : q.select.distinct = c.distinct
  modifiers : q.select.modifiers = c.modifiers

section

variable {embedded embedded' sources sources' : List Query} {steps steps' : List Step}
  {projections : List (Option Expr)} {body body' : List Clause}

theorem rel_mono {α β : Type} {R R' : α → β → Prop} (h : ∀ a b, R a b → R' a b) {a : Option α}
    {b : Option β} (hab : Option.Rel R a b) : Option.Rel R' a b := by
  cases hab with
  | some hab => exact .some (h _ _ hab)
  | none => exact .none

theorem Step.Becomes.mono {step : Step} {clause : Clause} (hembedded : embedded ⊆ embedded')
    (hsources : sources ⊆ sources') (h : step.Becomes embedded sources clause) :
    step.Becomes embedded' sources' clause := by
  have hmade : ∀ c ref, MadeOf embedded c ref → MadeOf embedded' c ref :=
    fun _ _ h => h.mono hembedded
  cases h with
  | additional hnone hsource => exact .additional hnone (hsource.mono hmade)
  | nested hchain href => exact .nested hchain (href.mono hsources)
  | filter hpredicate => exact .filter (hpredicate.mono hmade)
  | ordering hkey => exact .ordering (hkey.mono hmade)
  | binding hbound hvalue => exact .binding hbound (hvalue.mono hmade)

theorem Step.Carries.mono {step : Step} {projection : Option Expr} {clause : RangeClause}
    (hembedded : embedded ⊆ embedded') (h : step.Carries embedded projection clause) :
    step.Carries embedded' projection clause := by
  have hmade : ∀ c ref, MadeOf embedded c ref → MadeOf embedded' c ref :=
    fun _ _ h => h.mono hembedded
  cases step with
  | binding selector => exact h
  | _ => exact rel_mono (fun e e' he => he.mono hmade) h

namespace BodyOf

theorem nil : BodyOf embedded sources [] projections [] :=
  ⟨.nil, .nil, .nil⟩

theorem mono (hembedded : embedded ⊆ embedded') (hsources : sources ⊆ sources')
    (h : BodyOf embedded sources steps projections body) :
    BodyOf embedded' sources' steps projections body where
  clauses := h.clauses.imp fun _ _ h => h.mono hembedded hsources
  keys := h.keys.imp fun _ _ h => h.mono fun _ _ h => h.mono hembedded
  carried := h.carried.imp fun _ _ h => h.mono hembedded

theorem zip_append_drop {α β : Type} (as as' : List α) (bs : List β) :
    (as ++ as').zip bs = as.zip bs ++ as'.zip (bs.drop as.length) := by
  induction as generalizing bs with
  | nil => rfl
  | cons a as ih =>
    cases bs with
    | nil => simp
    | cons b bs => simp [ih]

/-- The bodies of consecutive steps stand one after the other. -/
theorem append (h : BodyOf embedded sources steps projections body)
    (h' : BodyOf embedded sources steps' (projections.drop (steps.countP Step.introduces)) body') :
    BodyOf embedded sources (steps ++ steps') projections (body ++ body') where
  clauses := by
    rw [List.filter_append]
    exact List.rel_append h.clauses h'.clauses
  keys := by
    rw [List.filterMap_append, List.flatMap_append]
    exact List.rel_append h.keys h'.keys
  carried := by
    rw [List.filter_append, List.filterMap_append, zip_append_drop, ← List.countP_eq_length_filter]
    exact List.rel_append h.carried h'.carried

end BodyOf

end

/-! ## Steps that are added to a draft -/

/-- The clause at `index` is the last ordering of a body. -/
def LastOrdering (body : List Clause) (index : Nat) : Prop :=
  ∃ before keys after, body = before ++ .ordering keys :: after ∧ before.length = index
    ∧ ∀ clause ∈ after, clause.sortKeys = []

theorem LastOrdering.append {body : List Clause} {index : Nat} (h : LastOrdering body index)
    {clause : Clause} (hclause : clause.sortKeys = []) : LastOrdering (body ++ [clause]) index := by
  obtain ⟨before, keys, after, rfl, hlength, hafter⟩ := h
  refine ⟨before, keys, after ++ [clause], by simp, hlength, ?_⟩
  rw [List.forall_mem_append, List.forall_mem_singleton]
  exact ⟨hafter, hclause⟩

theorem forall₂_replace {α β : Type} {R : α → β → Prop} {as : List α} {before after : List β}
    {b b' : β} (h : List.Forall₂ R as (before ++ b :: after)) (hb : ∀ a, R a b → R a b') :
    List.Forall₂ R as (before ++ b' :: after) := by
  induction before generalizing as with
  | nil =>
    cases h with
    | cons hab hafter => exact .cons (hb _ hab) hafter
  | cons c before ih =>
    cases h with
    | cons hac hbefore => exact .cons hac (ih hbefore)

theorem Draft.refine_append (before after : List Clause) (keys : List SortKey) (added : SortKey) :
    refine (before ++ .ordering keys :: after) before.length added
      = before ++ .ordering (keys ++ [added]) :: after := by
  rw [refine, List.modify_eq_take_cons_drop (by simp)]
  simp

theorem LastOrdering.refine {body : List Clause} {index : Nat} (h : LastOrdering body index)
    (added : SortKey) : LastOrdering (Draft.refine body index added) index := by
  obtain ⟨before, keys, after, rfl, rfl, hafter⟩ := h
  exact ⟨before, _, after, Draft.refine_append before after keys added, rfl, hafter⟩

/-- A key that is added to the last ordering comes after all others. -/
theorem BodyOf.refine {embedded sources : List Query} {steps : List Step}
    {projections : List (Option Expr)} {body : List Clause} {index : Nat} {key : Expr}
    {direction : Direction} {added : SortKey}
    (h : BodyOf embedded sources steps projections body) (hlast : LastOrdering body index)
    (hadded : SortKey.NestedAs (MadeOf embedded) { key, direction } added) :
    BodyOf embedded sources (steps ++ [.ordering key direction false]) projections
      (Draft.refine body index added) := by
  obtain ⟨before, keys, after, rfl, rfl, hafter⟩ := hlast
  rw [Draft.refine_append]
  refine ⟨?_, ?_, ?_⟩
  · have hrefines : [Step.ordering key direction false].filter (!·.refines) = [] := rfl
    rw [List.filter_append, hrefines, List.append_nil]
    refine forall₂_replace h.clauses fun step hstep => ?_
    cases hstep with
    | ordering hkey => exact .ordering hkey
  · have hnone : after.flatMap Clause.sortKeys = [] := List.flatMap_eq_nil_iff.2 hafter
    have hkeys := h.keys
    simp only [List.flatMap_append, List.flatMap_cons, hnone, Clause.sortKeys, List.append_nil,
      List.filterMap_append] at hkeys ⊢
    rw [← List.append_assoc]
    exact List.rel_append hkeys (.cons hadded .nil)
  · have hcarried := h.carried
    simpa [List.filterMap_cons, Step.introduces, Clause.range?] using hcarried

namespace Draft

variable {parseSub : SubParser}

theorem replaceProjection_rel (hkeeps : parseSub.Keeps) {d d' : Draft}
    {projection projection' : Option Expr} {s s' : ParseState}
    (h : (d.replaceProjection parseSub projection).run s = .ok ((projection', d'), s')) :
    Option.Rel (Expr.NestedAs (MadeOf d'.embedded)) projection projection'
      ∧ Gains parseSub s d s' d' ∧ ∃ queries, d' = d.addEmbedded queries := by
  cases projection with
  | none =>
    obtain ⟨heq, rfl⟩ := run_pure_ok.1 h
    cases heq
    exact ⟨.none, .refl _ _, [], by simp [addEmbedded]⟩
  | some e =>
    obtain ⟨e', rfl, hnested, hgains, hqueries⟩ := replaceProjection_ok hkeeps h
    exact ⟨.some hnested, hgains, hqueries⟩

/-- The draft `d` holds what `steps` become, and `projections` without those they took. -/
structure Covers (d : Draft) (steps : List Step) (projections : List (Option Expr)) : Prop where
  body : BodyOf d.embedded d.sources steps projections d.body
  left : d.projections = projections.drop (steps.countP Step.introduces)
  openOrdering : ∀ index ∈ d.openOrdering, LastOrdering d.body index

namespace Covers

variable {d d' : Draft} {steps : List Step} {projections : List (Option Expr)}

/-- The open ordering stays the last one if a clause without keys is added. -/
theorem openOrdering_append (h : d.Covers steps projections) {clause : Clause}
    (hclause : clause.sortKeys = []) :
    ∀ index ∈ d.openOrdering, LastOrdering (d.body ++ [clause]) index :=
  fun index hindex => (h.openOrdering index hindex).append hclause

/-- What holds of a draft after some steps holds with one step more. -/
theorem addStep (hkeeps : parseSub.Keeps) {step : Step} {s s' : ParseState}
    (h : d.Covers steps projections)
    (hstep : (d.addStep parseSub step).run s = .ok (d', s')) :
    d'.Covers (steps ++ [step]) projections := by
  have hleft : d'.projections = projections.drop ((steps ++ [step]).countP Step.introduces) := by
    rw [(addStep_leaves hstep).1, h.left, Step.leaves_eq_drop, List.drop_drop, List.countP_append]
  have htaken : ∀ {projection rest}, d.projections = projection :: rest →
      projections.drop (steps.countP Step.introduces) = projection :: rest :=
    fun hrest => h.left.symm.trans hrest
  cases addStep_stepped hstep with
  | filter he =>
    obtain ⟨hnested, hgains, queries, rfl⟩ := replace_ok hkeeps he
    refine ⟨(h.body.mono hgains.embedded hgains.sources).append ?_, hleft,
      h.openOrdering_append rfl⟩
    exact ⟨.cons (.filter hnested) .nil, .nil, .nil⟩
  | ordering he =>
    obtain ⟨hnested, hgains, queries, rfl⟩ := replace_ok hkeeps he
    refine ⟨(h.body.mono hgains.embedded hgains.sources).append ?_, hleft, ?_⟩
    · exact ⟨.cons (.ordering ⟨hnested, rfl⟩) .nil, .cons ⟨hnested, rfl⟩ .nil, .nil⟩
    · rintro _ ⟨⟩
      exact ⟨d.body, _, [], rfl, rfl, nofun⟩
  | refinement he hopen =>
    -- No clause is added, and as no ordering follows the open one, the key is the last of all.
    obtain ⟨hnested, hgains, queries, rfl⟩ := replace_ok hkeeps he
    have hlast := h.openOrdering _ hopen
    refine ⟨(h.body.mono hgains.embedded hgains.sources).refine hlast ⟨hnested, rfl⟩, hleft, ?_⟩
    intro index hindex
    cases hopen.symm.trans hindex
    exact hlast.refine _
  | nested hrest hprojection hchain hq =>
    obtain ⟨hcarried, hgains, queries, rfl⟩ := replaceProjection_rel hkeeps hprojection
    have hgains := hgains.trans (.source hq _)
    refine ⟨(h.body.mono hgains.embedded hgains.sources).append ?_, hleft,
      h.openOrdering_append rfl⟩
    rw [htaken hrest]
    refine ⟨.cons (.nested hchain ⟨_, ?_, hkeeps hq, rfl⟩) .nil, .nil, .cons hcarried .nil⟩
    exact List.mem_append_right _ (List.mem_singleton_self _)
  | additional hrest hprojection hnone hsource =>
    -- The projection was replaced before the source, so it is carried with fewer nested queries.
    obtain ⟨hcarried, hgains, queries, rfl⟩ := replaceProjection_rel hkeeps hprojection
    obtain ⟨hnested, hgains', queries', rfl⟩ := replace_ok hkeeps hsource
    have htwice := hgains.trans hgains'
    refine ⟨(h.body.mono htwice.embedded htwice.sources).append ?_, hleft,
      h.openOrdering_append rfl⟩
    rw [htaken hrest]
    refine ⟨.cons (.additional hnone hnested) .nil, .nil, .cons (rel_mono ?_ hcarried) .nil⟩
    exact fun _ _ he => he.mono fun _ _ hmade => hmade.mono hgains'.embedded
  | binding hrest hbound hvalue =>
    obtain ⟨hnested, hgains, queries, rfl⟩ := replace_ok hkeeps hvalue
    refine ⟨(h.body.mono hgains.embedded hgains.sources).append ?_, hleft,
      h.openOrdering_append rfl⟩
    rw [htaken hrest]
    exact ⟨.cons (.binding hbound hnested) .nil, .nil, .cons rfl .nil⟩

/-- By induction on the steps that are still to come. -/
theorem foldlM (hkeeps : parseSub.Keeps) {further : List Step} {s s' : ParseState}
    (h : d.Covers steps projections)
    (hrun : (further.foldlM (Draft.addStep parseSub) d).run s = .ok (d', s')) :
    d'.Covers (steps ++ further) projections := by
  induction further generalizing d steps s with
  | nil =>
    obtain ⟨rfl, rfl⟩ := run_pure_ok.1 hrun
    rwa [List.append_nil]
  | cons step further ih =>
    rw [List.foldlM_cons] at hrun
    obtain ⟨d₁, s₁, hstep, hfurther⟩ := run_bind_ok.1 hrun
    rw [List.append_cons]
    exact ih (h.addStep hkeeps hstep) hfurther

end Covers

end Draft

/-- A query holds what it was assembled of. -/
theorem Query.AssembledOf.of_assemble {parseSub : SubParser} (hkeeps : parseSub.Keeps) {key : Nat}
    {parent : Option Nat} {e : Expr} {c : Collected} {q : Query} {s s' : ParseState}
    (h : (assemble parseSub key parent e c).run s = .ok (q, s')) : q.AssembledOf e c := by
  obtain ⟨identifier, source, steps, projection, d, s₁, projection', d', hsteps, hlast, hfold,
    hprojection, rfl⟩ := assemble_eq_ok.1 h
  have hstart : Draft.Covers { projections := c.projections } [] c.projections :=
    ⟨.nil, rfl, by simp⟩
  have hcovers := hstart.foldlM hkeeps hfold
  obtain ⟨hselected, hgains, queries, rfl⟩ := Draft.replaceProjection_rel hkeeps hprojection
  refine ⟨rfl, ⟨identifier, source, steps, hsteps, rfl⟩, ?_, ⟨projection, hlast, hselected⟩, rfl,
    rfl⟩
  rw [hsteps]
  exact hcovers.body.mono hgains.embedded hgains.sources

/-! ## Queries of hand-made collections -/

/-- The expressions that were collected, without the source of the main range, which no chain is
looked for in. -/
def Collected.expressions (c : Collected) : List Expr :=
  c.steps.tail.map Step.expression ++ c.projections.filterMap id

theorem Collected.size_le {c : Collected} {d : Expr} (h : d ∈ c.expressions) : d.size ≤ c.size := by
  rcases List.mem_append.1 h with h | h
  · obtain ⟨step, hstep, rfl⟩ := List.mem_map.1 h
    have := Expr.size_le_sizeAll (List.mem_map_of_mem (f := Step.expression)
      (List.mem_of_mem_tail hstep))
    simp only [size]
    omega
  · have := Expr.size_le_sizeAll h
    simp only [size]
    omega

/-- The conditions for what follows the first step are those on steps that are added to a draft. -/
theorem Collected.assembles_iff {c : Collected} :
    c.Assembles
      ↔ (∃ identifier source steps, c.steps = .range identifier source :: steps
          ∧ steps.countP Step.introduces ≤ c.projections.length ∧ Step.Refinable steps false
          ∧ ∀ selector, .binding selector ∈ steps → selector.MakesObject)
        ∧ c.projections ≠ [] := by
  have hfirst : ∀ identifier source steps, Step.Refinable steps false
      ↔ ∀ before step after, Step.range identifier source :: steps = before ++ step :: after →
        step.refines → ∃ start ∈ before, start.starts := by
    intro identifier source steps
    have hcons : Step.Refinable (.range identifier source :: steps) false
        ↔ _ ∧ Step.Refinable steps false := Step.refinable_cons
    simpa [Step.Refinable, Step.refines] using hcons.symm
  constructor
  · rintro ⟨⟨identifier, source, steps, hsteps⟩, henough, hprojection, hordered, hbound⟩
    rw [hsteps] at henough hordered hbound
    exact ⟨⟨identifier, source, steps, hsteps, henough, (hfirst _ _ _).2 hordered,
      fun selector h => hbound selector (List.mem_cons_of_mem _ h)⟩, hprojection⟩
  · rintro ⟨⟨identifier, source, steps, hsteps, henough, hordered, hbound⟩, hprojection⟩
    refine ⟨⟨identifier, source, steps, hsteps⟩, by rwa [hsteps], hprojection, ?_, ?_⟩
    · rw [hsteps]
      exact (hfirst _ _ _).1 hordered
    · intro selector h
      rw [hsteps] at h
      exact hbound selector ((List.mem_cons.1 h).resolve_left nofun)

section

variable {e : Expr} {c : Collected}

/-- Whatever was counted before, a query is assembled exactly if the conditions on steps and
projections are met. -/
theorem succeeds_assemble_iff
    (hchains : ∀ d ∈ c.expressions, ∀ chain ∈ d.outerChains, ∃ q, parse chain = .ok q)
    {depth : Nat} (hdepth : c.size ≤ depth) (key : Nat) (parent : Option Nat) (s : ParseState) :
    Succeeds (assemble (parseChain depth (some key)) key parent e c) s ↔ c.Assembles := by
  have hmakes : ∀ d ∈ c.expressions, ∀ chain ∈ d.outerChains, chain.MakesWithin depth := by
    intro d hd chain hchain
    refine ((parse_ok_iff chain).1 (hchains d hd chain hchain)).makesWithin ?_
    have := Expr.size_le_of_mem_parts (Expr.mem_parts_of_mem_outerChains hchain)
    have := Collected.size_le hd
    omega
  have hprojections : ∀ d, some d ∈ c.projections → ∀ chain ∈ d.outerChains,
      chain.MakesWithin depth := by
    intro d hd
    exact hmakes d (List.mem_append_right _ (List.mem_filterMap.2 ⟨some d, hd, rfl⟩))
  rw [succeeds_assemble (parseChain_decides depth (some key)), Collected.assembles_iff]
  refine and_congr ?_ ?_
  · refine exists_congr fun identifier => exists_congr fun source => exists_congr fun steps =>
      and_congr_right fun hsteps => Step.allFit_iff (fun step hstep => ?_) hprojections
    refine hmakes _ (List.mem_append_left _ (List.mem_map_of_mem ?_))
    rwa [hsteps]
  · constructor
    · rintro ⟨projection, hlast, -⟩ hnil
      simp [hnil] at hlast
    · intro hsome
      obtain ⟨projection, hlast⟩ :=
        Option.ne_none_iff_exists'.1 (List.getLast?_eq_none_iff.not.2 hsome)
      refine ⟨projection, hlast, fun d hd => hprojections d ?_⟩
      rw [← Option.mem_def.1 hd]
      exact List.mem_of_getLast? hlast

theorem assembleQuery_eq_ok {q : Query} :
    assembleQuery e c = .ok q ↔ ∃ s', (assemble (parseChain c.size (some 0)) 0 none e c).run
      { nextKey := 1 } = .ok (q, s') := by
  constructor
  · intro h
    obtain ⟨⟨_, s'⟩, hrun, heq⟩ := bind_eq_ok.1 h
    cases heq
    obtain ⟨_, _, hkey, h⟩ := run_bind_ok.1 (runParse_eq_ok.1 hrun)
    cases hkey
    exact ⟨s', h⟩
  · rintro ⟨s', h⟩
    exact bind_eq_ok.2 ⟨(q, s'), runParse_eq_ok.2 (run_bind_ok.2 ⟨0, _, rfl, h⟩), rfl⟩

/-- Steps and projections in which all embedded chains are parsed make a query exactly if the first
step is a range, projections are enough, each key refines an ordering and each binding says what it
binds. The query then holds all of them, in order. Neither depends on what was counted before. -/
theorem assembled_of_collected
    (hchains : ∀ d ∈ c.expressions, ∀ chain ∈ d.outerChains, ∃ q, parse chain = .ok q) :
    (((∃ q, assembleQuery e c = .ok q) ↔ c.Assembles)
        ∧ ∀ q, assembleQuery e c = .ok q → q.AssembledOf e c)
      ∧ ∀ depth key parent s, c.size ≤ depth →
        (Succeeds (assemble (parseChain depth (some key)) key parent e c) s ↔ c.Assembles)
          ∧ ∀ q s', (assemble (parseChain depth (some key)) key parent e c).run s = .ok (q, s') →
            q.AssembledOf e c := by
  have hkeeps : ∀ depth parent, SubParser.Keeps (parseChain depth parent) :=
    fun _ _ _ _ _ _ h => (parseChain_ok h).2.1
  refine ⟨⟨?_, fun q h => ?_⟩, fun depth key parent s hdepth =>
    ⟨succeeds_assemble_iff hchains hdepth key parent s, fun q s' h => .of_assemble (hkeeps _ _) h⟩⟩
  · rw [← succeeds_assemble_iff hchains (Nat.le_refl _) 0 none { nextKey := 1 }]
    exact exists_congr fun q => assembleQuery_eq_ok
  · obtain ⟨s', h⟩ := assembleQuery_eq_ok.1 h
    exact .of_assemble (hkeeps _ _) h

end

/-- `Any(from s in Students where s.Active)`. -/
def anyActive : Expr :=
  let s : Parameter := { name := "s", type := "Student" }
  let active := Expr.member (.parameter s)
    { declaringType := "Student", name := "Active", type := "Boolean" }
  Chain.result "Any" (Chain.filter (Expr.table "Students" "Student") (.lambda [s] active)) []

/-- Students ordered by name, their details and a binding for the grade, where any student is
active, ordered by grade within each name: filled in by hand, the second key far from the first. -/
def gradesCollected : Collected :=
  let s : Parameter := { name := "s", type := "Student" }
  let d : Parameter := { name := "d", type := "Detail" }
  let t : Parameter := { name := "t", type := "Pair" }
  let u : Parameter := { name := "u", type := "Triple" }
  let students := Expr.table "Students" "Student"
  let read (p : Parameter) (name type : String) :=
    Expr.member (.parameter p) { declaringType := p.type, name, type }
  { steps := [
      .range s students,
      .ordering (.lambda [s] (read s "Name" "String")) .ascending true,
      .range d (.lambda [s] (read s "Details" "IEnumerable<Detail>")),
      .binding (.lambda [t]
        (.anonymous "Triple" [("t", .parameter t), ("g", read t "d" "Detail")])),
      .filter (.lambda [u] anyActive),
      .ordering (.lambda [u] (read u "g" "Detail")) .descending false]
    projections := [
      some (.lambda [s, d] (.anonymous "Pair" [("s", .parameter s), ("d", .parameter d)])),
      none, none] }

theorem assembled_of_collected_grades :
    (∀ d ∈ gradesCollected.expressions, ∀ chain ∈ d.outerChains, ∃ q, parse chain = .ok q)
      ∧ gradesCollected.Assembles
      ∧ ∃ q, assembleQuery gradesChain gradesCollected = .ok q
        ∧ q.AssembledOf gradesChain gradesCollected ∧ q.body.length = 4
        ∧ (q.body.flatMap Clause.sortKeys).map SortKey.direction = [.ascending, .descending] := by
  have hchains : ∀ d ∈ gradesCollected.expressions, ∀ chain ∈ d.outerChains,
      ∃ q, parse chain = .ok q := by
    have houter : gradesCollected.expressions.flatMap Expr.outerChains = [anyActive] := by
      simp [gradesCollected, Collected.expressions, Step.expression, Expr.outerChains,
        Expr.outerChainsAll, Expr.subterms, Expr.isChain, Expr.anonymous, anyActive, Chain.result,
        Chain.filter, Operator.ofName?, isResultMethod, resultMethods]
    intro d hd chain hchain
    obtain rfl : chain = anyActive :=
      List.mem_singleton.1 (houter ▸ List.mem_flatMap.2 ⟨d, hd, hchain⟩)
    exact ⟨_, rfl⟩
  obtain ⟨⟨hassembles, hof⟩, -⟩ := assembled_of_collected (e := gradesChain) hchains
  have hassembled : ∃ q, assembleQuery gradesChain gradesCollected = .ok q ∧ q.body.length = 4
      ∧ (q.body.flatMap Clause.sortKeys).map SortKey.direction = [.ascending, .descending] :=
    ⟨_, rfl, rfl, rfl⟩
  obtain ⟨q, hq, hlength, hdirections⟩ := hassembled
  exact ⟨hchains, hassembles.1 ⟨q, hq⟩, q, hq, hof q hq, hlength, hdirections⟩

end QueryChain
