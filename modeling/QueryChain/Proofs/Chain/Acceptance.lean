import QueryChain.Proofs.Chain.Clauses
import QueryChain.Proofs.Chain.Scanned
import QueryChain.Proofs.Expr.Substitution

/-!
# Which chains are parsed

A parse can fail while a chain is collected, while its steps are paired with projections, and inside
an embedded chain. All of these together come to rules that can be read off the chain
(`Expr.MakesQuery`), and `parse_ok_iff` says that a chain is parsed exactly if they are kept.

* `Draft.succeeds_addStep` says when one step can become a clause, and `Draft.addStep_leaves` what
  it leaves to the next one: the projections not yet taken and whether an ordering is open;
* `succeeds_assemble` follows by induction on the steps, for steps collected in any way;
* `Layer.allFit_topSteps` reads the conditions off the operators of a chain;
* `parseChain_decides` carries them through chains embedded in one another.

Whether an embedded chain makes a query does not depend on what was counted before it, which is what
lets the conditions on all of them stand side by side (`SubParser.Decides`).
-/

namespace QueryChain

namespace ParseM

variable {α β : Type} {s : ParseState}

/-- A parse that starts in the state `s` finds no fault. -/
def Succeeds (x : ParseM α) (s : ParseState) : Prop :=
  ∃ a s', x.run s = .ok (a, s')

theorem succeeds_pure (a : α) (s : ParseState) : Succeeds (pure a) s :=
  ⟨a, s, rfl⟩

theorem not_succeeds_throw (fault : ChainFault) (s : ParseState) :
    ¬Succeeds (throw fault : ParseM α) s := by
  rintro ⟨_, _, h⟩
  exact ParseM.run_throw_ok.1 h

theorem not_succeeds_throw_bind (fault : ChainFault) (f : α → ParseM β) (s : ParseState) :
    ¬Succeeds (throw fault >>= f) s := by
  rintro ⟨_, _, h⟩
  obtain ⟨_, _, hthrow, -⟩ := ParseM.run_bind_ok.1 h
  exact ParseM.run_throw_ok.1 hthrow

theorem succeeds_map {x : ParseM α} {f : α → β} : Succeeds (f <$> x) s ↔ Succeeds x s := by
  constructor
  · rintro ⟨_, s', h⟩
    obtain ⟨a, ha, -⟩ := ParseM.run_map_ok.1 h
    exact ⟨a, s', ha⟩
  · rintro ⟨a, s', h⟩
    exact ⟨f a, s', ParseM.run_map_ok.2 ⟨a, h, rfl⟩⟩

/-- A parse followed by another one succeeds if both do, where what is found first matters to the
second one by no more than `P` says. -/
theorem succeeds_bind {x : ParseM α} {f : α → ParseM β} {P : Prop}
    (h : ∀ a s₁, x.run s = .ok (a, s₁) → (Succeeds (f a) s₁ ↔ P)) :
    Succeeds (x >>= f) s ↔ Succeeds x s ∧ P := by
  constructor
  · rintro ⟨b, s', hrun⟩
    obtain ⟨a, s₁, ha, hb⟩ := ParseM.run_bind_ok.1 hrun
    exact ⟨⟨a, s₁, ha⟩, (h a s₁ ha).1 ⟨b, s', hb⟩⟩
  · rintro ⟨⟨a, s₁, ha⟩, hP⟩
    obtain ⟨b, s', hb⟩ := (h a s₁ ha).2 hP
    exact ⟨b, s', ParseM.run_bind_ok.2 ⟨a, s₁, ha, hb⟩⟩

theorem succeeds_bind_pure {x : ParseM α} {f : α → β} :
    Succeeds (do return f (← x)) s ↔ Succeeds x s :=
  (succeeds_bind fun a s₁ _ => iff_of_true (succeeds_pure (f a) s₁) trivial).trans
    (and_iff_left trivial)

end ParseM

open ParseM

/-- Whatever was counted before, `parseSub` makes a query of a chain exactly if `makes` holds. -/
def SubParser.Decides (parseSub : SubParser) (makes : Expr → Prop) : Prop :=
  ∀ c s, Succeeds (parseSub c) s ↔ makes c

/-! ## Steps that become clauses -/

namespace Step

/-- The projections that a step leaves to the steps after it. -/
def leaves : Step → List (Option Expr) → List (Option Expr)
  | .range _ _, projections | .binding _, projections => projections.tail
  | .filter _, projections | .ordering _ _ _, projections => projections

/-- Whether there is an ordering to refine after a step. -/
def opens : Step → Bool → Bool
  | .ordering _ _ true, _ => true
  | _, isOpen => isOpen

/-- A step can become a clause: the chains embedded in it make queries, a projection is left for it
if it introduces a variable, its selector says which variable if it is a binding, and there is an
ordering if it is to refine one. -/
def Fits (makes : Expr → Prop) (projections : List (Option Expr)) (isOpen : Bool) : Step → Prop
  | .range _ source =>
    projections ≠ [] ∧ (∀ e ∈ projections.head?.join, ∀ c ∈ e.outerChains, makes c)
      ∧ ∀ c ∈ source.outerChains, makes c
  | .filter predicate => ∀ c ∈ predicate.outerChains, makes c
  | .ordering key _ first => (∀ c ∈ key.outerChains, makes c) ∧ (first = false → isOpen)
  | .binding selector =>
    projections ≠ [] ∧ ∃ x value, Draft.boundVariable? selector = some (x, value)
      ∧ ∀ c ∈ value.outerChains, makes c

/-- Steps can become clauses one after the other. -/
def AllFit (makes : Expr → Prop) : List Step → List (Option Expr) → Bool → Prop
  | [], _, _ => True
  | step :: steps, projections, isOpen =>
    step.Fits makes projections isOpen
      ∧ AllFit makes steps (step.leaves projections) (step.opens isOpen)

end Step

section

variable {parseSub : SubParser} {makes : Expr → Prop}

theorem SubParser.Decides.mapM (h : parseSub.Decides makes) (cs : List Expr) (s : ParseState) :
    Succeeds (cs.mapM parseSub) s ↔ ∀ c ∈ cs, makes c := by
  induction cs generalizing s with
  | nil => exact iff_of_true (succeeds_pure [] s) (by simp)
  | cons c cs ih =>
    rw [List.mapM_cons, List.forall_mem_cons, ← h c s]
    refine succeeds_bind fun q s₁ _ => ?_
    rw [← ih s₁]
    exact succeeds_bind_pure

theorem SubParser.Decides.nestChains (h : parseSub.Decides makes) (e : Expr) (s : ParseState) :
    Succeeds (nestChains parseSub e) s ↔ ∀ c ∈ e.outerChains, makes c := by
  rw [nestChains_eq, succeeds_map]
  exact h.mapM e.outerChains s

namespace Draft

theorem succeeds_replace (h : parseSub.Decides makes) (d : Draft) (e : Expr) (s : ParseState) :
    Succeeds (d.replace parseSub e) s ↔ ∀ c ∈ e.outerChains, makes c :=
  succeeds_bind_pure.trans (h.nestChains e s)

theorem succeeds_replaceProjection (h : parseSub.Decides makes) (d : Draft)
    (projection : Option Expr) (s : ParseState) :
    Succeeds (d.replaceProjection parseSub projection) s
      ↔ ∀ e ∈ projection, ∀ c ∈ e.outerChains, makes c := by
  cases projection with
  | none => exact iff_of_true (succeeds_pure (none, d) s) (by simp)
  | some e =>
    refine (succeeds_bind_pure.trans (succeeds_replace h d e s)).trans ?_
    simp

theorem succeeds_takeProjection (d : Draft) (clause : String) (e : Expr) (s : ParseState) :
    Succeeds (d.takeProjection clause e) s ↔ d.projections ≠ [] := by
  unfold takeProjection
  split
  · rename_i hnone
    exact iff_of_false (not_succeeds_throw _ s) (by simp [hnone])
  · rename_i hsome
    exact iff_of_true (succeeds_pure _ s) (by simp [hsome])

/-- A step is added to a draft without a fault exactly if it fits. -/
theorem succeeds_addStep (h : parseSub.Decides makes) (d : Draft) (step : Step) (s : ParseState) :
    Succeeds (d.addStep parseSub step) s
      ↔ step.Fits makes d.projections d.openOrdering.isSome := by
  cases step with
  | filter predicate => exact succeeds_bind_pure.trans (succeeds_replace h d predicate s)
  | ordering key direction first =>
    refine (succeeds_bind fun replaced s₁ hreplace => ?_).trans
      (and_congr_left' (succeeds_replace h d key s))
    obtain ⟨⟨_, queries⟩, _, _, hpure⟩ := run_bind_ok.1 hreplace
    cases (run_pure_ok.1 hpure).1
    cases first with
    | true => exact iff_of_true (succeeds_pure _ _) (by simp)
    | false =>
      cases hopen : d.openOrdering with
      | none =>
        simp only [addEmbedded, hopen]
        exact iff_of_false (not_succeeds_throw _ _) (by simp)
      | some index =>
        simp only [addEmbedded, hopen]
        exact iff_of_true (succeeds_pure _ _) (by simp)
  | range identifier source =>
    refine (succeeds_bind fun taken s₁ htake => ?_).trans
      (and_congr_left' (succeeds_takeProjection d _ _ s))
    obtain ⟨projection, d₁⟩ := taken
    obtain ⟨rfl, rest, hrest, rfl⟩ := takeProjection_ok htake
    simp only [hrest, List.head?_cons, Option.join_some]
    refine (succeeds_bind fun replaced s₁ _ => ?_).trans
      (and_congr_left' (succeeds_replaceProjection h _ projection s₁))
    obtain ⟨_, d₁⟩ := replaced
    cases hchain : nestedChain? source with
    | some chain =>
      rw [outerChains_of_nestedChain? hchain, List.forall_mem_singleton, ← h chain s₁]
      exact succeeds_bind_pure
    | none => exact succeeds_bind_pure.trans (succeeds_replace h d₁ source s₁)
  | binding selector =>
    refine (succeeds_bind fun taken s₁ htake => ?_).trans
      (and_congr_left' (succeeds_takeProjection d _ _ s))
    obtain ⟨projection, d₁⟩ := taken
    obtain ⟨rfl, rest, hrest, rfl⟩ := takeProjection_ok htake
    cases hbound : boundVariable? selector with
    | none => exact iff_of_false (not_succeeds_throw _ s₁) (by simp)
    | some bound =>
      obtain ⟨x, value⟩ := bound
      simp only [Option.some.injEq, Prod.mk.injEq, ↓existsAndEq, true_and]
      exact succeeds_bind_pure.trans (succeeds_replace h _ value s₁)

/-- What a step leaves to the steps after it. -/
theorem addStep_leaves {d d' : Draft} {step : Step} {s s' : ParseState}
    (h : (d.addStep parseSub step).run s = .ok (d', s')) :
    d'.projections = step.leaves d.projections
      ∧ d'.openOrdering.isSome = step.opens d.openOrdering.isSome := by
  cases addStep_stepped h with
  | filter hreplace | ordering hreplace | refinement hreplace =>
    obtain ⟨queries, rfl⟩ := replace_draft hreplace
    exact ⟨rfl, rfl⟩
  | nested hrest hprojection =>
    obtain ⟨queries, rfl⟩ := replaceProjection_draft hprojection
    exact ⟨by simp [Step.leaves, hrest, addClause, addEmbedded], rfl⟩
  | additional hrest hprojection _ hsource =>
    obtain ⟨queries, rfl⟩ := replaceProjection_draft hprojection
    obtain ⟨queries', rfl⟩ := replace_draft hsource
    exact ⟨by simp [Step.leaves, hrest, addClause, addEmbedded], rfl⟩
  | binding hrest _ hvalue =>
    obtain ⟨queries, rfl⟩ := replace_draft hvalue
    exact ⟨by simp [Step.leaves, hrest, addClause, addEmbedded], rfl⟩

theorem succeeds_foldlM (h : parseSub.Decides makes) (steps : List Step) (d : Draft)
    (s : ParseState) :
    Succeeds (steps.foldlM (addStep parseSub) d) s
      ↔ Step.AllFit makes steps d.projections d.openOrdering.isSome := by
  induction steps generalizing d s with
  | nil => exact iff_of_true (succeeds_pure d s) trivial
  | cons step steps ih =>
    rw [List.foldlM_cons, Step.AllFit]
    refine (succeeds_bind fun d₁ s₁ hstep => ?_).trans
      (and_congr_left' (succeeds_addStep h d step s))
    obtain ⟨hprojections, hopen⟩ := addStep_leaves hstep
    rw [ih, hprojections, hopen]

end Draft

/-- A query is assembled from collected steps without a fault exactly if the first one is a range,
the steps after it fit, and a projection is there to select, whose chains make queries. -/
theorem succeeds_assemble (h : parseSub.Decides makes) (key : Nat) (parent : Option Nat) (e : Expr)
    (c : Collected) (s : ParseState) :
    Succeeds (assemble parseSub key parent e c) s
      ↔ (∃ identifier source steps, c.steps = .range identifier source :: steps
          ∧ Step.AllFit makes steps c.projections false)
        ∧ ∃ projection, c.projections.getLast? = some projection
          ∧ ∀ e ∈ projection, ∀ c ∈ e.outerChains, makes c := by
  unfold assemble
  simp only
  split
  · rename_i identifier source steps hsteps
    simp only [pure_bind, hsteps, List.cons.injEq, Step.range.injEq, ↓existsAndEq, and_true,
      true_and]
    refine (succeeds_bind fun d s₁ _ => ?_).trans
      (and_congr_left' (Draft.succeeds_foldlM h steps _ s))
    split
    · rename_i projection hlast
      simp only [hlast, Option.some.injEq, ↓existsAndEq, true_and]
      exact succeeds_bind_pure.trans (Draft.succeeds_replaceProjection h d projection s₁)
    · rename_i hlast
      exact iff_of_false (not_succeeds_throw_bind _ _ s₁) (by simp [hlast])
  · rename_i hsteps
    refine iff_of_false (not_succeeds_throw_bind _ _ s) ?_
    rintro ⟨⟨identifier, source, steps, heq, -⟩, -⟩
    exact hsteps identifier source steps heq

end

/-! ## Operators that make a query -/

/-- The expression makes an object and sets these members, each by the argument beside it. -/
def Expr.SetsMembers (e : Expr) (members : List (Member × Expr)) : Prop :=
  ∃ type, e = .new type (members.map (·.2)) (members.map (·.1))

theorem Expr.SetsMembers.unique {e : Expr} {members members' : List (Member × Expr)}
    (h : e.SetsMembers members) (h' : e.SetsMembers members') : members = members' := by
  obtain ⟨type, rfl⟩ := h
  obtain ⟨type', heq⟩ := h'
  obtain ⟨-, hvalues, hmembers⟩ := Expr.new.inj heq
  rw [← List.zip_unzip members, ← List.zip_unzip members', List.unzip_eq_map, List.unzip_eq_map,
    hvalues, hmembers]

theorem Expr.setsMembers_concat {arguments : List Expr} {members : List Member}
    (h : arguments.length = members.length) (type : String) (value : Expr) (m : Member) :
    (Expr.new type (arguments ++ [value]) (members ++ [m])).SetsMembers
      (members.zip arguments ++ [(m, value)]) := by
  refine ⟨type, ?_⟩
  rw [List.map_append, List.map_append, List.map_fst_zip (Nat.le_of_eq h.symm),
    List.map_snd_zip (Nat.le_of_eq h)]
  rfl

namespace Layer

/-- Whether an operator starts an ordering. -/
def starts : Layer → Bool
  | .ordering _ first _ _ => first
  | _ => false

/-- Whether an operator refines an ordering. -/
def refines : Layer → Bool
  | .ordering _ first _ _ => !first
  | _ => false

/-- A `Select` makes an object of at least one member, with an argument for each. -/
def Binds : Layer → Prop
  | .select _ body => ∃ type arguments members, body = .new type arguments members
      ∧ members ≠ [] ∧ arguments.length = members.length
  | _ => True

theorem binds_select_iff {p : Parameter} {body : Expr} :
    (select p body).Binds ↔ ∃ others m value, body.SetsMembers (others ++ [(m, value)]) := by
  constructor
  · rintro ⟨type, arguments, members, rfl, hmembers, hlength⟩
    have harguments : arguments ≠ [] := by
      rintro rfl
      exact hmembers (List.length_eq_zero_iff.1 hlength.symm)
    obtain ⟨arguments, value, rfl⟩ := (List.eq_nil_or_concat' arguments).resolve_left harguments
    obtain ⟨members, m, rfl⟩ := (List.eq_nil_or_concat' members).resolve_left hmembers
    exact ⟨_, m, value, Expr.setsMembers_concat (by simpa using hlength) type value m⟩
  · rintro ⟨others, m, value, type, rfl⟩
    exact ⟨type, _, _, rfl, by simp, by simp⟩

/-- Each operator that refines an ordering has one below it that starts an ordering. -/
def Ordered (layers : List Layer) : Prop :=
  ∀ below layer above, layers = below ++ layer :: above →
    layer.refines → ∃ start ∈ below, start.starts

/-- Each `Select` below another operator says which variable it binds. -/
def Bound (layers : List Layer) : Prop :=
  ∀ below layer above, layers = below ++ layer :: above → above ≠ [] → layer.Binds

theorem forall_split_cons {α : Type} {a : α} {as : List α} {P : List α → α → List α → Prop} :
    (∀ before b after, a :: as = before ++ b :: after → P before b after)
      ↔ P [] a as ∧ ∀ before b after, as = before ++ b :: after → P (a :: before) b after := by
  constructor
  · intro h
    exact ⟨h [] a as rfl, fun before b after heq => h (a :: before) b after (by rw [heq]; rfl)⟩
  · rintro ⟨hhead, htail⟩ (_ | ⟨c, before⟩) b after heq
    · cases heq
      exact hhead
    · cases heq
      exact htail before b after rfl

theorem ordered_iff {layers : List Layer} : Ordered layers ↔ refinements layers = [] := by
  induction layers with
  | nil => simp [Ordered, refinements]
  | cons layer layers ih =>
    have hcons : Ordered (layer :: layers)
        ↔ layer.refines = false ∧ (layer.starts = false → Ordered layers) := by
      unfold Ordered
      rw [forall_split_cons]
      cases hstarts : layer.starts <;> simp [hstarts]
    rw [hcons, ih]
    cases layer with
    | ordering direction first p body => cases first <;> simp [starts, refines, refinements]
    | _ => simp [starts, refines, refinements]

theorem bound_cons {layer : Layer} {layers : List Layer}
    (h : ∀ p body, layer = .select p body → layers ≠ []) :
    Bound (layer :: layers) ↔ layer.Binds ∧ Bound layers := by
  unfold Bound
  rw [forall_split_cons]
  refine and_congr_left' ⟨fun hbinds => ?_, fun hbinds _ => hbinds⟩
  cases layer with
  | select p body => exact hbinds (h p body rfl)
  | _ => trivial

theorem bound_singleton (layer : Layer) : Bound [layer] := by
  unfold Bound
  rw [forall_split_cons]
  simp

section

variable {makes : Expr → Prop}

theorem fits_binding (p : Parameter) (body : Expr) (projection : Option Expr)
    (projections : List (Option Expr)) (isOpen : Bool) :
    (Step.binding (.lambda [p] body)).Fits makes (projection :: projections) isOpen
      ↔ (select p body).Binds ∧ ∀ d ∈ lastArgument? body, ∀ c ∈ d.outerChains, makes c := by
  simp only [Step.Fits, ne_eq, reduceCtorEq, not_false_eq_true, true_and]
  constructor
  · rintro ⟨x, value, hbound, hvalue⟩
    obtain ⟨type, arguments, members, m, rfl, hlength, -⟩ := Draft.boundVariable?_lambda hbound
    exact ⟨⟨type, _, _, rfl, by simp, by simp [hlength]⟩, by simpa [lastArgument?]⟩
  · rintro ⟨hbinds, hvalue⟩
    obtain ⟨others, m, value, type, rfl⟩ := binds_select_iff.1 hbinds
    refine ⟨{ name := m.name, type := m.type }, value, ?_, hvalue value (by simp [lastArgument?])⟩
    simp [Draft.boundVariable?, Expr.unquoted]

/-- The step of an operator fits if the operator says which variable it binds, refines an ordering
only if one is open, and its embedded chains make queries. -/
theorem fits_step (layer : Layer) (layers : List Layer) (rest : List (Option Expr))
    (isOpen : Bool) :
    layer.step.Fits makes (projections (layer :: layers) ++ rest) isOpen
      ↔ (layer.refines → isOpen) ∧ layer.Binds
        ∧ ∀ d ∈ layer.scanned, ∀ c ∈ d.outerChains, makes c := by
  cases layer with
  | select p body =>
    show (Step.binding _).Fits makes (some _ :: (projections layers ++ rest)) isOpen ↔ _
    rw [fits_binding]
    simp [refines, scanned]
  | selectMany p found q x body =>
    simp [step, Step.Fits, projections, selector?, refines, Binds, scanned, and_comm]
  | filter p body => simp [step, Step.Fits, refines, Binds, scanned]
  | ordering direction first p body =>
    cases first <;> simp [step, Step.Fits, refines, Binds, scanned, and_comm]

theorem refinements_cons (layer : Layer) (layers : List Layer) (isOpen : Bool) :
    (isOpen = false → refinements (layer :: layers) = [])
      ↔ (layer.refines → isOpen)
        ∧ (layer.step.opens isOpen = false → refinements layers = []) := by
  cases layer with
  | ordering direction first p body =>
    cases first <;> cases isOpen <;> simp [refinements, refines, step, Step.opens]
  | _ => simp [refinements, refines, step, Step.opens]

theorem leaves_step (layer : Layer) (layers : List Layer) (rest : List (Option Expr)) :
    layer.step.leaves (projections (layer :: layers) ++ rest) = projections layers ++ rest := by
  cases layer <;> rfl

/-- The selector of the last operator is scanned whatever operator that is. -/
theorem lastSelector?_cons {layer : Layer} {layers : List Layer}
    (h : ∀ p body, layer = .select p body → layers ≠ [])
    (hscanned : ∀ d ∈ layer.scanned, ∀ c ∈ d.outerChains, makes c) :
    (∀ d ∈ lastSelector? (layer :: layers), ∀ c ∈ d.outerChains, makes c)
      ↔ ∀ d ∈ lastSelector? layers, ∀ c ∈ d.outerChains, makes c := by
  cases layers with
  | cons next layers => rfl
  | nil =>
    refine iff_of_true ?_ (by simp [lastSelector?])
    cases layer with
    | select p body => exact absurd rfl (h p body rfl)
    | selectMany p found q x body =>
      simpa [lastSelector?, selector?] using hscanned (.lambda [q, x] body) (by simp [scanned])
    | _ => simp [lastSelector?, selector?]

/-- The steps of operators fit and the chains in the last selector make queries exactly if the
operators keep to the rules. -/
theorem allFit_topSteps (layers : List Layer) (rest : List (Option Expr)) (isOpen : Bool) :
    (Step.AllFit makes (topSteps layers) (projections layers ++ rest) isOpen
        ∧ ∀ d ∈ lastSelector? layers, ∀ c ∈ d.outerChains, makes c)
      ↔ (isOpen = false → refinements layers = []) ∧ Bound layers
        ∧ ∀ d ∈ scannedAll layers, ∀ c ∈ d.outerChains, makes c := by
  fun_induction topSteps layers generalizing isOpen with
  | case1 => simp [Step.AllFit, lastSelector?, refinements, Bound, scannedAll]
  | case2 p body =>
    simp [Step.AllFit, lastSelector?, selector?, refinements, scannedAll, bound_singleton]
  | case3 layer layers hnot ih =>
    have hlast : ∀ p body, layer = .select p body → layers ≠ [] := hnot
    have ih := ih (layer.step.opens isOpen)
    rw [Step.AllFit, fits_step, leaves_step, refinements_cons, bound_cons hlast,
      scannedAll.eq_3 _ _ hlast, List.forall_mem_append]
    constructor
    · rintro ⟨⟨⟨hrefines, hbinds, hscanned⟩, hsteps⟩, hselector⟩
      obtain ⟨hrefinements, hbound, hall⟩ :=
        ih.1 ⟨hsteps, (lastSelector?_cons hlast hscanned).1 hselector⟩
      exact ⟨⟨hrefines, hrefinements⟩, ⟨hbinds, hbound⟩, hscanned, hall⟩
    · rintro ⟨⟨hrefines, hrefinements⟩, ⟨hbinds, hbound⟩, hscanned, hall⟩
      obtain ⟨hsteps, hselector⟩ := ih.2 ⟨hrefinements, hbound, hall⟩
      exact ⟨⟨⟨hrefines, hbinds, hscanned⟩, hsteps⟩,
        (lastSelector?_cons hlast hscanned).2 hselector⟩

end

end Layer

/-! ## Chains that make queries -/

/-- What is collected along a spine is assembled without a fault exactly if the operators keep to
the rules. -/
theorem succeeds_assemble_spine {parseSub : SubParser} {makes : Expr → Prop}
    (h : parseSub.Decides makes) (key : Nat) (parent : Option Nat) (e source : Expr)
    (layers : List Layer) (p : Parameter) (distinct : Bool) (modifiers : List Modifier)
    (s : ParseState) :
    Succeeds (assemble parseSub key parent e {
        steps := .range p source :: topSteps layers
        projections := Layer.projections layers ++ topGap layers
        distinct, modifiers }) s
      ↔ Layer.Ordered layers ∧ Layer.Bound layers
        ∧ ∀ d ∈ Layer.scannedAll layers, ∀ c ∈ d.outerChains, makes c := by
  have hlayers := @Layer.allFit_topSteps makes layers (topGap layers) false
  simp only [forall_const, ← Layer.ordered_iff] at hlayers
  simp only [succeeds_assemble h, getLast?_projections, List.cons.injEq, Step.range.injEq,
    Option.some.injEq, ↓existsAndEq, and_true, true_and]
  exact hlayers

theorem Expr.isParameterMember_iff {e : Expr} :
    e.isParameterMember ↔ ∃ p m members, e = .read p (m :: members) := by
  fun_induction Expr.isParameterMember e with
  | case1 p m => exact iff_of_true rfl ⟨p, m, [], rfl⟩
  | case2 object m hobject ih =>
    rw [ih]
    constructor
    · rintro ⟨p, k, members, rfl⟩
      exact ⟨p, k, members ++ [m], (Expr.read_concat p (k :: members) m).symm⟩
    · rintro ⟨p, k, members, heq⟩
      rcases List.eq_nil_or_concat' members with rfl | ⟨members, last, rfl⟩
      · exact absurd (Expr.member.inj heq).1 (hobject p)
      · rw [← List.cons_append, Expr.read_concat] at heq
        exact ⟨p, k, members, (Expr.member.inj heq).1⟩
  | case3 e _ hnot =>
    refine iff_of_false Bool.false_ne_true ?_
    rintro ⟨p, m, members, rfl⟩
    obtain ⟨object, last, hread⟩ := Expr.exists_read_cons_eq_member p m members
    exact hnot object last hread

/-- A folded expression is the source of a chain if it is a value other than null, or a member that
is read from a parameter by way of any others. -/
theorem Expr.isSource_iff {e : Expr} :
    e.isSource ↔ (∃ value type, e = .constant value type ∧ value ≠ .null)
      ∨ ∃ p m members, e = .read p (m :: members) := by
  cases e with
  | constant value type =>
    have hread : ¬∃ p m members, Expr.constant value type = .read p (m :: members) := by
      rw [← Expr.isParameterMember_iff]
      exact Bool.false_ne_true
    rw [or_iff_left hread]
    cases value <;> simp [Expr.isSource, Constant.isNull]
  | _ => simp [Expr.isSource, Expr.isParameterMember_iff]

/-- `e` is a chain whose lambda operators are `layers`: they stand one over the other above a
source, and `Distinct` and result operators above them, each with the arguments it takes. The source
is a value or a member of a range variable, no ordering is refined before one is started, and each
`Select` below another lambda operator says which variable it binds. -/
structure Expr.WellFormed (e : Expr) (layers : List Layer) : Prop where
  spine : ∃ source distinct modifiers,
    Spine source layers e distinct modifiers ∧ source.evaluate.isSource
  ordered : Layer.Ordered layers
  bound : Layer.Bound layers

/-- A query can be made of a chain: it is well-formed, and so are the chains embedded in the
expressions that become clauses, at any depth. -/
inductive Expr.MakesQuery : Expr → Prop where
  | mk {e : Expr} {layers : List Layer} :
    e.WellFormed layers → (∀ d ∈ Layer.scannedAll layers, ∀ c ∈ d.outerChains, MakesQuery c) →
      MakesQuery e

/-- A query can be made of a chain with chains embedded less than `depth` deep. -/
def Expr.MakesWithin : Nat → Expr → Prop
  | 0, _ => False
  | depth + 1, e => ∃ layers, e.WellFormed layers
      ∧ ∀ d ∈ Layer.scannedAll layers, ∀ c ∈ d.outerChains, MakesWithin depth c

theorem parseChain_decides (depth : Nat) (parent : Option Nat) :
    SubParser.Decides (parseChain depth parent) (Expr.MakesWithin depth) := by
  induction depth generalizing parent with
  | zero => exact fun c s => iff_of_false (not_succeeds_throw _ s) id
  | succ depth ih =>
    intro e s
    constructor
    · rintro ⟨q, s', h⟩
      obtain ⟨key, s₁, -, h⟩ := run_bind_ok.1 h
      obtain ⟨c, s₂, hc, h⟩ := run_bind_ok.1 h
      obtain ⟨source, layers, distinct, modifiers, hspine, hsource, -, rfl⟩ := collect_top_ok hc
      obtain ⟨hordered, hbound, hmakes⟩ :=
        (succeeds_assemble_spine (ih (some key)) key parent e source.evaluate layers _ distinct
          modifiers s₂).1 ⟨q, s', h⟩
      exact ⟨layers, ⟨⟨source, distinct, modifiers, hspine, hsource⟩, hordered, hbound⟩, hmakes⟩
    · rintro ⟨layers, ⟨⟨source, distinct, modifiers, hspine, hsource⟩, hordered, hbound⟩, hmakes⟩
      obtain ⟨s₂, hc⟩ := collect_top_of_spine hspine hsource { s with nextKey := s.nextKey + 1 }
      obtain ⟨q, s', h⟩ :=
        (succeeds_assemble_spine (ih (some s.nextKey)) s.nextKey parent e source.evaluate layers _
          distinct modifiers s₂).2 ⟨hordered, hbound, hmakes⟩
      exact ⟨q, s', run_bind_ok.2 ⟨_, _, rfl, run_bind_ok.2 ⟨_, _, hc, h⟩⟩⟩

theorem Expr.MakesWithin.makesQuery {depth : Nat} {e : Expr} (h : e.MakesWithin depth) :
    e.MakesQuery := by
  induction depth generalizing e with
  | zero => exact h.elim
  | succ depth ih =>
    obtain ⟨layers, hformed, hmakes⟩ := h
    exact .mk hformed fun d hd c hc => ih (hmakes d hd c hc)

/-- Embedded chains are smaller than the chain that they stand in, so they nest less deep than it
has nodes. -/
theorem Expr.MakesQuery.makesWithin {depth : Nat} {e : Expr} (h : e.MakesQuery)
    (hdepth : e.size ≤ depth) : e.MakesWithin depth := by
  induction h generalizing depth with
  | @mk e layers hformed _ ih =>
    obtain ⟨source, distinct, modifiers, hspine, -⟩ := hformed.spine
    cases depth with
    | zero => exact absurd (Expr.size_pos e) (by omega)
    | succ depth =>
      refine ⟨layers, hformed, fun d hd c hc => ih d hd c hc ?_⟩
      obtain ⟨b, hb, hdb⟩ := hspine.subterm_of_scanned hd
      have hc := Expr.parts_trans hdb (Expr.mem_parts_of_mem_outerChains hc)
      have := Expr.size_lt_of_mem_subterms hb
      have := Expr.size_le_of_mem_parts hc
      omega

/-- An expression is parsed exactly if a query can be made of it. -/
theorem parse_ok_iff (e : Expr) : (∃ q, parse e = .ok q) ↔ e.MakesQuery := by
  have hdecides := parseChain_decides e.size none e {}
  constructor
  · rintro ⟨q, h⟩
    obtain ⟨s', h⟩ := parse_eq_ok.1 h
    exact (hdecides.1 ⟨q, s', h⟩).makesQuery
  · intro h
    obtain ⟨q, s', h⟩ := hdecides.2 (h.makesWithin (Nat.le_refl _))
    exact ⟨q, parse_eq_ok.2 ⟨s', h⟩⟩

/-- Whether any detail of the student `s` is about maths. -/
def anyMaths : Expr :=
  let s : Parameter := { name := "s", type := "Student" }
  let d : Parameter := { name := "d", type := "StudentDetail" }
  Chain.result "Any"
    (Chain.filter
      (.read s
        [{ declaringType := "Student", name := "Details", type := "IEnumerable<StudentDetail>" }])
      (.lambda [d] (.operation .equal
        (.read d [{ declaringType := "StudentDetail", name := "Subject", type := "String" }])
        (.ofConstant (.string "Maths")))))
    []

/-- The students with a detail about maths. -/
def mathsStudents : Expr :=
  Chain.filter (.table "Students" "Student")
    (.lambda [{ name := "s", type := "Student" }] anyMaths)

theorem makesQuery_anyMaths : anyMaths.MakesQuery := by
  have hsource (p : Parameter) (m : Member) : (Expr.read p [m]).evaluate.isSource :=
    Expr.isSource_iff.2 (.inr ⟨p, m, [], rfl⟩)
  refine .mk ⟨⟨_, _, _, .result (.lambdas (.layer (.source nofun) (.filter rfl))) rfl,
    hsource _ _⟩, Layer.ordered_iff.2 rfl, Layer.bound_singleton _⟩ ?_
  intro e he c hc
  obtain rfl := List.mem_singleton.1 he
  simp [Expr.outerChains_lambda_eq, Expr.operation, Expr.ofConstant, Expr.outerChains_read,
    Expr.outerChains, Expr.isChain, Expr.subterms, Expr.outerChainsAll] at hc

/-- A chain over a table with a chain over a member of its range variable embedded in it. -/
theorem parse_ok_iff_mathsStudents :
    mathsStudents.MakesQuery ∧ ∃ q, parse mathsStudents = .ok q := by
  have hmakes : mathsStudents.MakesQuery := by
    have hsource : (Expr.table "Students" "Student").evaluate.isSource :=
      Expr.isSource_iff.2 (.inl ⟨_, _, rfl, nofun⟩)
    refine .mk ⟨⟨_, _, _, .lambdas (.layer (.source nofun) (.filter rfl)), hsource⟩,
      Layer.ordered_iff.2 rfl, Layer.bound_singleton _⟩ ?_
    intro e he c hc
    obtain rfl := List.mem_singleton.1 he
    rw [Expr.outerChains_lambda_eq, Expr.outerChains_of_isChain rfl, List.mem_singleton] at hc
    exact hc ▸ makesQuery_anyMaths
  exact ⟨hmakes, (parse_ok_iff mathsStudents).2 hmakes⟩

end QueryChain
