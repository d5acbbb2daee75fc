import QueryChain.Proofs.Chain.Acceptance

/-!
# Let bindings

A `Select` below another lambda operator is parsed into a let clause. It must make an object, and
the last member of the object is the variable that is bound.

* `ClausesOf.binding_at`: the let clause stands behind the clauses of the operators below;
* `parseChain_bindingShape`: if the `Select` makes no object with a member, that is the fault which
  is told, unless there is one before it.
-/

namespace QueryChain

/-! ## The clause of a `Select` -/

/-- Behind the clauses of the operators below it, a `Select` that is not the last operator has a let
clause. Operators that refine an ordering have no clause. -/
theorem ClausesOf.binding_at {embedded sources : List Query} {layers below above : List Layer}
    {clauses : List Clause} {p : Parameter} {body : Expr}
    (h : ClausesOf embedded sources layers clauses)
    (hlayers : layers = below ++ .select p body :: above) (habove : above ≠ []) :
    ∃ others m value value', body.SetsMembers (others ++ [(m, value)])
      ∧ value.NestedAs (MadeOf embedded) value'
      ∧ clauses[below.countP (!·.refines)]? = some (.range {
        identifier := { name := m.name, type := m.type }
        kind := .binding value' (.lambda [p] body) }) := by
  induction h generalizing below with
  | nil => simp at hlayers
  | selection =>
    cases below with
    | nil =>
      cases hlayers
      exact absurd rfl habove
    | cons layer below => simp at hlayers
  | @binding q type arguments members value value' m layers clauses hlast hlength hvalue _ ih =>
    cases below with
    | nil =>
      cases hlayers
      exact ⟨_, m, value, value', Expr.setsMembers_concat hlength type value m, hvalue, rfl⟩
    | cons layer below =>
      cases hlayers
      simpa [Layer.refines] using ih rfl
  | range _ _ _ ih | filter _ _ ih | ordering _ _ ih | refinement _ ih =>
    cases below with
    | nil => cases hlayers
    | cons layer below =>
      cases hlayers
      simpa [Layer.refines] using ih rfl

/-! ## Other shapes -/

open ParseM

/-- No fault is found in the steps of these operators, where `makes` says which of the chains
embedded in them make queries. -/
structure Layer.Faultless (makes : Expr → Prop) (layers : List Layer) : Prop where
  ordered : Ordered layers
  binds : ∀ layer ∈ layers, layer.Binds
  scanned : ∀ layer ∈ layers, ∀ d ∈ layer.scanned, ∀ c ∈ d.outerChains, makes c

namespace Layer

variable {makes : Expr → Prop}

/-- The steps of operators below another one fit exactly if no fault is found in them. -/
theorem allFit_nestedSteps (layers : List Layer) (rest : List (Option Expr)) (isOpen : Bool) :
    Step.AllFit makes (nestedSteps layers) (projections layers ++ rest) isOpen
      ↔ (isOpen = false → refinements layers = []) ∧ (∀ layer ∈ layers, layer.Binds)
        ∧ ∀ layer ∈ layers, ∀ d ∈ layer.scanned, ∀ c ∈ d.outerChains, makes c := by
  induction layers generalizing isOpen with
  | nil => simp [nestedSteps, Step.AllFit, refinements]
  | cons layer layers ih =>
    rw [refinements_cons, List.forall_mem_cons, List.forall_mem_cons]
    show (layer.step.Fits makes _ isOpen ∧ Step.AllFit makes (nestedSteps layers) _ _) ↔ _
    rw [fits_step, leaves_step, ih]
    tauto

end Layer

theorem Draft.foldlM_nestedSteps_leaves {parseSub : SubParser} {layers : List Layer} {d d' : Draft}
    {rest : List (Option Expr)} {s s' : ParseState}
    (hprojections : d.projections = Layer.projections layers ++ rest)
    (h : ((nestedSteps layers).foldlM (addStep parseSub) d).run s = .ok (d', s')) :
    d'.projections = rest := by
  induction layers generalizing d s with
  | nil =>
    cases (run_pure_ok.1 h).1
    exact hprojections
  | cons layer layers ih =>
    rw [nestedSteps, List.map_cons, List.foldlM_cons] at h
    obtain ⟨d₁, s₁, hstep, hsteps⟩ := run_bind_ok.1 h
    refine ih ?_ hsteps
    rw [(addStep_leaves hstep).1, hprojections, Layer.leaves_step]

/-- A `Select` that makes no object with a member has no variable to bind. -/
theorem Draft.addStep_bindingShape {d : Draft} {p : Parameter} {body : Expr}
    {projection : Option Expr} {rest : List (Option Expr)} (parseSub : SubParser)
    (hprojections : d.projections = projection :: rest) (hshape : ¬(Layer.select p body).Binds)
    (s : ParseState) :
    (d.addStep parseSub (.binding (.lambda [p] body))).run s
      = .error (.bindingShape (.lambda [p] body)) := by
  have hbound : boundVariable? (.lambda [p] body) = none := by
    by_contra hsome
    obtain ⟨⟨x, value⟩, hsome⟩ := Option.ne_none_iff_exists'.1 hsome
    obtain ⟨type, arguments, members, m, rfl, hlength, -⟩ := boundVariable?_lambda hsome
    exact hshape (Layer.binds_select_iff.2 ⟨_, m, value, Expr.setsMembers_concat hlength type _ _⟩)
  have htake : (d.takeProjection "let" (.lambda [p] body)).run s
      = .ok ((projection, { d with projections := rest }), s) := by
    rw [takeProjection, hprojections]
    rfl
  rw [addStep, run_bind_of_ok htake, hbound]
  rfl

/-- The steps of the operators below leave a projection to the `Select`, and it finds the fault. -/
theorem Draft.foldlM_bindingShape {parseSub : SubParser} {makes : Expr → Prop}
    (hdecides : parseSub.Decides makes) {below above : List Layer} {p : Parameter} {body : Expr}
    {d : Draft} {rest : List (Option Expr)} (habove : above ≠ [])
    (hprojections : d.projections
      = Layer.projections (below ++ .select p body :: above) ++ rest)
    (hbelow : Layer.Faultless makes below) (hshape : ¬(Layer.select p body).Binds)
    (s : ParseState) :
    ((topSteps (below ++ .select p body :: above)).foldlM (addStep parseSub) d).run s
      = .error (.bindingShape (.lambda [p] body)) := by
  rw [Layer.projections_append, List.append_assoc] at hprojections
  have hfit : Step.AllFit makes (nestedSteps below) d.projections d.openOrdering.isSome := by
    rw [hprojections, Layer.allFit_nestedSteps]
    exact ⟨fun _ => Layer.ordered_iff.1 hbelow.ordered, hbelow.binds, hbelow.scanned⟩
  obtain ⟨d', s', hbelow⟩ := (succeeds_foldlM hdecides (nestedSteps below) d s).2 hfit
  have hleft := foldlM_nestedSteps_leaves hprojections hbelow
  rw [topSteps_append _ (List.cons_ne_nil _ _), topSteps_cons _ habove, List.foldlM_append,
    run_bind_of_ok hbelow, List.foldlM_cons]
  exact run_bind_of_error (addStep_bindingShape parseSub hleft hshape s') _

theorem parseChain_succ_bindingShape {depth : Nat} {e source : Expr} {below above : List Layer}
    {p : Parameter} {body : Expr} {distinct : Bool} {modifiers : List Modifier}
    (hspine : Spine source (below ++ .select p body :: above) e distinct modifiers)
    (hsource : source.evaluate.isSource) (habove : above ≠ [])
    (hbelow : Layer.Faultless (Expr.MakesWithin depth) below)
    (hshape : ¬(Layer.select p body).Binds) (parent : Option Nat) (s : ParseState) :
    (parseChain (depth + 1) parent e).run s = .error (.bindingShape (.lambda [p] body)) := by
  obtain ⟨s₁, hc⟩ := collect_top_of_spine hspine hsource { s with nextKey := s.nextKey + 1 }
  have hkey : nextKey.run s = .ok (s.nextKey, { s with nextKey := s.nextKey + 1 }) := rfl
  rw [parseChain, run_bind_of_ok hkey, run_bind_of_ok hc, assemble]
  simp only [pure_bind]
  exact run_bind_of_error
    (Draft.foldlM_bindingShape (parseChain_decides depth _) habove rfl hbelow hshape s₁) _

/-- Chains embedded in the operators of a chain are smaller than it. -/
theorem Spine.size_lt_of_scanned {source e : Expr} {layers : List Layer} {distinct : Bool}
    {modifiers : List Modifier} (h : Spine source layers e distinct modifiers) {layer : Layer}
    (hlayer : layer ∈ layers) {d : Expr} (hd : d ∈ layer.scanned) {c : Expr}
    (hc : c ∈ d.outerChains) : c.size < e.size := by
  obtain ⟨l, hl, hdl⟩ := Layer.scanned_parts hd
  have hcl := Expr.parts_trans hdl (Expr.mem_parts_of_mem_outerChains hc)
  exact (h.part_of_lambda hlayer hl hcl).2

/-- A `Select` below another operator that makes no object with a member is a fault of its chain. If
none is found below the `Select`, it is the fault that is told. -/
theorem parseChain_bindingShape {depth : Nat} {e source : Expr} {below above : List Layer}
    {p : Parameter} {body : Expr} {distinct : Bool} {modifiers : List Modifier}
    (hspine : Spine source (below ++ .select p body :: above) e distinct modifiers)
    (hsource : source.evaluate.isSource) (habove : above ≠ [])
    (hbelow : Layer.Faultless Expr.MakesQuery below) (hshape : ¬(Layer.select p body).Binds)
    (hdepth : e.size ≤ depth) (parent : Option Nat) (s : ParseState) :
    (parseChain depth parent e).run s = .error (.bindingShape (.lambda [p] body)) := by
  cases depth with
  | zero => exact absurd (Expr.size_pos e) (by omega)
  | succ depth =>
    refine parseChain_succ_bindingShape hspine hsource habove ⟨hbelow.ordered, hbelow.binds, ?_⟩
      hshape parent s
    intro layer hlayer d hd c hc
    have hsize := hspine.size_lt_of_scanned (List.mem_append_left _ hlayer) hd hc
    exact (hbelow.scanned layer hlayer d hd c hc).makesWithin (by omega)

theorem parse_bindingShape {e source : Expr} {below above : List Layer} {p : Parameter}
    {body : Expr} {distinct : Bool} {modifiers : List Modifier}
    (hspine : Spine source (below ++ .select p body :: above) e distinct modifiers)
    (hsource : source.evaluate.isSource) (habove : above ≠ [])
    (hbelow : Layer.Faultless Expr.MakesQuery below) (hshape : ¬(Layer.select p body).Binds) :
    parse e = .error { fault := .bindingShape (.lambda [p] body), query := e } := by
  have hrun := parseChain_bindingShape hspine hsource habove hbelow hshape (Nat.le_refl _) none {}
  simp only [parse, parseFrom, runParse, hrun]
  rfl

end QueryChain
