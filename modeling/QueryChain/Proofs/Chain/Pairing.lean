import QueryChain.Proofs.Chain.Faults

/-!
# Steps and their projections

Operators leave steps and projections apart from each other, and a query is assembled by pairing
them again in order. The pairs are right: an operator that makes new elements leaves one projection,
and one step that introduces a variable, unless it is a `Select` at the top of the chain, which
leaves the projection only (`introduced_prefix`). So the projections never run out, and no parse
fails because steps and projections do not match.

* `Collected.Paired` says what is collected at the top of a chain;
* `never_unpaired` says so for every chain, and what does not happen for it.
-/

namespace QueryChain

open ParseM

/-- The operator makes new elements. -/
def Layer.makesElements (layer : Layer) : Bool :=
  layer.selector?.isSome

theorem introduces_step (layer : Layer) : layer.step.introduces = layer.makesElements := by
  cases layer <;> rfl

/-- The steps that introduce variables are those of the operators that make new elements, in order,
but for a `Select` at the top. -/
theorem introduced_prefix (layers : List Layer) :
    (topSteps layers).filter Step.introduces
      <+: (layers.filter Layer.makesElements).map Layer.step := by
  fun_induction topSteps layers with
  | case1 => exact List.nil_prefix
  | case2 => exact List.nil_prefix
  | case3 layer layers _ ih =>
    rw [List.filter_cons, List.filter_cons, introduces_step]
    cases layer.makesElements with
    | true => exact (List.prefix_cons_inj _).2 ih
    | false => exact ih

/-- The projections are the selectors of the operators that make new elements, in order. -/
theorem projections_eq (layers : List Layer) :
    Layer.projections layers = (layers.filter Layer.makesElements).map Layer.selector? := by
  induction layers with
  | nil => rfl
  | cons layer layers ih =>
    rw [Layer.projections] at ih ⊢
    cases hselector : layer.selector? <;> simp [Layer.makesElements, hselector, ih]

/-- What is collected at the top of the chain `e` fits together: among the operators of the chain
that make new elements, the `k`-th left both the `k`-th step that introduces a variable, after the
one for the source, and the `k`-th projection. -/
structure Collected.Paired (c : Collected) (e : Expr) : Prop where
  range : ∃ x source steps, c.steps = .range x source :: steps
  projection : c.projections ≠ []
  enough : c.steps.tail.countP Step.introduces ≤ c.projections.length
  calls : ∃ (source : Expr) (layers : List Layer) (distinct : Bool) (modifiers : List Modifier),
    Spine source layers e distinct modifiers ∧ ∀ (k : Nat) (step : Step),
      (c.steps.tail.filter Step.introduces)[k]? = some step →
      ∃ layer : Layer, (layers.filter Layer.makesElements)[k]? = some layer
        ∧ step = layer.step ∧ c.projections[k]? = some layer.selector?

theorem collect_paired {e : Expr} {identifier : Option Parameter} {c : Collected}
    {s s' : ParseState} (h : (collect e identifier true).run s = .ok (c, s')) : c.Paired e := by
  obtain ⟨source, layers, distinct, modifiers, hspine, -, -, rfl⟩ := collect_named_top_ok h
  have hprefix := introduced_prefix layers
  refine ⟨⟨_, _, _, rfl⟩, ?_, ?_, source, layers, distinct, modifiers, hspine, ?_⟩
  · have hlast := getLast?_projections layers
    intro hnil
    rw [show Layer.projections layers ++ topGap layers = [] from hnil] at hlast
    cases hlast
  · have hle := hprefix.length_le
    rw [List.length_map, ← List.countP_eq_length_filter] at hle
    rw [projections_eq, List.length_append, List.length_map]
    exact Nat.le_trans hle (Nat.le_add_right _ _)
  · intro k step hstep
    obtain ⟨hlt, rfl⟩ := List.getElem?_eq_some_iff.1 hstep
    have hcall := List.prefix_iff_getElem?.1 hprefix k hlt
    rw [List.getElem?_map] at hcall
    obtain ⟨layer, hlayer, hstep⟩ := Option.map_eq_some_iff.1 hcall
    refine ⟨layer, hlayer, hstep.symm, ?_⟩
    have hselector : ((layers.filter Layer.makesElements).map Layer.selector?)[k]?
        = some layer.selector? := by rw [List.getElem?_map, hlayer]; rfl
    rw [projections_eq, List.getElem?_append_left (List.getElem?_eq_some_iff.1 hselector).1,
      hselector]

/-! ## Faults that do not happen -/

/-- A query has no range to start with, or runs out of projections. -/
def ChainFault.Unpaired : ChainFault → Prop
  | .noMainRange _ | .noProjection _ _ | .noSelectProjection _ => True
  | .argumentCount _ _ _ _ | .argumentShape _ _ _ _ _ | .notASource _ _
  | .nestedResultOperator _ _ | .nestedDistinct _ | .nothingToRefine _ | .bindingShape _ => False

theorem ChainFault.OfCalls.not_unpaired {fault : ChainFault} (h : fault.OfCalls) :
    ¬fault.Unpaired := by
  cases fault <;> first | exact id | cases h

theorem Step.OwnFault.not_unpaired {step : Step} {fault : ChainFault} (h : step.OwnFault fault) :
    ¬fault.Unpaired := by
  cases h <;> exact id

/-- However deep a chain is embedded, steps and projections match. -/
theorem parseChain_failsOnly (depth : Nat) (parent : Option Nat) (e : Expr) :
    (parseChain depth parent e).FailsOnly (¬·.Unpaired) := by
  induction depth generalizing parent e with
  | zero => exact .throw id
  | succ depth ih =>
    refine FailsOnly.bind nofun fun key => ?_
    refine ((collect_failsOnly e none true).mono fun _ h => h.ofCalls.not_unpaired).bind_of_ok
      fun c s s' hc => ?_
    obtain ⟨⟨x, source, steps, hsteps⟩, hprojection, henough, -⟩ := collect_paired hc
    rw [hsteps] at henough
    exact assemble_failsOnly key parent e hsteps (fun _ _ c _ => ih (some key) c)
      (fun _ _ c _ => ih (some key) c) (fun _ _ _ h => h.not_unpaired) henough hprojection

theorem parse_eq_error {e : Expr} {error : ChainError} (h : parse e = .error error) :
    (parseChain e.size none e).run {} = .error error.fault ∧ error.query = e := by
  rcases bind_eq_error h with h | ⟨_, -, h⟩
  · rcases bind_eq_error h with h | ⟨_, -, h⟩
    · unfold runParse at h
      split at h
      · cases h
      · rename_i fault hrun
        cases h
        exact ⟨hrun, rfl⟩
    · cases h
  · cases h

/-- What is collected at the top of a chain fits together, whatever its elements are called, and no
parse fails because it does not: neither that of the chain nor that of one embedded in it. -/
theorem never_unpaired :
    (∀ e identifier s c s', (collect e identifier true).run s = .ok (c, s') → c.Paired e)
      ∧ (∀ depth parent e s fault, (parseChain depth parent e).run s = .error fault →
        ¬fault.Unpaired)
      ∧ ∀ e error, parse e = .error error → ¬error.fault.Unpaired := by
  refine ⟨fun e identifier s c s' h => collect_paired h,
    fun depth parent e s fault h => parseChain_failsOnly depth parent e h, fun e error h => ?_⟩
  exact parseChain_failsOnly e.size none e (parse_eq_error h).1

theorem never_unpaired_grades :
    ∃ c s', (collect gradesChain none true).run {} = .ok (c, s') ∧ c.Paired gradesChain
      ∧ (c.steps.tail.filter Step.introduces).length = 2 ∧ c.projections.length = 3 := by
  obtain ⟨hpaired, -, -⟩ := never_unpaired
  have hcollect : ∃ c s', (collect gradesChain none true).run {} = .ok (c, s')
      ∧ (c.steps.tail.filter Step.introduces).length = 2 ∧ c.projections.length = 3 :=
    ⟨_, _, rfl, rfl, rfl⟩
  obtain ⟨c, s', hrun, hsteps, hprojections⟩ := hcollect
  exact ⟨c, s', hrun, hpaired _ _ _ _ _ hrun, hsteps, hprojections⟩

end QueryChain
