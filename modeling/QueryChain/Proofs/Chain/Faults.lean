import QueryChain.Proofs.Chain.Acceptance

/-!
# Faults of a parse

Which faults a parse may find is followed through its parts (`ParseM.FailsOnly`). Collecting a chain
fails for the calls it is made of, and for nothing else; what the fault says is so of one of them
(`collect_failsOnly`). Assembling a query fails for what the steps say, for embedded chains and, if
steps and projections do not match, for that. They match if each step that introduces a variable has
a projection left to it (`assemble_failsOnly`).
-/

namespace QueryChain

namespace ParseM

variable {α β : Type} {faults : ChainFault → Prop}

/-- If `x` fails, then with one of the faults `faults`. -/
def FailsOnly (x : ParseM α) (faults : ChainFault → Prop) : Prop :=
  ∀ ⦃s : ParseState⦄ ⦃fault : ChainFault⦄, x.run s = .error fault → faults fault

namespace FailsOnly

theorem pure (a : α) : FailsOnly (pure a) faults :=
  nofun

theorem throw {fault : ChainFault} (h : faults fault) :
    FailsOnly (throw fault : ParseM α) faults := by
  rintro s _ ⟨⟩
  exact h

theorem lift {x : Except ChainFault α} (h : ∀ fault, x = .error fault → faults fault) :
    FailsOnly (liftM x) faults := by
  intro s fault hrun
  cases x with
  | error fault' =>
    cases hrun
    exact h _ rfl
  | ok a => cases hrun

theorem throw_bind {fault : ChainFault} (h : faults fault) (f : α → ParseM β) :
    (MonadExcept.throw fault >>= f).FailsOnly faults := by
  rintro s _ ⟨⟩
  exact h

/-- What comes second may rely on what comes first being through. -/
theorem bind_of_ok {x : ParseM α} {f : α → ParseM β} (h : x.FailsOnly faults)
    (hf : ∀ a s s', x.run s = .ok (a, s') → (f a).FailsOnly faults) :
    (x >>= f).FailsOnly faults := by
  intro s fault hrun
  rw [StateT.run_bind] at hrun
  cases hx : x.run s with
  | error fault' =>
    rw [hx] at hrun
    cases hrun
    exact h hx
  | ok result =>
    rw [hx] at hrun
    exact hf result.1 s result.2 hx hrun

theorem bind {x : ParseM α} {f : α → ParseM β} (h : x.FailsOnly faults)
    (hf : ∀ a, (f a).FailsOnly faults) : (x >>= f).FailsOnly faults :=
  h.bind_of_ok fun a _ _ _ => hf a

theorem map {x : ParseM α} (h : x.FailsOnly faults) (f : α → β) : (f <$> x).FailsOnly faults := by
  rw [map_eq_pure_bind]
  exact h.bind fun a => pure (f a)

theorem mapM {f : α → ParseM β} {as : List α} (h : ∀ a ∈ as, (f a).FailsOnly faults) :
    (as.mapM f).FailsOnly faults := by
  induction as with
  | nil => exact pure _
  | cons a as ih =>
    rw [List.forall_mem_cons] at h
    rw [List.mapM_cons]
    exact h.1.bind fun b => (ih h.2).bind fun bs => pure _

theorem mono {faults' : ChainFault → Prop} {x : ParseM α} (h : x.FailsOnly faults)
    (hmono : ∀ fault, faults fault → faults' fault) : x.FailsOnly faults' :=
  fun _ _ hrun => hmono _ (h hrun)

end FailsOnly

end ParseM

open ParseM

/-! ## Faults of the calls of a chain -/

/-- A fault of the calls that a chain is made of. -/
def ChainFault.OfCalls : ChainFault → Prop
  | .argumentCount _ _ _ _ | .argumentShape _ _ _ _ _ | .notASource _ _
  | .nestedResultOperator _ _ | .nestedDistinct _ => True
  | .noMainRange _ | .noProjection _ _ | .noSelectProjection _ | .nothingToRefine _
  | .bindingShape _ => False

theorem Operator.argumentCount_ne_zero (op : Operator) : op.argumentCount ≠ 0 := by
  cases op <;> simp [argumentCount]

namespace ChainFault

/-- What a fault says of the expression that it names is so. -/
def Justified : ChainFault → Prop
  | .argumentCount method expected found e =>
    found ≠ expected ∧ ∃ arguments type, e = .staticCall method arguments type
      ∧ arguments.length = found
  | .argumentShape method index parameters argument e =>
    (∀ ps body, argument = .lambda ps body → ps.length ≠ parameters)
      ∧ ∃ arguments type written, e = .staticCall method arguments type
        ∧ arguments[index]? = some written ∧ argument = written.unquoted
  | .notASource kind e => e.evaluate.isSource = false ∧ kind = e.evaluate.kind
  | .nestedResultOperator method e =>
    isResultMethod method ∧ ∃ arguments type, e = .staticCall method arguments type
  | .nestedDistinct e => ∃ source type, e = .staticCall "Distinct" [source] type
  | .nothingToRefine key => ∃ p body, key = .lambda [p] body
  | .bindingShape selector => ∃ p body, selector = .lambda [p] body ∧ ¬(Layer.select p body).Binds
  | .noMainRange _ | .noProjection _ _ | .noSelectProjection _ => False

/-- A fault names a part of `e`, as it is written there, and is right about it. -/
structure FoundIn (e : Expr) (fault : ChainFault) : Prop where
  expression : fault.expression ∈ e.parts
  justified : fault.Justified

theorem FoundIn.of_part {d e : Expr} {fault : ChainFault} (h : fault.FoundIn d) (hd : d ∈ e.parts) :
    fault.FoundIn e :=
  ⟨Expr.parts_trans hd h.expression, h.justified⟩

/-- A fault of the calls that the chain `e` is made of, found in `e`. -/
structure OfCallsIn (e : Expr) (fault : ChainFault) : Prop extends fault.FoundIn e where
  ofCalls : fault.OfCalls

theorem OfCallsIn.of_subterm {d e : Expr} {fault : ChainFault} (h : fault.OfCallsIn d)
    (hd : d ∈ e.subterms) : fault.OfCallsIn e :=
  ⟨h.of_part (Expr.mem_parts_of_subterm hd (Expr.mem_parts_self d)), h.ofCalls⟩

end ChainFault

section

variable {method type : String} {arguments : List Expr} {fault : ChainFault}

theorem ChainFault.OfCallsIn.argumentShape {index parameters : Nat} {argument : Expr}
    (hargument : arguments[index]? = some argument)
    (hshape : ∀ ps body, argument.unquoted = .lambda ps body → ps.length ≠ parameters) :
    (ChainFault.argumentShape method index parameters argument.unquoted
      (.staticCall method arguments type)).OfCallsIn (.staticCall method arguments type) :=
  ⟨⟨Expr.mem_parts_self _, hshape, arguments, type, argument, rfl, hargument, rfl⟩, trivial⟩

theorem unaryLambda_error {index : Nat} {argument : Expr}
    (hargument : arguments[index]? = some argument)
    (h : unaryLambda method index (.staticCall method arguments type) argument = .error fault) :
    fault.OfCallsIn (.staticCall method arguments type) := by
  unfold unaryLambda at h
  split at h
  · cases h
  · rename_i hnot
    cases h
    refine .argumentShape hargument fun ps body hlambda hlength => ?_
    obtain ⟨p, rfl⟩ := List.length_eq_one_iff.1 hlength
    exact hnot p body hlambda

theorem binaryLambda_error {index : Nat} {argument : Expr}
    (hargument : arguments[index]? = some argument)
    (h : binaryLambda method index (.staticCall method arguments type) argument = .error fault) :
    fault.OfCallsIn (.staticCall method arguments type) := by
  unfold binaryLambda at h
  split at h
  · cases h
  · rename_i hnot
    cases h
    refine .argumentShape hargument fun ps body hlambda hlength => ?_
    obtain ⟨p, q, rfl⟩ := List.length_eq_two.1 hlength
    exact hnot p q body hlambda

theorem operatorArguments_error {op : Operator} {source : Expr}
    (h : operatorArguments op method (.staticCall method (source :: arguments) type) arguments
      = .error fault) :
    fault.OfCallsIn (.staticCall method (source :: arguments) type) := by
  unfold operatorArguments at h
  split at h
  case h_2 =>
    rcases bind_eq_error h with h | ⟨_, -, h⟩
    · exact unaryLambda_error rfl h
    · rcases bind_eq_error h with h | ⟨_, -, h⟩
      · exact binaryLambda_error rfl h
      · cases h
  case h_5 => cases h
  case h_6 hselect hselectMany hfilter hordering hdistinct =>
    cases h
    refine ⟨⟨Expr.mem_parts_self _, ?_, _, type, rfl, rfl⟩, trivial⟩
    intro hlength
    cases op with
    | select =>
      obtain ⟨selector, rfl⟩ := List.length_eq_one_iff.1 (Nat.succ.inj hlength)
      exact hselect selector rfl rfl
    | selectMany =>
      obtain ⟨collection, result, rfl⟩ := List.length_eq_two.1 (Nat.succ.inj hlength)
      exact hselectMany collection result rfl rfl
    | filter =>
      obtain ⟨predicate, rfl⟩ := List.length_eq_one_iff.1 (Nat.succ.inj hlength)
      exact hfilter predicate rfl rfl
    | ordering direction first =>
      obtain ⟨key, rfl⟩ := List.length_eq_one_iff.1 (Nat.succ.inj hlength)
      exact hordering direction first key rfl rfl
    | distinct => exact hdistinct rfl (List.length_eq_zero_iff.1 (Nat.succ.inj hlength))
  all_goals
    rcases bind_eq_error h with h | ⟨_, -, h⟩
    · exact unaryLambda_error rfl h
    · cases h

end

theorem collectSource_failsOnly (e : Expr) (identifier : Option Parameter) (top : Bool) :
    (collectSource e identifier top).FailsOnly (ChainFault.OfCallsIn e) := by
  unfold collectSource
  by_cases hsource : e.evaluate.isSource
  · simp only [hsource, if_true]
    cases identifier with
    | none => exact .bind nofun fun p => .pure _
    | some p => exact .pure _
  · simp only [hsource]
    exact .throw_bind ⟨⟨Expr.mem_parts_self e, by simpa using hsource, rfl⟩, trivial⟩ _

theorem collect_failsOnly (e : Expr) (identifier : Option Parameter) (top : Bool) :
    (collect e identifier top).FailsOnly (ChainFault.OfCallsIn e) := by
  induction e using Expr.subterms_induction generalizing identifier top with
  | node e ih =>
    have hself := Expr.mem_parts_self e
    unfold collect
    split
    · rename_i method type
      split
      · rename_i op _
        exact .throw ⟨⟨hself, op.argumentCount_ne_zero.symm, _, type, rfl, rfl⟩, trivial⟩
      · split
        · rename_i hresult
          cases top with
          | false => exact .throw ⟨⟨hself, hresult, _, type, rfl⟩, trivial⟩
          | true => exact .throw ⟨⟨hself, by decide, _, type, rfl, rfl⟩, trivial⟩
        · exact collectSource_failsOnly _ _ _
    · rename_i method source arguments type
      have hmem : source ∈ (Expr.staticCall method (source :: arguments) type).subterms := by
        simp [Expr.subterms]
      have hsource := fun identifier top =>
        (ih source hmem identifier top).mono fun _ h => h.of_subterm hmem
      simp only
      split
      · rename_i op hop
        refine .bind_of_ok (.lift fun _ => operatorArguments_error) fun a s s' ha => ?_
        cases a with
        | select | selectMany | filter | ordering =>
          exact (hsource _ _).bind fun _ => .pure _
        | distinct =>
          cases top with
          | false =>
            obtain ⟨harguments, -⟩ := run_lift_ok.1 ha
            obtain ⟨rfl, rfl, -⟩ | ⟨layer, -, heq⟩ := operatorArguments_ok hop harguments
            · exact .throw_bind ⟨⟨hself, source, type, rfl⟩, trivial⟩ _
            · cases layer <;> cases heq
          | true => exact (hsource _ _).bind fun _ => .pure _
      · split
        · rename_i hresult
          cases top with
          | false => exact .throw_bind ⟨⟨hself, hresult, _, type, rfl⟩, trivial⟩ _
          | true => exact (hsource _ _).bind fun _ => .pure _
        · exact collectSource_failsOnly _ _ _
    · exact collectSource_failsOnly _ _ _

/-! ## Faults of the steps of a query -/

namespace Step

/-- The step introduces a range variable. -/
def introduces : Step → Bool
  | .range _ _ | .binding _ => true
  | .filter _ | .ordering _ _ _ => false

/-- A fault that a step may have whatever projections are left to it: nothing was sorted that it
could refine, or it does not say which variable it binds. -/
inductive OwnFault : Step → ChainFault → Prop where
  | refinement (key : Expr) (direction : Direction) :
    OwnFault (.ordering key direction false) (.nothingToRefine key)
  | binding {selector : Expr} : Draft.boundVariable? selector = none →
    OwnFault (.binding selector) (.bindingShape selector)

/-- A step takes one projection if it introduces a variable, and none otherwise. -/
theorem length_leaves {step : Step} {projections : List (Option Expr)} {n : Nat}
    (h : n + (if step.introduces then 1 else 0) ≤ projections.length) :
    n ≤ (step.leaves projections).length := by
  cases step <;> simp [introduces, leaves] at h ⊢ <;> omega

theorem mem_of_mem_leaves {step : Step} {projections : List (Option Expr)}
    {projection : Option Expr} (h : projection ∈ step.leaves projections) :
    projection ∈ projections := by
  cases step with
  | range | binding => exact List.mem_of_mem_tail h
  | filter | ordering => exact h

end Step

section

variable {parseSub : SubParser} {faults : ChainFault → Prop}

/-- Of the chains that stand in `e`, the parser fails only with the faults `faults`. -/
def SubParser.FailsOnlyIn (parseSub : SubParser) (faults : ChainFault → Prop) (e : Expr) : Prop :=
  ∀ c ∈ e.parts, (parseSub c).FailsOnly faults

theorem SubParser.FailsOnlyIn.part {d e : Expr} (h : parseSub.FailsOnlyIn faults e)
    (hd : d ∈ e.parts) : parseSub.FailsOnlyIn faults d :=
  fun c hc => h c (Expr.parts_trans hd hc)

theorem nestChains_failsOnly {e : Expr} (h : parseSub.FailsOnlyIn faults e) :
    (nestChains parseSub e).FailsOnly faults := by
  rw [nestChains_eq]
  exact FailsOnly.map (.mapM fun c hc => h c (Expr.mem_parts_of_mem_outerChains hc)) _

namespace Draft

theorem replace_failsOnly {e : Expr} (h : parseSub.FailsOnlyIn faults e) (d : Draft) :
    (d.replace parseSub e).FailsOnly faults :=
  (nestChains_failsOnly h).bind fun _ => .pure _

theorem replaceProjection_failsOnly {projection : Option Expr}
    (h : ∀ e ∈ projection, parseSub.FailsOnlyIn faults e) (d : Draft) :
    (d.replaceProjection parseSub projection).FailsOnly faults := by
  cases projection with
  | none => exact .pure _
  | some e => exact (d.replace_failsOnly (h e rfl)).bind fun _ => .pure _

theorem takeProjection_failsOnly {d : Draft} (h : d.projections ≠ []) (clause : String) (e : Expr) :
    (d.takeProjection clause e).FailsOnly faults := by
  unfold takeProjection
  split
  · rename_i hnone
    exact absurd hnone h
  · exact .pure _

/-- A step that has a projection left to it, if it introduces a variable, fails for itself and for
the chains that stand in it and in the projection only. -/
theorem addStep_failsOnly {d : Draft} {step : Step}
    (hstep : parseSub.FailsOnlyIn faults step.expression)
    (hselectors : ∀ e, some e ∈ d.projections → parseSub.FailsOnlyIn faults e)
    (hown : ∀ fault, step.OwnFault fault → faults fault)
    (hprojections : step.introduces → d.projections ≠ []) :
    (d.addStep parseSub step).FailsOnly faults := by
  cases step with
  | range x source =>
    refine (takeProjection_failsOnly (hprojections rfl) _ _).bind_of_ok
      fun ⟨projection, d'⟩ s s' htake => ?_
    obtain ⟨-, rest, hrest, -⟩ := takeProjection_ok htake
    have hprojection : ∀ e ∈ projection, parseSub.FailsOnlyIn faults e := by
      rintro e rfl
      exact hselectors e (by rw [hrest]; exact List.mem_cons_self)
    refine (d'.replaceProjection_failsOnly hprojection).bind fun ⟨projection, d'⟩ => ?_
    cases hchain : nestedChain? source with
    | some chain =>
      have hmem : chain ∈ source.outerChains := by simp [outerChains_of_nestedChain? hchain]
      exact (hstep chain (Expr.mem_parts_of_mem_outerChains hmem)).bind fun _ => .pure _
    | none => exact (d'.replace_failsOnly hstep).bind fun _ => .pure _
  | filter predicate => exact (d.replace_failsOnly hstep).bind fun _ => .pure _
  | ordering key direction first =>
    refine (d.replace_failsOnly hstep).bind fun ⟨replaced, d⟩ => ?_
    cases first with
    | true => exact .pure _
    | false =>
      cases hopen : d.openOrdering with
      | some index => simpa [hopen] using .pure _
      | none => simpa [hopen] using .throw (hown _ (.refinement key direction))
  | binding selector =>
    refine (takeProjection_failsOnly (hprojections rfl) _ _).bind fun ⟨projection, d⟩ => ?_
    cases hbound : boundVariable? selector with
    | none => exact .throw (hown _ (.binding hbound))
    | some bound =>
      have hvalue := hstep.part (boundVariable?_mem_parts hbound)
      exact (d.replace_failsOnly hvalue).bind fun _ => .pure _

/-- Steps have projections left to them as long as there are as many as introduce variables. -/
theorem foldlM_failsOnly {steps : List Step} {d : Draft}
    (hsteps : ∀ step ∈ steps, parseSub.FailsOnlyIn faults step.expression)
    (hselectors : ∀ e, some e ∈ d.projections → parseSub.FailsOnlyIn faults e)
    (hown : ∀ step ∈ steps, ∀ fault, step.OwnFault fault → faults fault)
    (hcount : steps.countP Step.introduces ≤ d.projections.length) :
    (steps.foldlM (addStep parseSub) d).FailsOnly faults := by
  induction steps generalizing d with
  | nil => exact .pure _
  | cons step steps ih =>
    rw [List.forall_mem_cons] at hsteps hown
    rw [List.countP_cons] at hcount
    rw [List.foldlM_cons]
    refine (addStep_failsOnly hsteps.1 hselectors hown.1 fun hintroduces => ?_).bind_of_ok
      fun d' s s' hstep => ?_
    · rw [if_pos hintroduces] at hcount
      exact List.ne_nil_of_length_pos (by omega)
    · have hleft := (addStep_leaves hstep).1
      refine ih hsteps.2 (fun e he => hselectors e ?_) hown.2 ?_
      · rw [hleft] at he
        exact Step.mem_of_mem_leaves he
      · rw [hleft]
        exact Step.length_leaves hcount

end Draft

/-- A query is assembled from steps and projections that match without a fault but their own and
those of the chains that stand in them. -/
theorem assemble_failsOnly (key : Nat) (parent : Option Nat) (e : Expr) {c : Collected}
    {x : Parameter} {source : Expr} {steps : List Step}
    (hcollected : c.steps = .range x source :: steps)
    (hsteps : ∀ step ∈ steps, parseSub.FailsOnlyIn faults step.expression)
    (hselectors : ∀ e, some e ∈ c.projections → parseSub.FailsOnlyIn faults e)
    (hown : ∀ step ∈ steps, ∀ fault, step.OwnFault fault → faults fault)
    (hcount : steps.countP Step.introduces ≤ c.projections.length) (hsome : c.projections ≠ []) :
    (assemble parseSub key parent e c).FailsOnly faults := by
  unfold assemble
  simp only [hcollected, pure_bind]
  refine (Draft.foldlM_failsOnly hsteps hselectors hown hcount).bind fun d => ?_
  obtain ⟨projection, hlast⟩ := Option.ne_none_iff_exists'.1 (List.getLast?_eq_none_iff.not.2 hsome)
  simp only [hlast]
  have hprojection : ∀ e ∈ projection, parseSub.FailsOnlyIn faults e := by
    rintro e rfl
    exact hselectors e (List.mem_of_getLast? hlast)
  exact (d.replaceProjection_failsOnly hprojection).bind fun _ => .pure _

end

end QueryChain
