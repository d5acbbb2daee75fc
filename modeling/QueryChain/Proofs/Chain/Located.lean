import QueryChain.Proofs.Chain.Links
import QueryChain.Proofs.Chain.Pairing

/-!
# Where faults are found

The phases of a parse work on folded sources, on lambdas without their quotes and on expressions
with references in them. What a fault names is none of these: it stands in the chain as that was
given (`ChainFault.FoundIn`). `parseChain_foundIn` carries this through embedded chains: each is a
part of the chain around it, so a fault found in one is found in the other.
-/

namespace QueryChain

open ParseM

/-- The argument that a fault is about, beside the call that has it. -/
def ChainFault.argument? : ChainFault → Option Expr
  | .argumentShape _ _ _ argument _ => some argument
  | .argumentCount _ _ _ _ | .notASource _ _ | .nestedResultOperator _ _ | .nestedDistinct _
  | .noMainRange _ | .noProjection _ _ | .noSelectProjection _ | .nothingToRefine _
  | .bindingShape _ => none

/-- The argument that a fault names stands in the call that it names. -/
theorem ChainFault.Justified.argument_mem_parts {fault : ChainFault} (h : fault.Justified) :
    ∀ argument ∈ fault.argument?, argument ∈ fault.expression.parts := by
  intro argument hargument
  cases fault with
  | argumentShape method index parameters argument' e =>
    obtain rfl : argument' = argument := Option.some.inj hargument
    obtain ⟨-, arguments, type, written, rfl, hwritten, rfl⟩ := h
    exact Expr.mem_parts_of_subterm (List.mem_of_getElem? hwritten)
      (Expr.unquoted_mem_parts written)
  | _ => cases hargument

theorem Draft.boundVariable?_eq_none {p : Parameter} {body : Expr}
    (h : boundVariable? (.lambda [p] body) = none) : ¬(Layer.select p body).Binds := by
  intro hbinds
  obtain ⟨others, m, value, type, rfl⟩ := Layer.binds_select_iff.1 hbinds
  simp [boundVariable?, Expr.unquoted] at h

/-- What the step of an operator is at fault for is so of the lambda of the operator. -/
theorem Layer.step_justified {layer : Layer} {fault : ChainFault} (h : layer.step.OwnFault fault) :
    fault.expression = layer.step.expression ∧ fault.Justified := by
  cases layer with
  | select p body =>
    cases h with
    | binding hbound => exact ⟨rfl, p, body, rfl, Draft.boundVariable?_eq_none hbound⟩
  | ordering direction first p body =>
    cases h
    exact ⟨rfl, p, body, rfl⟩
  | _ => cases h

/-- Every fault that a parse can have is found in the chain that it is given. -/
theorem parseChain_foundIn {depth : Nat} {e : Expr} (hdepth : e.size ≤ depth)
    (parent : Option Nat) : (parseChain depth parent e).FailsOnly (ChainFault.FoundIn e) := by
  induction depth generalizing parent e with
  | zero => exact absurd (Expr.size_pos e) (by omega)
  | succ depth ih =>
    refine FailsOnly.bind nofun fun key => ?_
    refine ((collect_failsOnly e none true).mono fun _ h => h.toFoundIn).bind_of_ok
      fun c s s' hc => ?_
    obtain ⟨-, hprojection, henough, -⟩ := collect_paired hc
    obtain ⟨source, layers, distinct, modifiers, hspine, -, -, rfl⟩ := collect_top_ok hc
    -- A fault of a chain embedded in a lambda is found in that chain, and so in `e`.
    have hembedded : ∀ layer ∈ layers, ∀ l ∈ layer.lambdas,
        SubParser.FailsOnlyIn (parseChain depth (some key)) (ChainFault.FoundIn e) l := by
      intro layer hlayer l hl d hd
      obtain ⟨hpart, hsize⟩ := hspine.part_of_lambda hlayer hl hd
      exact (ih (by omega) (some key)).mono fun fault h => h.of_part hpart
    refine assemble_failsOnly key parent e rfl (fun step hstep => ?_) (fun d hd => ?_)
      (fun step hstep fault hfault => ?_) henough hprojection
    · obtain ⟨layer, hlayer, rfl⟩ := mem_topSteps hstep
      exact hembedded layer hlayer _ layer.step_expression_mem
    · obtain ⟨layer, hlayer, hl⟩ := Layer.mem_projections hd rfl
      exact hembedded layer hlayer d hl
    · obtain ⟨layer, hlayer, rfl⟩ := mem_topSteps hstep
      obtain ⟨hexpression, hjustified⟩ := Layer.step_justified hfault
      have hpart := (hspine.part_of_lambda hlayer layer.step_expression_mem
        (Expr.mem_parts_self _)).1
      exact ⟨hexpression ▸ hpart, hjustified⟩

/-- An error tells the whole query, and what it blames there stands in the query as that was given,
however deep the chain is embedded that has the fault. -/
theorem error_in_query {e : Expr} {error : ChainError} (h : parse e = .error error) :
    error.query = e ∧ error.fault.expression ∈ e.parts
      ∧ (∀ argument ∈ error.fault.argument?, argument ∈ e.parts) ∧ error.fault.Justified := by
  obtain ⟨hrun, hquery⟩ := parse_eq_error h
  obtain ⟨hexpression, hjustified⟩ := parseChain_foundIn (Nat.le_refl _) none hrun
  refine ⟨hquery, hexpression, fun argument hargument => ?_, hjustified⟩
  exact Expr.parts_trans hexpression (hjustified.argument_mem_parts argument hargument)

/-- `from s in Students where (from x, y in Students where x.Active).Any() select s`, which no
comprehension compiles to: `Where` takes one parameter. -/
def pairwiseFiltered : Expr :=
  let s : Parameter := { name := "s", type := "Student" }
  let x : Parameter := { name := "x", type := "Student" }
  let y : Parameter := { name := "y", type := "Student" }
  let students := Expr.table "Students" "Student"
  let active := Expr.member (.parameter x)
    { declaringType := "Student", name := "Active", type := "Boolean" }
  Chain.filter students (.lambda [s]
    (Chain.result "Any" (Chain.filter students (.lambda [x, y] active)) []))

theorem error_in_query_pairwise :
    ∃ error, parse pairwiseFiltered = .error error ∧ error.fault.argument?.isSome
      ∧ error.query = pairwiseFiltered ∧ error.fault.expression ∈ pairwiseFiltered.parts
      ∧ (∀ argument ∈ error.fault.argument?, argument ∈ pairwiseFiltered.parts)
      ∧ error.fault.Justified :=
  ⟨_, rfl, rfl, error_in_query rfl⟩

end QueryChain
