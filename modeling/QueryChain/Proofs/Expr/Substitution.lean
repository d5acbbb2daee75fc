import Mathlib.Data.List.Induction
import QueryChain.Proofs.Chain.Embedded

/-!
# Substitution

Expressions in place of free parameters. A lambda hides its own parameters from what is put in from
outside. What a substitution puts in has the types of the parameters and holds no chain, and then
the expression keeps its type (`type_substitute`) and gets no chain either
(`outerChains_substitute`).
-/

namespace QueryChain

/-- The expressions to put in the places of parameters. -/
abbrev Substitution := Parameter → Option Expr

namespace Expr

/-- The expression that reads members from a parameter, one after the other. -/
def read (p : Parameter) (members : List Member) : Expr :=
  members.foldl member (.parameter p)

theorem read_concat (p : Parameter) (members : List Member) (m : Member) :
    read p (members ++ [m]) = .member (read p members) m := by
  simp [read]

theorem read_append (p : Parameter) (members members' : List Member) :
    read p (members ++ members') = members'.foldl member (read p members) := by
  simp [read]

theorem exists_read_cons_eq_member (p : Parameter) (m : Member) (members : List Member) :
    ∃ object last, read p (m :: members) = .member object last := by
  rcases List.eq_nil_or_concat' members with rfl | ⟨before, last, rfl⟩
  · exact ⟨_, _, rfl⟩
  · exact ⟨_, _, read_concat p (m :: before) last⟩

theorem outerChains_read (p : Parameter) (members : List Member) :
    (read p members).outerChains = [] := by
  induction members using List.reverseRecOn with
  | nil => simp [read, outerChains, isChain, subterms, outerChainsAll]
  | append_singleton members m ih =>
    rw [read_concat, outerChains_of_not_isChain (by simp [isChain])]
    simp [subterms, outerChainsAll, ih]

theorem lambda?_read (p : Parameter) (members : List Member) : (read p members).lambda? = none := by
  induction members using List.reverseRecOn with
  | nil => rfl
  | append_singleton members m _ =>
    rw [read_concat]
    rfl

end Expr

namespace Substitution

/-- What is left of a substitution below the node `e`. -/
def below (σ : Substitution) (e : Expr) : Substitution :=
  match e with
  | .lambda parameters _ => fun p => if p.name ∈ parameters.map (·.name) then none else σ p
  | _ => σ

/-- A substitution puts in references, with the types of the parameters. -/
structure Plain (σ : Substitution) : Prop where
  type_eq : ∀ {p : Parameter} {e : Expr}, σ p = some e → e.type = p.type
  read_eq : ∀ {p : Parameter} {e : Expr}, σ p = some e → ∃ root members, e = .read root members

theorem below_eq_some {σ : Substitution} {e d : Expr} {p : Parameter} (h : σ.below e p = some d) :
    σ p = some d := by
  unfold below at h
  split at h
  · split at h
    · cases h
    · exact h
  · exact h

theorem Plain.below {σ : Substitution} (h : σ.Plain) (e : Expr) : (σ.below e).Plain where
  type_eq := fun hd => h.type_eq (below_eq_some hd)
  read_eq := fun hd => h.read_eq (below_eq_some hd)

theorem Plain.outerChains_eq {σ : Substitution} (h : σ.Plain) {p : Parameter} {e : Expr}
    (he : σ p = some e) : e.outerChains = [] := by
  obtain ⟨root, members, rfl⟩ := h.read_eq he
  exact Expr.outerChains_read root members

end Substitution

namespace Expr

/-- An expression with others in place of its free parameters. -/
def substitute (σ : Substitution) (e : Expr) : Expr :=
  match e with
  | .parameter p => (σ p).getD (.parameter p)
  | e => e.withSubterms (e.subterms.attach.map fun ⟨c, _⟩ => c.substitute (σ.below e))
termination_by e.size
decreasing_by exact size_lt_of_mem_subterms (by assumption)

theorem parameter?_eq_some {e : Expr} {p : Parameter} (h : e.parameter? = some p) :
    e = .parameter p := by
  cases e <;> simp_all [parameter?]

theorem substitute_parameter (σ : Substitution) (p : Parameter) :
    substitute σ (.parameter p) = (σ p).getD (.parameter p) := by
  rw [substitute]

theorem substitute_node (σ : Substitution) {e : Expr} (h : e.parameter? = none) :
    e.substitute σ = e.withSubterms (e.subterms.map (substitute (σ.below e))) := by
  rw [substitute]
  · congr 1
    simp
  · rintro p rfl
    cases h

theorem substitute_lambda (σ : Substitution) (parameters : List Parameter) (body : Expr) :
    substitute σ (.lambda parameters body)
      = .lambda parameters (body.substitute (σ.below (.lambda parameters body))) := by
  rw [substitute_node σ rfl]
  rfl

theorem substitute_member (σ : Substitution) (object : Expr) (m : Member) :
    substitute σ (.member object m) = .member (object.substitute σ) m := by
  rw [substitute_node σ rfl]
  rfl

theorem isChain_withSubterms {e : Expr} {es : List Expr}
    (h : es.head?.map isChain = e.subterms.head?.map isChain) :
    (e.withSubterms es).isChain = e.isChain := by
  cases e with
  | staticCall method arguments type =>
    cases arguments <;> cases es <;> simp_all [withSubterms, isChain, subterms]
  | _ => rcases es with _ | ⟨a, _ | ⟨b, _ | ⟨c, _ | _⟩⟩⟩ <;> rfl

theorem isChain_substitute {σ : Substitution} (hσ : σ.Plain) (e : Expr) :
    (e.substitute σ).isChain = e.isChain := by
  induction e using subterms_induction generalizing σ with
  | node e ih =>
    cases hp : e.parameter? with
    | none =>
      rw [substitute_node σ hp]
      apply isChain_withSubterms
      cases hsubterms : e.subterms with
      | nil => rfl
      | cons c cs =>
        simp only [List.map_cons, List.head?_cons, Option.map_some]
        rw [ih c (by simp [hsubterms]) (hσ.below e)]
    | some p =>
      obtain rfl := parameter?_eq_some hp
      rw [substitute_parameter]
      cases hd : σ p with
      | none => rfl
      | some d => exact not_isChain_of_outerChains (hσ.outerChains_eq hd)

/-- Where there is no chain, a plain substitution makes none. -/
theorem outerChains_substitute {σ : Substitution} (hσ : σ.Plain) {e : Expr}
    (h : e.outerChains = []) : (e.substitute σ).outerChains = [] := by
  induction e using subterms_induction generalizing σ with
  | node e ih =>
    obtain ⟨hnot, hsubterms⟩ := outerChains_eq_nil.1 h
    cases hp : e.parameter? with
    | none =>
      rw [outerChains_eq_nil, isChain_substitute hσ, substitute_node σ hp,
        subterms_withSubterms (by simp)]
      refine ⟨hnot, ?_⟩
      intro c' hc'
      obtain ⟨c, hc, rfl⟩ := List.mem_map.1 hc'
      exact ih c hc (hσ.below e) (hsubterms c hc)
    | some p =>
      obtain rfl := parameter?_eq_some hp
      rw [substitute_parameter]
      cases hd : σ p with
      | none => exact h
      | some d => exact hσ.outerChains_eq hd

theorem lambda?_withSubterms {e : Expr} {es : List Expr} (h : e.lambda? = none) :
    (e.withSubterms es).lambda? = none := by
  cases e with
  | lambda => cases h
  | _ => rcases es with _ | ⟨a, _ | ⟨b, _ | ⟨c, _ | _⟩⟩⟩ <;> rfl

theorem lambda?_substitute {σ : Substitution} (hσ : σ.Plain) {e : Expr} (h : e.lambda? = none) :
    (e.substitute σ).lambda? = none := by
  cases hp : e.parameter? with
  | none =>
    rw [substitute_node σ hp]
    exact lambda?_withSubterms h
  | some p =>
    obtain rfl := parameter?_eq_some hp
    rw [substitute_parameter]
    cases hd : σ p with
    | none => rfl
    | some d =>
      obtain ⟨root, members, rfl⟩ := hσ.read_eq hd
      exact lambda?_read root members

theorem type_invoke {function : Expr} (h : function.lambda? = none) (arguments : List Expr) :
    (invoke function arguments).type = "Object" := by
  cases function with
  | lambda => cases h
  | _ => rfl

/-- A plain substitution keeps the type of an expression. -/
theorem type_substitute {σ : Substitution} (hσ : σ.Plain) (e : Expr) :
    (e.substitute σ).type = e.type := by
  cases e with
  | parameter p =>
    rw [substitute_parameter]
    cases hd : σ p with
    | none => rfl
    | some d => exact hσ.type_eq hd
  | lambda parameters body =>
    rw [substitute_lambda]
    simp only [type]
    rw [type_substitute (hσ.below _) body]
  | conditional test ifTrue ifFalse =>
    rw [substitute_node σ rfl]
    exact type_substitute hσ ifTrue
  | invoke function arguments =>
    rw [substitute_node σ rfl]
    show (invoke (function.substitute σ) _).type = _
    cases function with
    | lambda parameters body =>
      rw [substitute_lambda]
      exact type_substitute (hσ.below _) body
    | _ => rw [type_invoke (lambda?_substitute hσ rfl), type_invoke rfl]
  | _ =>
    rw [substitute_node σ rfl]
    rfl
termination_by e.size
decreasing_by
  all_goals simp only [size]; omega

end Expr

end QueryChain
