import QueryChain.Proofs.Chain.Elements
import QueryChain.Proofs.Expr.Substitution

/-!
# The types of embedded chains and of what stands for them

Every node of a chain knows the type of its value. Once an embedded chain has become a query of its
own, a reference to that query stands for it, and the type of the reference is made from the type
that the query tells for its elements. What is done with the query's result plays no part in it.

* `Expr.Built.announced`: the types of the calls of a chain, from its source up;
* `Spine.type_eq`: what result operators make of the type below them;
* `Expr.NestedAs.type_cases`: where a reference gives an expression its type, and where not;
* `reportsType_iff_tells` compares a chain with the reference that stands for it. The reference is
  right for the chains whose value is a sequence, if their queries tell the type of their elements.
  It is a query where a count, an answer or one element is expected.
-/

namespace QueryChain

open QueryChain.TypeName

/-! ## Lengths of type names -/

namespace TypeName

theorem length_afterBracket_le (cs : List Char) : (afterBracket cs).length ≤ cs.length := by
  induction cs with
  | nil => exact Nat.le_refl _
  | cons c cs ih =>
    rw [afterBracket]
    split
    · exact Nat.le_succ _
    · exact Nat.le_succ_of_le ih

theorem length_elementOrSelf_le (type : String) : (elementOrSelf type).length ≤ type.length := by
  unfold elementOrSelf element?
  simp only
  split
  · have := length_afterBracket_le type.toList
    simp only [Option.getD_some, String.length_ofList, List.length_dropLast]
    rw [← String.length_toList (s := type)]
    omega
  · exact Nat.le_refl _

theorem length_queryable (element : String) : (queryable element).length = element.length + 12 := by
  simp only [queryable, String.length_append]
  have : "IQueryable<".length = 11 := rfl
  have : ">".length = 1 := rfl
  omega

theorem function_inj {result result' : String} :
    function result = function result' ↔ result = result' := by
  simp only [function, ← String.toList_inj, String.toList_append, List.append_cancel_left_eq,
    List.append_cancel_right_eq]

theorem element?_queryable {element : String} :
    element? (queryable element) = if element = "" then none else some element := by
  split
  · subst element
    rfl
  · rename_i h
    have hself := elementOrSelf_queryable h
    unfold elementOrSelf at hself
    cases helement : element? (queryable element) with
    | some found => simpa [helement] using hself
    | none =>
      rw [helement, Option.getD_none] at hself
      have := congrArg String.length hself
      rw [length_queryable] at this
      omega

end TypeName

/-! ## Types of calls -/

namespace Expr

/-- A chain whose calls have the types of what they make, over any source with a type. -/
inductive Built : Expr → Prop where
  | source {e : Expr} : ¬e.IsOperatorCall → e.type ≠ "" → Built e
  | select {e body : Expr} {p : Parameter} :
    e.Built → Built (Chain.select e (.lambda [p] body))
  | selectMany {e found body : Expr} {p q x : Parameter} :
    e.Built → Built (Chain.selectMany e (.lambda [p] found) (.lambda [q, x] body))
  | filter {e body : Expr} {p : Parameter} :
    e.Built → Built (Chain.filter e (.lambda [p] body))
  | ordering (direction : Direction) (first : Bool) {e body : Expr} {p : Parameter} :
    e.Built → Built (Chain.ordering (Operator.ordering direction first).name e (.lambda [p] body))
  | distinct {e : Expr} : e.Built → Built (Chain.distinct e)
  | result {e : Expr} {method : String} {arguments : List Expr} :
    isResultMethod method → e.Built → Built (Chain.result method e arguments)

/-- A chain without the `Distinct` and the result operators on top of it. -/
def underEndings : Expr → Expr
  | .staticCall method (source :: arguments) type =>
    if method = "Distinct" ∨ isResultMethod method then source.underEndings
    else .staticCall method (source :: arguments) type
  | e => e
termination_by structural e => e

end Expr

/-- The operators whose value is an element, a count or an answer, and not some of the elements. -/
def isSingleMethod (method : String) : Bool :=
  isResultMethod method && method != "Take" && method != "Skip"

theorem resultType_of_not_isSingle {method : String} (hresult : isResultMethod method)
    (h : isSingleMethod method = false) (sourceType : String) :
    Chain.resultType method sourceType = sourceType := by
  have hmethod : method = "Take" ∨ method = "Skip" := by
    by_contra hnot
    rw [not_or] at hnot
    simp [isSingleMethod, hresult, hnot.1, hnot.2] at h
  obtain rfl | rfl := hmethod <;> rfl

theorem resultType_ne_empty (method : String) {sourceType : String} (h : sourceType ≠ "") :
    Chain.resultType method sourceType ≠ "" := by
  unfold Chain.resultType
  split
  · decide
  · split
    · decide
    · split
      · exact h
      · exact elementOrSelf_ne_empty h

/-- What a single value is called is no longer than what the elements are called, or short. -/
theorem length_resultType_le {method : String} (h : isSingleMethod method) (sourceType : String) :
    (Chain.resultType method sourceType).length ≤ max 7 (elementOrSelf sourceType).length := by
  unfold Chain.resultType
  split
  · exact Nat.le_trans (by decide) (Nat.le_max_left ..)
  · split
    · exact Nat.le_max_left ..
    · split
      · rename_i hmethod
        obtain rfl | rfl := hmethod <;> cases h
      · exact Nat.le_max_right ..

/-- The operators whose value is a count or an answer. -/
def countMethods : List String :=
  ["Count", "LongCount", "Any", "All"]

theorem isSingle_of_mem_countMethods :
    ∀ method ∈ countMethods, isResultMethod method ∧ isSingleMethod method := by
  decide

theorem length_resultType_le_seven {method : String} (h : method ∈ countMethods)
    (sourceType : String) : (Chain.resultType method sourceType).length ≤ 7 := by
  simp only [countMethods, List.mem_cons, List.not_mem_nil, or_false] at h
  obtain rfl | rfl | rfl | rfl := h
  · exact (by decide : "Int32".length ≤ 7)
  · exact (by decide : "Int32".length ≤ 7)
  · exact (by decide : "Boolean".length ≤ 7)
  · exact (by decide : "Boolean".length ≤ 7)

namespace Expr.Built

variable {source e : Expr} {method : String} {arguments : List Expr} {type : String}

theorem type_ne_empty (h : e.Built) : e.type ≠ "" := by
  induction h with
  | source _ h => exact h
  | select | selectMany => exact queryable_ne_empty _
  | filter _ ih | distinct _ ih => exact ih
  | ordering => exact orderedQueryable_ne_empty _
  | result _ _ ih => exact resultType_ne_empty _ ih

theorem layer {layer : Layer} (h : (staticCall method (source :: arguments) type).Built)
    (hreads : layer.Reads method arguments) :
    source.Built ∧ elementOrSelf type = layer.makes (elementOrSelf source.type) := by
  generalize he : staticCall method (source :: arguments) type = e at h
  cases h with
  | source hnot =>
    subst he
    exact absurd (hreads.isOperatorCall _ _) hnot
  | select h =>
    cases he
    obtain rfl := hreads.unique (.select rfl)
    exact ⟨h, rfl⟩
  | selectMany h =>
    cases he
    obtain rfl := hreads.unique (.selectMany rfl rfl)
    exact ⟨h, rfl⟩
  | filter h =>
    cases he
    obtain rfl := hreads.unique (.filter rfl)
    exact ⟨h, rfl⟩
  | ordering direction first h =>
    cases he
    obtain rfl := hreads.unique (.ordering rfl)
    exact ⟨h, elementOrSelf_orderedQueryable (elementOrSelf_ne_empty h.type_ne_empty)⟩
  | distinct =>
    cases he
    exact absurd rfl hreads.not_distinct
  | result hresult =>
    cases he
    simp [hreads.not_isResultMethod] at hresult

theorem distinctCall (h : (staticCall "Distinct" [source] type).Built) :
    source.Built ∧ type = source.type := by
  generalize he : staticCall "Distinct" [source] type = e at h
  cases h with
  | source hnot =>
    subst he
    exact absurd (.operator rfl) hnot
  | ordering direction first =>
    injection he with hmethod
    cases direction <;> cases first <;> simp [Operator.name] at hmethod
  | distinct h =>
    cases he
    exact ⟨h, rfl⟩
  | result hresult =>
    cases he
    exact absurd hresult (by decide)
  | select | selectMany | filter =>
    injection he with hmethod
    exact absurd hmethod (by decide)

theorem resultCall (hresult : isResultMethod method)
    (h : (staticCall method (source :: arguments) type).Built) :
    source.Built ∧ type = Chain.resultType method source.type := by
  generalize he : staticCall method (source :: arguments) type = e at h
  cases h with
  | source hnot =>
    subst he
    exact absurd (.result hresult) hnot
  | ordering direction first =>
    cases he
    cases direction <;> cases first <;> exact absurd hresult (by decide)
  | result _ h =>
    cases he
    exact ⟨h, rfl⟩
  | select | selectMany | filter | distinct =>
    cases he
    exact absurd hresult (by decide)

/-- The elements that a chain announces are those that its last operator with a selector makes. -/
theorem announced {layers : List Layer} (h : Layered source e layers) (he : e.Built) :
    elementOrSelf e.type
      = ((Layer.lastMade? layers).map fun made => elementOrSelf (queryable made.resultType)).getD
          (elementOrSelf source.type) := by
  rw [← Layer.foldl_makes]
  induction h with
  | source => rfl
  | layer _ hreads ih =>
    obtain ⟨hbelow, htype⟩ := he.layer hreads
    rw [List.foldl_append, ← ih hbelow]
    exact htype

end Expr.Built

theorem Layered.underEndings_eq {source e : Expr} {layers : List Layer}
    (h : Layered source e layers) : e.underEndings = e := by
  unfold Expr.underEndings
  cases h with
  | source hnot =>
    split
    · rename_i method source arguments type
      rw [if_neg]
      rintro (rfl | hresult)
      · exact hnot (.operator rfl)
      · exact hnot (.result hresult)
    · rfl
  | layer _ hreads =>
    simp [hreads.not_distinct, hreads.not_isResultMethod]

theorem Spine.layered {source e : Expr} {layers : List Layer} {distinct : Bool}
    {modifiers : List Modifier} (h : Spine source layers e distinct modifiers) :
    Layered source e.underEndings layers := by
  induction h with
  | lambdas h => rwa [h.underEndings_eq]
  | distinct _ ih => simpa [Expr.underEndings] using ih
  | result _ hresult ih => simpa [Expr.underEndings, hresult] using ih

/-- Result operators that keep the sequence below them keep its type, and any others make no name
longer than that of an element, or a short one. -/
theorem Spine.type_cases {source e : Expr} {layers : List Layer} {distinct : Bool}
    {modifiers : List Modifier} (h : Spine source layers e distinct modifiers) (he : e.Built) :
    e.underEndings.Built
      ∧ ((∀ k ∈ modifiers, isSingleMethod k.method = false) ∧ e.type = e.underEndings.type
        ∨ (∃ k ∈ modifiers, isSingleMethod k.method)
          ∧ e.type.length ≤ max 7 (elementOrSelf e.underEndings.type).length) := by
  induction h with
  | lambdas h =>
    rw [h.underEndings_eq]
    exact ⟨he, .inl ⟨by simp, rfl⟩⟩
  | distinct _ ih =>
    obtain ⟨hbelow, rfl⟩ := he.distinctCall
    simpa [Expr.underEndings, Expr.type] using ih hbelow
  | @result e _ modifiers method arguments type _ hresult ih =>
    obtain ⟨hbelow, rfl⟩ := he.resultCall hresult
    obtain ⟨hbuilt, hcases⟩ := ih hbelow
    have hunder : (Expr.staticCall method (e :: arguments)
        (Chain.resultType method e.type)).underEndings = e.underEndings := by
      simp [Expr.underEndings, hresult]
    rw [hunder]
    refine ⟨hbuilt, ?_⟩
    cases hsingle : isSingleMethod method with
    | false =>
      simpa [or_imp, forall_and, hsingle, Expr.type, resultType_of_not_isSingle hresult hsingle]
        using hcases
    | true =>
      refine .inr ⟨⟨⟨method, arguments⟩, by simp, hsingle⟩, ?_⟩
      have hle : (Chain.resultType method e.type).length ≤ max 7 (elementOrSelf e.type).length :=
        length_resultType_le hsingle e.type
      rcases hcases with ⟨-, htype⟩ | ⟨-, hlength⟩
      · rwa [← htype]
      · have := length_elementOrSelf_le e.type
        exact Nat.le_trans hle (by omega)

/-! ## Types around a chain -/

namespace Expr

/-- The chain that gives an expression its type: the expression itself, or what gives the type to
the body of the lambda, or to the first branch of the choice, that it is. -/
def typeChain? : Expr → Option Expr
  | .staticCall method arguments type =>
    if (staticCall method arguments type).isChain then some (.staticCall method arguments type)
    else none
  | .lambda _ body => body.typeChain?
  | .conditional _ ifTrue _ => ifTrue.typeChain?
  | .invoke (.lambda _ body) _ => body.typeChain?
  | _ => none
termination_by structural e => e

theorem typeChain?_of_isChain {e : Expr} (h : e.isChain) : e.typeChain? = some e := by
  cases e with
  | staticCall => simp [typeChain?, h]
  | _ => cases h

theorem typeChain?_invoke {function : Expr} (h : function.lambda? = none) (arguments : List Expr) :
    (invoke function arguments).typeChain? = none := by
  cases function with
  | lambda => cases h
  | _ => rfl

/-- Most nodes know their own type, whatever their subterms are. -/
theorem type_withSubterms {e : Expr} {es : List Expr} (hlambda : e.lambda? = none)
    (hconditional : ∀ test ifTrue ifFalse, e ≠ .conditional test ifTrue ifFalse)
    (hinvoke : ∀ function arguments, e ≠ .invoke function arguments) :
    (e.withSubterms es).type = e.type := by
  cases e with
  | lambda => cases hlambda
  | conditional => exact absurd rfl (hconditional _ _ _)
  | invoke => exact absurd rfl (hinvoke _ _)
  | _ => rcases es with _ | ⟨a, _ | ⟨b, _ | ⟨c, _ | _⟩⟩⟩ <;> rfl

/-- An expression keeps its type when chains in it are replaced, unless it has the type of a chain.
Then it keeps its type if the reference that stands for that chain has the type of the chain. -/
theorem NestedAs.type_cases {found : Expr → QueryRef → Prop} {e e' : Expr}
    (h : e.NestedAs found e') :
    (e.typeChain? = none ∧ e'.type = e.type)
      ∨ ∃ c ref, e.typeChain? = some c ∧ found c ref
        ∧ (e'.type = e.type ↔ (subQuery ref).type = c.type) := by
  induction e using subterms_induction generalizing e' with
  | node e ih =>
    cases h with
    | chain hchain href => exact .inr ⟨e, _, typeChain?_of_isChain hchain, href, .rfl⟩
    | @node _ es hnot hes =>
      cases e with
      | lambda parameters body =>
        obtain _ | ⟨hbody, hnil⟩ := hes
        cases hnil
        simpa only [withSubterms, type, typeChain?, function_inj]
          using ih body (by simp [subterms]) hbody
      | conditional test ifTrue ifFalse =>
        obtain _ | ⟨-, hes⟩ := hes
        obtain _ | ⟨htrue, hes⟩ := hes
        obtain _ | ⟨-, hnil⟩ := hes
        cases hnil
        simpa only [withSubterms, type, typeChain?] using ih ifTrue (by simp [subterms]) htrue
      | invoke function arguments =>
        obtain _ | ⟨hfunction, hes⟩ := hes
        have ih := ih function (by simp [subterms]) hfunction
        cases hlambda : function.lambda? with
        | none =>
          refine .inl ⟨typeChain?_invoke hlambda _, ?_⟩
          rw [type_invoke hlambda]
          cases hfunction with
          | chain => rfl
          | node => exact type_invoke (lambda?_withSubterms hlambda) _
        | some =>
          cases function with
          | lambda parameters body =>
            obtain ⟨body', rfl, -⟩ := hfunction.lambda
            simpa only [withSubterms, type, typeChain?, function_inj] using ih
          | _ => cases hlambda
      | staticCall => exact .inl ⟨by simpa [typeChain?] using hnot, rfl⟩
      | _ => exact .inl ⟨rfl, type_withSubterms rfl (by simp) (by simp)⟩

end Expr

/-! ## A chain and the reference that stands for it -/

/-- Whether the value of a chain is an element, a count or an answer. -/
def Expr.isSingleValued : Expr → Bool
  | .staticCall method _ _ => isSingleMethod method
  | _ => false

/-- The reference to a query has the type of its chain's value, where that is a single value, and is
a sequence of the same elements otherwise. -/
def Query.ReportsType (m : Query) : Prop :=
  if m.expression.isSingleValued then (Expr.subQuery m.ref).type = m.expression.type
  else element? (Expr.subQuery m.ref).type = some (elementOrSelf m.expression.type)

/-- The type of the last variable that is ranged over, for a chain with any source. -/
def lastVariableType (source : Expr) (layers : List Layer) : String :=
  ((layers.filterMap Layer.ranged?).getLast?.map (·.type)).getD
    (mainVariable source.evaluate 0 layers).type

/-- Whether a query tells the type of the elements that its chain announces. That is the type of
what the last selector makes, and it has to be the same after chains in the selector are replaced.
Where the last operator has no selector, the query tells the type of a variable instead. -/
def Query.TellsElements (m : Query) (source : Expr) (layers : List Layer) : Prop :=
  match lastSelector? layers, Layer.lastMade? layers with
  | some selector, _ =>
    m.select.projection.map Expr.resultType = some (elementOrSelf (queryable selector.resultType))
  | none, some made =>
    lastVariableType source layers = elementOrSelf (queryable made.resultType)
  | none, none => (mainVariable source.evaluate 0 layers).type = elementOrSelf source.type

theorem Rendered.announces_iff_tells {m : Query} {source : Expr} {layers : List Layer}
    (h : Rendered m source layers) (hbuilt : m.expression.Built) :
    m.elementType = elementOrSelf m.expression.underEndings.type
      ↔ m.TellsElements source layers := by
  rw [(h.spine.type_cases hbuilt).1.announced h.spine.layered]
  unfold Query.TellsElements
  cases hlast : lastSelector? layers with
  | some selector =>
    rw [Layer.lastMade?_of_lastSelector? hlast]
    obtain ⟨layer, -, hselector⟩ := Option.bind_eq_some_iff.1 hlast
    obtain ⟨parameters, body, rfl⟩ : ∃ parameters body, selector = .lambda parameters body := by
      cases layer <;> cases hselector <;> exact ⟨_, _, rfl⟩
    have hprojection := h.projection
    rw [hlast] at hprojection
    cases hselect : m.select.projection with
    | none =>
      rw [hselect] at hprojection
      cases hprojection
    | some projection =>
      rw [hselect] at hprojection
      obtain ⟨hnested⟩ := hprojection
      obtain ⟨body', rfl, -⟩ := hnested.lambda
      simp [Query.elementType, hselect, Expr.unquoted]
  | none =>
    have htold := h.elementType_eq (by simp [hlast])
    have hmain (n : Nat) : (mainVariable source.evaluate n layers).type
        = (mainVariable source.evaluate 0 layers).type := by
      cases layers <;> rfl
    obtain ⟨n, hn⟩ := h.main
    rw [hlast, hn, hmain] at htold
    rw [htold]
    cases hmade : Layer.lastMade? layers with
    | some made => rfl
    | none =>
      have hranged := Layer.filterMap_ranged? (List.getLast?_eq_none_iff.1 hmade)
      simp [hranged]

theorem Spine.exists_single {source e : Expr} {layers : List Layer} {distinct : Bool}
    {modifiers : List Modifier} (h : Spine source layers e distinct modifiers)
    (hsingle : e.isSingleValued) : ∃ k ∈ modifiers, isSingleMethod k.method := by
  have hnot {method : String} (h : isResultMethod method = false) :
      isSingleMethod method = false := by
    simp [isSingleMethod, h]
  cases h with
  | lambdas h =>
    cases h with
    | source hsource =>
      cases source with
      | staticCall =>
        have hmethod := hnot (isResultMethod_of_not_isOperatorCall hsource).2
        simp [Expr.isSingleValued, hmethod] at hsingle
      | _ => cases hsingle
    | layer _ hreads => simp [Expr.isSingleValued, hnot hreads.not_isResultMethod] at hsingle
  | distinct => cases hsingle
  | @result _ _ _ method arguments => exact ⟨⟨method, arguments⟩, by simp, hsingle⟩

/-- Of a chain whose value is a sequence, and whose result operators keep the sequence, the
reference to its query has the right type exactly if the query tells the type of the elements that
the chain announces. Where a chain ends in a single value, the reference has the type of a query
instead. An expression around the chain has another type then, if it has the chain's. -/
theorem reportsType_iff_tells {e : Expr} {q m : Query} (h : parse e = .ok q)
    (hm : Query.Within q m) (hbuilt : m.expression.Built) :
    ∃ source layers, Rendered m source layers
      ∧ (m.elementType = elementOrSelf m.expression.underEndings.type
        ↔ m.TellsElements source layers)
      ∧ ((∀ k ∈ m.select.modifiers, isSingleMethod k.method = false) →
        (m.ReportsType ↔ m.TellsElements source layers))
      ∧ (m.expression.isSingleValued → m.TellsElements source layers → ¬m.ReportsType)
      ∧ (∀ method ∈ countMethods, ∀ below arguments type,
        m.expression = .staticCall method (below :: arguments) type → ¬m.ReportsType)
      ∧ ∀ d d' : Expr, d.NestedAs (MadeOf m.embedded) d' →
        (d.typeChain? = none ∧ d'.type = d.type)
          ∨ ∃ n ∈ m.embedded, d.typeChain? = some n.expression
            ∧ (d'.type = d.type ↔ (Expr.subQuery n.ref).type = n.expression.type) := by
  obtain ⟨source, layers, hrendered⟩ := (rendered_of_parse h).2 m hm
  have htells := hrendered.announces_iff_tells hbuilt
  obtain ⟨hunder, hcases⟩ := hrendered.spine.type_cases hbuilt
  have hnode : (Expr.subQuery m.ref).type = queryable m.elementType := rfl
  refine ⟨source, layers, hrendered, htells, fun hkeeps => ?_, fun hsingle hm hreports => ?_,
    fun method hmethod below arguments type heq hreports => ?_, fun d d' hd => ?_⟩
  · have hsingle : m.expression.isSingleValued = false := by
      by_contra hsingle
      obtain ⟨k, hk, hsingle⟩ := hrendered.spine.exists_single (by simpa using hsingle)
      simp [hkeeps k hk] at hsingle
    have htype : m.expression.type = m.expression.underEndings.type := by
      rcases hcases with ⟨-, htype⟩ | ⟨⟨k, hk, hsingle⟩, -⟩
      · exact htype
      · simp [hkeeps k hk] at hsingle
    have hne : elementOrSelf m.expression.underEndings.type ≠ "" :=
      elementOrSelf_ne_empty hunder.type_ne_empty
    rw [← htells, Query.ReportsType, hsingle, if_neg (by simp), hnode, htype, element?_queryable]
    split
    · rename_i hempty
      exact iff_of_false nofun fun heq => hne (heq ▸ hempty)
    · exact Option.some_inj
  · rw [Query.ReportsType, if_pos hsingle, hnode, htells.2 hm] at hreports
    rcases hcases with ⟨hkeeps, -⟩ | ⟨-, hlength⟩
    · obtain ⟨k, hk, hsingle⟩ := hrendered.spine.exists_single hsingle
      simp [hkeeps k hk] at hsingle
    · rw [← hreports, length_queryable] at hlength
      omega
  · obtain ⟨hresult, hsingle⟩ := isSingle_of_mem_countMethods method hmethod
    obtain ⟨-, rfl⟩ := (heq ▸ hbuilt).resultCall hresult
    have hlength := length_resultType_le_seven hmethod below.type
    have hsame : queryable m.ref.elementType = Chain.resultType method below.type := by
      simpa [Query.ReportsType, heq, Expr.isSingleValued, hsingle, Expr.type] using hreports
    rw [← hsame, length_queryable] at hlength
    omega
  · rcases hd.type_cases with hnone | ⟨c, ref, hc, ⟨n, hn, rfl, rfl⟩, hiff⟩
    · exact .inl hnone
    · exact .inr ⟨n, hn, hc, hiff⟩

/-- `from s in Students select Count(from d in StudentDetails where d.Subject == "Maths")`, spelled
as a chain of operators. -/
def mathsCounts : Expr :=
  let s : Parameter := { name := "s", type := "Student" }
  let d : Parameter := { name := "d", type := "StudentDetail" }
  let subject : Member := { declaringType := "StudentDetail", name := "Subject", type := "String" }
  Chain.select (.table "Students" "Student") (.lambda [s] (Chain.result "Count"
    (Chain.filter (.table "StudentDetails" "StudentDetail") (.lambda [d]
      (.operation .equal (.member (.parameter d) subject) (.ofConstant (.string "Maths"))))) []))

/-- A count is announced, and its reference is a query of details; so the select clause makes such
queries where the whole chain announces counts. -/
theorem reportsType_iff_tells_mathsCounts :
    ∃ q m, parse mathsCounts = .ok q ∧ Query.Within q m ∧ m.expression.Built ∧ ¬m.ReportsType
      ∧ m.expression.type = "Int32" ∧ (Expr.subQuery m.ref).type = "IQueryable<StudentDetail>"
      ∧ elementOrSelf mathsCounts.type = "Int32" ∧ q.elementType = "IQueryable<StudentDetail>" := by
  obtain ⟨q, m, h, hm, hchain, hq⟩ : ∃ q m, parse mathsCounts = .ok q ∧ m ∈ q.children
      ∧ (∃ chain, chain.Built ∧ m.expression = Chain.result "Count" chain [])
      ∧ (Expr.subQuery m.ref).type = "IQueryable<StudentDetail>"
      ∧ q.elementType = "IQueryable<StudentDetail>" := by
    refine ⟨_, _, rfl, List.mem_cons_self, ⟨_, .filter (.source ?_ (by decide)), rfl⟩, rfl, rfl⟩
    rintro ⟨⟩
  obtain ⟨chain, hchain, heq⟩ := hchain
  have hm : Query.Within q m := .child .self hm
  have hbuilt : m.expression.Built := heq ▸ .result (by decide) hchain
  obtain ⟨_, _, -, -, -, -, hcounts, -⟩ := reportsType_iff_tells h hm hbuilt
  exact ⟨q, m, h, hm, hbuilt, hcounts "Count" (by decide) _ _ _ heq, by rw [heq]; rfl, hq.1, rfl,
    hq.2⟩

end QueryChain
