import Mathlib.Data.List.Nodup
import QueryChain.Proofs.Chain.Copies
import QueryChain.Proofs.Chain.Keys

/-!
# Names that are made up

Where no operator names the elements of a source, the parse makes up a name with a number that it
counts. The counter goes through embedded chains as well, so each number is used once in a parsed
tree, and none is left out (`generated_names`).

* `Expr.Bare` are the chains without such an operator;
* `GeneratedWithin` is the invariant: what was counted between two states are the names of the bare
  queries made in between.
-/

namespace QueryChain

open ParseM

/-! ## Bare chains -/

namespace Expr

/-- No lambda operator stands in the chain, so nothing names the elements of its source. -/
def Bare (e : Expr) : Prop :=
  ∃ source distinct modifiers, Spine source [] e distinct modifiers

/-- Whether no lambda operator stands in a chain. -/
def isBare : Expr → Bool
  | .staticCall method [] _ => (Operator.ofName? method).isNone && !isResultMethod method
  | .staticCall method (source :: arguments) _ =>
    if isResultMethod method then source.isBare
    else if method = "Distinct" then arguments.isEmpty && source.isBare
    else (Operator.ofName? method).isNone
  | _ => true
termination_by structural e => e

theorem bare_iff_of_spine {source e : Expr} {layers : List Layer} {distinct : Bool}
    {modifiers : List Modifier} (h : Spine source layers e distinct modifiers) :
    e.Bare ↔ layers = [] := by
  constructor
  · rintro ⟨source', distinct', modifiers', hbare⟩
    exact (hbare.unique h).2.1
  · rintro rfl
    exact ⟨source, distinct, modifiers, h⟩

theorem bare_of_not_isOperatorCall {e : Expr} (h : ¬e.IsOperatorCall) : e.Bare :=
  ⟨e, false, [], .lambdas (.source h)⟩

theorem not_isOperatorCall {method : String} {arguments : List Expr} {type : String}
    (hop : (Operator.ofName? method).isNone) (hresult : ¬isResultMethod method) :
    ¬(staticCall method arguments type).IsOperatorCall := by
  rintro (hsome | hyes)
  · simp [hsome] at hop
  · exact hresult hyes

theorem bare_of_isBare {e : Expr} (h : e.isBare) : e.Bare := by
  fun_induction isBare e with
  | case1 method type =>
    rw [Bool.and_eq_true, Bool.not_eq_true'] at h
    exact bare_of_not_isOperatorCall (not_isOperatorCall h.1 (by simp [h.2]))
  | case2 method source arguments type hresult ih =>
    obtain ⟨bottom, distinct, modifiers, hspine⟩ := ih h
    exact ⟨bottom, distinct, _, .result hspine hresult⟩
  | case3 source arguments type _ ih =>
    rw [Bool.and_eq_true, List.isEmpty_iff] at h
    obtain ⟨rfl, h⟩ := h
    obtain ⟨bottom, distinct, modifiers, hspine⟩ := ih h
    exact ⟨bottom, true, modifiers, .distinct hspine⟩
  | case4 method source arguments type hresult =>
    exact bare_of_not_isOperatorCall (not_isOperatorCall h hresult)
  | case5 e hempty hcall =>
    refine bare_of_not_isOperatorCall fun hoperator => ?_
    obtain ⟨method, arguments, type, rfl⟩ := hoperator.eq_staticCall
    cases arguments with
    | nil => exact hempty method type rfl
    | cons source arguments => exact hcall method source arguments type rfl

theorem isBare_of_not_isOperatorCall {e : Expr} (h : ¬e.IsOperatorCall) : e.isBare := by
  unfold isBare
  split
  · obtain ⟨hop, hresult⟩ := isResultMethod_of_not_isOperatorCall h
    simp [hop, hresult]
  · obtain ⟨hop, hresult⟩ := isResultMethod_of_not_isOperatorCall h
    rw [hresult, if_neg Bool.false_ne_true, if_neg, hop]
    · rfl
    · rintro rfl
      cases hop
  · rfl

theorem isBare_iff (e : Expr) : e.isBare ↔ e.Bare := by
  refine ⟨bare_of_isBare, ?_⟩
  rintro ⟨source, distinct, modifiers, h⟩
  induction h with
  | lambdas h =>
    obtain ⟨rfl, hnot⟩ := layered_nil h
    exact isBare_of_not_isOperatorCall hnot
  | distinct _ ih => rw [isBare, if_neg (by decide), if_pos rfl]; exact ih
  | result _ hresult ih => rw [isBare, if_pos hresult]; exact ih

instance : DecidablePred Bare :=
  fun e => decidable_of_iff _ e.isBare_iff

end Expr

/-! ## Counting -/

/-- The name that is made up with the number `n`. -/
def generatedName (n : Nat) : String :=
  "<generated>_" ++ toString n

@[simp] theorem generatedVariable_name (source : Expr) (n : Nat) :
    (generatedVariable source n).name = generatedName n :=
  rfl

theorem generatedName_injective : Function.Injective generatedName := by
  intro m n h
  have hdigits : Nat.toDigits 10 m = Nat.toDigits 10 n := by
    simpa [generatedName, ← String.toList_inj] using h
  simpa using congrArg (Nat.ofDigitChars 10 · 0) hdigits

/-- The first `n` names that are made up. -/
def generatedNames (n : Nat) : List String :=
  (List.range n).map generatedName

/-- The queries made of bare chains. -/
def bareQueries (queries : List Query) : List Query :=
  queries.filter (·.expression.Bare)

/-- The name of the main range variable. -/
def Query.mainName (q : Query) : String :=
  q.main.identifier.name

/-- The main range variables of the bare queries among `queries` have the names that are made up
between two counts, each of them one. -/
structure GeneratedWithin (low high : Nat) (queries : List Query) : Prop where
  le : low ≤ high
  names : ((bareQueries queries).map Query.mainName).Perm
    ((List.range' low (high - low)).map generatedName)

namespace GeneratedWithin

variable {low middle high : Nat} {queries queries' : List Query}

theorem nil (n : Nat) : GeneratedWithin n n [] := by
  refine ⟨Nat.le_refl n, ?_⟩
  rw [Nat.sub_self]
  exact .nil

theorem perm (h : GeneratedWithin low high queries) (hperm : queries'.Perm queries) :
    GeneratedWithin low high queries' :=
  ⟨h.le, ((hperm.filter _).map _).trans h.names⟩

theorem append (h : GeneratedWithin low middle queries)
    (h' : GeneratedWithin middle high queries') :
    GeneratedWithin low high (queries ++ queries') := by
  have hle := h.le
  have hle' := h'.le
  refine ⟨Nat.le_trans hle hle', ?_⟩
  have hrange : List.range' low (high - low)
      = List.range' low (middle - low) ++ List.range' middle (high - middle) := by
    rw [show high - low = middle - low + (high - middle) by omega, ← List.range'_append_1,
      Nat.add_sub_of_le hle]
  rw [hrange, bareQueries, List.filter_append, List.map_append, List.map_append]
  exact h.names.append h'.names

end GeneratedWithin

theorem generatedWithin_addsUp : AddsUp fun s queries s' =>
    GeneratedWithin s.generated s'.generated queries where
  nil s := .nil s.generated
  append h h' := h.append h'
  perm h hperm := h.perm hperm

/-- One query of its own adds what is counted for the source of its chain. -/
theorem generatedWithin_self {q : Query} {source : Expr} {layers : List Layer} {n : Nat}
    (hspine : Spine source layers q.expression q.select.distinct q.select.modifiers)
    (hmain : q.main.identifier = mainVariable source.evaluate n layers) :
    GeneratedWithin n (n + madeUp layers) [q] := by
  refine ⟨Nat.le_add_right _ _, ?_⟩
  rw [Nat.add_sub_cancel_left]
  have hbare := Expr.bare_iff_of_spine hspine
  cases layers with
  | nil =>
    simp [bareQueries, hbare, Query.mainName, hmain, madeUp, mainVariable]
  | cons => simp [bareQueries, hbare, madeUp]

theorem parseChain_generatedWithin {depth : Nat} {parent : Option Nat} {e : Expr} {q : Query}
    {s s' : ParseState} (h : (parseChain depth parent e).run s = .ok (q, s')) :
    GeneratedWithin s.generated s'.generated q.tree := by
  refine generatedWithin_addsUp.parseChain (fun hc hassemble => ?_) h
  obtain ⟨source, layers, distinct, modifiers, hspine, hsource, -, rfl⟩ := collect_top_ok hc
  cases (run_collect_of_spine hspine hsource _).symm.trans hc
  obtain ⟨-, -, hrendered, -⟩ := assemble_ok (fun h => (parseChain_ok h).2.1) hspine hassemble
  have hmain := congrArg RangeClause.identifier (assemble_main rfl hassemble)
  exact generatedWithin_self hrendered.spine hmain

/-! ## Names in a query -/

/-- A name looks like one that is made up. -/
def IsGenerated (name : String) : Prop :=
  "<generated>_".toList <+: name.toList

instance : DecidablePred IsGenerated :=
  fun name => inferInstanceAs (Decidable (_ <+: name.toList))

theorem isGenerated_generatedName (n : Nat) : IsGenerated (generatedName n) := by
  rw [IsGenerated, generatedName, String.toList_append]
  exact List.prefix_append _ _

namespace Expr

/-- The names that a node gives, to the parameters of a lambda or to the members of an object. -/
def givenNames : Expr → List String
  | .lambda parameters _ => parameters.map (·.name)
  | .new _ _ members => members.map (·.name)
  | _ => []

/-- No parameter of a lambda and no member of an object in the expression has a name that looks made
up. -/
def NamesApart (e : Expr) : Prop :=
  ∀ d ∈ e.parts, ∀ name ∈ d.givenNames, ¬IsGenerated name

theorem NamesApart.part {d e : Expr} (h : e.NamesApart) (hd : d ∈ e.parts) : d.NamesApart :=
  fun c hc => h c (parts_trans hd hc)

end Expr

namespace Layer

/-- The names that the lambdas of an operator give. -/
def Gives (layer : Layer) (name : String) : Prop :=
  ∃ l ∈ layer.lambdas, ∃ d ∈ l.parts, name ∈ d.givenNames

theorem gives_parameter (layer : Layer) : layer.Gives layer.parameter.name := by
  cases layer <;> exact ⟨_, List.mem_cons_self, _, Expr.mem_parts_self _, by
    simp [Expr.givenNames, parameter]⟩

end Layer

/-- The variables of clauses get their names from the operators. -/
theorem ClausesOf.gives {embedded sources : List Query} {layers : List Layer}
    {clauses : List Clause} (h : ClausesOf embedded sources layers clauses) {clause : RangeClause}
    (hclause : .range clause ∈ clauses) :
    ∃ layer ∈ layers, layer.Gives clause.identifier.name := by
  induction h with
  | nil | selection => simp at hclause
  | refinement _ ih => exact (List.exists_mem_cons_iff _ _ _).2 (.inr (ih hclause))
  | filter _ _ ih | ordering _ _ ih =>
    exact (List.exists_mem_cons_iff _ _ _).2 (.inr (ih (by simpa using hclause)))
  | binding _ _ _ _ ih =>
    rw [List.exists_mem_cons_iff]
    rcases List.mem_cons.1 hclause with heq | hclause
    · cases heq
      -- The object that the lambda makes has the variable as its last member.
      refine .inl ⟨_, List.mem_cons_self, _,
        Expr.mem_parts_of_subterm (List.mem_singleton_self _) (Expr.mem_parts_self _), ?_⟩
      simp [Expr.givenNames]
    · exact .inr (ih hclause)
  | range _ _ _ ih =>
    rw [List.exists_mem_cons_iff]
    rcases List.mem_cons.1 hclause with heq | hclause
    · cases heq
      refine .inl ⟨_, List.mem_cons_of_mem _ List.mem_cons_self, _, Expr.mem_parts_self _, ?_⟩
      simp [Expr.givenNames]
    · exact .inr (ih hclause)

theorem Spine.not_isGenerated {source e : Expr} {layers : List Layer} {distinct : Bool}
    {modifiers : List Modifier} (h : Spine source layers e distinct modifiers)
    (hnames : e.NamesApart) {layer : Layer} (hlayer : layer ∈ layers) {name : String}
    (hgives : layer.Gives name) : ¬IsGenerated name := by
  obtain ⟨l, hl, d, hd, hname⟩ := hgives
  exact hnames d (h.part_of_lambda hlayer hl hd).1 name hname

/-- Of the names of a query's variables, that of the main range of a bare chain alone is made up. -/
theorem Query.Parsed.filter_ownNames {q : Query} (h : q.Parsed)
    (hnames : q.expression.NamesApart) :
    q.ownNames.filter (IsGenerated ·) = if q.expression.Bare then [q.mainName] else [] := by
  obtain ⟨source, layers, hrendered⟩ := h.rendered
  have hbody : ((q.body.filterMap Clause.range?).map (·.identifier.name)).filter (IsGenerated ·)
      = [] := by
    rw [List.filter_eq_nil_iff]
    intro name hname
    obtain ⟨clause, hclause, rfl⟩ := List.mem_map.1 hname
    obtain ⟨layer, hlayer, hgives⟩ := hrendered.body.gives (mem_ranges.1 hclause)
    simpa using hrendered.spine.not_isGenerated hnames hlayer hgives
  obtain ⟨n, hmain⟩ := hrendered.main
  have hbare := Expr.bare_iff_of_spine hrendered.spine
  rw [ownNames, rangeClauses, List.map_cons, List.filter_cons, hbody]
  cases layers with
  | nil =>
    have hmade : IsGenerated q.main.identifier.name := by
      rw [hmain]
      exact isGenerated_generatedName n
    simp [hbare, hmade, mainName]
  | cons layer layers =>
    have hgiven : ¬IsGenerated q.main.identifier.name := by
      rw [hmain]
      exact hrendered.spine.not_isGenerated hnames List.mem_cons_self layer.gives_parameter
    simp [hbare, hgiven]

theorem filter_flatMap_ownNames {queries : List Query}
    (h : ∀ q ∈ queries, q.Parsed ∧ q.expression.NamesApart) :
    (queries.flatMap Query.ownNames).filter (IsGenerated ·)
      = (bareQueries queries).map Query.mainName := by
  induction queries with
  | nil => rfl
  | cons q queries ih =>
    rw [List.forall_mem_cons] at h
    rw [List.flatMap_cons, List.filter_append, h.1.1.filter_ownNames h.1.2, ih h.2]
    by_cases hbare : q.expression.Bare <;> simp [bareQueries, hbare]

/-- The names of the variables of a parsed tree that are made up have the numbers from zero on, as
many as there are queries made of bare chains. Each of them is the name of the main range of one
such query, and no variable else has it. -/
theorem generated_names {e : Expr} {q : Query} (hnames : e.NamesApart) (h : parse e = .ok q) :
    ((bareQueries q.tree).map Query.mainName).Perm (generatedNames (bareQueries q.tree).length)
      ∧ ((q.tree.flatMap Query.ownNames).filter (IsGenerated ·)).Perm
        (generatedNames (bareQueries q.tree).length)
      ∧ (generatedNames (bareQueries q.tree).length).Nodup := by
  obtain ⟨s', hrun⟩ := parse_eq_ok.1 h
  have hmain : ((bareQueries q.tree).map Query.mainName).Perm
      (generatedNames (bareQueries q.tree).length) := by
    have hcounted := (parseChain_generatedWithin hrun).names
    rw [Nat.sub_zero, ← List.range_eq_range'] at hcounted
    have hlength : (bareQueries q.tree).length = s'.generated := by simpa using hcounted.length_eq
    rw [hlength]
    exact hcounted
  refine ⟨hmain, ?_, List.nodup_range.map generatedName_injective⟩
  have hparsed := Query.Parsed.of_parse h
  rw [← (rendered_of_parse h).1] at hnames
  rw [filter_flatMap_ownNames fun m hm => ?_]
  · exact hmain
  · have hwithin := Query.mem_nested_iff.1 hm
    exact ⟨hparsed.within hwithin, hnames.part (hparsed.part_within hwithin)⟩

/-- `from s in Students where Students.Distinct().Count() == Orders.Distinct().Count() select s`,
spelled as a chain of operators. -/
def countsCompared : Expr :=
  let distinctCount (table elementType : String) :=
    Chain.result "Count" (Chain.distinct (.table table elementType)) []
  Chain.filter (.table "Students" "Student") (.lambda [{ name := "s", type := "Student" }]
    (.operation .equal (distinctCount "Students" "Student") (distinctCount "Orders" "Order")))

theorem generated_names_countsCompared :
    countsCompared.NamesApart ∧ ∃ q, parse countsCompared = .ok q
      ∧ (bareQueries q.tree).length = 2
      ∧ ((bareQueries q.tree).map Query.mainName).Perm
        (generatedNames (bareQueries q.tree).length)
      ∧ ((q.tree.flatMap Query.ownNames).filter (IsGenerated ·)).Perm
        (generatedNames (bareQueries q.tree).length)
      ∧ (generatedNames (bareQueries q.tree).length).Nodup := by
  have hnames : countsCompared.NamesApart := by
    have hs : ¬IsGenerated "s" := by decide
    simp [Expr.NamesApart, countsCompared, Chain.filter, Chain.result, Chain.distinct,
      Expr.operation, Expr.table, Expr.ofConstant, Expr.quoted, Expr.parts_eq, Expr.subterms,
      Expr.givenNames, hs]
  exact ⟨hnames, _, rfl, rfl, generated_names hnames rfl⟩

end QueryChain
