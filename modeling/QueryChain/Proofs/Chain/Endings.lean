import QueryChain.Proofs.Chain.Clauses
import QueryChain.Proofs.Chain.Depth

/-!
# Endings of a chain

`Distinct` and the result operators stand above all lambda operators of a chain and say what is done
with its result. They leave a flag and a list on the select clause, and touch nothing else:

* `parse_onTop`: the query of a chain under further endings is the query of the chain, with the flag
  set if one of them is a `Distinct`, and with the result operators at the end of the list;
* `select_onTop_eq_iff` reads off which endings can be told apart.

So a query says which result operators are applied and in which order, and whether duplicates are
removed, but not before which of the result operators that is done.
-/

namespace QueryChain

/-- An operator that says what is done with the result of a chain. Types play no part in parsing,
so they may be any. -/
inductive Ending where
  | distinct (type : String)
  | result (method : String) (arguments : List Expr) (type : String)
    (isResult : isResultMethod method)

namespace Ending

/-- The chain `e` with an ending on top. -/
def apply : Ending → Expr → Expr
  | .distinct type, e => .staticCall "Distinct" [e] type
  | .result method arguments type _, e => .staticCall method (e :: arguments) type

/-- The modifier that a result operator stands for. -/
def modifier? : Ending → Option Modifier
  | .distinct _ => none
  | .result method arguments _ _ => some { method, arguments }

/-- Whether an ending is a `Distinct`. -/
def isDistinct : Ending → Bool
  | .distinct _ => true
  | .result .. => false

/-- The chain `e` with endings on top, innermost first. -/
def onTop (endings : List Ending) (e : Expr) : Expr :=
  endings.foldl (fun e ending => ending.apply e) e

/-- The modifiers that endings stand for, innermost first. -/
def modifiers (endings : List Ending) : List Modifier :=
  endings.filterMap modifier?

/-- Whether there is a `Distinct` among endings. -/
def removeDuplicates (endings : List Ending) : Bool :=
  endings.any isDistinct

theorem onTop_cons (ending : Ending) (endings : List Ending) (e : Expr) :
    onTop (ending :: endings) e = onTop endings (ending.apply e) :=
  rfl

theorem size_onTop (endings : List Ending) (e : Expr) : e.size ≤ (onTop endings e).size := by
  induction endings generalizing e with
  | nil => exact Nat.le_refl _
  | cons ending endings ih =>
    refine Nat.le_trans ?_ (ih (ending.apply e))
    cases ending <;> simp only [apply, Expr.size, Expr.sizeAll] <;> omega

end Ending

/-- What a select clause becomes under further endings. -/
def Selection.ended (select : Selection) (endings : List Ending) : Selection where
  projection := select.projection
  distinct := select.distinct || Ending.removeDuplicates endings
  modifiers := select.modifiers ++ Ending.modifiers endings

/-- What is collected of a chain under further endings. -/
def Collected.ended (c : Collected) (endings : List Ending) : Collected :=
  { c with
    distinct := c.distinct || Ending.removeDuplicates endings
    modifiers := c.modifiers ++ Ending.modifiers endings }

namespace Ending

theorem collect_apply (ending : Ending) (e : Expr) (identifier : Option Parameter) :
    collect (ending.apply e) identifier true
      = (·.ended [ending]) <$> collect e identifier true := by
  cases ending with
  | distinct type =>
    rw [apply, collect_distinct]
    congr 1
    funext c
    simp [Collected.ended, removeDuplicates, modifiers, isDistinct, modifier?]
  | result method arguments type hresult =>
    rw [apply, collect_result hresult]
    congr 1
    funext c
    simp [Collected.ended, removeDuplicates, modifiers, isDistinct, modifier?,
      Collected.pushModifier]

theorem ended_ended (c : Collected) (endings endings' : List Ending) :
    (c.ended endings).ended endings' = c.ended (endings ++ endings') := by
  simp [Collected.ended, removeDuplicates, modifiers, Bool.or_assoc]

theorem collect_onTop (endings : List Ending) (e : Expr) (identifier : Option Parameter) :
    collect (onTop endings e) identifier true
      = (·.ended endings) <$> collect e identifier true := by
  induction endings generalizing e with
  | nil => simp [onTop, Collected.ended, removeDuplicates, modifiers]
  | cons ending endings ih =>
    rw [onTop_cons, ih, collect_apply, ← comp_map]
    congr 1
    funext c
    exact ended_ended c [ending] endings

/-- A query that is assembled from what is collected under further endings differs in its select
clause only. -/
theorem assemble_ended {parseSub : SubParser} {key : Nat} {parent : Option Nat} {e : Expr}
    {c : Collected} {q : Query} {s s' : ParseState} (endings : List Ending) (e' : Expr)
    (h : (assemble parseSub key parent e c).run s = .ok (q, s')) :
    (assemble parseSub key parent e' (c.ended endings)).run s
      = .ok ({ q with expression := e', select := q.select.ended endings }, s') := by
  obtain ⟨x, source, steps, projection, d, s₁, projection', d', hsteps, hlast, hfold, hprojection,
    rfl⟩ := assemble_eq_ok.1 h
  exact assemble_eq_ok.2 ⟨x, source, steps, projection, d, s₁, projection', d', hsteps, hlast,
    hfold, hprojection, rfl⟩

/-- The query of a chain under further endings. -/
theorem parse_onTop {e : Expr} {q : Query} (h : parse e = .ok q) (endings : List Ending) :
    parse (onTop endings e)
      = .ok { q with expression := onTop endings e, select := q.select.ended endings } := by
  obtain ⟨s', h⟩ := parse_eq_ok.1 h
  -- The longer chain is parsed with more depth, which changes nothing.
  have hdeep := parseChain_agrees (size_onTop endings e) none e h
  obtain ⟨depth, c, s₁, hdepth, hc, hassemble⟩ := parseChain_eq_ok.1 hdeep
  refine parse_eq_ok.2 ⟨s', parseChain_eq_ok.2 ⟨depth, c.ended endings, s₁, hdepth, ?_, ?_⟩⟩
  · rw [collect_onTop]
    exact ParseM.run_map_ok.2 ⟨c, hc, rfl⟩
  · exact assemble_ended endings _ hassemble

/-! ## Endings that cannot be told apart -/

/-- Two lists of endings leave the same select clause exactly if their result operators are the same
and both have a `Distinct` or neither has, where one below them makes up for this. -/
theorem ended_eq_iff (select : Selection) (endings endings' : List Ending) :
    select.ended endings = select.ended endings'
      ↔ modifiers endings = modifiers endings'
        ∧ (select.distinct ∨ removeDuplicates endings = removeDuplicates endings') := by
  cases hdistinct : select.distinct <;> simp [Selection.ended, hdistinct, and_comm]

/-- A `Distinct` leaves the same select clause below a result operator as above it, whatever stands
above both. Any two lists of endings are told apart only by their result operators, in order, and by
whether there is a `Distinct` among them; if the chain has one already, by the former only. -/
theorem select_onTop_eq_iff {e : Expr} {q : Query} (h : parse e = .ok q) :
    (∀ (method : String) (hresult : isResultMethod method) (arguments : List Expr)
        (types types' : String × String) (above : List Ending), ∃ p p',
      parse (onTop (.distinct types.1 :: .result method arguments types.2 hresult :: above) e)
          = .ok p
        ∧ parse (onTop (.result method arguments types'.2 hresult :: .distinct types'.1 :: above) e)
          = .ok p'
        ∧ p.select = p'.select)
      ∧ ∀ endings endings', ∃ p p', parse (onTop endings e) = .ok p
        ∧ parse (onTop endings' e) = .ok p'
        ∧ (p.select = p'.select ↔ modifiers endings = modifiers endings'
          ∧ (q.select.distinct ∨ removeDuplicates endings = removeDuplicates endings')) := by
  constructor
  · intro method hresult arguments types types' above
    refine ⟨_, _, parse_onTop h _, parse_onTop h _, (ended_eq_iff q.select _ _).2 ⟨rfl, .inr ?_⟩⟩
    simp [removeDuplicates, isDistinct]
  · intro endings endings'
    exact ⟨_, _, parse_onTop h endings, parse_onTop h endings', ended_eq_iff q.select _ _⟩

/-- `from s in Students select s.Name`, spelled as a chain of operators. -/
def namesChain : Expr :=
  let s : Parameter := { name := "s", type := "Student" }
  Chain.select (.table "Students" "Student")
    (.lambda [s] (.member (.parameter s)
      { declaringType := "Student", name := "Name", type := "String" }))

theorem select_onTop_eq_iff_names : ∃ q, parse namesChain = .ok q ∧
    (∀ (method : String) (hresult : isResultMethod method) (arguments : List Expr)
        (types types' : String × String) (above : List Ending), ∃ p p',
      parse (onTop (.distinct types.1 :: .result method arguments types.2 hresult :: above)
          namesChain) = .ok p
        ∧ parse (onTop (.result method arguments types'.2 hresult :: .distinct types'.1 :: above)
          namesChain) = .ok p'
        ∧ p.select = p'.select)
      ∧ ∀ endings endings', ∃ p p', parse (onTop endings namesChain) = .ok p
        ∧ parse (onTop endings' namesChain) = .ok p'
        ∧ (p.select = p'.select ↔ modifiers endings = modifiers endings'
          ∧ (q.select.distinct ∨ removeDuplicates endings = removeDuplicates endings')) :=
  ⟨_, rfl, select_onTop_eq_iff rfl⟩

/-- Of the students' names, `Take(3)` above `Distinct` and `Distinct` above `Take(3)` leave the same
select clause, so its flag does not tell them apart. -/
theorem not_select_onTop_ne :
    ¬∀ (e : Expr) (q : Query), parse e = .ok q →
      ∀ (method : String) (hresult : isResultMethod method) (arguments : List Expr)
        (types types' : String × String) (above : List Ending) (p p' : Query),
        parse (onTop (.distinct types.1 :: .result method arguments types.2 hresult :: above) e)
          = .ok p →
        parse (onTop (.result method arguments types'.2 hresult :: .distinct types'.1 :: above) e)
          = .ok p' →
        p.select ≠ p'.select := by
  intro h
  let names := TypeName.queryable "String"
  exact h namesChain _ rfl "Take" (by decide) [.ofConstant (.int 3)] (names, names) (names, names)
    [] _ _ rfl rfl rfl

end Ending

end QueryChain
