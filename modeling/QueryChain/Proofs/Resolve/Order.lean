import Mathlib.Data.Set.Function
import Mathlib.Order.Interval.Set.Defs
import QueryChain.Proofs.Resolve.Repeat
import QueryChain.Proofs.Resolve.Requests

/-!
# References in another order

The order in which references are resolved decides how joined tables are numbered, and nothing else.

* `exec_asked`: a call makes the tables that it asks for and that are not there, also if it fails,
  and is answered as it would be at any later time;
* `askAll_askedAll`: so a list of calls makes the tables that any of them asks for, and each is
  answered as it would be once all are through;
* `askAll_perm`: in two orders of the same calls, the tables that stand for the same request
  correspond, and each call has the same answer up to that correspondence.
-/

namespace QueryChain

/-! ## Renumbering tables -/

/-- A source whose number is replaced if it is a joined table. -/
def Source.renumber (σ : Nat → Nat) : Source → Source
  | .table (.joined index) => .table (.joined (σ index))
  | a => a

/-- A field that is read through tables of other numbers. -/
def Field.renumber (σ : Nat → Nat) (f : Field) : Field where
  member := f.member
  path := f.path.map (Source.renumber σ)
  column := f.column.map (Column.map (Source.renumber σ))

section

variable {σ : Nat → Nat} {schema : Schema} {ts ts' : JoinedTables} {path : JoinPath}
  {relation : Member} {relations : List Member} {link : Link}

theorem renumber_of_not_joined {a : Source} (h : ¬a.IsJoined) : a.renumber σ = a := by
  cases a with
  | nested | binding => rfl
  | table t =>
    cases t with
    | joined => exact absurd trivial h
    | ofClause | free => rfl

theorem column?_renumber (σ : Nat → Nat) (a : Source) (schema : Schema) (member : Option Member) :
    (a.renumber σ).column? schema member
      = (a.column? schema member).map (Column.map (Source.renumber σ)) := by
  cases member with
  | none => rfl
  | some m =>
    cases a with
    | nested => rfl
    | binding _ _ isTable =>
      cases isTable with
      | false => rfl
      | true => simp [Source.column?, Source.renumber, Column.map, Function.comp_def]
    | table t => cases t <;> simp [Source.column?, Source.renumber, Column.map, Function.comp_def]

theorem field_renumber (σ : Nat → Nat) (plan : Plan) (path : JoinPath) :
    (plan.field schema path).renumber σ = plan.field schema (path.map (Source.renumber σ)) := by
  simp only [Field.renumber, Plan.field, JoinPath.last_map, column?_renumber]

/-- Every table of `ts` stands for the same request as the one with its new number in `ts'`. -/
def Renumbers (σ : Nat → Nat) (ts ts' : JoinedTables) : Prop :=
  ∀ i < ts.tables.length, ts'.requests[σ i]? = ts.requests[i]?

namespace Renumbers

theorem look_eq (hσ : Renumbers σ ts ts') (h : ts.Fresh schema) (h' : ts'.Fresh schema)
    {a : Source} (ha : a.Made ts) : ts'.look (a.renumber σ) = ts.look a := by
  by_cases hjoined : a.IsJoined
  · cases a with
    | nested | binding => cases hjoined
    | table t =>
      cases t with
      | ofClause | free => cases hjoined
      | joined i =>
        -- The tables with the two numbers were made for one relation.
        have ht := List.getElem?_eq_getElem ha
        have hrequest := hσ i ha
        rw [JoinedTables.requests_getElem?, JoinedTables.requests_getElem?, ht, Option.map_some,
          Option.map_eq_some_iff] at hrequest
        obtain ⟨u, hu, hrequest⟩ := hrequest
        simp only [JoinedTables.request, Request.mk.injEq] at hrequest
        obtain ⟨link, hlink, -⟩ := h.orderly.linked _ (List.mem_of_getElem? ht)
        have hsame := Member.same_iff.2 ⟨hrequest.2.1, hrequest.2.2⟩
        exact (h'.look_joined hu hsame hlink).trans
          (h.look_joined ht (Member.same_iff.2 ⟨rfl, rfl⟩) hlink).symm
  · rw [renumber_of_not_joined hjoined]
    exact JoinedTables.look_of_not_joined hjoined ts' ts

theorem request_eq (hσ : Renumbers σ ts ts') (h : ts.Fresh schema) (h' : ts'.Fresh schema)
    (hmade : path.Made ts) (relation : Member) :
    ts'.request (path.map (Source.renumber σ)) relation = ts.request path relation := by
  have hlook : (path.map (Source.renumber σ)).map ts'.look = path.map ts.look := by
    rw [JoinPath.map_map]
    exact hmade.map_congr fun _ => hσ.look_eq h h'
  simp only [JoinedTables.request, hlook]

theorem indexOf?_eq (hσ : Renumbers σ ts ts') (h : ts.Fresh schema) (h' : ts'.Fresh schema)
    (hmade : path.Made ts) {index : Nat} (hindex : ts.indexOf? path relation = some index) :
    ts'.indexOf? (path.map (Source.renumber σ)) relation = some (σ index) := by
  rw [h.orderly.indexOf?_iff] at hindex
  have hlt := (List.getElem?_eq_some_iff.1 hindex).1
  rw [JoinedTables.length_requests] at hlt
  rw [h'.orderly.indexOf?_iff, hσ.request_eq h h' hmade, hσ index hlt, hindex]

/-- Relations that lead to tables that are all there lead to the tables with the new numbers in the
other session. -/
theorem follow_eq (hσ : Renumbers σ ts ts') (h : ts.Fresh schema) (h' : ts'.Fresh schema)
    (hmade : path.Made ts) (hsettled : (ts.follow schema path relations).2 = ts) :
    (ts'.follow schema (path.map (Source.renumber σ)) relations).1
      = (ts.follow schema path relations).1.map (Source.renumber σ) := by
  induction relations generalizing path with
  | nil => rfl
  | cons relation relations ih =>
    cases hlink : schema.link? relation with
    | none => rw [follow_of_no_link hlink, follow_of_no_link hlink]
    | some link =>
      obtain ⟨index, hindex, hjoin⟩ := JoinedTables.join_of_follow_eq hlink hsettled
      have hnext := hmade.extend relation link
      rw [follow_of_link hlink, hjoin] at hsettled
      rw [hjoin] at hnext
      have hjoin' : ts'.join (path.map (Source.renumber σ)) relation link.targetTable
          = (.joined (σ index), ts') :=
        JoinedTables.join_of_indexOf? (hσ.indexOf?_eq h h' hmade hindex)
      have hextend : (path.extend link (.joined index)).map (Source.renumber σ)
          = (path.map (Source.renumber σ)).extend link (.joined (σ index)) :=
        JoinPath.map_extend rfl path link
      rw [follow_of_link hlink, follow_of_link hlink, hjoin, hjoin', ← hextend]
      exact ih hnext hsettled

end Renumbers

end

/-- Lists of the same members, each of them once, correspond position by position. -/
theorem exists_renumbering {α : Type} {items items' : List α} (hperm : items.Perm items')
    (hnodup : items.Nodup) :
    ∃ σ : Nat → Nat, Set.BijOn σ (Set.Iio items.length) (Set.Iio items'.length)
      ∧ ∀ i < items.length, items'[σ i]? = items[i]? := by
  have hposition : ∀ i : Nat, ∃ k : Nat, i < items.length → items'[k]? = items[i]? := by
    intro i
    by_cases hi : i < items.length
    · obtain ⟨k, hk⟩ := List.mem_iff_getElem?.1 (hperm.subset (List.getElem_mem hi))
      exact ⟨k, fun _ => hk.trans (List.getElem?_eq_getElem hi).symm⟩
    · exact ⟨i, fun h => absurd h hi⟩
  choose σ hσ using hposition
  refine ⟨σ, ⟨?_, ?_, ?_⟩, hσ⟩
  · intro i hi
    have hget := (hσ i hi).trans (List.getElem?_eq_getElem hi)
    exact (List.getElem?_eq_some_iff.1 hget).1
  · intro i hi k hk heq
    refine (List.getElem?_inj hi hnodup).1 ?_
    rw [← hσ i hi, ← hσ k hk, heq]
  · intro k hk
    obtain ⟨i, hi⟩ := List.mem_iff_getElem?.1 (hperm.symm.subset (List.getElem_mem hk))
    have hlt := (List.getElem?_eq_some_iff.1 hi).1
    refine ⟨i, hlt, ((List.getElem?_inj hk (hperm.nodup hnodup)).1 ?_).symm⟩
    rw [hσ i hlt, hi, List.getElem?_eq_getElem hk]

/-! ## Calls -/

/-- The answer to a plan while the joined tables are those of `ts`. -/
def Plan.answer (schema : Schema) (plan : Plan) (ts : JoinedTables) : Except ResolveError Field :=
  match schema.obstacle? plan.access.joins with
  | none => .ok (plan.field schema (ts.follow schema plan.start plan.access.joins).1)
  | some m => .error (.notARelation m (pathText plan.access.joins))

/-- A call to resolve a reference: one that a query of a tree makes, or one that is asked of a
clause. -/
inductive Call where
  | inQuery (q : Query) (e : Expr) (usage : Usage)
  | atClause (key : ClauseKey) (clause : RangeClause) (e : Expr) (usage : Usage)

namespace Call

/-- What a call does to a session. -/
def ask (schema : Schema) (root : Query) : Call → SessionM Field
  | .inQuery q e usage => resolve schema root q e usage
  | .atClause key clause e usage => resolveAt schema key clause e usage

/-- The plan for a call. -/
def plan (schema : Schema) (root : Query) : Call → Except ResolveError Plan
  | .inQuery q e usage => planIn schema root q e usage
  | .atClause key clause e usage => planAt schema key clause e usage

/-- The answer to a call while the joined tables are those of `ts`. -/
def answer (schema : Schema) (root : Query) (call : Call) (ts : JoinedTables) :
    Except ResolveError Field :=
  (call.plan schema root).bind (·.answer schema ts)

/-- The requests that a call makes. -/
def requests (schema : Schema) (root : Query) (call : Call) : List Request :=
  match call.plan schema root with
  | .error _ => []
  | .ok plan =>
    schema.requests (plan.start.map (JoinedTables.look { aliasPrefix := "" })) plan.access.joins

/-- All tables that a call leads to are there. -/
def Settled (schema : Schema) (root : Query) (call : Call) (ts : JoinedTables) : Prop :=
  ∀ plan, call.plan schema root = .ok plan →
    (ts.follow schema plan.start plan.access.joins).2 = ts

end Call

/-- The answers to calls that are made one after the other, and the session after them. -/
def askAll (schema : Schema) (root : Query) :
    List Call → Session → List (Except ResolveError Field) × Session
  | [], s => ([], s)
  | call :: calls, s =>
    let asked := (call.ask schema root).exec s
    let rest := askAll schema root calls asked.2
    (asked.1 :: rest.1, rest.2)

section

variable {schema : Schema} {root : Query} {call : Call} {calls : List Call} {s : Session}
  {ts ts' : JoinedTables}

theorem exec_ask (schema : Schema) (root : Query) (call : Call) (s : Session) :
    (call.ask schema root).exec s = planned schema (call.plan schema root) s := by
  cases call with
  | inQuery q e usage => exact exec_resolve schema root q e usage s
  | atClause key clause e usage => exact exec_resolveAt schema key clause e usage s

theorem Call.sourced {plan : Plan} (h : call.plan schema root = .ok plan) :
    plan.Sourced schema := by
  cases call with
  | inQuery => exact .of_planIn h
  | atClause => exact .of_planAt h

/-- A plan starts at the source of a clause, which looks the same in every session. -/
theorem Plan.Sourced.look_start {plan : Plan} (h : plan.Sourced schema) (ts : JoinedTables) :
    plan.start.map ts.look = plan.start.map (JoinedTables.look { aliasPrefix := "" }) := by
  rw [Plan.start, JoinPath.map_start, JoinPath.map_start,
    JoinedTables.look_of_not_joined h.not_joined]

/-- The answer to a plan is a field at the end of the plan's path. -/
theorem Plan.path_of_answer {plan : Plan} {f : Field} (h : plan.answer schema ts = .ok f) :
    f.path = (ts.follow schema plan.start plan.access.joins).1 := by
  unfold Plan.answer at h
  split at h
  · cases h
    rfl
  · cases h

theorem outcome_answer (schema : Schema) (plan : Plan) (s : Session) :
    (plan.outcome schema s).1 = plan.answer schema s.tables := by
  unfold Plan.outcome Plan.answer
  cases schema.obstacle? plan.access.joins <;> rfl

/-- The session after a call: fresh tables stay fresh, those that the call asks for are there, and
the answer is the same as in any later session. -/
structure Asked (schema : Schema) (root : Query) (call : Call) (s : Session)
    (result : Except ResolveError Field × Session) : Prop where
  fresh : result.2.tables.Fresh schema
  tables : s.tables.Extends result.2.tables
  mem_requests : ∀ r, r ∈ result.2.tables.requests ↔
    r ∈ s.tables.requests ∨ r ∈ call.requests schema root
  answer : ∀ ts, result.2.tables.Extends ts → result.1 = call.answer schema root ts
  settled : ∀ ts, result.2.tables.Extends ts → call.Settled schema root ts

theorem exec_asked (hs : s.tables.Fresh schema) (call : Call) :
    Asked schema root call s ((call.ask schema root).exec s) := by
  rw [exec_ask]
  cases hplan : call.plan schema root with
  | error error =>
    refine ⟨hs, .refl _, ?_, ?_, ?_⟩
    · intro r
      simp [planned, Call.requests, hplan]
    · intro ts _
      rw [Call.answer, hplan]
      rfl
    · intro ts _ plan hplan'
      rw [hplan] at hplan'
      cases hplan'
  | ok plan =>
    have hsourced := Call.sourced hplan
    have hmade := hsourced.made_start s.tables
    have hrouted : plan.start.Routed := .start hsourced.not_joined
    have hagain {ts : JoinedTables} (hext : (plan.outcome schema s).2.tables.Extends ts) :
        ts.follow schema plan.start plan.access.joins
          = ((s.tables.follow schema plan.start plan.access.joins).1, ts) := by
      rw [outcome_tables] at hext
      exact JoinedTables.follow_again hs.orderly.made hmade hext
    simp only [planned]
    refine ⟨?_, ?_, ?_, ?_, ?_⟩
    · rw [outcome_tables]
      exact hs.follow hmade hrouted
    · rw [outcome_tables]
      exact JoinedTables.follow_extends _ _ _ _
    · intro r
      rw [outcome_tables, JoinedTables.mem_requests_follow hs hmade hrouted, hsourced.look_start,
        Call.requests, hplan]
    · intro ts hext
      rw [outcome_answer, Call.answer, hplan]
      show plan.answer schema s.tables = plan.answer schema ts
      simp only [Plan.answer, hagain hext]
    · intro ts hext plan' hplan'
      cases hplan.symm.trans hplan'
      rw [hagain hext]

/-- The session after several calls: fresh tables stay fresh, those that some call asks for are
there, and the answers are the same as in any later session. -/
structure AskedAll (schema : Schema) (root : Query) (calls : List Call) (s : Session)
    (run : List (Except ResolveError Field) × Session) : Prop where
  fresh : run.2.tables.Fresh schema
  tables : s.tables.Extends run.2.tables
  mem_requests : ∀ r, r ∈ run.2.tables.requests ↔
    r ∈ s.tables.requests ∨ ∃ call ∈ calls, r ∈ call.requests schema root
  answers : ∀ ts, run.2.tables.Extends ts → run.1 = calls.map (·.answer schema root ts)
  settled : ∀ ts, run.2.tables.Extends ts → ∀ call ∈ calls, call.Settled schema root ts

theorem askAll_askedAll (hs : s.tables.Fresh schema) (calls : List Call) :
    AskedAll schema root calls s (askAll schema root calls s) := by
  induction calls generalizing s with
  | nil => exact ⟨hs, .refl _, by simp [askAll], fun _ _ => rfl, by simp⟩
  | cons call calls ih =>
    have hfirst : Asked schema root call s _ := exec_asked hs call
    have hrest := ih hfirst.fresh
    refine ⟨hrest.fresh, hfirst.tables.trans hrest.tables, ?_, ?_, ?_⟩
    · intro r
      rw [askAll, hrest.mem_requests, hfirst.mem_requests, List.exists_mem_cons_iff, or_assoc]
    · intro ts hext
      rw [List.map_cons, ← hfirst.answer ts (hrest.tables.trans hext), ← hrest.answers ts hext]
      rfl
    · intro ts hext
      rw [List.forall_mem_cons]
      exact ⟨hfirst.settled ts (hrest.tables.trans hext), hrest.settled ts hext⟩

/-- A call that leads to tables that are all there has the same answer, up to the numbers of the
tables, in another session. -/
theorem Renumbers.answer_eq {σ : Nat → Nat} (hσ : Renumbers σ ts ts') (h : ts.Fresh schema)
    (h' : ts'.Fresh schema) (hsettled : call.Settled schema root ts) :
    call.answer schema root ts' = (call.answer schema root ts).map (Field.renumber σ) := by
  unfold Call.answer
  cases hplan : call.plan schema root with
  | error => rfl
  | ok plan =>
    have hsourced := Call.sourced hplan
    have hstart : plan.start.map (Source.renumber σ) = plan.start := by
      rw [Plan.start, JoinPath.map_start, renumber_of_not_joined hsourced.not_joined]
    have hpath := hσ.follow_eq h h' (hsourced.made_start ts) (hsettled plan hplan)
    rw [hstart] at hpath
    show plan.answer schema ts' = (plan.answer schema ts).map (Field.renumber σ)
    unfold Plan.answer
    cases schema.obstacle? plan.access.joins with
    | some => rfl
    | none => rw [hpath, ← field_renumber, Except.map]

/-! ## Tables that fields have in common -/

/-- A path goes through a joined table. -/
def JoinPath.Through (p : JoinPath) (index : Nat) : Prop :=
  ∃ j ∈ p.joins, j.right.source = .table (.joined index)

/-- Two fields are read through one joined table. -/
def Field.Shares (f g : Field) : Prop :=
  ∃ index, f.path.Through index ∧ g.path.Through index

theorem through_renumber {σ : Nat → Nat} {p : JoinPath} {index : Nat} :
    (p.map (Source.renumber σ)).Through index ↔ ∃ i, p.Through i ∧ σ i = index := by
  have hsource {a : Source} :
      a.renumber σ = .table (.joined index) ↔ ∃ i, a = .table (.joined i) ∧ σ i = index := by
    unfold Source.renumber
    split
    · simp
    · rename_i hnot
      constructor
      · rintro rfl
        exact absurd rfl (hnot index)
      · rintro ⟨i, rfl, -⟩
        exact absurd rfl (hnot i)
  simp only [JoinPath.Through, JoinPath.map, List.mem_map, exists_exists_and_eq_and, Join.map,
    Column.map, hsource]
  constructor
  · rintro ⟨j, hj, i, hi, heq⟩
    exact ⟨i, ⟨j, hj, hi⟩, heq⟩
  · rintro ⟨i, ⟨j, hj, hi⟩, heq⟩
    exact ⟨j, hj, i, hi, heq⟩

theorem JoinPath.Made.through_lt {p : JoinPath} (h : p.Made ts) {index : Nat}
    (hindex : p.Through index) : index < ts.tables.length := by
  obtain ⟨j, hj, hright⟩ := hindex
  have hmade := (h.joins j hj).2
  rwa [hright] at hmade

/-- Fields have a table in common whatever the numbers of the tables are. -/
theorem shares_renumber {σ : Nat → Nat} (hσ : Set.InjOn σ (Set.Iio ts.tables.length)) {f g : Field}
    (hf : f.path.Made ts) (hg : g.path.Made ts) :
    (f.renumber σ).Shares (g.renumber σ) ↔ f.Shares g := by
  simp only [Field.Shares, Field.renumber, through_renumber]
  constructor
  · rintro ⟨_, ⟨i, hi, rfl⟩, k, hk, heq⟩
    obtain rfl := hσ (hg.through_lt hk) (hf.through_lt hi) heq
    exact ⟨k, hi, hk⟩
  · rintro ⟨i, hi, hi'⟩
    exact ⟨σ i, ⟨i, hi, rfl⟩, i, hi', rfl⟩

theorem Call.made_of_answer {f : Field} (hanswer : call.answer schema root ts = .ok f)
    (hsettled : call.Settled schema root ts) : f.path.Made ts := by
  obtain ⟨plan, hplan, hf⟩ := bind_eq_ok.1 hanswer
  have hmade : (ts.follow schema plan.start plan.access.joins).1.Made
      (ts.follow schema plan.start plan.access.joins).2 :=
    JoinedTables.follow_made ((Call.sourced hplan).made_start ts)
  rw [hsettled plan hplan] at hmade
  rwa [Plan.path_of_answer hf]

/-! ## Any order -/

/-- Calls made in another order have the same answers, up to the numbers of the joined tables, and
as many tables are made for them. In particular the same fields have tables in common. -/
theorem askAll_perm (schema : Schema) (root : Query) (aliasPrefix : String)
    {calls calls' : List Call} (hperm : calls.Perm calls') :
    let run := askAll schema root calls (.new aliasPrefix)
    let run' := askAll schema root calls' (.new aliasPrefix)
    run'.2.tables.tables.length = run.2.tables.tables.length
      ∧ ∃ σ : Nat → Nat,
        Set.BijOn σ (Set.Iio run.2.tables.tables.length) (Set.Iio run'.2.tables.tables.length)
        ∧ (∀ i < run.2.tables.tables.length,
          run'.2.tables.name (.joined (σ i)) = run.2.tables.name (.joined i)
            ∧ run'.2.tables.alias? (.joined (σ i)) = run.2.tables.alias? (.joined i))
        ∧ (∀ (i k : Nat) (call : Call), calls[i]? = some call → calls'[k]? = some call →
          ∃ answer, run.1[i]? = some answer
            ∧ run'.1[k]? = some (answer.map (Field.renumber σ)))
        ∧ ∀ f g, .ok f ∈ run.1 → .ok g ∈ run.1 →
          ((f.renumber σ).Shares (g.renumber σ) ↔ f.Shares g) := by
  intro run run'
  have hnew : (Session.new aliasPrefix).tables.Fresh schema :=
    JoinedTables.fresh_new schema aliasPrefix
  have hrun : AskedAll schema root calls _ run := askAll_askedAll hnew calls
  have hrun' : AskedAll schema root calls' _ run' := askAll_askedAll hnew calls'
  -- Both runs have the tables that the calls ask for, each of them once.
  have hrequests : run.2.tables.requests.Perm run'.2.tables.requests := by
    refine (List.perm_ext_iff_of_nodup (JoinedTables.requests_nodup hrun.fresh.orderly)
      (JoinedTables.requests_nodup hrun'.fresh.orderly)).2 fun r => ?_
    simp only [hrun.mem_requests, hrun'.mem_requests, hperm.mem_iff]
  obtain ⟨σ, hbij, hσ⟩ :=
    exists_renumbering hrequests (JoinedTables.requests_nodup hrun.fresh.orderly)
  simp only [JoinedTables.length_requests] at hbij hσ
  have hanswers := hrun.answers run.2.tables (.refl _)
  have hanswers' := hrun'.answers run'.2.tables (.refl _)
  have hsettled := hrun.settled run.2.tables (.refl _)
  refine ⟨?_, σ, hbij, ?_, ?_, ?_⟩
  · have hlength := hrequests.length_eq
    rw [JoinedTables.length_requests, JoinedTables.length_requests] at hlength
    exact hlength.symm
  · intro i hi
    have hlook := Renumbers.look_eq hσ hrun.fresh hrun'.fresh (a := .table (.joined i)) hi
    simpa [JoinedTables.look, Source.renumber] using hlook
  · intro i k call hi hk
    refine ⟨call.answer schema root run.2.tables, ?_, ?_⟩
    · rw [hanswers, List.getElem?_map, hi]
      rfl
    · have hmem := List.mem_of_getElem? hi
      rw [hanswers', List.getElem?_map, hk, Option.map_some,
        Renumbers.answer_eq hσ hrun.fresh hrun'.fresh (hsettled call hmem)]
  · intro f g hf hg
    have hmade {f : Field} (hf : .ok f ∈ run.1) : f.path.Made run.2.tables := by
      rw [hanswers] at hf
      obtain ⟨call, hcall, hanswer⟩ := List.mem_map.1 hf
      exact Call.made_of_answer hanswer (hsettled call hcall)
    exact shares_renumber hbij.injOn (hmade hf) (hmade hg)

/-- The schools of the students and of the buyers of orders, in this order. -/
def schoolCalls (root : Query) : List Call :=
  [.inQuery root (schoolName "Student") .select, .inQuery root (schoolName "Buyer") .select]

/-- In either order the two schools are in one table, but it is reached from different ones. -/
theorem askAll_perm_buyers :
    ∃ root f g f' g' s s', parse schoolNames = .ok root
      ∧ (schoolCalls root).Perm (schoolCalls root).reverse
      ∧ askAll buyers root (schoolCalls root) (.new "j") = ([.ok f, .ok g], s)
      ∧ askAll buyers root (schoolCalls root).reverse (.new "j") = ([.ok g', .ok f'], s')
      ∧ s.tables.tables.length = 3 ∧ s'.tables.tables.length = 3 ∧ f ≠ f' ∧ g ≠ g'
      ∧ f.Shares g ∧ f'.Shares g' ∧ ∃ σ : Nat → Nat, Set.BijOn σ (Set.Iio 3) (Set.Iio 3)
        ∧ f' = f.renumber σ ∧ g' = g.renumber σ := by
  obtain ⟨root, f, g, f', g', s, s', hparse, hrun, hrun', hlength, hlength', hf, hg, hschool⟩ :
      ∃ root f g f' g' s s', parse schoolNames = .ok root
        ∧ askAll buyers root (schoolCalls root) (.new "j") = ([.ok f, .ok g], s)
        ∧ askAll buyers root (schoolCalls root).reverse (.new "j") = ([.ok g', .ok f'], s')
        ∧ s.tables.tables.length = 3 ∧ s'.tables.tables.length = 3 ∧ f ≠ f' ∧ g ≠ g'
        ∧ f.Shares g :=
    ⟨_, _, _, _, _, _, _, rfl, rfl, rfl, rfl, rfl, by decide, by decide,
      1, ⟨_, .tail _ (.head _), rfl⟩, ⟨_, .tail _ (.head _), rfl⟩⟩
  have hperm : (schoolCalls root).Perm (schoolCalls root).reverse :=
    (List.reverse_perm _).symm
  obtain ⟨-, σ, hσ, -, hanswers, hshares⟩ := askAll_perm buyers root "j" hperm
  rw [hrun, hrun'] at hanswers hσ
  rw [hrun] at hshares
  rw [hlength, hlength'] at hσ
  obtain ⟨_, hi, hk⟩ := hanswers 0 1 _ rfl rfl
  cases hi
  cases hk
  obtain ⟨_, hi, hk⟩ := hanswers 1 0 _ rfl rfl
  cases hi
  cases hk
  have hschool' := (hshares f g (by simp) (by simp)).2 hschool
  exact ⟨root, f, g, _, _, s, s', hparse, hperm, hrun, hrun', hlength, hlength', hf, hg, hschool,
    hschool', σ, hσ, rfl, rfl⟩

end

end QueryChain
