import QueryChain.Proofs.Resolve.Sharing

/-!
# What resolving does to a session

Resolving a reference makes tables, and attaches the joins of its path to the clause that owns it. A
failed one may leave tables but attaches nothing. `Attempt` states this, and
`resolveAt_exec` and `resolve_exec` say that it is what comes of every way to resolve.
-/

namespace QueryChain

/-- The session `s'` is `s` with more tables. -/
structure Session.Grows (s s' : Session) : Prop where
  joins : s'.joins = s.joins
  tables : s.tables.Extends s'.tables

theorem Session.Grows.refl (s : Session) : s.Grows s :=
  ⟨rfl, .refl s.tables⟩

/-- The session `s'` has resolved, from the session `s` on, a reference to the clause with the key
`key` and the source `own` to the field `f`. -/
structure Resolved (s : Session) (key : ClauseKey) (own : Source) (f : Field) (s' : Session) :
    Prop where
  linked : Linked own f.path.joins
  made : ∀ j ∈ f.path.joins, j.Made s'.tables
  tables : s.tables.Extends s'.tables
  joins : ∀ k, s'.joins k
    = if k = key then f.path.joins.foldl (attachTo s'.tables) (s.joins key) else s.joins k

/-- What comes of a reference to a clause: an error, which may leave tables, or a field. -/
inductive Attempt (schema : Schema) (s : Session) (key : ClauseKey) (clause : RangeClause) :
    Except ResolveError Field → Session → Prop where
  | failed {error : ResolveError} {s' : Session} :
      s.Grows s' → Attempt schema s key clause (.error error) s'
  | resolved {own : Source} {f : Field} {s' : Session} :
      clause.source schema key = .ok own → Resolved s key own f s' →
      Attempt schema s key clause (.ok f) s'

variable {schema : Schema} {root : Query} {key : ClauseKey} {clause : RangeClause} {s s' : Session}
  {usage : Usage} {answer : Except ResolveError Field}

/-- Following relations adds linked joins to a linked path. -/
theorem follow_linked {ts : JoinedTables} {path : JoinPath} {relations : List Member}
    (h : Linked path.first path.joins) :
    Linked path.first (ts.follow schema path relations).1.joins := by
  induction relations generalizing ts path with
  | nil => exact h
  | cons relation relations ih =>
    cases hlink : schema.link? relation with
    | none => rwa [follow_of_no_link hlink]
    | some link =>
      rw [follow_of_link hlink]
      have hnext (table : Table) :
          Linked (path.extend link table).first (path.extend link table).joins := h.concat rfl
      exact ih (hnext (ts.join path relation link.targetTable).1)

/-- Carrying out a plan is an attempt at the clause that the plan is for. -/
theorem planned_attempt {plan : Except ResolveError Plan}
    (hplan : ∀ p, plan = .ok p → p.key = key ∧ clause.source schema key = .ok p.source)
    (h : planned schema plan s = (answer, s')) : Attempt schema s key clause answer s' := by
  cases answer with
  | error error =>
    rcases planned_error_cases h with ⟨-, rfl⟩ | ⟨p, m, -, -, -, rfl⟩
    · exact .failed (.refl _)
    · exact .failed ⟨rfl, JoinedTables.follow_extends _ _ _ _⟩
  | ok f =>
    obtain ⟨p, rfl, -, rfl, htables, hjoins⟩ := planned_ok h
    obtain ⟨rfl, hsource⟩ := hplan p rfl
    have hstart := Source.made_of_not_joined (source_not_joined hsource) s.tables
    have hmade : (s.tables.follow schema p.start p.access.joins).1.Made
        (s.tables.follow schema p.start p.access.joins).2 :=
      JoinedTables.follow_made ⟨hstart, by simp [Plan.start]⟩
    have hlinked : Linked p.start.first (s.tables.follow schema p.start p.access.joins).1.joins :=
      follow_linked .nil
    refine .resolved hsource ⟨hlinked, ?_, ?_, ?_⟩
    · rw [htables]
      exact hmade.joins
    · rw [htables]
      exact JoinedTables.follow_extends _ _ _ _
    · intro k
      rw [hjoins, htables]
      split
      · rename_i hk
        rw [hk]
        rfl
      · rfl

theorem planReference_attempt {r : Reference}
    (h : planned schema (planReference schema key clause r usage) s = (answer, s')) :
    Attempt schema s key clause answer s' := by
  refine planned_attempt (fun p hplan => ?_) h
  obtain ⟨-, hkey, hsource, -⟩ := planReference_ok hplan
  exact ⟨hkey, hsource⟩

theorem resolveAt_exec {e : Expr}
    (h : (resolveAt schema key clause e usage).exec s = (answer, s')) :
    Attempt schema s key clause answer s' := by
  rw [exec_resolveAt, planAt] at h
  cases href : e.reference with
  | error error =>
    rw [href] at h
    cases h
    exact .failed (.refl s)
  | ok r =>
    rw [href] at h
    exact planReference_attempt h

/-- A reference without an owner fails, and any other one is resolved at the clause that owns it. -/
theorem resolve_exec {q : Query} {e : Expr}
    (h : (resolve schema root q e usage).exec s = (answer, s')) :
    (∃ error, answer = .error error ∧ s' = s)
      ∨ ∃ r key clause owned, e.reference = .ok r
        ∧ ownerAmong? (q :: root.enclosing q) r = some (key, clause, owned)
        ∧ Attempt schema s key clause answer s' := by
  rw [exec_resolve, planIn] at h
  cases href : e.reference with
  | error error =>
    rw [href] at h
    cases h
    exact .inl ⟨error, rfl, rfl⟩
  | ok r =>
    rw [href] at h
    dsimp only [Bind.bind, Except.bind] at h
    cases howner : ownerAmong? (q :: root.enclosing q) r with
    | none =>
      rw [howner] at h
      cases h
      exact .inl ⟨_, rfl, rfl⟩
    | some found =>
      obtain ⟨key, clause, owned⟩ := found
      rw [howner] at h
      exact .inr ⟨r, key, clause, owned, rfl, howner, planReference_attempt h⟩

end QueryChain
