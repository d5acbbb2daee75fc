import QueryChain.Proofs.Resolve.Exec
import QueryChain.Proofs.Resolve.Owner

/-!
# Plans

What a reference asks of a session does not depend on the session: a source to start from, relations
to follow and a member to read. A session carries such a plan out. It makes tables as it follows the
relations, one for each, and attaches the joins when it is through.

* `exec_extendPath`: what following relations makes of a session is a function of its tables,
  `JoinedTables.follow`, which stops at the first member that is no relation;
* `exec_resolve` and `exec_resolveAt`: every way to resolve a reference is to plan it and to carry
  the plan out.
-/

namespace QueryChain

/-! ## Following relations -/

/-- A path with one more join, along `link` to `table`. -/
def JoinPath.extend (path : JoinPath) (link : Link) (table : Table) : JoinPath :=
  { path with
    joins := path.joins ++
      [{ left := { source := path.last, name := some link.leftColumn }
         right := { source := .table table, name := some link.rightColumn } }] }

/-- Follows relations from the end of `path` up to the first member that is none: the path to there,
and the tables with those that were made on the way. -/
def JoinedTables.follow (schema : Schema) (ts : JoinedTables) (path : JoinPath) :
    List Member → JoinPath × JoinedTables
  | [] => (path, ts)
  | relation :: relations =>
    match schema.link? relation with
    | none => (path, ts)
    | some link =>
      let made := ts.join path relation link.targetTable
      made.2.follow schema (path.extend link made.1) relations

/-- The first of some members that is no relation. -/
def Schema.obstacle? (schema : Schema) (members : List Member) : Option Member :=
  members.find? (!schema.isRelation ·)

section

variable {schema : Schema} {ts : JoinedTables} {path : JoinPath} {relation : Member} {link : Link}
  {relations : List Member}

theorem follow_of_link (h : schema.link? relation = some link) :
    ts.follow schema path (relation :: relations)
      = (ts.join path relation link.targetTable).2.follow schema
          (path.extend link (ts.join path relation link.targetTable).1) relations := by
  simp only [JoinedTables.follow, h]

theorem follow_of_no_link (h : schema.link? relation = none) :
    ts.follow schema path (relation :: relations) = (path, ts) := by
  simp only [JoinedTables.follow, h]

theorem obstacle?_of_link (h : schema.link? relation = some link) :
    schema.obstacle? (relation :: relations) = schema.obstacle? relations := by
  simp [Schema.obstacle?, Schema.isRelation, h]

theorem obstacle?_of_no_link (h : schema.link? relation = none) :
    schema.obstacle? (relation :: relations) = some relation := by
  simp [Schema.obstacle?, Schema.isRelation, h]

/-- Relations may be followed in two parts, if no obstacle is in the first one. -/
theorem follow_append {more : List Member} (h : schema.obstacle? relations = none) :
    ts.follow schema path (relations ++ more)
      = (ts.follow schema path relations).2.follow schema (ts.follow schema path relations).1
          more := by
  induction relations generalizing ts path with
  | nil => rfl
  | cons relation relations ih =>
    cases hlink : schema.link? relation with
    | none => simp [obstacle?_of_no_link hlink] at h
    | some link =>
      rw [obstacle?_of_link hlink] at h
      rw [List.cons_append, follow_of_link hlink, ih h, follow_of_link hlink]

end

/-- Following relations makes a path or meets an obstacle, and keeps the tables made on the way in
either case. -/
theorem exec_extendPath (schema : Schema) (all : List Member) (path : JoinPath)
    (relations : List Member) (s : Session) :
    (extendPath schema all path relations).exec s =
      let found := s.tables.follow schema path relations
      (match schema.obstacle? relations with
        | none => .ok found.1
        | some m => .error (.notARelation m (pathText all)),
      { s with tables := found.2 }) := by
  induction relations generalizing path s with
  | nil => rfl
  | cons relation relations ih =>
    rw [extendPath]
    cases hlink : schema.link? relation with
    | none =>
      rw [follow_of_no_link hlink, obstacle?_of_no_link hlink]
      rfl
    | some link =>
      have hjoin : (joinTable path relation link.targetTable).exec s
          = (.ok (s.tables.join path relation link.targetTable).1,
            { s with tables := (s.tables.join path relation link.targetTable).2 }) := rfl
      simp only [SessionM.exec_bind, hjoin]
      rw [follow_of_link hlink, obstacle?_of_link hlink]
      exact ih (path.extend link _) _

/-! ## Plans and what comes of them -/

/-- What a reference asks for: the clause that owns it, the source of the clause, the relations to
follow from there and the member to read in the end. -/
structure Plan where
  key : ClauseKey
  source : Source
  access : Access

/-- The path that a plan starts with. -/
def Plan.start (plan : Plan) : JoinPath :=
  { first := plan.source, joins := [] }

/-- The field at the end of `path`. -/
def Plan.field (schema : Schema) (plan : Plan) (path : JoinPath) : Field where
  member := plan.access.member
  path
  column := path.last.column? schema plan.access.member

/-- The answer to a plan, and the session after it. -/
def Plan.outcome (schema : Schema) (plan : Plan) (s : Session) :
    Except ResolveError Field × Session :=
  let found := s.tables.follow schema plan.start plan.access.joins
  match schema.obstacle? plan.access.joins with
  | none =>
    (.ok (plan.field schema found.1),
      Session.attachAll { s with tables := found.2 } plan.key found.1.joins)
  | some m => (.error (.notARelation m (pathText plan.access.joins)), { s with tables := found.2 })

/-- The answer to a reference that was planned, with or without success. Nothing is done for one
without a plan. -/
def planned (schema : Schema) (plan : Except ResolveError Plan) (s : Session) :
    Except ResolveError Field × Session :=
  match plan with
  | .error error => (.error error, s)
  | .ok plan => plan.outcome schema s

/-- The plan for a reference to the range variable of a clause. -/
def planReference (schema : Schema) (key : ClauseKey) (clause : RangeClause) (r : Reference)
    (usage : Usage) : Except ResolveError Plan := do
  unless r.root = clause.identifier do
    throw (.otherVariable clause.identifier r.root.name)
  let source ← clause.source schema key
  let access ← memberAccess schema usage source clause.identifier.type r.members
  return { key, source, access := usage.shortcut schema access }

/-- The plan for an expression that is asked of one clause. -/
def planAt (schema : Schema) (key : ClauseKey) (clause : RangeClause) (e : Expr) (usage : Usage) :
    Except ResolveError Plan := do
  let r ← e.reference
  planReference schema key clause r usage

/-- The plan for an expression in a clause of `q`, a query of the tree under `root`. -/
def planIn (schema : Schema) (root q : Query) (e : Expr) (usage : Usage) :
    Except ResolveError Plan := do
  let r ← e.reference
  match ownerAmong? (q :: root.enclosing q) r with
  | none => throw (.noOwner e)
  | some (key, clause, owned) => planReference schema key clause owned usage

section

variable {schema : Schema} {key : ClauseKey} {clause : RangeClause} {r : Reference} {usage : Usage}
  {plan : Plan}

theorem exec_lift_bind {α β : Type} (x : Except ResolveError α) (f : α → SessionM β)
    (s : Session) :
    SessionM.exec (liftM x >>= f) s =
      match x with
      | .ok a => (f a).exec s
      | .error error => (.error error, s) := by
  rw [SessionM.exec_bind]
  cases x <;> rfl

theorem exec_resolveReference (schema : Schema) (key : ClauseKey) (clause : RangeClause)
    (r : Reference) (usage : Usage) (s : Session) :
    (resolveReference schema key clause r usage).exec s
      = planned schema (planReference schema key clause r usage) s := by
  unfold resolveReference planReference
  by_cases hroot : r.root = clause.identifier
  · rw [if_pos hroot, if_pos hroot]
    show (liftM (clause.source schema key) >>= _ : SessionM Field).exec s
      = planned schema (_ >>= _) s
    rw [exec_lift_bind]
    cases hsource : clause.source schema key with
    | error error => rfl
    | ok own =>
      show (liftM (memberAccess _ _ _ _ _) >>= _ : SessionM Field).exec s
        = planned schema (memberAccess _ _ _ _ _ >>= _) s
      rw [exec_lift_bind]
      cases haccess : memberAccess schema usage own clause.identifier.type r.members with
      | error error => rfl
      | ok access =>
        simp only [SessionM.exec_bind, buildPath, exec_extendPath]
        simp only [Bind.bind, Except.bind, pure, Except.pure, planned, Plan.outcome]
        cases schema.obstacle? (usage.shortcut schema access).joins with
        | none => rfl
        | some m => rfl
  · rw [if_neg hroot, if_neg hroot]
    rfl

theorem planReference_ok (h : planReference schema key clause r usage = .ok plan) :
    r.root = clause.identifier ∧ plan.key = key ∧ clause.source schema key = .ok plan.source
      ∧ ∃ access,
        memberAccess schema usage plan.source clause.identifier.type r.members = .ok access
        ∧ plan.access = usage.shortcut schema access := by
  unfold planReference at h
  by_cases hroot : r.root = clause.identifier
  · rw [if_pos hroot] at h
    obtain ⟨own, hsource, h⟩ := bind_eq_ok.1 h
    obtain ⟨access, haccess, h⟩ := bind_eq_ok.1 h
    cases h
    exact ⟨hroot, rfl, hsource, access, haccess, rfl⟩
  · rw [if_neg hroot] at h
    cases h

/-- Every plan starts at the source of a clause. -/
def Plan.Sourced (schema : Schema) (plan : Plan) : Prop :=
  ∃ key clause, RangeClause.source schema key clause = .ok plan.source

theorem Plan.Sourced.of_planReference (h : planReference schema key clause r usage = .ok plan) :
    plan.Sourced schema :=
  ⟨key, clause, (planReference_ok h).2.2.1⟩

theorem Plan.Sourced.of_planAt {e : Expr} (h : planAt schema key clause e usage = .ok plan) :
    plan.Sourced schema := by
  obtain ⟨_, -, h⟩ := bind_eq_ok.1 h
  exact .of_planReference h

theorem Plan.Sourced.of_planIn {root q : Query} {e : Expr}
    (h : planIn schema root q e usage = .ok plan) : plan.Sourced schema := by
  obtain ⟨_, -, h⟩ := bind_eq_ok.1 h
  split at h
  · cases h
  · exact .of_planReference h

theorem Plan.Sourced.not_joined (h : plan.Sourced schema) : ¬plan.source.IsJoined := by
  obtain ⟨_, _, hsource⟩ := h
  exact source_not_joined hsource

theorem Plan.Sourced.made_start (h : plan.Sourced schema) (ts : JoinedTables) :
    plan.start.Made ts :=
  ⟨Source.made_of_not_joined h.not_joined ts, by simp [Plan.start]⟩

theorem planned_error_cases {plan : Except ResolveError Plan} {s s' : Session}
    {error : ResolveError} (h : planned schema plan s = (.error error, s')) :
    plan = .error error ∧ s' = s
      ∨ ∃ p m, plan = .ok p ∧ schema.obstacle? p.access.joins = some m
        ∧ error = .notARelation m (pathText p.access.joins)
        ∧ s' = { s with tables := (s.tables.follow schema p.start p.access.joins).2 } := by
  cases plan with
  | error error' =>
    cases h
    exact .inl ⟨rfl, rfl⟩
  | ok p =>
    simp only [planned, Plan.outcome] at h
    split at h
    · cases h
    · rename_i m hm
      cases h
      exact .inr ⟨p, m, rfl, hm, rfl, rfl⟩

theorem outcome_of_no_obstacle (h : schema.obstacle? plan.access.joins = none) (s : Session) :
    plan.outcome schema s =
      let found := s.tables.follow schema plan.start plan.access.joins
      (.ok (plan.field schema found.1),
        Session.attachAll { s with tables := found.2 } plan.key found.1.joins) := by
  simp only [Plan.outcome, h]

theorem outcome_tables (schema : Schema) (plan : Plan) (s : Session) :
    (plan.outcome schema s).2.tables
      = (s.tables.follow schema plan.start plan.access.joins).2 := by
  unfold Plan.outcome
  cases schema.obstacle? plan.access.joins with
  | none => exact Session.attachAll_tables _ _ _
  | some m => rfl

theorem planned_ok {plan : Except ResolveError Plan} {s s' : Session} {f : Field}
    (h : planned schema plan s = (.ok f, s')) :
    ∃ p, plan = .ok p ∧ schema.obstacle? p.access.joins = none ∧
      let found := s.tables.follow schema p.start p.access.joins
      f = p.field schema found.1 ∧ s'.tables = found.2
        ∧ ∀ k, s'.joins k
          = if k = p.key then found.1.joins.foldl (attachTo found.2) (s.joins k)
            else s.joins k := by
  cases plan with
  | error error => cases h
  | ok p =>
    cases hobstacle : schema.obstacle? p.access.joins with
    | some m => simp [planned, Plan.outcome, hobstacle] at h
    | none =>
      simp only [planned, outcome_of_no_obstacle hobstacle] at h
      cases h
      refine ⟨p, rfl, hobstacle, rfl, Session.attachAll_tables _ _ _, fun k => ?_⟩
      rw [Session.attachAll_joins]
      split
      · rename_i hk
        rw [hk]
      · rfl

/-- A plan without an obstacle is carried out in every session. -/
theorem planned_of_no_obstacle (h : schema.obstacle? plan.access.joins = none) (s : Session) :
    ∃ s', planned schema (.ok plan) s
        = (.ok (plan.field schema (s.tables.follow schema plan.start plan.access.joins).1), s')
      ∧ s'.tables = (s.tables.follow schema plan.start plan.access.joins).2 := by
  simp only [planned, outcome_of_no_obstacle h]
  exact ⟨_, rfl, Session.attachAll_tables _ _ _⟩

/-- Resolving an expression against a clause is to carry out its plan. -/
theorem exec_resolveAt (schema : Schema) (key : ClauseKey) (clause : RangeClause) (e : Expr)
    (usage : Usage) (s : Session) :
    (resolveAt schema key clause e usage).exec s
      = planned schema (planAt schema key clause e usage) s := by
  unfold resolveAt planAt
  show (liftM e.reference >>= _ : SessionM Field).exec s = planned schema (_ >>= _) s
  rw [exec_lift_bind]
  cases e.reference with
  | error error => rfl
  | ok r => exact exec_resolveReference schema key clause r usage s

/-! A clause that owns a reference does not refuse it for the variable of another clause. -/

theorem identifier_of_clauseIndex? {q : Query} {p : Parameter} {index : Nat}
    (h : q.clauseIndex? p = some index) :
    ∃ clause, q.rangeClauses[index]? = some clause ∧ clause.identifier = p := by
  obtain ⟨hlt, hsame, -⟩ := List.findIdx?_eq_some_iff_getElem.1 h
  exact ⟨q.rangeClauses[index], List.getElem?_eq_getElem hlt, beq_iff_eq.1 hsame⟩

theorem clauseIndex?_of_owner? {q : Query} {p : Parameter} {members : List Member} {index : Nat}
    {owned : Reference} (h : q.owner? p members = some (index, owned)) :
    q.clauseIndex? owned.root = some index := by
  induction members generalizing p with
  | nil =>
    rw [Query.owner?.eq_def] at h
    split at h
    · rename_i hindex
      cases h
      exact hindex
    · cases h
  | cons m ms ih =>
    rw [Query.owner?.eq_def] at h
    split at h
    · rename_i hindex
      cases h
      exact hindex
    · exact ih h

theorem root_of_ownerAmong? {queries : List Query} {r owned : Reference} {key : ClauseKey}
    {clause : RangeClause} (h : ownerAmong? queries r = some (key, clause, owned)) :
    owned.root = clause.identifier := by
  induction queries with
  | nil => cases h
  | cons q qs ih =>
    rw [ownerAmong?] at h
    split at h
    · rename_i index owned' howner
      obtain ⟨clause', hclause, hidentifier⟩ :=
        identifier_of_clauseIndex? (clauseIndex?_of_owner? howner)
      rw [hclause] at h
      cases h
      exact hidentifier.symm
    · exact ih h

/-- A reason that a clause may give for a reference that it owns: it was not asked about the
variable of another clause. -/
def ResolveError.AtOwner : ResolveError → Prop
  | .otherVariable _ _ | .inconsistent _ => False
  | _ => True

theorem source_error {error : ResolveError} (h : clause.source schema key = .error error) :
    error.AtOwner := by
  unfold RangeClause.source at h
  simp only at h
  repeat' split at h
  all_goals
    cases h
    try trivial

theorem primaryKey_error {type : String} {error : ResolveError}
    (h : schema.primaryKey type = .error error) : error.AtOwner := by
  unfold Schema.primaryKey at h
  split at h
  · cases h
  · cases h
    trivial

theorem directAccess_error {type : String} {error : ResolveError}
    (h : usage.directAccess schema type = .error error) : error.AtOwner := by
  cases usage with
  | select | binding => cases h
  | filter | ordering =>
    rcases bind_eq_error h with h | ⟨_, -, h⟩
    · exact primaryKey_error h
    · cases h

theorem relationAccess_error {joins : List Member} {relation : Member} {error : ResolveError}
    (h : usage.relationAccess schema joins relation = .error error) : error.AtOwner := by
  cases usage with
  | select | binding => cases h
  | filter =>
    simp only [Usage.relationAccess] at h
    split at h
    · cases h
      trivial
    · rcases bind_eq_error h with h | ⟨_, -, h⟩
      · exact primaryKey_error h
      · cases h
  | ordering =>
    cases h
    trivial

theorem memberAccess_error {own : Source} {type : String} {members : List Member}
    {error : ResolveError} (h : memberAccess schema usage own type members = .error error) :
    error.AtOwner := by
  unfold memberAccess at h
  split at h
  · split at h
    · exact directAccess_error h
    · cases h
  · split at h
    · exact relationAccess_error h
    · cases h

theorem planReference_error (hroot : r.root = clause.identifier) {error : ResolveError}
    (h : planReference schema key clause r usage = .error error) : error.AtOwner := by
  unfold planReference at h
  rw [if_pos hroot] at h
  rcases bind_eq_error h with h | ⟨_, -, h⟩
  · exact source_error h
  rcases bind_eq_error h with h | ⟨_, -, h⟩
  · exact memberAccess_error h
  · cases h

theorem planned_error (hroot : r.root = clause.identifier) {error : ResolveError}
    {s s' : Session}
    (h : planned schema (planReference schema key clause r usage) s = (.error error, s')) :
    error.AtOwner := by
  cases hplan : planReference schema key clause r usage with
  | error error' =>
    rw [hplan] at h
    cases h
    exact planReference_error hroot hplan
  | ok plan =>
    rw [hplan] at h
    simp only [planned, Plan.outcome] at h
    split at h
    · cases h
    · cases h
      trivial

/-- Resolving an expression in a clause of a query is to carry out its plan. -/
theorem exec_resolve (schema : Schema) (root q : Query) (e : Expr) (usage : Usage) (s : Session) :
    (resolve schema root q e usage).exec s = planned schema (planIn schema root q e usage) s := by
  unfold resolve planIn
  rw [exec_lift_bind]
  cases href : e.reference with
  | error error =>
    rw [findOwnerAmong, findOwner_eq_error href]
    rfl
  | ok r =>
    rw [reference_eq_ok.1 href, findOwnerAmong_read]
    dsimp only [Bind.bind, Except.bind]
    cases howner : ownerAmong? (q :: root.enclosing q) r with
    | none => rfl
    | some found =>
      obtain ⟨key, clause, owned⟩ := found
      have hplanAt : planAt schema key clause owned.expr usage
          = planReference schema key clause owned usage := by
        rw [planAt, reference_eq_ok.2 rfl]
        rfl
      simp only [Option.map_some, SessionM.exec_tryCatch, exec_resolveAt, hplanAt]
      cases hplanned : planned schema (planReference schema key clause owned usage) s with
      | mk answer s' =>
        cases answer with
        | ok f => rfl
        | error error =>
          -- The handler passes on every error but the one that cannot arise here.
          have hpassed := planned_error (root_of_ownerAmong? howner) hplanned
          cases error <;> first | rfl | cases hpassed

end

end QueryChain
