import QueryChain.Proofs.Resolve.Hops

/-!
# Why a reference is refused

A reference to the variable of a clause is refused for one of four reasons, and none of them has to
do with the session: what becomes of it is decided by the schema, the clause and the members
(`Refusal`). Where a reference has several faults, the one that is looked for first is told. A
reference without a fault is resolved in every session.

`refused_iff` states this for valid schemas, where the members that lead on are the declared
relations.
-/

namespace QueryChain

/-- Whether a range variable is compared or sorted by its primary key. -/
def Usage.readsKeys : Usage → Bool
  | .filter | .ordering => true
  | .select | .binding => false

/-- The clause ranges over elements that have no table. -/
def RangeClause.Unmapped (schema : Schema) (clause : RangeClause) : Prop :=
  clause.Ranges ∧ schema.table? clause.identifier.type = none

/-- Why a reference is refused that reads members from the variable of a clause. -/
inductive Refusal (schema : Schema) (key : ClauseKey) (clause : RangeClause) (usage : Usage) :
    List Member → ResolveError → Prop where
  | unmapped {members : List Member} :
    clause.Unmapped schema →
      Refusal schema key clause usage members (.unmappedType clause.identifier.type)
  /-- A variable that is bound to another one has no key to be compared by. -/
  | noKey {p : Parameter} {projection : Expr} :
    clause.kind = .binding (.parameter p) projection → usage.readsKeys →
      schema.table? clause.identifier.type = none →
      Refusal schema key clause usage [] (.noPrimaryKey clause.identifier.type)
  /-- Nothing is sorted by entities, be they reached or not. -/
  | unordered {before : List Member} {last : Member} :
    ¬clause.Unmapped schema → usage = .ordering → schema.Declares last →
      Refusal schema key clause usage (before ++ [last])
        (.orderingByRelation (pathText (before ++ [last])) last)
  /-- The first member before the last one that does not lead on. The text shows all relations that
  were to be followed. -/
  | stuck {before after : List Member} {m last : Member} {own : Source} {access : Access} :
    ¬(usage = .ordering ∧ schema.Declares last) → (∀ r ∈ before, schema.Declares r) →
      ¬schema.Declares m → clause.source schema key = .ok own →
      memberAccess schema usage own clause.identifier.type (before ++ m :: after ++ [last])
        = .ok access →
      Refusal schema key clause usage (before ++ m :: after ++ [last])
        (.notARelation m (pathText (usage.shortcut schema access).joins))

section

variable {schema : Schema} {key : ClauseKey} {clause : RangeClause} {usage : Usage}
  {members : List Member} {own : Source} {type : String} {error : ResolveError}

/-! ## Each check -/

theorem source_eq_error_iff :
    clause.source schema key = .error error
      ↔ clause.Unmapped schema ∧ error = .unmappedType clause.identifier.type := by
  unfold RangeClause.source RangeClause.Unmapped RangeClause.Ranges
  cases clause.kind with
  | main | additional =>
    cases htable : schema.table? clause.identifier.type <;> simp [htable, eq_comm (b := error)]
  | nested | binding => simp

theorem primaryKey?_isSome (schema : Schema) (type : String) :
    (schema.primaryKey? type).isSome = (schema.table? type).isSome := by
  simp [Schema.primaryKey?, Schema.table?]

theorem primaryKey_eq_error_iff :
    schema.primaryKey type = .error error
      ↔ schema.table? type = none ∧ error = .noPrimaryKey type := by
  have hkey := primaryKey?_isSome schema type
  unfold Schema.primaryKey
  cases htable : schema.table? type <;> cases h : schema.primaryKey? type <;>
    simp_all [eq_comm (b := error)]

theorem directAccess_eq_error_iff :
    usage.directAccess schema type = .error error
      ↔ usage.readsKeys ∧ schema.table? type = none ∧ error = .noPrimaryKey type := by
  cases usage with
  | select | binding => simp [Usage.directAccess, Usage.readsKeys]
  | filter | ordering =>
    simp only [Usage.directAccess, Usage.readsKeys, true_and, ← primaryKey_eq_error_iff]
    cases schema.primaryKey type <;> simp [Bind.bind, Except.bind, pure, Except.pure]

/-- What a relation leads to has a primary key, so a relation is refused for sorting only. -/
theorem relationAccess_eq_error_iff {before : List Member} {relation : Member}
    (hrelation : schema.isRelation relation) :
    usage.relationAccess schema before relation = .error error
      ↔ usage = .ordering
        ∧ error = .orderingByRelation (pathText (before ++ [relation])) relation := by
  cases usage with
  | select | binding => simp [Usage.relationAccess]
  | ordering => simp [Usage.relationAccess, eq_comm (b := error)]
  | filter =>
    obtain ⟨link, hlink⟩ := Option.isSome_iff_exists.1 hrelation
    obtain ⟨_, _, target, -, -, htarget, htype, -⟩ := Schema.link?_eq_some hlink
    have hkey : ∃ found, schema.primaryKey link.targetType = .ok found := by
      simp [Schema.primaryKey, Schema.primaryKey?, htype, htarget]
    obtain ⟨found, hkey⟩ := hkey
    simp [Usage.relationAccess, hlink, hkey, Bind.bind, Except.bind, pure, Except.pure]

theorem memberAccess_nil_eq_error_iff :
    memberAccess schema usage own type [] = .error error
      ↔ own.isEntity schema type ∧ usage.readsKeys ∧ schema.table? type = none
        ∧ error = .noPrimaryKey type := by
  unfold memberAccess
  cases own.isEntity schema type <;> simp [directAccess_eq_error_iff]

theorem memberAccess_concat_eq_error_iff {before : List Member} {last : Member} :
    memberAccess schema usage own type (before ++ [last]) = .error error
      ↔ usage = .ordering ∧ schema.isRelation last
        ∧ error = .orderingByRelation (pathText (before ++ [last])) last := by
  simp only [memberAccess, List.getLast?_concat, List.dropLast_concat]
  cases hlast : schema.isRelation last with
  | true => simp [relationAccess_eq_error_iff hlast]
  | false => simp

/-- An entity without a table is a variable that is bound to another one. -/
theorem isEntity_of_unmapped (hsource : clause.source schema key = .ok own)
    (htable : schema.table? clause.identifier.type = none) :
    own.isEntity schema clause.identifier.type
      ↔ ∃ p projection, clause.kind = .binding (.parameter p) projection := by
  unfold RangeClause.source at hsource
  cases hkind : clause.kind with
  | main | additional => simp [hkind, htable] at hsource
  | nested =>
    simp only [hkind, Except.ok.injEq] at hsource
    simp [← hsource, Source.isEntity, htable]
  | binding value projection =>
    simp only [hkind, Except.ok.injEq] at hsource
    cases value <;> simp [← hsource, Source.isEntity, Expr.parameter?]

/-- The first member that does not lead on. -/
theorem obstacle?_eq_some_iff (hvalid : schema.Valid) {m : Member} :
    schema.obstacle? members = some m
      ↔ ∃ before after, members = before ++ m :: after ∧ (∀ r ∈ before, schema.Declares r)
        ∧ ¬schema.Declares m := by
  simp only [Schema.obstacle?, List.find?_eq_some_iff_append, Bool.not_eq_true', Bool.not_not,
    ← Bool.not_eq_true, hvalid.isRelation_iff]
  constructor
  · rintro ⟨hm, before, after, rfl, hbefore⟩
    exact ⟨before, after, rfl, hbefore, hm⟩
  · rintro ⟨before, after, rfl, hbefore, hm⟩
    exact ⟨hm, before, after, rfl, hbefore⟩

/-! ## All checks -/

theorem planned_eq_error_iff {plan : Except ResolveError Plan} {s : Session} :
    (∃ s', planned schema plan s = (.error error, s'))
      ↔ plan = .error error ∨ ∃ p m, plan = .ok p ∧ schema.obstacle? p.access.joins = some m
        ∧ error = .notARelation m (pathText p.access.joins) := by
  constructor
  · rintro ⟨s', h⟩
    rcases planned_error_cases h with ⟨hplan, -⟩ | ⟨p, m, hplan, hm, herror, -⟩
    · exact .inl hplan
    · exact .inr ⟨p, m, hplan, hm, herror⟩
  · rintro (rfl | ⟨p, m, rfl, hm, rfl⟩)
    · exact ⟨s, rfl⟩
    · simp [planned, Plan.outcome, hm]

theorem planAt_eq_error_iff {e : Expr}
    (href : e.reference = .ok { root := clause.identifier, members }) :
    planAt schema key clause e usage = .error error
      ↔ clause.source schema key = .error error
        ∨ ∃ own, clause.source schema key = .ok own
          ∧ memberAccess schema usage own clause.identifier.type members = .error error := by
  simp only [planAt, href, planReference, Bind.bind, Except.bind, if_true, pure, Except.pure]
  cases clause.source schema key with
  | error error' => simp
  | ok own =>
    cases haccess : memberAccess schema usage own clause.identifier.type members <;> simp [haccess]

/-- The plan for a reference that no check before the path refuses. -/
theorem planAt_eq_ok_iff {e : Expr} {plan : Plan}
    (href : e.reference = .ok { root := clause.identifier, members }) :
    planAt schema key clause e usage = .ok plan
      ↔ ∃ own access, clause.source schema key = .ok own
        ∧ memberAccess schema usage own clause.identifier.type members = .ok access
        ∧ plan = { key, source := own, access := usage.shortcut schema access } := by
  simp only [planAt, href, planReference, Bind.bind, Except.bind, if_true, pure, Except.pure]
  cases clause.source schema key with
  | error error' => simp
  | ok own =>
    cases haccess : memberAccess schema usage own clause.identifier.type members <;>
      simp [haccess, eq_comm (b := plan)]

theorem not_unmapped_of_source (hsource : clause.source schema key = .ok own) :
    ¬clause.Unmapped schema := by
  intro hunmapped
  have herror : clause.source schema key = .error (.unmappedType clause.identifier.type) :=
    source_eq_error_iff.2 ⟨hunmapped, rfl⟩
  cases herror.symm.trans hsource

theorem exists_source_of_not_unmapped (h : ¬clause.Unmapped schema) (key : ClauseKey) :
    ∃ own, clause.source schema key = .ok own := by
  cases hsource : clause.source schema key with
  | ok own => exact ⟨own, rfl⟩
  | error error => exact absurd (source_eq_error_iff.1 hsource).1 h

/-- A reference is refused before the path is built for one of the first three reasons. -/
theorem refusal_of_planAt {e : Expr} (hvalid : schema.Valid)
    (href : e.reference = .ok { root := clause.identifier, members })
    (h : planAt schema key clause e usage = .error error) :
    Refusal schema key clause usage members error := by
  rcases (planAt_eq_error_iff href).1 h with hsource | ⟨own, hsource, haccess⟩
  · obtain ⟨hunmapped, rfl⟩ := source_eq_error_iff.1 hsource
    exact .unmapped hunmapped
  · rcases List.eq_nil_or_concat' members with rfl | ⟨before, last, rfl⟩
    · obtain ⟨hentity, husage, htable, rfl⟩ := memberAccess_nil_eq_error_iff.1 haccess
      obtain ⟨p, projection, hkind⟩ := (isEntity_of_unmapped hsource htable).1 hentity
      exact .noKey hkind husage htable
    · obtain ⟨husage, hlast, rfl⟩ := memberAccess_concat_eq_error_iff.1 haccess
      exact .unordered (not_unmapped_of_source hsource) husage (hvalid.isRelation_iff.1 hlast)

/-- A path is stuck at the first member before the last one that does not lead on. -/
theorem refusal_of_obstacle {e : Expr} (hvalid : schema.Valid)
    (href : e.reference = .ok { root := clause.identifier, members }) {p : Plan} {m : Member}
    (hplan : planAt schema key clause e usage = .ok p)
    (hm : schema.obstacle? p.access.joins = some m) :
    Refusal schema key clause usage members (.notARelation m (pathText p.access.joins)) := by
  obtain ⟨own, access, hsource, haccess, rfl⟩ := (planAt_eq_ok_iff href).1 hplan
  rw [obstacle?_hops haccess] at hm
  obtain ⟨before, after, hmembers, hbefore, hnot⟩ := (obstacle?_eq_some_iff hvalid).1 hm
  rcases List.eq_nil_or_concat' members with rfl | ⟨front, last, rfl⟩
  · simp at hmembers
  · rw [List.dropLast_concat] at hmembers
    subst hmembers
    refine .stuck ?_ hbefore hnot hsource haccess
    rintro ⟨husage, hlast⟩
    cases haccess.symm.trans
      (memberAccess_concat_eq_error_iff.2 ⟨husage, hvalid.isRelation_iff.2 hlast, rfl⟩)

/-- Each reason keeps a reference from being resolved, in any session. -/
theorem Refusal.planned {e : Expr} (hvalid : schema.Valid)
    (href : e.reference = .ok { root := clause.identifier, members })
    (h : Refusal schema key clause usage members error) (s : Session) :
    ∃ s', planned schema (planAt schema key clause e usage) s = (.error error, s') := by
  rw [planned_eq_error_iff]
  cases h with
  | unmapped hunmapped =>
    exact .inl ((planAt_eq_error_iff href).2 (.inl (source_eq_error_iff.2 ⟨hunmapped, rfl⟩)))
  | @noKey p projection hkind husage htable =>
    have hsource : clause.source schema key = .ok (.binding key clause.identifier.name true) := by
      simp [RangeClause.source, hkind, Expr.parameter?]
    refine .inl ((planAt_eq_error_iff href).2 (.inr ⟨_, hsource, ?_⟩))
    exact memberAccess_nil_eq_error_iff.2 ⟨rfl, husage, htable, rfl⟩
  | unordered hmapped husage hlast =>
    obtain ⟨own, hsource⟩ := exists_source_of_not_unmapped hmapped key
    refine .inl ((planAt_eq_error_iff href).2 (.inr ⟨own, hsource, ?_⟩))
    exact memberAccess_concat_eq_error_iff.2 ⟨husage, hvalid.isRelation_iff.2 hlast, rfl⟩
  | stuck _ hbefore hnot hsource haccess =>
    refine .inr ⟨_, _, (planAt_eq_ok_iff href).2 ⟨_, _, hsource, haccess, rfl⟩, ?_, rfl⟩
    rw [obstacle?_hops haccess, List.dropLast_concat]
    exact (obstacle?_eq_some_iff hvalid).2 ⟨_, _, rfl, hbefore, hnot⟩

theorem Source.Mapped.column?_eq_none_iff (h : own.Mapped) {member : Option Member} :
    own.column? schema member = none ↔ ∃ m, member = some m ∧ schema.column? m = none := by
  cases member with
  | none => simp [Source.column?]
  | some m =>
    cases own with
    | table => simp [Source.column?]
    | nested => exact h.elim
    | binding key aliasName isTable =>
      obtain rfl := h
      simp [Source.column?]

end

/-- In a valid schema, whether a reference to the variable of a clause is refused, and why, does not
depend on the session. A reference that is not refused is resolved; where the variable stands for
elements of a table, the field has no column exactly if the member that is read in the end has
none. -/
theorem refused_iff {schema : Schema} (hvalid : schema.validate = .ok ()) {key : ClauseKey}
    {clause : RangeClause} {usage : Usage} {e : Expr} {members : List Member}
    (href : e.reference = .ok { root := clause.identifier, members }) (s : Session) :
    (∀ error, (∃ s', (resolveAt schema key clause e usage).exec s = (.error error, s'))
        ↔ Refusal schema key clause usage members error)
      ∧ ((∀ error, ¬Refusal schema key clause usage members error) →
        ∃ f s', (resolveAt schema key clause e usage).exec s = (.ok f, s')
          ∧ (clause.OverTable →
            (f.column = none ↔ ∃ m, f.member = some m ∧ schema.column? m = none))) := by
  have hvalid : schema.Valid := .of_validate hvalid
  rw [exec_resolveAt]
  have hiff (error : ResolveError) :
      (∃ s', planned schema (planAt schema key clause e usage) s = (.error error, s'))
        ↔ Refusal schema key clause usage members error := by
    constructor
    · rw [planned_eq_error_iff]
      rintro (hplan | ⟨p, m, hplan, hm, rfl⟩)
      · exact refusal_of_planAt hvalid href hplan
      · exact refusal_of_obstacle hvalid href hplan hm
    · exact fun h => h.planned hvalid href s
  refine ⟨hiff, fun hnone => ?_⟩
  cases hexec : planned schema (planAt schema key clause e usage) s with
  | mk answer s' =>
    cases answer with
    | error error => exact absurd ((hiff error).1 ⟨s', hexec⟩) (hnone error)
    | ok f =>
      refine ⟨f, s', rfl, fun hclause => ?_⟩
      obtain ⟨p, hplan, -, rfl, -⟩ := planned_ok hexec
      obtain ⟨own, access, hsource, -, rfl⟩ := (planAt_eq_ok_iff href).1 hplan
      have hlast : (JoinPath.last { first := own, joins := [] }).Mapped := hclause.mapped hsource
      exact (follow_mapped hlast).column?_eq_none_iff

/-- A student read from the subject of a detail. To sort by it is refused for its kind, though the
subject leads nowhere either; that is what it is refused for in a select clause. -/
theorem refused_iff_subjectStudent :
    let key : ClauseKey := { query := 0, index := 0 }
    let student : Member :=
      { declaringType := "StudentDetail", name := "Student", type := "Student" }
    let detail : Parameter := { name := "sd", type := "StudentDetail" }
    let clause : RangeClause :=
      { identifier := detail, kind := .main (.table "StudentDetails" "StudentDetail") }
    let refused (usage : Usage) := Refusal .school key clause usage [subjectMember, student]
    Schema.school.validate = .ok ()
      ∧ refused .ordering (.orderingByRelation "Subject.Student" student)
      ∧ refused .select (.notARelation subjectMember "Subject.Student")
      ∧ ∃ f s', (resolveAt .school key clause (.read detail [subjectMember]) .select).exec
        (.new "j") = (.ok f, s') ∧ f.column ≠ none := by
  intro key student detail clause refused
  have hvalid : Schema.school.validate = .ok () := rfl
  have hrefused {usage : Usage} {error : ResolveError}
      (h : ∃ s', (resolveAt .school key clause (.read detail [subjectMember, student]) usage).exec
        (.new "j") = (.error error, s')) : refused usage error :=
    ((refused_iff hvalid rfl (.new "j")).1 error).1 h
  exact ⟨hvalid, hrefused ⟨_, rfl⟩, hrefused ⟨_, rfl⟩, _, _, rfl, nofun⟩

end QueryChain
