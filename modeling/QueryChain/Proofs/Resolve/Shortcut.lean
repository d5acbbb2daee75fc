import QueryChain.Chain.Build
import QueryChain.Proofs.Resolve.Sharing
import QueryChain.Proofs.Schema.Valid
import QueryChain.Schema.School

/-!
# Foreign keys in place of primary keys

Outside select clauses, the primary key of a related entity is read from the foreign key of the
relation, and the entity's table is not joined. In a valid schema this reads nothing else: the
column of the foreign key is the one that the join which is left out equates with the column of the
primary key (`shortcut_reads_equated_column`).

The two columns are found in different ways, as the column of a relation and as a side of a join.
They agree because a relation of a valid schema is not mapped as a column too.
-/

namespace QueryChain

variable {schema : Schema} {members : List Member} {last : Member} {usage : Usage}

/-- Whether `last` is the primary key of the entity that some relations lead to, and the last
relation is stored with the entity that declares it. -/
def ReadsRelatedKey (schema : Schema) (relations : List Member) (last : Member) : Prop :=
  ∃ relation link key, relations.getLast? = some relation ∧ schema.link? relation = some link
    ∧ link.isVirtual = false ∧ schema.primaryKey? link.targetType = some key ∧ key.same last

/-- The field `short` is `full` without the last join. It reads the left column of that join, where
`full` reads the right one. -/
def Field.DropsJoin (full short : Field) : Prop :=
  ∃ j, full.path = { short.path with joins := short.path.joins ++ [j] }
    ∧ full.column = some j.right ∧ short.column = some j.left

/-- What a shortcut may make of the field `full`, which ends in the member `last` behind some
relations. -/
def ShortcutOf (schema : Schema) (relations : List Member) (last : Member) (full short : Field) :
    Prop :=
  (¬ReadsRelatedKey schema relations last ∧ short = full)
    ∨ (ReadsRelatedKey schema relations last ∧ full.DropsJoin short)

/-! ## The accesses -/

theorem shortcut_select (access : Access) : Usage.select.shortcut schema access = access := by
  simp only [Usage.shortcut, Usage.readsForeignKeys, Bool.false_and, Bool.false_eq_true, if_false]
  repeat' split
  all_goals rfl

theorem shortcut_of_not_readsRelatedKey (h : ¬ReadsRelatedKey schema members last) :
    usage.shortcut schema { joins := members, member := some last }
      = { joins := members, member := some last } := by
  unfold Usage.shortcut
  split
  · rename_i member relation hmember hrelation
    obtain rfl := Option.some.inj hmember
    split
    · rfl
    · rename_i link hlink
      split
      · rfl
      · rename_i key hkey
        refine if_neg fun hread => h ?_
        simp only [Bool.and_eq_true, Bool.not_eq_true'] at hread
        exact ⟨relation, link, key, hrelation, hlink, hread.1.2, hkey, hread.2⟩
  · rfl

theorem shortcut_of_key {before : List Member} {relation key : Member} {link : Link}
    (husage : usage ≠ .select) (hlink : schema.link? relation = some link)
    (hstored : link.isVirtual = false) (hkey : schema.primaryKey? link.targetType = some key)
    (hread : key.same last) :
    usage.shortcut schema { joins := before ++ [relation], member := some last }
      = { joins := before, member := some relation } := by
  have hreads : usage.readsForeignKeys = true := by
    cases usage with
    | select => exact absurd rfl husage
    | filter | ordering | binding => rfl
  simp [Usage.shortcut, hlink, hkey, hreads, hstored, hread]

theorem memberAccess_of_column {own : Source} {type : String}
    (hlast : schema.isRelation last = false) :
    memberAccess schema usage own type (members ++ [last])
      = .ok { joins := members, member := some last } := by
  simp [memberAccess, hlast]

/-- The plan to follow relations from the source of a clause and to read the member `m` in the
end. -/
def Plan.reading (key : ClauseKey) (own : Source) (relations : List Member) (m : Member) :
    Plan where
  key
  source := own
  access := { joins := relations, member := some m }

theorem planAt_of_column {key : ClauseKey} {clause : RangeClause} {e : Expr} {own : Source}
    (href : e.reference = .ok { root := clause.identifier, members := members ++ [last] })
    (hlast : schema.isRelation last = false) (hsource : clause.source schema key = .ok own) :
    planAt schema key clause e usage
      = .ok { Plan.reading key own members last with
          access := usage.shortcut schema { joins := members, member := some last } } := by
  simp [planAt, planReference, href, hsource, memberAccess_of_column hlast, Plan.reading, Bind.bind,
    Except.bind, pure, Except.pure]

/-! ## Columns along a path -/

/-- A source whose columns the schema knows. -/
def Source.Mapped : Source → Prop
  | .table _ => True
  | .nested _ _ _ => False
  | .binding _ _ isTable => isTable = true

/-- A clause whose variable stands for elements of a table: a range that is no nested query, or a
binding of another range variable. -/
def RangeClause.OverTable (clause : RangeClause) : Prop :=
  match clause.kind with
  | .main _ | .additional _ _ => True
  | .nested _ _ => False
  | .binding value _ => value.parameter?.isSome

theorem RangeClause.OverTable.mapped {key : ClauseKey} {clause : RangeClause} {own : Source}
    (h : clause.OverTable) (hsource : clause.source schema key = .ok own) : own.Mapped := by
  unfold RangeClause.OverTable at h
  unfold RangeClause.source at hsource
  cases hkind : clause.kind with
  | main | additional =>
    simp only [hkind] at hsource
    split at hsource
    · cases hsource
      trivial
    · cases hsource
  | nested => simp [hkind] at h
  | binding =>
    simp only [hkind] at h hsource
    cases hsource
    exact h

theorem last_extend (path : JoinPath) (link : Link) (table : Table) :
    (path.extend link table).last = .table table := by
  simp [JoinPath.extend, JoinPath.last]

theorem follow_mapped {ts : JoinedTables} {path : JoinPath} {relations : List Member}
    (h : path.last.Mapped) : (ts.follow schema path relations).1.last.Mapped := by
  induction relations generalizing ts path with
  | nil => exact h
  | cons relation relations ih =>
    cases hlink : schema.link? relation with
    | none => rwa [follow_of_no_link hlink]
    | some link =>
      rw [follow_of_link hlink]
      refine ih ?_
      rw [last_extend]
      trivial

theorem Source.Mapped.column? {own : Source} (h : own.Mapped) {m : Member} {column : String}
    (hcolumn : schema.column? m = some column) :
    own.column? schema (some m) = some { source := own, name := some column } := by
  cases own with
  | table t => simp [Source.column?, hcolumn]
  | nested => exact h.elim
  | binding key aliasName isTable =>
    obtain rfl := h
    simp [Source.column?, hcolumn]

section

variable {key : ClauseKey} {own : Source} {before : List Member} {relation target : Member}
  {link : Link}

/-- The field of the primary key at the end of a stored relation, and that of the relation itself,
read the two columns that the join along the relation equates. -/
theorem dropsJoin_extend (hvalid : schema.Valid) (hlink : schema.link? relation = some link)
    (hstored : link.isVirtual = false) (hkey : schema.primaryKey? link.targetType = some target)
    (hread : target.same last) {path : JoinPath} (hpath : path.last.Mapped) (table : Table) :
    ((Plan.reading key own (before ++ [relation]) last).field schema
        (path.extend link table)).DropsJoin
      ((Plan.reading key own before relation).field schema path) := by
  refine ⟨_, rfl, ?_, ?_⟩
  · have htarget : (Source.table table).Mapped := trivial
    simp only [Plan.field, last_extend]
    exact htarget.column? (Schema.column?_key hlink hstored hkey hread)
  · exact hpath.column? (hvalid.column?_relation hlink hstored)

/-! ## The fields -/

theorem obstacle?_concat (hlink : schema.link? relation = some link) :
    schema.obstacle? (before ++ [relation]) = none ↔ schema.obstacle? before = none := by
  simp [Schema.obstacle?, Schema.isRelation, hlink]

/-- A plan with one more relation is carried out with one more step. -/
theorem planned_concat {plan : Plan} (hjoins : plan.access.joins = before ++ [relation])
    (hbefore : schema.obstacle? before = none) (hlink : schema.link? relation = some link)
    (s : Session) :
    let found := s.tables.follow schema plan.start before
    let made := found.2.join found.1 relation link.targetTable
    ∃ s', planned schema (.ok plan) s = (.ok (plan.field schema (found.1.extend link made.1)), s')
      ∧ s'.tables = made.2 := by
  intro found made
  have hobstacle : schema.obstacle? plan.access.joins = none := by
    rw [hjoins]
    exact (obstacle?_concat hlink).2 hbefore
  obtain ⟨s', hplanned, htables⟩ := planned_of_no_obstacle hobstacle s
  rw [hjoins, follow_append hbefore, follow_of_link hlink] at hplanned htables
  exact ⟨s', hplanned, htables⟩

/-- Of two plans that differ in a shortcut along a stored relation, if one is carried out, so is the
other right after it, and the shortcut drops a join. -/
theorem planned_shortcut (hvalid : schema.Valid) {s : Session} (hmapped : own.Mapped)
    (hsourced : (Plan.reading key own before relation).Sourced schema) (hs : s.tables.PathsMade)
    (hlink : schema.link? relation = some link) (hstored : link.isVirtual = false)
    (hkey : schema.primaryKey? link.targetType = some target) (hread : target.same last) :
    let full := Plan.reading key own (before ++ [relation]) last
    let short := Plan.reading key own before relation
    (∀ f s₁, planned schema (.ok full) s = (.ok f, s₁) →
        ∃ g s₂, planned schema (.ok short) s₁ = (.ok g, s₂) ∧ f.DropsJoin g)
      ∧ ∀ g s₁, planned schema (.ok short) s = (.ok g, s₁) →
        ∃ f s₂, planned schema (.ok full) s₁ = (.ok f, s₂) ∧ f.DropsJoin g := by
  intro full short
  let found := s.tables.follow schema short.start before
  -- Both follow the relations before the last one, and come to the same path.
  have hagain : ∀ ts : JoinedTables, found.2.Extends ts →
      ts.follow schema short.start before = (found.1, ts) :=
    fun _ => JoinedTables.follow_again hs (hsourced.made_start s.tables)
  have hdrops : ∀ table, (full.field schema (found.1.extend link table)).DropsJoin
      (short.field schema found.1) :=
    dropsJoin_extend hvalid hlink hstored hkey hread (follow_mapped hmapped)
  constructor
  · intro f s₁ h
    obtain ⟨_, ⟨⟩, hobstacle, -⟩ := planned_ok h
    have hbefore := (obstacle?_concat hlink).1 hobstacle
    obtain ⟨_, hfull, htables⟩ :=
      planned_concat (rfl : full.access.joins = before ++ [relation]) hbefore hlink s
    cases h.symm.trans hfull
    have hext : found.2.Extends s₁.tables := by
      rw [htables]
      exact JoinedTables.join_extends _ _ _ _
    have hshort : schema.obstacle? short.access.joins = none := hbefore
    obtain ⟨s₂, hshort, -⟩ := planned_of_no_obstacle hshort s₁
    rw [show short.access.joins = before from rfl, hagain s₁.tables hext] at hshort
    exact ⟨_, s₂, hshort, hdrops _⟩
  · intro g s₁ h
    obtain ⟨_, ⟨⟩, hbefore, rfl, htables, -⟩ := planned_ok h
    have hext : found.2.Extends s₁.tables := by
      rw [htables]
      exact .refl _
    obtain ⟨s₂, hfull, -⟩ :=
      planned_concat (rfl : full.access.joins = before ++ [relation]) hbefore hlink s₁
    rw [show s₁.tables.follow schema full.start before = _ from hagain s₁.tables hext] at hfull
    exact ⟨_, s₂, hfull, hdrops _⟩

end

/-- In a valid schema, let a member that is no relation be read from a variable that stands for
elements of a table. If it is resolved for a select clause and then for another one, or the other
way round, the fields are equal unless a related key is read; then one join is dropped, and the two
fields read the columns that it equates. In every run the paths that tables were made for are made
(`Run.orderly`). -/
theorem shortcut_reads_equated_column {key : ClauseKey} {clause : RangeClause} {e : Expr}
    {s : Session} (hvalid : schema.validate = .ok ()) (hclause : clause.OverTable)
    (href : e.reference = .ok { root := clause.identifier, members := members ++ [last] })
    (hlast : schema.isRelation last = false) (husage : usage ≠ .select)
    (hs : s.tables.PathsMade) :
    (∀ full s₁, (resolveAt schema key clause e .select).exec s = (.ok full, s₁) →
        ∃ short s₂, (resolveAt schema key clause e usage).exec s₁ = (.ok short, s₂)
          ∧ ShortcutOf schema members last full short)
      ∧ ∀ short s₁, (resolveAt schema key clause e usage).exec s = (.ok short, s₁) →
        ∃ full s₂, (resolveAt schema key clause e .select).exec s₁ = (.ok full, s₂)
          ∧ ShortcutOf schema members last full short := by
  simp only [exec_resolveAt]
  cases hsource : clause.source schema key with
  | error error =>
    have hfails (usage : Usage) : planAt schema key clause e usage = .error error := by
      simp [planAt, planReference, href, hsource, Bind.bind, Except.bind]
    simp [hfails, planned]
  | ok own =>
    have hsourced (plan : Plan) (hplan : plan.source = own) : plan.Sourced schema :=
      ⟨key, clause, hplan ▸ hsource⟩
    rw [planAt_of_column href hlast hsource, planAt_of_column href hlast hsource, shortcut_select]
    by_cases hkey : ReadsRelatedKey schema members last
    · obtain ⟨relation, link, target, hrelation, hlink, hstored, htarget, hread⟩ := hkey
      obtain ⟨before, rfl⟩ := List.getLast?_eq_some_iff.1 hrelation
      rw [shortcut_of_key husage hlink hstored htarget hread]
      have hkey : ReadsRelatedKey schema (before ++ [relation]) last :=
        ⟨relation, link, target, hrelation, hlink, hstored, htarget, hread⟩
      obtain ⟨hshort, hfull⟩ := planned_shortcut (.of_validate hvalid) (hclause.mapped hsource)
        (hsourced (.reading key own before relation) rfl) hs hlink hstored htarget hread
      constructor
      · intro full s₁ h
        obtain ⟨short, s₂, hplanned, hdrops⟩ := hshort full s₁ h
        exact ⟨short, s₂, hplanned, .inr ⟨hkey, hdrops⟩⟩
      · intro short s₁ h
        obtain ⟨full, s₂, hplanned, hdrops⟩ := hfull short s₁ h
        exact ⟨full, s₂, hplanned, .inr ⟨hkey, hdrops⟩⟩
    · -- Without a shortcut the two plans are one.
      rw [shortcut_of_not_readsRelatedKey hkey]
      have hagain {f : Field} {s₁ : Session}
          (h : planned schema (.ok (.reading key own members last)) s = (.ok f, s₁)) :
          ∃ s₂, planned schema (.ok (.reading key own members last)) s₁ = (.ok f, s₂) := by
        obtain ⟨s₂, hplanned, -⟩ :=
          planned_again (fun p hp => hsourced p (by cases hp; rfl)) hs h (.refl _)
        exact ⟨s₂, hplanned⟩
      constructor
      · intro full s₁ h
        obtain ⟨s₂, hplanned⟩ := hagain h
        exact ⟨full, s₂, hplanned, .inl ⟨hkey, rfl⟩⟩
      · intro short s₁ h
        obtain ⟨s₂, hplanned⟩ := hagain h
        exact ⟨short, s₂, hplanned, .inl ⟨hkey, rfl⟩⟩

/-- The details of students. -/
def detailRange : RangeClause where
  identifier := { name := "sd", type := "StudentDetail" }
  kind := .main (.table "StudentDetails" "StudentDetail")

/-- The primary key of the sector that a student's detail belongs to. -/
def sectorKey : Expr :=
  .member
    (.member (.parameter detailRange.identifier)
      { declaringType := "StudentDetail", name := "IndustrialSector", type := "IndustrialSector" })
    { declaringType := "IndustrialSector", name := "ID", type := "Int32" }

theorem shortcut_reads_equated_column_sectorKey :
    ∃ full s₁ short s₂,
      (resolveAt .school { query := 0, index := 0 } detailRange sectorKey .select).exec (.new "j")
          = (.ok full, s₁)
        ∧ (resolveAt .school { query := 0, index := 0 } detailRange sectorKey .filter).exec s₁
          = (.ok short, s₂)
        ∧ full.DropsJoin short := by
  obtain ⟨full, s₁, hfull⟩ : ∃ full s₁,
      (resolveAt .school { query := 0, index := 0 } detailRange sectorKey .select).exec (.new "j")
        = (.ok full, s₁) := ⟨_, _, rfl⟩
  have hclause : detailRange.OverTable := trivial
  have husage : Usage.filter ≠ .select := nofun
  have hs : (Session.new "j").tables.PathsMade := nofun
  obtain ⟨short, s₂, hshort, hcases⟩ :=
    (shortcut_reads_equated_column rfl hclause rfl rfl husage hs).1 full s₁ hfull
  rcases hcases with ⟨hnot, -⟩ | ⟨-, hdrops⟩
  · exact absurd ⟨_, _, _, rfl, rfl, rfl, rfl, rfl⟩ hnot
  · exact ⟨full, s₁, short, s₂, hfull, hshort, hdrops⟩

end QueryChain
