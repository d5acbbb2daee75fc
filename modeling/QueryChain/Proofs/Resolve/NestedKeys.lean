import QueryChain.Proofs.Resolve.EntityKeys

/-!
# Keys of values that no table stores

The elements of a nested query, and what a let binds to an expression, are not stored in a table.
Their columns are named after members, and so are the keys that are read from them. A join along a
relation leaves such a value by a key of it, too, but it is built as if the value stood in the table
of its type: its left column has the name that the schema maps the key to.

`joins_by_read_key_iff` says when the two names are one. It takes a schema that maps the key to a
column of the key's own name.
-/

namespace QueryChain

/-- The member `key` of a value holds what a join along the relation compares: the relation itself
does if it is stored with the value, and otherwise the primary key of the value does. -/
def Schema.HoldsKey (s : Schema) (relation : Member) (link : Link) (key : Member) : Prop :=
  if link.isVirtual then s.primaryKey? relation.declaringType = some key else key = relation

namespace RangeClause

/-- In a filter, the member `m` of the clause's variable is read from `column`, in every session.
Nothing is joined for it, and the session is left as it is. -/
def ReadsFrom (schema : Schema) (key : ClauseKey) (clause : RangeClause) (m : Member)
    (column : Column) : Prop :=
  ∀ s : Session, ∃ f, (resolveAt schema key clause (.read clause.identifier [m]) .filter).exec s
    = (.ok f, s) ∧ f.path.joins = [] ∧ f.column = some column

/-- Joins along the relation `relation` of the clause's variable leave it by `column`. -/
structure JoinsBy (schema : Schema) (key : ClauseKey) (clause : RangeClause) (relation : Member)
    (column : Column) : Prop where
  left : ∀ (members : List Member) (usage : Usage) (s s' : Session) (f : Field) (j : Join),
    (resolveAt schema key clause (.read clause.identifier (relation :: members)) usage).exec s
      = (.ok f, s') → f.path.joins.head? = some j → j.left = column
  joined : ∀ s : Session, ∃ f s' j,
    (resolveAt schema key clause (.read clause.identifier [relation]) .select).exec s
      = (.ok f, s') ∧ f.path.joins = [j]

end RangeClause

section

variable {schema : Schema} {key : ClauseKey} {clause : RangeClause} {own : Source}
  {relation k : Member} {link : Link}

/-! ## Values without a table -/

theorem RangeClause.source_of_not_overTable (h : ¬clause.OverTable) (key : ClauseKey) :
    ∃ own, clause.source schema key = .ok own ∧ ¬own.Mapped := by
  unfold RangeClause.OverTable at h
  unfold RangeClause.source
  cases hkind : clause.kind with
  | main | additional => simp [hkind] at h
  | nested query projection => exact ⟨_, rfl, id⟩
  | binding value projection =>
    rw [hkind] at h
    exact ⟨_, rfl, h⟩

/-- Columns of a value without a table are named after members. -/
theorem Source.column?_of_not_mapped (h : ¬own.Mapped) (m : Member) :
    own.column? schema (some m) = some { source := own, name := some m.name } := by
  cases own with
  | table => exact absurd trivial h
  | nested => rfl
  | binding key aliasName isTable =>
    obtain rfl : isTable = false := by simpa [Source.Mapped] using h
    rfl

/-! ## Reading a key -/

/-- The member is planned to be read from the variable itself. -/
theorem readsFrom_of_plan
    (h : planAt schema key clause (.read clause.identifier [k]) .filter
      = .ok (.reading key own [] k))
    (hown : ¬own.Mapped) :
    clause.ReadsFrom schema key k { source := own, name := some k.name } := by
  intro s
  rw [exec_resolveAt, h]
  exact ⟨_, rfl, rfl, Source.column?_of_not_mapped hown k⟩

/-- A stored relation is read in place of the primary key that it stands for. -/
theorem planAt_stored (hlink : schema.link? relation = some link)
    (hstored : link.isVirtual = false) (hsource : clause.source schema key = .ok own) :
    planAt schema key clause (.read clause.identifier [relation]) .filter
      = .ok (.reading key own [] relation) := by
  obtain ⟨_, _, target, -, -, htarget, htype, -⟩ := Schema.link?_eq_some hlink
  obtain ⟨pk, hpk⟩ : ∃ pk, schema.primaryKey? link.targetType = some pk := by
    simp [Schema.primaryKey?, htype, htarget]
  have haccess := memberAccess_relation hlink hpk own clause.identifier.type []
  refine (planAt_eq_ok_iff (reference_read _ _)).2 ⟨own, _, hsource, haccess, ?_⟩
  rw [shortcut_of_key (by decide) hlink hstored hpk (Member.same_iff.2 ⟨rfl, rfl⟩)]
  rfl

theorem planAt_key (hvalid : schema.Valid) {type : String}
    (hk : schema.primaryKey? type = some k) (hsource : clause.source schema key = .ok own) :
    planAt schema key clause (.read clause.identifier [k]) .filter
      = .ok (.reading key own [] k) := by
  have hrelation := hvalid.key_not_relation hk (Member.same_iff.2 ⟨rfl, rfl⟩)
  have href : (Expr.read clause.identifier [k]).reference
      = .ok { root := clause.identifier, members := [] ++ [k] } := reference_read _ _
  rw [planAt_of_column href hrelation hsource, shortcut_of_not_readsRelatedKey]
  · rfl
  · rintro ⟨_, _, _, hlast, -⟩
    cases hlast

/-! ## Joining by a key -/

/-- Whatever is followed behind it, the first relation makes the first join. -/
theorem head?_follow (ts : JoinedTables) (own : Source) (hlink : schema.link? relation = some link)
    (relations : List Member) :
    ∃ j, (ts.follow schema { first := own, joins := [] } (relation :: relations)).1.joins.head?
        = some j
      ∧ j.left = { source := own, name := some link.leftColumn } := by
  rw [follow_of_link hlink]
  let made := ts.join { first := own, joins := [] } relation link.targetTable
  obtain ⟨rest, hrest⟩ := JoinedTables.follow_prefix schema made.2
    (JoinPath.extend { first := own, joins := [] } link made.1) relations
  rw [← hrest]
  exact ⟨_, rfl, rfl⟩

theorem joinsBy_leftColumn (hlink : schema.link? relation = some link)
    (hsource : clause.source schema key = .ok own) :
    clause.JoinsBy schema key relation { source := own, name := some link.leftColumn } := by
  constructor
  · intro members usage s s' f j h hhead
    rw [exec_resolveAt] at h
    obtain ⟨p, hplan, -, rfl, -⟩ := planned_ok h
    obtain ⟨own', access, hsource', haccess, rfl⟩ :=
      (planAt_eq_ok_iff (reference_read _ _)).1 hplan
    obtain rfl := Except.ok.inj (hsource.symm.trans hsource')
    -- The relations that are followed are the first of the members.
    obtain ⟨rest, hhops⟩ := hops_initial haccess
    cases hjoins : (usage.shortcut schema access).joins with
    | nil =>
      simp only [Plan.field, hjoins] at hhead
      cases hhead
    | cons first relations =>
      rw [hjoins] at hhops
      obtain ⟨rfl, -⟩ := List.cons.inj hhops
      obtain ⟨j', hj', hleft⟩ := head?_follow s.tables own hlink relations
      simp only [Plan.field, hjoins] at hhead
      obtain rfl := Option.some.inj (hhead.symm.trans hj')
      exact hleft
  · intro s
    have haccess : memberAccess schema .select own clause.identifier.type [relation]
        = .ok { joins := [relation], member := none } := by
      simp [memberAccess, Schema.isRelation, hlink, Usage.relationAccess]
    let plan : Plan := { key, source := own, access := { joins := [relation], member := none } }
    have hplan : planAt schema key clause (.read clause.identifier [relation]) .select = .ok plan :=
      (planAt_eq_ok_iff (reference_read _ _)).2
        ⟨own, _, hsource, haccess, by rw [shortcut_select]⟩
    have hobstacle : schema.obstacle? plan.access.joins = none := obstacle?_of_link hlink
    obtain ⟨s', hplanned, -⟩ := planned_of_no_obstacle hobstacle s
    rw [exec_resolveAt, hplan]
    exact ⟨_, s', _, hplanned, by rw [Plan.field, follow_of_link hlink]; rfl⟩

/-! ## The two names -/

/-- A join leaves a table by the column that the schema maps the key to. -/
theorem exists_holdsKey (hvalid : schema.Valid) (hlink : schema.link? relation = some link) :
    ∃ k, schema.HoldsKey relation link k ∧ schema.column? k = some link.leftColumn := by
  have hjoins := hvalid.joins hlink
  cases hvirtual : link.isVirtual with
  | false => exact ⟨relation, by simp [Schema.HoldsKey, hvirtual], (hjoins.stored hvirtual).1⟩
  | true =>
    obtain ⟨-, k, hk, hcolumn⟩ := hjoins.inverse hvirtual
    exact ⟨k, by simp [Schema.HoldsKey, hvirtual, hk], hcolumn⟩

end

/-- In a valid schema, let the variable of a clause stand for elements of a nested query, or for the
value of an expression that is no variable, and let a relation be declared by its type. The key by
which the relation is joined is read from a column with the key's own name, but every join along the
relation leaves by a column with the name that the schema maps the key to. So there are two names
for one value unless the key is mapped to its own name. -/
theorem joins_by_read_key_iff {schema : Schema} (hvalid : schema.validate = .ok ())
    {clause : RangeClause} (hclause : ¬clause.OverTable) {relation : Member} {link : Link}
    (hlink : schema.link? relation = some link) (key : ClauseKey) :
    ∃ own k, clause.source schema key = .ok own ∧ schema.HoldsKey relation link k
      ∧ clause.ReadsFrom schema key k { source := own, name := some k.name }
      ∧ clause.JoinsBy schema key relation { source := own, name := some link.leftColumn }
      ∧ (link.leftColumn = k.name ↔ schema.column? k = some k.name) := by
  have hvalid : schema.Valid := .of_validate hvalid
  obtain ⟨own, hsource, hown⟩ := RangeClause.source_of_not_overTable hclause key
  obtain ⟨k, hholds, hcolumn⟩ := exists_holdsKey hvalid hlink
  have hreads : clause.ReadsFrom schema key k { source := own, name := some k.name } := by
    refine readsFrom_of_plan ?_ hown
    unfold Schema.HoldsKey at hholds
    split at hholds
    · exact planAt_key hvalid hholds hsource
    · rename_i hstored
      subst hholds
      exact planAt_stored hlink (by simpa using hstored) hsource
  refine ⟨own, k, hsource, hholds, hreads, joinsBy_leftColumn hlink hsource, ?_⟩
  rw [hcolumn, Option.some.injEq]

/-- Each student with each detail in maths. -/
def mathsDetails : Expr :=
  let s : Parameter := { name := "s", type := "Student" }
  let d : Parameter := { name := "d", type := "StudentDetail" }
  let maths := Expr.operation .equal (.read d [subjectMember]) (.ofConstant (.string "Maths"))
  Chain.selectMany (.table "Students" "Student")
    (.lambda [s] (Chain.filter (.table "StudentDetails" "StudentDetail") (.lambda [d] maths)))
    (.lambda [s, d] (.parameter d))

/-- In a filter the student of such a detail is read from the column "Student" of the nested query.
A join to the student leaves the nested query by a column that is named after the foreign key. -/
theorem joins_by_read_key_iff_maths :
    let student : Member :=
      { declaringType := "StudentDetail", name := "Student", type := "Student" }
    Schema.school.validate = .ok () ∧ ∃ q clause link,
      parse mathsDetails = .ok q ∧ q.rangeClauses[1]? = some clause ∧ ¬clause.OverTable
        ∧ Schema.school.link? student = some link ∧
        let key : ClauseKey := { query := q.key, index := 1 }
        ∃ own, clause.ReadsFrom .school key student { source := own, name := some "Student" }
          ∧ clause.JoinsBy .school key student { source := own, name := some link.leftColumn }
          ∧ link.leftColumn ≠ "Student" := by
  intro student
  have hvalid : Schema.school.validate = .ok () := rfl
  obtain ⟨q, clause, hparse, hclause, hnested⟩ : ∃ q clause, parse mathsDetails = .ok q
      ∧ q.rangeClauses[1]? = some clause ∧ ¬clause.OverTable := ⟨_, _, rfl, rfl, id⟩
  obtain ⟨link, hlink, hstored⟩ : ∃ link, Schema.school.link? student = some link
      ∧ link.isVirtual = false := ⟨_, rfl, rfl⟩
  refine ⟨hvalid, q, clause, link, hparse, hclause, hnested, hlink, ?_⟩
  intro key
  obtain ⟨own, k, -, hholds, hreads, hjoins, hnames⟩ :=
    joins_by_read_key_iff hvalid hnested hlink key
  rw [Schema.HoldsKey, if_neg (by simp [hstored])] at hholds
  subst hholds
  have hcolumn : Schema.school.column? student ≠ some "Student" := by decide
  exact ⟨own, hreads, hjoins, mt hnames.1 hcolumn⟩

end QueryChain
