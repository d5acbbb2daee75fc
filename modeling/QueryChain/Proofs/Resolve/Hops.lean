import QueryChain.Proofs.Expr.Substitution
import QueryChain.Proofs.Resolve.Order
import QueryChain.Proofs.Resolve.Shortcut

/-!
# One join for each relation

The relations that are followed for a reference are its members up to some point. The path of a
resolved field has one join for each of them, in their order, and every join leaves the very table
that the join before it enters (`LeadsAlong`). Tables are shared with earlier references, resolved
and refused ones; what makes the path right in any session is that each table kept there has the
name that its relation asks for (`JoinedTables.Orderly`).

* `memberAccess_ok` and `shortcut_joins` say which members are followed;
* `follow_leadsAlong` follows them step by step;
* `one_join_per_hop` puts this together for clauses that range over the elements of a table.
-/

namespace QueryChain

/-! ## The members that are followed -/

section

variable {schema : Schema} {usage : Usage} {own : Source} {type : String} {members : List Member}
  {access : Access}

theorem relationAccess_ok {joins : List Member} {relation : Member}
    (h : usage.relationAccess schema joins relation = .ok access) :
    usage ≠ .ordering ∧ access.joins = joins ++ [relation] := by
  cases usage with
  | select | binding =>
    cases h
    exact ⟨by simp, rfl⟩
  | filter =>
    simp only [Usage.relationAccess] at h
    split at h
    · cases h
    · obtain ⟨_, -, ⟨⟩⟩ := bind_eq_ok.1 h
      exact ⟨by simp, rfl⟩
  | ordering => cases h

/-- A last member that is a relation is followed, and any other one is read. -/
theorem memberAccess_ok (h : memberAccess schema usage own type members = .ok access) :
    (members = [] ∧ access.joins = [])
      ∨ ∃ before last, members = before ++ [last]
        ∧ (schema.isRelation last ∧ usage ≠ .ordering ∧ access.joins = members
          ∨ schema.isRelation last = false
            ∧ access = { joins := before, member := some last }) := by
  rcases List.eq_nil_or_concat' members with rfl | ⟨before, last, rfl⟩
  · refine .inl ⟨rfl, ?_⟩
    simp only [memberAccess, List.getLast?_nil] at h
    split at h
    · cases usage with
      | select | binding => cases h; rfl
      | filter | ordering => obtain ⟨_, -, ⟨⟩⟩ := bind_eq_ok.1 h; rfl
    · cases h
      rfl
  · refine .inr ⟨before, last, rfl, ?_⟩
    simp only [memberAccess, List.getLast?_concat, List.dropLast_concat] at h
    split at h
    · rename_i hlast
      exact .inl ⟨hlast, relationAccess_ok h⟩
    · rename_i hlast
      cases h
      exact .inr ⟨by simpa using hlast, rfl⟩

/-- A shortcut leaves out the last relation at most. -/
theorem shortcut_joins (usage : Usage) (schema : Schema) (access : Access) :
    (usage.shortcut schema access).joins = access.joins
      ∨ ∃ relation, schema.isRelation relation
        ∧ access.joins = (usage.shortcut schema access).joins ++ [relation] := by
  unfold Usage.shortcut
  split
  · rename_i relation _ hrelation
    obtain ⟨before, hjoins⟩ := List.getLast?_eq_some_iff.1 hrelation
    split
    · exact .inl rfl
    · rename_i link hlink
      split
      · exact .inl rfl
      · split
        · refine .inr ⟨relation, by simp [Schema.isRelation, hlink], ?_⟩
          simp [hjoins]
        · exact .inl rfl
  · exact .inl rfl

/-- The relations that are followed are the first members of a reference. -/
theorem hops_initial (h : memberAccess schema usage own type members = .ok access) :
    (usage.shortcut schema access).joins <+: members := by
  have haccess : access.joins <+: members := by
    rcases memberAccess_ok h with ⟨rfl, hjoins⟩ | ⟨before, last, rfl, ⟨-, -, hjoins⟩ | ⟨-, rfl⟩⟩
    · simp [hjoins]
    · simp [hjoins]
    · exact List.prefix_append _ _
  rcases shortcut_joins usage schema access with hjoins | ⟨relation, -, hjoins⟩
  · rwa [hjoins]
  · rw [hjoins] at haccess
    exact (List.prefix_append _ _).trans haccess

/-- No obstacle is removed with a last member, whether that is read or left out as a relation. -/
theorem obstacle?_hops (h : memberAccess schema usage own type members = .ok access) :
    schema.obstacle? (usage.shortcut schema access).joins = schema.obstacle? members.dropLast := by
  have hconcat {before : List Member} {relation : Member} (hrelation : schema.isRelation relation) :
      schema.obstacle? (before ++ [relation]) = schema.obstacle? before := by
    simp [Schema.obstacle?, hrelation]
  have haccess : schema.obstacle? access.joins = schema.obstacle? members.dropLast := by
    rcases memberAccess_ok h with ⟨rfl, hjoins⟩ | ⟨before, last, rfl, ⟨hlast, -, hjoins⟩ | ⟨-, rfl⟩⟩
    · simp [hjoins]
    · rw [hjoins, hconcat hlast, List.dropLast_concat]
    · rw [List.dropLast_concat]
  rcases shortcut_joins usage schema access with hjoins | ⟨relation, hrelation, hjoins⟩
  · rw [hjoins, haccess]
  · rw [← haccess, hjoins, hconcat hrelation]

/-- In a select clause all relations among the members are followed, if no other member stands
before the last one. -/
theorem length_hops_select (h : memberAccess schema .select own type members = .ok access)
    (hobstacle : schema.obstacle? members.dropLast = none) :
    (Usage.select.shortcut schema access).joins.length = members.countP schema.isRelation := by
  have hall {ms : List Member} (hms : schema.obstacle? ms = none) :
      ms.countP schema.isRelation = ms.length := by
    rw [List.countP_eq_length]
    simpa [Schema.obstacle?] using hms
  rw [shortcut_select]
  rcases memberAccess_ok h with ⟨rfl, hjoins⟩ | ⟨before, last, rfl, hcases⟩
  · simp [hjoins]
  · rw [List.dropLast_concat] at hobstacle
    rcases hcases with ⟨hlast, -, hjoins⟩ | ⟨hlast, rfl⟩
    · simp [hjoins, hall hobstacle, hlast]
    · simp [hall hobstacle, hlast]

end

/-! ## Following them -/

/-- The joins lead from the table `own` along relations, one for each. A join leaves the table that
the join before it enters. That is the table of the type that declares the relation, and the table
and the columns on the other side are those that the relation asks for. -/
inductive LeadsAlong (schema : Schema) (ts : JoinedTables) :
    Table → List Member → List Join → Prop where
  | nil {own : Table} : LeadsAlong schema ts own [] []
  | cons {own target : Table} {hop : Member} {link : Link} {hops : List Member}
    {joins : List Join} :
    schema.table? hop.declaringType = some (ts.name own) → schema.link? hop = some link →
      ts.name target = link.targetTable → LeadsAlong schema ts target hops joins →
      LeadsAlong schema ts own (hop :: hops)
        ({ left := { source := .table own, name := some link.leftColumn }
           right := { source := .table target, name := some link.rightColumn } } :: joins)

/-- The first member is declared by the type `type`, and each other one by the type that the
relation before it leads to. -/
def DeclaredAlong (schema : Schema) : String → List Member → Prop
  | _, [] => True
  | type, m :: members => m.declaringType = type
    ∧ ∀ link, schema.link? m = some link → DeclaredAlong schema link.targetType members

theorem DeclaredAlong.initial {schema : Schema} {type : String} {members members' : List Member}
    (h : DeclaredAlong schema type members') (hinitial : members <+: members') :
    DeclaredAlong schema type members := by
  induction members generalizing type members' with
  | nil => trivial
  | cons m members ih =>
    obtain ⟨rest, rfl⟩ := hinitial
    exact ⟨h.1, fun link hlink => ih (h.2 link hlink) (List.prefix_append _ _)⟩

theorem LeadsAlong.length_eq {schema : Schema} {ts : JoinedTables} {own : Table}
    {hops : List Member} {joins : List Join} (h : LeadsAlong schema ts own hops joins) :
    joins.length = hops.length := by
  induction h with
  | nil => rfl
  | cons _ _ _ _ ih => simp [ih]

namespace JoinedTables

variable {schema : Schema} {ts : JoinedTables} {path : JoinPath} {relation : Member}
  {relations : List Member} {link : Link}

/-- The table that a relation leads to has the name that the relation asks for, whether it was made
for the relation or is an old one. -/
theorem Orderly.join_name (h : ts.Orderly schema) (hlink : schema.link? relation = some link) :
    (ts.join path relation link.targetTable).2.name (ts.join path relation link.targetTable).1
      = link.targetTable := by
  rcases join_cases ts path relation link.targetTable with ⟨index, hindex, heq⟩ | ⟨-, heq⟩
  · obtain ⟨t, ht, hrelation, -⟩ := indexOf?_eq_some_iff.1 hindex
    obtain ⟨link', hlink', hname⟩ := h.linked t (List.mem_of_getElem? ht)
    rw [Schema.link?_of_same hrelation, hlink] at hlink'
    cases hlink'
    simp [heq, name, ht, hname]
  · simp [heq, name]

/-- Following relations from a table adds joins that lead along them. -/
theorem follow_leadsAlong {own : Table} {type : String} (h : ts.Orderly schema)
    (hmade : path.Made ts) (hrouted : path.Routed) (hlast : path.last = .table own)
    (hown : schema.table? type = some (ts.name own))
    (hobstacle : schema.obstacle? relations = none)
    (hdeclared : DeclaredAlong schema type relations) :
    ∃ joins, (ts.follow schema path relations).1.joins = path.joins ++ joins
      ∧ LeadsAlong schema (ts.follow schema path relations).2 own relations joins := by
  induction relations generalizing ts path own type with
  | nil => exact ⟨[], by simp [follow], .nil⟩
  | cons relation relations ih =>
    cases hlink : schema.link? relation with
    | none => simp [obstacle?_of_no_link hlink] at hobstacle
    | some link =>
      obtain ⟨rfl, hdeclared⟩ := hdeclared
      have hdeclared := hdeclared link hlink
      rw [obstacle?_of_link hlink] at hobstacle
      let made := ts.join path relation link.targetTable
      obtain ⟨_, _, target, -, -, htarget, htype, htable, -⟩ := Schema.link?_eq_some hlink
      have hname : made.2.name made.1 = link.targetTable := h.join_name hlink
      have hnext : schema.table? link.targetType = some (made.2.name made.1) := by
        rw [hname, htable, htype, Schema.table?, htarget]
        rfl
      obtain ⟨joins, hjoins, hleads⟩ := ih (h.join hmade hrouted hlink) (hmade.extend relation link)
        (join_routed hrouted relation link) (last_extend path link made.1) hnext hobstacle hdeclared
      rw [follow_of_link hlink]
      refine ⟨_ :: joins, hjoins.trans (List.append_assoc _ _ _), ?_⟩
      rw [hlast]
      -- Tables that are made later change no name.
      have hext := follow_extends schema made.2 (path.extend link made.1) relations
      have hfrom : (Source.table own).Made ts := hlast ▸ hmade.last
      have hto : (Source.table made.1).Made made.2 := by
        obtain ⟨index, htable, -, hindex⟩ := join_made ts path relation link.targetTable
        simpa [made, htable, Source.Made] using hindex
      refine .cons ?_ hlink ?_ hleads
      · rw [hown, (((join_extends ts path relation link.targetTable).trans hext).table_eq hfrom).1]
      · rw [(hext.table_eq hto).1, hname]

end JoinedTables

/-! ## Sessions with one schema -/

/-- Sessions in which one schema is used: any references are resolved against any clauses of any
queries, with and without success, and tables are named at any time. -/
inductive Session.Uses (schema : Schema) : Session → Prop where
  | new (aliasPrefix : String) : Uses schema (.new aliasPrefix)
  | inQuery {s : Session} (root q : Query) (e : Expr) (usage : Usage) :
    Uses schema s → Uses schema ((resolve schema root q e usage).exec s).2
  | atClause {s : Session} (key : ClauseKey) (clause : RangeClause) (e : Expr) (usage : Usage) :
    Uses schema s → Uses schema ((resolveAt schema key clause e usage).exec s).2
  | named {s : Session} (q : Query) :
    Uses schema s → Uses schema { s with tables := s.tables.finalize q }

theorem planned_orderly {schema : Schema} {plan : Except ResolveError Plan} {s : Session}
    (hsourced : ∀ p, plan = .ok p → p.Sourced schema) (h : s.tables.Orderly schema) :
    (planned schema plan s).2.tables.Orderly schema := by
  cases plan with
  | error error => exact h
  | ok p =>
    have hp := hsourced p rfl
    rw [planned, outcome_tables]
    exact h.follow (hp.made_start s.tables) (.start hp.not_joined)

theorem Session.Uses.orderly {schema : Schema} {s : Session} (h : s.Uses schema) :
    s.tables.Orderly schema := by
  induction h with
  | new aliasPrefix => exact JoinedTables.orderly_new schema aliasPrefix
  | inQuery root q e usage _ ih =>
    rw [exec_resolve]
    exact planned_orderly (fun _ hplan => .of_planIn hplan) ih
  | atClause key clause e usage _ ih =>
    rw [exec_resolveAt]
    exact planned_orderly (fun _ hplan => .of_planAt hplan) ih
  | named q _ ih => exact ih.finalize q

/-! ## The path of a field -/

/-- A clause that ranges over the elements of the chain's source or of a collection. -/
def RangeClause.Ranges (clause : RangeClause) : Prop :=
  match clause.kind with
  | .main _ | .additional _ _ => True
  | .nested _ _ | .binding _ _ => False

theorem RangeClause.Ranges.source {schema : Schema} {key : ClauseKey} {clause : RangeClause}
    {own : Source} (h : clause.Ranges) (hsource : clause.source schema key = .ok own) :
    ∃ table, schema.table? clause.identifier.type = some table
      ∧ own = .table (.ofClause key table clause.identifier.name) := by
  unfold Ranges at h
  unfold RangeClause.source at hsource
  cases hkind : clause.kind with
  | main | additional =>
    simp only [hkind] at hsource
    split at hsource
    · rename_i table htable
      cases hsource
      exact ⟨table, htable, rfl⟩
    · cases hsource
  | nested | binding => simp [hkind] at h

theorem column?_source {a : Source} {schema : Schema} {member : Option Member} {c : Column}
    (h : a.column? schema member = some c) : c.source = a := by
  unfold Source.column? at h
  split at h
  · cases h
    rfl
  · split at h
    · cases h
      rfl
    · cases h
      rfl
    · obtain ⟨_, -, rfl⟩ := Option.map_eq_some_iff.1 h
      rfl

/-- A resolved field of a clause that ranges over the elements of a table has one join for each
relation that is followed, in their order, from the clause's own table on, and its column lies at
the end of them. In a select clause as many are followed as there are relations in the reference. -/
theorem one_join_per_hop {schema : Schema} {s s' : Session} {key : ClauseKey} {clause : RangeClause}
    {e : Expr} {usage : Usage} {members : List Member} {f : Field} (hs : s.Uses schema)
    (hclause : clause.Ranges)
    (href : e.reference = .ok { root := clause.identifier, members })
    (hdeclared : DeclaredAlong schema clause.identifier.type members)
    (h : (resolveAt schema key clause e usage).exec s = (.ok f, s')) :
    ∃ own access, clause.source schema key = .ok (.table own) ∧ f.path.first = .table own
      ∧ memberAccess schema usage (.table own) clause.identifier.type members = .ok access
      ∧ LeadsAlong schema s'.tables own (usage.shortcut schema access).joins f.path.joins
      ∧ f.path.joins.length = (usage.shortcut schema access).joins.length
      ∧ (∀ c, f.column = some c → c.source = f.path.last)
      ∧ (usage = .select → f.path.joins.length = members.countP schema.isRelation) := by
  rw [exec_resolveAt] at h
  obtain ⟨p, hplan, hobstacle, rfl, htables, -⟩ := planned_ok h
  have hsourced : p.Sourced schema := .of_planAt hplan
  rw [planAt, href] at hplan
  obtain ⟨-, -, hsource, access, haccess, hp⟩ := planReference_ok hplan
  obtain ⟨table, htable, hown⟩ := hclause.source hsource
  let own : Table := .ofClause key table clause.identifier.name
  rw [hown] at haccess hsource
  rw [hp] at hobstacle
  have hlast : p.start.last = .table own := hown
  obtain ⟨joins, hjoins, hleads⟩ := JoinedTables.follow_leadsAlong hs.orderly
    (hsourced.made_start s.tables) (.start hsourced.not_joined) hlast htable hobstacle
    (hdeclared.initial (hops_initial haccess))
  have hleads : LeadsAlong schema s'.tables own (usage.shortcut schema access).joins
      (p.field schema (s.tables.follow schema p.start p.access.joins).1).path.joins := by
    rw [htables, hp]
    exact hjoins ▸ hleads
  refine ⟨own, access, hsource, ?_, haccess, hleads, hleads.length_eq, fun c => column?_source, ?_⟩
  · exact (JoinedTables.follow_first _ _ _ _).trans hown
  · rintro rfl
    rw [obstacle?_hops haccess] at hobstacle
    rw [hleads.length_eq, length_hops_select haccess hobstacle]

/-- The students. -/
def studentRange : RangeClause where
  identifier := { name := "s", type := "Student" }
  kind := .main (.table "Students" "Student")

/-- The details of a student. -/
def detailsMember : Member :=
  { declaringType := "Student", name := "Details", type := "IEnumerable<StudentDetail>" }

/-- The subject of a student's details. -/
def subjectMember : Member :=
  { declaringType := "StudentDetail", name := "Subject", type := "String" }

/-- The sector of a student's details. -/
def sectorMember : Member :=
  { declaringType := "StudentDetail", name := "IndustrialSector", type := "IndustrialSector" }

/-- A reference to the name of a sector is refused when it is read from a subject. Its table is
shared when the name is read from the sector itself. -/
theorem one_join_per_hop_sectorName :
    let key : ClauseKey := { query := 0, index := 0 }
    let name : Member := { declaringType := "IndustrialSector", name := "Name", type := "String" }
    let refused := Expr.read studentRange.identifier [detailsMember, subjectMember, name]
    let sectorName := Expr.read studentRange.identifier [detailsMember, sectorMember, name]
    let s := ((resolveAt .school key studentRange refused .select).exec (.new "j")).2
    s.tables.tables.length = 1 ∧ ∃ f s' own,
      (resolveAt .school key studentRange sectorName .select).exec s = (.ok f, s')
        ∧ LeadsAlong .school s'.tables own [detailsMember, sectorMember] f.path.joins
        ∧ f.path.joins.length = 2 := by
  intro key name refused sectorName s
  obtain ⟨f, s', h⟩ : ∃ f s',
      (resolveAt .school key studentRange sectorName .select).exec s = (.ok f, s') := ⟨_, _, rfl⟩
  have hclause : studentRange.Ranges := trivial
  have hs : s.Uses .school := .atClause key studentRange refused .select (.new "j")
  have hdeclared : DeclaredAlong .school "Student" [detailsMember, sectorMember, name] :=
    ⟨rfl, by rintro _ ⟨⟩; exact ⟨rfl, by rintro _ ⟨⟩; exact ⟨rfl, nofun⟩⟩⟩
  obtain ⟨own, access, -, -, haccess, hleads, -, -, hlength⟩ :=
    one_join_per_hop hs hclause rfl hdeclared h
  cases haccess
  exact ⟨rfl, f, s', own, h, hleads, hlength rfl⟩

end QueryChain
