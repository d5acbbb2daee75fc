import QueryChain.Proofs.Resolve.Causes
import QueryChain.Proofs.Resolve.Shortcut
import QueryChain.Proofs.Schema.Answers

/-!
# Entities and their keys

To compare an entity is to compare its primary key. A reference to an entity may be spelled with or
without the key, and the two spellings are planned in different ways: one has the key from what the
clause uses it for, the other as a member like any other. Their plans agree all the same, since a
key is never a relation in a valid schema (`Schema.Valid.key_not_relation`) and a shortcut looks at
the key only by type and name (`Usage.shortcut_agrees`). Plans that agree have answers that agree,
in whichever session they are carried out (`planned_agrees`).

* `entity_as_key` puts this together.
-/

namespace QueryChain

/-! ## Agreement -/

/-- Two members are the same, or there is none at all. -/
def SameMember (a b : Option Member) : Prop :=
  Option.Rel (fun m n => m.same n) a b

/-- Two accesses differ at most in the type that their member is spelled with. -/
structure Access.Agrees (a b : Access) : Prop where
  joins : a.joins = b.joins
  member : SameMember a.member b.member

/-- Two fields lie at the end of one path and have one column, and their members differ at most in
the type that they are spelled with. -/
structure Field.Agrees (f g : Field) : Prop where
  path : f.path = g.path
  column : f.column = g.column
  member : SameMember f.member g.member

/-- Two results agree in the sense of `agree`, or are refusals for one reason. -/
inductive SameResult {α : Type} (agree : α → α → Prop) :
    Except ResolveError α → Except ResolveError α → Prop where
  | ok {a b : α} : agree a b → SameResult agree (.ok a) (.ok b)
  | error (error : ResolveError) : SameResult agree (.error error) (.error error)

/-- Two plans ask for one thing. -/
structure Plan.Agrees (p q : Plan) : Prop where
  key : p.key = q.key
  source : p.source = q.source
  access : p.access.Agrees q.access

section

variable {schema : Schema} {usage : Usage}

theorem Schema.column?_of_same {m n : Member} (h : m.same n) :
    schema.column? m = schema.column? n := by
  obtain ⟨htype, hname⟩ := Member.same_iff.1 h
  simp only [column?, htype, hname]

theorem Source.column?_of_same (source : Source) {a b : Option Member} (h : SameMember a b) :
    source.column? schema a = source.column? schema b := by
  cases h with
  | none => rfl
  | @some m n h =>
    have hname := (Member.same_iff.1 h).2
    have hcolumn : schema.column? m = schema.column? n := Schema.column?_of_same h
    unfold Source.column?
    split <;> simp_all

theorem Plan.Agrees.field {p q : Plan} (h : p.Agrees q) (path : JoinPath) :
    (p.field schema path).Agrees (q.field schema path) where
  path := rfl
  column := Source.column?_of_same _ h.access.member
  member := h.access.member

/-- A shortcut is taken for both of two accesses that agree, or for none. -/
theorem Usage.shortcut_agrees {a b : Access} (h : a.Agrees b) :
    (usage.shortcut schema a).Agrees (usage.shortcut schema b) := by
  obtain ⟨joins, m⟩ := a
  obtain ⟨joins', n⟩ := b
  obtain ⟨rfl, hmember⟩ := h
  cases hmember with
  | none => exact ⟨rfl, .none⟩
  | @some m n hsame =>
    have hread (key : Member) : key.same m = key.same n :=
      Bool.eq_iff_iff.2 ⟨fun h => Member.same_trans h hsame,
        fun h => Member.same_trans h (Member.same_symm hsame)⟩
    have hkept : Access.Agrees { joins, member := some m } { joins, member := some n } :=
      ⟨rfl, .some hsame⟩
    cases hlast : joins.getLast? with
    | none => simpa [shortcut, hlast] using hkept
    | some relation =>
      cases hlink : schema.link? relation with
      | none => simpa [shortcut, hlast, hlink] using hkept
      | some link =>
        cases hkey : schema.primaryKey? link.targetType with
        | none => simpa [shortcut, hlast, hlink, hkey] using hkept
        | some key =>
          simp only [shortcut, hlast, hlink, hkey, hread]
          split
          · exact ⟨rfl, .some (Member.same_iff.2 ⟨rfl, rfl⟩)⟩
          · exact hkept

/-! ## Plans that agree -/

variable {key : ClauseKey} {clause : RangeClause} {e e' : Expr} {root : Parameter}
  {members members' : List Member} {plan plan' : Except ResolveError Plan} {s : Session}

/-- References to one variable are planned alike for a clause if what they read from it is. -/
theorem planAt_agrees (href : e.reference = .ok { root, members })
    (href' : e'.reference = .ok { root, members := members' })
    (haccess : ∀ own, root = clause.identifier → clause.source schema key = .ok own →
      SameResult Access.Agrees
        (memberAccess schema usage own clause.identifier.type members)
        (memberAccess schema usage own clause.identifier.type members')) :
    SameResult Plan.Agrees (planAt schema key clause e usage)
      (planAt schema key clause e' usage) := by
  simp only [planAt, href, href', planReference, Bind.bind, Except.bind, pure, Except.pure]
  by_cases hroot : root = clause.identifier
  · simp only [if_pos hroot]
    cases hsource : clause.source schema key with
    | error error => exact .error error
    | ok own =>
      have hresult := haccess own hroot hsource
      dsimp only
      generalize memberAccess schema usage own clause.identifier.type members = result
        at hresult ⊢
      generalize memberAccess schema usage own clause.identifier.type members' = result'
        at hresult ⊢
      cases hresult with
      | error error => exact .error error
      | ok hagrees => exact .ok ⟨rfl, rfl, Usage.shortcut_agrees hagrees⟩
  · simp only [if_neg hroot]
    exact .error _

/-- Plans that agree have answers that agree, and make the same of a session. -/
theorem planned_agrees (schema : Schema) (h : SameResult Plan.Agrees plan plan') (s : Session) :
    SameResult Field.Agrees (planned schema plan s).1 (planned schema plan' s).1
      ∧ (planned schema plan' s).2 = (planned schema plan s).2 := by
  cases h with
  | error error => exact ⟨.error error, rfl⟩
  | @ok p q h =>
    have hstart : p.start = q.start := by rw [Plan.start, Plan.start, h.source]
    simp only [planned, Plan.outcome, hstart, h.access.joins, h.key]
    split
    · exact ⟨.ok (h.field _), rfl⟩
    · exact ⟨.error _, rfl⟩

/-! ## Keys -/

theorem primaryKey_of_some {type : String} {pk : Member} (hpk : schema.primaryKey? type = some pk) :
    schema.primaryKey type = .ok pk := by
  rw [Schema.primaryKey, hpk]

/-- In a filter, a relation at the end of a reference means the key of what it leads to. -/
theorem memberAccess_relation {relation pk : Member} {link : Link}
    (hlink : schema.link? relation = some link)
    (hpk : schema.primaryKey? link.targetType = some pk) (own : Source) (type : String)
    (before : List Member) :
    memberAccess schema .filter own type (before ++ [relation])
      = .ok { joins := before ++ [relation], member := some pk } := by
  have hrelation : schema.isRelation relation = true := by rw [Schema.isRelation, hlink]; rfl
  simp only [memberAccess, List.getLast?_concat, List.dropLast_concat, hrelation, if_true,
    Usage.relationAccess, hlink, primaryKey_of_some hpk]
  rfl

theorem memberAccess_relation_agrees (hvalid : schema.Valid) {relation pk k : Member} {link : Link}
    (hlink : schema.link? relation = some link)
    (hpk : schema.primaryKey? link.targetType = some pk) (hk : pk.same k) (own : Source)
    (type : String) (before : List Member) :
    SameResult Access.Agrees (memberAccess schema .filter own type (before ++ [relation]))
      (memberAccess schema .filter own type (before ++ [relation] ++ [k])) := by
  rw [memberAccess_relation hlink hpk, memberAccess_of_column (hvalid.key_not_relation hpk hk)]
  exact .ok ⟨rfl, .some hk⟩

/-- Where keys are read, a range variable that stands for an entity means its key. -/
theorem memberAccess_nil_of_entity {type : String} {pk : Member} (husage : usage.readsKeys)
    (hpk : schema.primaryKey? type = some pk) {own : Source} (hentity : own.isEntity schema type) :
    memberAccess schema usage own type [] = .ok { joins := [], member := some pk } := by
  simp only [memberAccess, List.getLast?_nil, hentity, if_true]
  cases usage with
  | select | binding => cases husage
  | filter | ordering =>
    rw [Usage.directAccess, primaryKey_of_some hpk]
    rfl

/-- The variable of the clause stands for an entity: its type has a table, and if the clause is a
let, it binds another range variable. -/
structure RangeClause.OverEntity (schema : Schema) (clause : RangeClause) : Prop where
  mapped : (schema.table? clause.identifier.type).isSome
  bound : ∀ value projection, clause.kind = .binding value projection → ∃ p, value = .parameter p

theorem RangeClause.OverEntity.source (h : clause.OverEntity schema) (key : ClauseKey) :
    ∃ own, clause.source schema key = .ok own := by
  cases hsource : clause.source schema key with
  | ok own => exact ⟨own, rfl⟩
  | error error =>
    have hunmapped := (source_eq_error_iff.1 hsource).1.2
    simpa [hunmapped] using h.mapped

theorem RangeClause.OverEntity.isEntity (h : clause.OverEntity schema) {own : Source}
    (hsource : clause.source schema key = .ok own) :
    own.isEntity schema clause.identifier.type := by
  have hmapped := h.mapped
  unfold RangeClause.source at hsource
  cases hkind : clause.kind with
  | main | additional =>
    simp only [hkind] at hsource
    split at hsource
    · cases hsource
      exact hmapped
    · cases hsource
  | nested =>
    simp only [hkind, Except.ok.injEq] at hsource
    subst hsource
    exact hmapped
  | binding value projection =>
    obtain ⟨p, rfl⟩ := h.bound value projection hkind
    simp only [hkind, Except.ok.injEq] at hsource
    subst hsource
    rfl

/-! ## Two spellings -/

/-- Two expressions mean one thing where a clause is asked about them in the session `s`: they have
answers that agree and leave the same session behind. In a session with the schema's own tables the
answers are the same later on. -/
structure MeanOne (schema : Schema) (key : ClauseKey) (clause : RangeClause) (usage : Usage)
    (e e' : Expr) (s : Session) : Prop where
  answer : SameResult Field.Agrees ((resolveAt schema key clause e usage).exec s).1
    ((resolveAt schema key clause e' usage).exec s).1
  session : ((resolveAt schema key clause e' usage).exec s).2
    = ((resolveAt schema key clause e usage).exec s).2
  later : s.Uses schema → ∀ t : Session,
    ((resolveAt schema key clause e usage).exec s).2.tables.Extends t.tables → ∀ x ∈ [e, e'],
      SameResult Field.Agrees ((resolveAt schema key clause e usage).exec s).1
          ((resolveAt schema key clause x usage).exec t).1
        ∧ ((resolveAt schema key clause x usage).exec t).2.tables = t.tables

theorem SameResult.refl {α : Type} {agree : α → α → Prop} (hrefl : ∀ a, agree a a)
    (x : Except ResolveError α) : SameResult agree x x := by
  cases x with
  | ok a => exact .ok (hrefl a)
  | error error => exact .error error

theorem Field.Agrees.refl (f : Field) : f.Agrees f where
  path := rfl
  column := rfl
  member := by
    cases f.member with
    | none => exact .none
    | some m => exact .some (Member.same_iff.2 ⟨rfl, rfl⟩)

theorem meanOne_of_agree
    (h : SameResult Plan.Agrees (planAt schema key clause e usage)
      (planAt schema key clause e' usage)) : MeanOne schema key clause usage e e' s := by
  obtain ⟨hanswer, hsession⟩ := planned_agrees schema h s
  simp only [← exec_resolveAt] at hanswer hsession
  refine ⟨hanswer, hsession, fun huses t hext => ?_⟩
  simp only [exec_resolveAt] at hext ⊢
  have hsourced : ∀ p, planAt schema key clause e usage = .ok p → p.Sourced schema :=
    fun _ hplan => .of_planAt hplan
  obtain ⟨hlater, htables⟩ := planned_later hsourced huses.orderly.made hext
  obtain ⟨hagrees, hsame⟩ := planned_agrees schema h t
  rw [hlater] at hagrees
  rw [List.forall_mem_cons, List.forall_mem_singleton, hlater]
  exact ⟨⟨.refl Field.Agrees.refl _, htables⟩, hagrees, hsame ▸ htables⟩

end

/-- In a valid schema, an entity may be spelled with its primary key or without. In a filter, a
reference that ends at a relation means what it does with the key of the relation's target behind
it, whether or not it is resolved. In a filter or an ordering, a range variable that stands for an
entity means what its key does, and both are resolved. -/
theorem entity_as_key {schema : Schema} (hvalid : schema.validate = .ok ()) :
    (∀ (relation : Member) (link : Link), schema.link? relation = some link →
        ∃ pk, schema.primaryKey? link.targetType = some pk ∧ ∀ k, pk.same k →
          ∀ (key : ClauseKey) (clause : RangeClause) (root : Parameter) (before : List Member)
            (s : Session), MeanOne schema key clause .filter (.read root (before ++ [relation]))
              (.read root (before ++ [relation] ++ [k])) s)
      ∧ ∀ (clause : RangeClause) (usage : Usage), clause.OverEntity schema → usage.readsKeys →
        ∃ pk, schema.primaryKey? clause.identifier.type = some pk ∧ ∀ k, pk.same k →
          ∀ (key : ClauseKey) (s : Session),
            MeanOne schema key clause usage (.read clause.identifier [])
              (.read clause.identifier [k]) s
            ∧ ∃ f, ((resolveAt schema key clause (.read clause.identifier []) usage).exec s).1
              = .ok f := by
  have hvalid : schema.Valid := .of_validate hvalid
  constructor
  · intro relation link hlink
    obtain ⟨_, _, target, -, -, htarget, htype, -⟩ := Schema.link?_eq_some hlink
    obtain ⟨pk, hpk⟩ : ∃ pk, schema.primaryKey? link.targetType = some pk := by
      simp [Schema.primaryKey?, htype, htarget]
    refine ⟨pk, hpk, fun k hk key clause root before s => meanOne_of_agree ?_⟩
    exact planAt_agrees (reference_read _ _) (reference_read _ _) fun own _ _ =>
      memberAccess_relation_agrees hvalid hlink hpk hk own _ before
  · intro clause usage hclause husage
    obtain ⟨pk, hpk⟩ := Option.isSome_iff_exists.1
      ((primaryKey?_isSome schema _).trans hclause.mapped)
    refine ⟨pk, hpk, fun k hk key s => ⟨meanOne_of_agree ?_, ?_⟩⟩
    · refine planAt_agrees (reference_read _ _) (reference_read _ _) fun own _ hsource => ?_
      rw [memberAccess_nil_of_entity husage hpk (hclause.isEntity hsource), ← List.nil_append [k],
        memberAccess_of_column (hvalid.key_not_relation hpk hk)]
      exact .ok ⟨rfl, .some hk⟩
    · obtain ⟨own, hsource⟩ := hclause.source key
      have haccess := memberAccess_nil_of_entity husage hpk (hclause.isEntity hsource)
      have hplan := (planAt_eq_ok_iff (reference_read _ _)).2 ⟨own, _, hsource, haccess, rfl⟩
      rw [exec_resolveAt, hplan]
      exact ⟨_, rfl⟩

/-- The sector of a detail, which is stored with it, the details of that sector, which are not, and
the detail itself. -/
theorem entity_as_key_sector :
    let key : ClauseKey := { query := 0, index := 0 }
    let detail := detailRange.identifier
    let sector : Member :=
      { declaringType := "StudentDetail", name := "IndustrialSector", type := "IndustrialSector" }
    let details : Member :=
      { declaringType := "IndustrialSector", name := "StudentDetail", type := "StudentDetail" }
    let sectorID : Member := { declaringType := "IndustrialSector", name := "ID", type := "Int32" }
    let detailID : Member := { declaringType := "StudentDetail", name := "ID", type := "Int32" }
    Schema.school.validate = .ok () ∧ detailRange.OverEntity .school ∧ ∀ s,
      MeanOne .school key detailRange .filter (.read detail [sector])
          (.read detail [sector, sectorID]) s
        ∧ MeanOne .school key detailRange .filter (.read detail [sector, details])
          (.read detail [sector, details, detailID]) s
        ∧ MeanOne .school key detailRange .ordering (.read detail []) (.read detail [detailID]) s
        ∧ ∃ f, ((resolveAt .school key detailRange (.read detail []) .ordering).exec s).1
          = .ok f := by
  intro key detail sector details sectorID detailID
  have hvalid : Schema.school.validate = .ok () := rfl
  have hclause : detailRange.OverEntity .school := ⟨rfl, fun _ _ => nofun⟩
  obtain ⟨hrelations, hvariables⟩ := entity_as_key hvalid
  obtain ⟨_, ⟨⟩, hsector⟩ := hrelations sector _ rfl
  obtain ⟨_, ⟨⟩, hdetails⟩ := hrelations details _ rfl
  obtain ⟨_, ⟨⟩, hdetail⟩ := hvariables detailRange .ordering hclause rfl
  exact ⟨hvalid, hclause, fun s =>
    ⟨hsector sectorID rfl key detailRange detail [] s,
      hdetails detailID rfl key detailRange detail [sector] s, hdetail detailID rfl key s⟩⟩

end QueryChain
