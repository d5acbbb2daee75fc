import QueryChain.Proofs.Schema.Apart

/-!
# The answers of a valid schema

A schema is asked for the column of a member, for the join that a relation makes, for the table of a
type and for its primary key. Each answer is looked up on its own and may be missing, but in a valid
schema the answers fit together: a member is mapped to a column, or it is a relation that makes a
join, or the schema knows nothing of it (`Answers`).

* `Joins` says what a relation's answers have to do with those for the types at its two ends;
* `answers_cohere` says that every member of a valid schema has such answers, and that primary keys
  are mapped.
-/

namespace QueryChain.Schema

variable {s : Schema} {m k : Member} {link : Link} {type column : String}

/-- The type that declares a member maps it to the column `column`. -/
def Maps (s : Schema) (m : Member) (column : String) : Prop :=
  ∃ entity, s.entity? m.declaringType = some entity ∧ entity.columns.get? m.name = some column

/-- The primary key of a type is stored in the column `column`. -/
def KeyStored (s : Schema) (type column : String) : Prop :=
  ∃ key, s.primaryKey? type = some key ∧ s.column? key = some column

/-- The declared relation `m` makes the join `link`. One of the two columns that the join equates is
the foreign key, and the other is where the primary key on the other side is stored. The foreign key
is the column of the relation itself if it is stored with the relation; if it is stored with the
target, the relation has no column. -/
structure Joins (s : Schema) (m : Member) (link : Link) : Prop where
  answer : s.link? m = some link
  declared : ∃ entity relation, s.entity? m.declaringType = some entity
    ∧ entity.relations.get? m.name = some relation ∧ link.targetType = relation.target
    ∧ link.isVirtual = relation.isVirtual
    ∧ relation.foreignKey = if link.isVirtual then link.rightColumn else link.leftColumn
  table : s.table? link.targetType = some link.targetTable
  ownKey : ∃ column, s.KeyStored m.declaringType column
  targetKey : ∃ column, s.KeyStored link.targetType column
  stored : link.isVirtual = false →
    s.column? m = some link.leftColumn ∧ s.KeyStored link.targetType link.rightColumn
  inverse : link.isVirtual = true →
    s.column? m = none ∧ s.KeyStored m.declaringType link.leftColumn

/-- What a schema answers when it is asked about the member `m`. -/
inductive Answers (s : Schema) (m : Member) : Prop where
  | mapped {column : String} : s.Maps m column → ¬s.Declares m →
      s.column? m = some column → s.link? m = none → Answers s m
  | relation {link : Link} : (∀ column, ¬s.Maps m column) → s.Joins m link → Answers s m
  | unknown : (∀ column, ¬s.Maps m column) → ¬s.Declares m →
      s.column? m = none → s.link? m = none → Answers s m

/-! ## Columns -/

theorem column?_of_maps (h : s.Maps m column) : s.column? m = some column := by
  obtain ⟨entity, hentity, hcolumn⟩ := h
  simp [column?, hentity, hcolumn]

/-- A member that is mapped nowhere has a column only as a stored relation. -/
theorem column?_of_not_maps (hmaps : ∀ column, ¬s.Maps m column)
    (h : ∀ entity relation, s.entity? m.declaringType = some entity →
      entity.relations.get? m.name = some relation → relation.isVirtual) : s.column? m = none := by
  unfold column?
  cases hentity : s.entity? m.declaringType with
  | none => rfl
  | some entity =>
    have hcolumn : entity.columns.get? m.name = none :=
      Option.eq_none_iff_forall_not_mem.2 fun column hcolumn =>
        hmaps column ⟨entity, hentity, hcolumn⟩
    cases hrelation : entity.relations.get? m.name with
    | none => simp [hcolumn, hrelation]
    | some relation => simp [hcolumn, hrelation, h entity relation hentity hrelation]

namespace Valid

theorem not_declares (hvalid : s.Valid) (h : s.Maps m column) : ¬s.Declares m := by
  rintro ⟨entity, relation, hentity, hrelation⟩
  obtain ⟨_, hentity', hcolumn⟩ := h
  obtain rfl := Option.some.inj (hentity.symm.trans hentity')
  cases (hvalid.unmapped hentity hrelation).symm.trans hcolumn

theorem link?_eq_none (hvalid : s.Valid) (h : ¬s.Declares m) : s.link? m = none := by
  rwa [← hvalid.isRelation_iff, isRelation, Option.not_isSome_iff_eq_none] at h

/-! ## Primary keys -/

/-- The primary key of a type is mapped to its key column. -/
theorem key_maps (hvalid : s.Valid) (h : s.primaryKey? type = some k) :
    ∃ entity column, s.entity? type = some entity ∧ entity.keyColumn? = some column
      ∧ s.Maps k column := by
  obtain ⟨entity, hentity, rfl⟩ := Option.map_eq_some_iff.1 h
  obtain ⟨column, hcolumn⟩ := hvalid.key hentity
  exact ⟨entity, column, hentity, hcolumn, entity, hentity, hcolumn⟩

/-- No relation of a valid schema is called as a primary key is. -/
theorem key_not_relation (hvalid : s.Valid) (hkey : s.primaryKey? type = some k)
    (h : k.same m) : s.isRelation m = false := by
  obtain ⟨_, _, -, -, hmaps⟩ := hvalid.key_maps hkey
  rw [isRelation, ← link?_of_same h, hvalid.link?_eq_none (hvalid.not_declares hmaps)]
  rfl

end Valid

theorem keyStored_of_entity {entity : Entity} (hentity : s.entity? type = some entity)
    (h : entity.keyColumn? = some column) : s.KeyStored type column := by
  refine ⟨{ declaringType := type, name := entity.primaryKey, type := entity.primaryKeyType }, ?_,
    column?_of_maps ⟨entity, hentity, h⟩⟩
  simp [primaryKey?, hentity]

/-! ## Relations -/

theorem Valid.joins (hvalid : s.Valid) (h : s.link? m = some link) : s.Joins m link := by
  obtain ⟨entity, relation, target, hentity, hrelation, htarget, htype, htable, hvirtual,
    hcolumns⟩ := link?_eq_some h
  rw [← htype] at htarget
  obtain ⟨ownKey, hownKey⟩ := hvalid.key hentity
  obtain ⟨targetKey, htargetKey⟩ := hvalid.key htarget
  rw [← hvirtual] at hcolumns
  have hmaps : ∀ column, ¬s.Maps m column := fun column hmaps =>
    hvalid.not_declares hmaps ⟨entity, relation, hentity, hrelation⟩
  refine ⟨h, ⟨entity, relation, hentity, hrelation, htype, hvirtual, ?_⟩, ?_,
    ⟨ownKey, keyStored_of_entity hentity hownKey⟩,
    ⟨targetKey, keyStored_of_entity htarget htargetKey⟩, fun hstored => ?_, fun hinverse => ?_⟩
  · split at hcolumns
    · rename_i hinverse
      rw [if_pos hinverse, hcolumns.2]
    · rename_i hstored
      rw [if_neg hstored, hcolumns.1]
  · simp [table?, htarget, htable]
  · rw [if_neg (by simp [hstored])] at hcolumns
    exact ⟨hvalid.column?_relation h hstored, keyStored_of_entity htarget hcolumns.2⟩
  · rw [if_pos hinverse] at hcolumns
    refine ⟨column?_of_not_maps hmaps fun _ _ hentity' hrelation' => ?_,
      keyStored_of_entity hentity hcolumns.1⟩
    obtain rfl := Option.some.inj (hentity.symm.trans hentity')
    obtain rfl := Option.some.inj (hrelation.symm.trans hrelation')
    rw [← hvirtual, hinverse]

/-! ## All members -/

/-- In a valid schema a member is mapped to a column and makes no join, or it is a relation whose
join and column fit to the tables and the primary keys at its two ends, or it has neither column nor
join. Every primary key is mapped, and so it is no relation. -/
theorem answers_cohere (h : s.validate = .ok ()) :
    (∀ m, s.Answers m) ∧ ∀ type key, s.primaryKey? type = some key →
      s.link? key = none ∧ ∃ column, s.Maps key column ∧ s.KeyStored type column := by
  have hvalid : s.Valid := .of_validate h
  refine ⟨fun m => ?_, fun type key hkey => ?_⟩
  · by_cases hmaps : ∃ column, s.Maps m column
    · obtain ⟨column, hmaps⟩ := hmaps
      have hdeclares := hvalid.not_declares hmaps
      exact .mapped hmaps hdeclares (column?_of_maps hmaps) (hvalid.link?_eq_none hdeclares)
    · rw [not_exists] at hmaps
      cases hlink : s.link? m with
      | some link => exact .relation hmaps (hvalid.joins hlink)
      | none =>
        have hdeclares : ¬s.Declares m := by
          rw [← hvalid.isRelation_iff, isRelation, hlink]
          exact Bool.false_ne_true
        have hcolumn : s.column? m = none := column?_of_not_maps hmaps
          fun _ _ hentity hrelation => absurd ⟨_, _, hentity, hrelation⟩ hdeclares
        exact .unknown hmaps hdeclares hcolumn hlink
  · obtain ⟨_, column, -, -, hmaps⟩ := hvalid.key_maps hkey
    exact ⟨hvalid.link?_eq_none (hvalid.not_declares hmaps), column, hmaps, key, hkey,
      column?_of_maps hmaps⟩

/-- In the school the student of an order is a relation whose foreign key is mapped, too, under
another name. -/
theorem answers_cohere_school :
    let student : Member := { declaringType := "Order", name := "Student", type := "Student" }
    let studentKey : Member := { declaringType := "Order", name := "StudentID", type := "Int32" }
    Schema.school.validate = .ok () ∧ ∃ link, Schema.school.Joins student link
      ∧ Schema.school.column? student = Schema.school.column? studentKey
      ∧ Schema.school.link? studentKey = none
      ∧ Schema.school.KeyStored "Student" link.rightColumn := by
  intro student studentKey
  have hvalid : Schema.school.validate = .ok () := rfl
  obtain ⟨hanswers, -⟩ := answers_cohere hvalid
  refine ⟨hvalid, ?_⟩
  cases hanswers student with
  | mapped _ _ _ hlink => cases hlink
  | unknown _ _ _ hlink => cases hlink
  | @relation link _ hjoins =>
    obtain rfl := Option.some.inj hjoins.answer
    exact ⟨_, hjoins, rfl, rfl, (hjoins.stored rfl).2⟩

end QueryChain.Schema
