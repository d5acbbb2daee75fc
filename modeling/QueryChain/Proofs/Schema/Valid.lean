import QueryChain.Proofs.Chain.Embedded
import QueryChain.Schema.Validate

/-!
# Columns in valid schemas

The checks of a schema make its answers agree (`Valid`). Where a relation is stored, the column of
the relation member is the left column of its join (`Valid.column?_relation`), and the column of the
target's primary key is the right one (`column?_key`).
-/

namespace QueryChain

namespace NameMap

variable {α : Type}

theorem mem_of_get? {map : NameMap α} {name : String} {value : α} (h : map.get? name = some value) :
    (name, value) ∈ map := by
  induction map with
  | nil => cases h
  | cons pair rest ih =>
    obtain ⟨key, old⟩ := pair
    rw [get?] at h
    split at h
    · rename_i hkey
      cases h
      rw [hkey]
      exact List.mem_cons_self
    · exact List.mem_cons_of_mem _ (ih h)

end NameMap

/-- A check of all items of a list passes if it passes for each item. -/
theorem forM_eq_ok {ε α : Type} {check : α → Except ε Unit} {items : List α} :
    items.forM check = .ok () ↔ ∀ item ∈ items, check item = .ok () := by
  induction items with
  | nil => exact iff_of_true rfl nofun
  | cons item items ih =>
    show (check item >>= fun _ => items.forM check) = _ ↔ _
    rw [bind_eq_ok, List.forall_mem_cons, ← ih]
    exact ⟨fun ⟨_, hitem, hitems⟩ => ⟨hitem, hitems⟩, fun ⟨hitem, hitems⟩ => ⟨(), hitem, hitems⟩⟩

namespace Schema

/-- What the checks of a schema come to. -/
structure Valid (s : Schema) : Prop where
  /-- The primary key of an entity has a column. -/
  key : ∀ {type : String} {entity : Entity}, s.entity? type = some entity →
    ∃ column, entity.keyColumn? = some column
  /-- A relation leads to an entity. -/
  target : ∀ {type name : String} {entity : Entity} {relation : Relation},
    s.entity? type = some entity → entity.relations.get? name = some relation →
    ∃ target, s.entity? relation.target = some target
  /-- A relation is not mapped as a column. -/
  unmapped : ∀ {type name : String} {entity : Entity} {relation : Relation},
    s.entity? type = some entity → entity.relations.get? name = some relation →
    entity.columns.get? name = none

theorem validateEntity_ok {s : Schema} {entity : String × Entity}
    (h : s.validateEntity entity = .ok ()) :
    entity.2.keyColumn?.isSome
      ∧ ∀ relation ∈ entity.2.relations,
        s.validateRelation entity.1 entity.2 relation = .ok () := by
  unfold validateEntity at h
  by_cases htable : isBlankText entity.2.table
  · rw [if_pos htable] at h
    cases h
  by_cases hkey : entity.2.keyColumn?.isNone
  · rw [if_neg htable, if_pos hkey] at h
    cases h
  · rw [if_neg htable, if_neg hkey] at h
    exact ⟨by simpa [Option.isSome_iff_ne_none] using hkey, forM_eq_ok.1 h⟩

theorem validateRelation_ok {s : Schema} {name : String} {entity : Entity}
    {relation : String × Relation} (h : s.validateRelation name entity relation = .ok ()) :
    s.entities.contains relation.2.target ∧ ¬entity.columns.contains relation.1 := by
  unfold validateRelation at h
  split at h
  · cases h
  · split at h
    · cases h
    · rename_i htarget hcolumn
      exact ⟨by simpa using htarget, hcolumn⟩

theorem Valid.of_validate {s : Schema} (h : s.validate = .ok ()) : s.Valid := by
  have hall : ∀ entity ∈ s.entities, s.validateEntity entity = .ok () := by
    unfold validate at h
    by_cases hempty : s.entities.isEmpty
    · rw [if_pos hempty] at h
      cases h
    · rw [if_neg hempty] at h
      exact forM_eq_ok.1 h
  have hrelation {type name : String} {entity : Entity} {relation : Relation}
      (hentity : s.entity? type = some entity)
      (hrelation : entity.relations.get? name = some relation) :=
    validateRelation_ok ((validateEntity_ok (hall _ (NameMap.mem_of_get? hentity))).2 _
      (NameMap.mem_of_get? hrelation))
  refine ⟨?_, ?_, ?_⟩
  · intro type entity hentity
    exact Option.isSome_iff_exists.1 (validateEntity_ok (hall _ (NameMap.mem_of_get? hentity))).1
  · intro type name entity relation hentity hname
    exact Option.isSome_iff_exists.1 (hrelation hentity hname).1
  · intro type name entity relation hentity hname
    simpa [NameMap.contains] using (hrelation hentity hname).2

/-- The parts that a join along a relation is made of. -/
theorem link?_eq_some {s : Schema} {m : Member} {link : Link} (h : s.link? m = some link) :
    ∃ entity relation target, s.entity? m.declaringType = some entity
      ∧ entity.relations.get? m.name = some relation ∧ s.entity? relation.target = some target
      ∧ link.targetType = relation.target ∧ link.targetTable = target.table
      ∧ link.isVirtual = relation.isVirtual
      ∧ (if relation.isVirtual then
          entity.keyColumn? = some link.leftColumn ∧ link.rightColumn = relation.foreignKey
        else
          link.leftColumn = relation.foreignKey ∧ target.keyColumn? = some link.rightColumn) := by
  unfold link? at h
  obtain ⟨entity, hentity, h⟩ := Option.bind_eq_some_iff.1 h
  obtain ⟨relation, hrelation, h⟩ := Option.bind_eq_some_iff.1 h
  obtain ⟨target, htarget, h⟩ := Option.bind_eq_some_iff.1 h
  refine ⟨entity, relation, target, hentity, hrelation, htarget, ?_⟩
  by_cases hvirtual : relation.isVirtual
  · obtain ⟨_, hcolumns, h⟩ := Option.bind_eq_some_iff.1 ((if_pos hvirtual).symm.trans h)
    obtain ⟨key, hkey, rfl⟩ := Option.map_eq_some_iff.1 hcolumns
    cases h
    exact ⟨rfl, rfl, rfl, by rw [if_pos hvirtual]; exact ⟨hkey, rfl⟩⟩
  · obtain ⟨_, hcolumns, h⟩ := Option.bind_eq_some_iff.1 ((if_neg hvirtual).symm.trans h)
    obtain ⟨key, hkey, rfl⟩ := Option.map_eq_some_iff.1 hcolumns
    cases h
    exact ⟨rfl, rfl, rfl, by rw [if_neg hvirtual]; exact ⟨rfl, hkey⟩⟩

variable {s : Schema} {m : Member} {link : Link}

/-- The type that declares a member declares it as a relation. -/
def Declares (s : Schema) (m : Member) : Prop :=
  ∃ entity relation, s.entity? m.declaringType = some entity
    ∧ entity.relations.get? m.name = some relation

/-- In a valid schema every declared relation makes a join. -/
theorem Valid.isRelation_iff (hvalid : s.Valid) : s.isRelation m ↔ s.Declares m := by
  rw [isRelation, Option.isSome_iff_exists]
  constructor
  · rintro ⟨link, hlink⟩
    obtain ⟨entity, relation, -, hentity, hrelation, -⟩ := link?_eq_some hlink
    exact ⟨entity, relation, hentity, hrelation⟩
  · rintro ⟨entity, relation, hentity, hrelation⟩
    obtain ⟨target, htarget⟩ := hvalid.target hentity hrelation
    obtain ⟨key, hkey⟩ := hvalid.key hentity
    obtain ⟨targetKey, htargetKey⟩ := hvalid.key htarget
    cases hvirtual : relation.isVirtual <;>
      simp [link?, hentity, hrelation, htarget, hkey, htargetKey, hvirtual]

/-- The column of a stored relation is the left column of its join. -/
theorem Valid.column?_relation (hvalid : s.Valid) (h : s.link? m = some link)
    (hstored : link.isVirtual = false) : s.column? m = some link.leftColumn := by
  obtain ⟨entity, relation, target, hentity, hrelation, -, -, -, hvirtual, hcolumns⟩ :=
    link?_eq_some h
  rw [hstored] at hvirtual
  rw [if_neg (by simp [← hvirtual])] at hcolumns
  simp [column?, hentity, hvalid.unmapped hentity hrelation, hrelation, ← hvirtual, hcolumns.1]

/-- The column of the target's primary key is the right column of the join along a stored
relation. -/
theorem column?_key (h : s.link? m = some link) (hstored : link.isVirtual = false)
    {key read : Member} (hkey : s.primaryKey? link.targetType = some key) (hread : key.same read) :
    s.column? read = some link.rightColumn := by
  obtain ⟨_, relation, target, -, -, htarget, htype, -, hvirtual, hcolumns⟩ := link?_eq_some h
  rw [hstored] at hvirtual
  rw [if_neg (by simp [← hvirtual])] at hcolumns
  rw [htype, primaryKey?, htarget] at hkey
  cases hkey
  simp only [Member.same, Bool.and_eq_true, beq_iff_eq] at hread
  have hcolumn : target.columns.get? read.name = some link.rightColumn := hread.2 ▸ hcolumns.2
  simp [column?, ← hread.1, htarget, hcolumn]

end Schema

end QueryChain
