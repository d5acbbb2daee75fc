import QueryChain.Chain.Build
import QueryChain.Proofs.Resolve.Closure
import QueryChain.Proofs.Resolve.Filing
import QueryChain.Schema.Validate

/-!
# Resolving a reference again

A reference that was resolved once is resolved again at any later time of the session. Whether it
leads to the same tables, and makes none, is a matter of how these are filed then:

* `resolved_again_iff_filed`: it does exactly if each table on its path was made for a path that is
  still equal to what comes before it. That is so while no table is named, and at all times if no
  two relations of the schema make joins that look alike;
* `resolved_again_iff_filed_buyer`: where the student and the buyer of an order have their foreign
  keys in one column, the school of the buyer is another table after naming.
-/

namespace QueryChain

/-! ## Sessions as they go on -/

section

variable {schema : Schema} {root : Query} {s s₁ s₂ s' : Session}

/-- The session `s` goes on to the other one: references are resolved in any order, with and without
success, and tables may be named for any query at any time. -/
inductive Session.Later (schema : Schema) (root : Query) (s : Session) : Session → Prop where
  | refl : Later schema root s s
  | answered {s₁ s₂ : Session} {key : ClauseKey} {f : Field} :
    Later schema root s s₁ → Answers schema root s₁ key f s₂ → Later schema root s s₂
  | refused {s₁ s₂ : Session} :
    Later schema root s s₁ → Refuses schema root s₁ s₂ → Later schema root s s₂
  | named {s₁ : Session} (q : Query) :
    Later schema root s s₁ → Later schema root s { s₁ with tables := s₁.tables.finalize q }

theorem Run.later {aliasPrefix : String} {log : List Answered}
    (h : Run schema root aliasPrefix log s) :
    Session.Later schema root (.new aliasPrefix) s := by
  induction h with
  | start => exact .refl
  | answered _ hanswers ih => exact ih.answered hanswers
  | refused _ hrefuses ih => exact ih.refused hrefuses
  | named q _ ih => exact ih.named q

theorem Answers.follows {key : ClauseKey} {f : Field} (h : Answers schema root s key f s') :
    ∃ p : Plan, p.Sourced schema
      ∧ s'.tables = (s.tables.follow schema p.start p.access.joins).2 := by
  cases h with
  | inQuery _ _ _ hexec =>
    rw [exec_resolve] at hexec
    obtain ⟨p, hplan, -, -, htables, -⟩ := planned_ok hexec
    exact ⟨p, .of_planIn hplan, htables⟩
  | atClause _ hexec =>
    rw [exec_resolveAt] at hexec
    obtain ⟨p, hplan, -, -, htables, -⟩ := planned_ok hexec
    exact ⟨p, .of_planAt hplan, htables⟩

theorem Refuses.follows (h : Refuses schema root s s') :
    s'.tables = s.tables ∨ ∃ p : Plan, p.Sourced schema
      ∧ s'.tables = (s.tables.follow schema p.start p.access.joins).2 := by
  cases h with
  | inQuery _ hexec =>
    rw [exec_resolve] at hexec
    rcases planned_error_cases hexec with ⟨-, rfl⟩ | ⟨p, _, hplan, -, -, rfl⟩
    · exact .inl rfl
    · exact .inr ⟨p, .of_planIn hplan, rfl⟩
  | atClause _ hexec =>
    rw [exec_resolveAt] at hexec
    rcases planned_error_cases hexec with ⟨-, rfl⟩ | ⟨p, _, hplan, -, -, rfl⟩
    · exact .inl rfl
    · exact .inr ⟨p, .of_planAt hplan, rfl⟩

namespace Session.Later

/-- What holds of the tables at one time, and still after relations are followed from the source of
a clause and after tables are named, holds at any later time. -/
theorem preserves {motive : JoinedTables → Prop}
    (hfollow : ∀ ts (p : Plan), p.Sourced schema → motive ts →
      motive (ts.follow schema p.start p.access.joins).2)
    (hfinalize : ∀ ts q, motive ts → motive (ts.finalize q)) (h : Later schema root s s')
    (hs : motive s.tables) : motive s'.tables := by
  induction h with
  | refl => exact hs
  | answered _ hanswers ih =>
    obtain ⟨p, hsourced, htables⟩ := hanswers.follows
    rw [htables]
    exact hfollow _ p hsourced ih
  | refused _ hrefuses ih =>
    rcases hrefuses.follows with htables | ⟨p, hsourced, htables⟩
    · rwa [htables]
    · rw [htables]
      exact hfollow _ p hsourced ih
  | named q _ ih => exact hfinalize _ q ih

theorem precedes (h : Later schema root s s') : s.tables.Precedes s'.tables :=
  h.preserves (motive := s.tables.Precedes)
    (fun _ _ _ hts => hts.trans (JoinedTables.follow_extends _ _ _ _).precedes)
    (fun ts q hts => hts.trans (JoinedTables.precedes_finalize ts q)) (.refl _)

end Session.Later

theorem Session.Later.orderly (h : Later schema root s s') (hs : s.tables.Orderly schema) :
    s'.tables.Orderly schema :=
  h.preserves (fun ts _ hp hts => hts.follow (hp.made_start ts) (.start hp.not_joined))
    (fun _ q hts => hts.finalize q) hs

/-- The tables of a run are orderly at any time of it. -/
theorem Run.orderly {aliasPrefix : String} {log : List Answered}
    (h : Run schema root aliasPrefix log s) : s.tables.Orderly schema :=
  h.later.orderly (JoinedTables.orderly_new schema aliasPrefix)

theorem Session.Later.exact (hschema : schema.JoinsApart) (h : Later schema root s s')
    (hs : s.tables.Orderly schema ∧ s.tables.Exact schema) :
    s'.tables.Orderly schema ∧ s'.tables.Exact schema :=
  h.preserves (motive := fun ts => ts.Orderly schema ∧ ts.Exact schema)
    (fun ts _ hp hts => ⟨hts.1.follow (hp.made_start ts) (.start hp.not_joined),
      (hts.2.follow hschema hts.1 (hp.made_start ts) (.start hp.not_joined)).1⟩)
    (fun _ q hts => ⟨hts.1.finalize q, hts.2.finalize q⟩) hs

theorem follow_eq_of_length {ts : JoinedTables} {path : JoinPath} {relations : List Member}
    (h : (ts.follow schema path relations).2.tables.length = ts.tables.length) :
    (ts.follow schema path relations).2 = ts := by
  obtain ⟨made, htables, -⟩ := JoinedTables.follow_tables schema ts path relations
  rw [htables] at h ⊢
  rw [List.length_append] at h
  obtain rfl : made = [] := List.eq_nil_of_length_eq_zero (by omega)
  rw [List.append_nil]

/-- A reference that was resolved once in a session is resolved again at any later time. It leads to
the same path, without a new table, exactly if that path is still filed: while no table is named,
and at all times if no two relations of the schema make joins that look alike. -/
theorem resolved_again_iff_filed {q : Query} {e : Expr} {usage : Usage} {aliasPrefix : String}
    {log : List Answered} {f : Field} (hrun : Run schema root aliasPrefix log s)
    (hf : (resolve schema root q e usage).exec s = (.ok f, s₁))
    (hlater : Session.Later schema root s₁ s₂) :
    ∃ f' s₃, (resolve schema root q e usage).exec s₂ = (.ok f', s₃)
      ∧ ((f'.path = f.path ∧ s₃.tables.tables.length = s₂.tables.tables.length)
        ↔ s₂.tables.Filed f.path)
      ∧ (s₁.tables.Extends s₂.tables → s₂.tables.Filed f.path)
      ∧ (schema.JoinsApart → s₂.tables.Filed f.path) := by
  rw [exec_resolve] at hf
  obtain ⟨p, hplan, hobstacle, rfl, htables, -⟩ := planned_ok hf
  have hsourced : p.Sourced schema := .of_planIn hplan
  have hstart : p.start.Routed := .start hsourced.not_joined
  have hnew := JoinedTables.orderly_new schema aliasPrefix
  have horderly : s.tables.Orderly schema := hrun.orderly
  have horderly₁ : s₁.tables.Orderly schema := by
    rw [htables]
    exact horderly.follow (hsourced.made_start _) hstart
  have horderly₂ := hlater.orderly horderly₁
  have hprecedes := hlater.precedes
  rw [htables] at hprecedes
  obtain ⟨s₃, hplanned, htables₃⟩ := planned_of_no_obstacle hobstacle s₂
  have hiff : ((s₂.tables.follow schema p.start p.access.joins).1
          = (s.tables.follow schema p.start p.access.joins).1
        ∧ s₃.tables.tables.length = s₂.tables.tables.length)
      ↔ s₂.tables.Filed (s.tables.follow schema p.start p.access.joins).1 := by
    constructor
    · rintro ⟨hpath, hlength⟩
      rw [htables₃] at hlength
      rw [← hpath]
      exact JoinedTables.filed_of_follow_eq (JoinedTables.filed_start _ _)
        (follow_eq_of_length hlength)
    · intro hfiled
      rw [htables₃, JoinedTables.follow_of_filed horderly₂ hprecedes hfiled]
      exact ⟨rfl, rfl⟩
  refine ⟨p.field schema (s₂.tables.follow schema p.start p.access.joins).1, s₃, ?_, hiff, ?_, ?_⟩
  · rw [exec_resolve, hplan, hplanned]
  · intro hext
    rw [htables] at hext
    refine hiff.1 ?_
    rw [htables₃, JoinedTables.follow_again horderly.made (hsourced.made_start _) hext]
    exact ⟨rfl, rfl⟩
  · intro hschema
    obtain ⟨-, hexact⟩ := hrun.later.exact hschema ⟨hnew, by simp [JoinedTables.Exact, Session.new]⟩
    have hpath : JoinedTables.FiledExactly schema _
        (s.tables.follow schema p.start p.access.joins).1 :=
      (hexact.follow hschema horderly (hsourced.made_start _) (.start hsourced.not_joined)).2
    exact (hpath.mono hprecedes).filed horderly₂

end

/-- Orders of students, each for a student and a buyer, whose foreign keys lie in one column. -/
def buyers : Schema where
  entities := .ofList [
    ("Order", {
      table := "orderTable"
      primaryKey := "ID"
      primaryKeyType := "Int32"
      columns := .ofList [("ID", "IDColumn")]
      relations := .ofList [
        ("Buyer", { target := "Student", foreignKey := "StudentFK", isVirtual := false }),
        ("Student", { target := "Student", foreignKey := "StudentFK", isVirtual := false })] }),
    ("School", {
      table := "schoolTable"
      primaryKey := "ID"
      primaryKeyType := "Int32"
      columns := .ofList [("ID", "IDColumn"), ("Name", "NameColumn")]
      relations := [] }),
    ("Student", {
      table := "studentTable"
      primaryKey := "ID"
      primaryKeyType := "Int32"
      columns := .ofList [("ID", "IDColumn")]
      relations := .ofList [
        ("School", { target := "School", foreignKey := "SchoolFK", isVirtual := false })] })]

/-- The name of the school of the student that the order `o` leads to by the relation `relation`. -/
def schoolName (relation : String) : Expr :=
  let read (e : Expr) (declaringType name type : String) :=
    Expr.member e { declaringType, name, type }
  let student := read (.parameter { name := "o", type := "Order" }) "Order" relation "Student"
  read (read student "Student" "School" "School") "School" "Name" "String"

/-- The school names of buyers. -/
def schoolNames : Expr :=
  Chain.select (.table "Orders" "Order")
    (.lambda [{ name := "o", type := "Order" }] (schoolName "Buyer"))

/-- The joins from the order `o` to its buyer and on to the school, with the school's table made for
the student of the order. -/
def buyerJoins : List Join :=
  let order := Source.table (.ofClause { query := 0, index := 0 } "orderTable" "o")
  let buyer := Source.table (.joined 2)
  let school := Source.table (.joined 1)
  [{ left := { source := order, name := some "StudentFK" }
     right := { source := buyer, name := some "IDColumn" } },
    { left := { source := buyer, name := some "SchoolFK" }
      right := { source := school, name := some "IDColumn" } }]

theorem schoolName_answered :
    ∃ root r key f g s₁ s₂ t, buyers.validate = .ok () ∧ parse schoolNames = .ok root
      ∧ (schoolName "Student").reference = .ok r
      ∧ (∃ clause owned, ownerAmong? (root :: root.enclosing root) r = some (key, clause, owned))
      ∧ (resolve buyers root root (schoolName "Student") .select).exec (.new "j") = (.ok f, s₁)
      ∧ (resolve buyers root root (schoolName "Buyer") .select).exec s₁ = (.ok g, s₂)
      ∧ g.path.joins = buyerJoins
      ∧ (s₂.tables.finalize root).tables[1]? = some t
      ∧ (s₂.tables.finalize root).samePath t.path
          { first := g.path.first, joins := buyerJoins.take 1 } = false :=
  ⟨_, _, _, _, _, _, _, _, rfl, rfl, rfl, ⟨_, _, rfl⟩, rfl, rfl, rfl, rfl, rfl⟩

theorem resolved_again_iff_filed_buyer :
    ∃ root g s₁ s₂ g' s₃, buyers.validate = .ok () ∧ parse schoolNames = .ok root
      ∧ (resolve buyers root root (schoolName "Buyer") .select).exec s₁ = (.ok g, s₂)
      ∧ (resolve buyers root root (schoolName "Buyer") .select).exec
          { s₂ with tables := s₂.tables.finalize root } = (.ok g', s₃)
      ∧ ¬(g'.path = g.path ∧ s₃.tables.tables.length = s₂.tables.tables.length) := by
  obtain ⟨root, r, key, f, g, s₁, s₂, t, hvalid, hparse, href, ⟨clause, owned, howner⟩, hf, hg,
    hjoins, ht, hsame⟩ := schoolName_answered
  have hrun := Run.start.answered (.inQuery List.mem_cons_self href howner hf)
  obtain ⟨g', s₃, hg', hiff, -⟩ := resolved_again_iff_filed hrun hg (.named root .refl)
  refine ⟨root, g, s₁, s₂, g', s₃, hvalid, hparse, hg, hg', ?_⟩
  rintro ⟨hpath, hlength⟩
  have hnamed := (JoinedTables.finalize_naming s₂.tables root).length_eq
  have hfiled := hiff.1 ⟨hpath, hlength.trans hnamed.symm⟩
  -- The table of the school is filed under the way to the student.
  obtain ⟨u, hu, hsame'⟩ := hfiled (buyerJoins.take 1) _ [] 1 (by rw [hjoins]; rfl) rfl
  cases ht.symm.trans hu
  rw [hsame] at hsame'
  cases hsame'

end QueryChain
