import QueryChain.Chain.Build
import QueryChain.Proofs.Resolve.Sharing
import QueryChain.Schema.School

/-!
# What a refused reference leaves behind

A reference may be refused before anything is done, or at a member that is no relation although it
is used as one. In the second case the relations before that member have been followed, and the
tables that were made for them stay. The joins of the clauses, and the tables that were there, stay
as they were in every case (`Refused`).

* `refused_reference`: a refusal changes nothing exactly if all tables up to where it is stuck were
  there before;
* `refused_reference_subjectLength`: a refused reference that leaves a table.
-/

namespace QueryChain

/-- What becomes of a session in which a reference with the plan `plan` is refused. -/
structure Refused (schema : Schema) (plan : Except ResolveError Plan) (error : ResolveError)
    (s s' : Session) : Prop where
  joins : s'.joins = s.joins
  /-- All tables keep their numbers and aliases; new ones stand after them and have no alias. -/
  tables : ∃ made, s'.tables = { s.tables with tables := s.tables.tables ++ made }
    ∧ ∀ t ∈ made, t.aliasName = none
  /-- What was planned is stuck at a member that is no relation. -/
  obstacle : ∀ p, plan = .ok p → ∃ m, schema.obstacle? p.access.joins = some m
    ∧ error = .notARelation m (pathText p.access.joins)
  unchanged_iff : s' = s ↔ ∀ p, plan = .ok p →
    (s.tables.follow schema p.start p.access.joins).1.Made s.tables

section

variable {schema : Schema} {plan : Except ResolveError Plan} {s s' : Session} {error : ResolveError}

theorem refused_of_planned (hsourced : ∀ p, plan = .ok p → p.Sourced schema)
    (h : planned schema plan s = (.error error, s')) : Refused schema plan error s s' := by
  rcases planned_error_cases h with ⟨rfl, rfl⟩ | ⟨p, m, rfl, hm, rfl, rfl⟩
  · exact ⟨rfl, ⟨[], by simp, by simp⟩, nofun, iff_of_true rfl nofun⟩
  · have hstart : p.start.Made s.tables := (hsourced p rfl).made_start s.tables
    refine ⟨rfl, JoinedTables.follow_tables schema s.tables p.start p.access.joins, ?_, ?_⟩
    · rintro _ ⟨⟩
      exact ⟨m, hm, rfl⟩
    · constructor
      · rintro hs _ ⟨⟩
        exact (JoinedTables.follow_eq_self_iff hstart).1 (congrArg Session.tables hs)
      · intro hmade
        rw [(JoinedTables.follow_eq_self_iff hstart).2 (hmade p rfl)]

end

/-- A refused reference, asked of a query or of a clause, leaves the joins of all clauses and the
tables that were there as they are. It leaves the whole session as it is exactly if no table was
made on the way to the member where it is stuck. -/
theorem refused_reference {schema : Schema} {s s' : Session} {error : ResolveError} :
    (∀ root q e usage, (resolve schema root q e usage).exec s = (.error error, s') →
        Refused schema (planIn schema root q e usage) error s s')
      ∧ ∀ key clause e usage, (resolveAt schema key clause e usage).exec s = (.error error, s') →
        Refused schema (planAt schema key clause e usage) error s s' := by
  constructor
  · intro root q e usage h
    rw [exec_resolve] at h
    exact refused_of_planned (fun _ hplan => .of_planIn hplan) h
  · intro key clause e usage h
    rw [exec_resolveAt] at h
    exact refused_of_planned (fun _ hplan => .of_planAt hplan) h

/-- The length of the subject of a student's details. -/
def subjectLength : Expr :=
  let read (e : Expr) (declaringType name type : String) :=
    Expr.member e { declaringType, name, type }
  let details := read (.parameter { name := "s", type := "Student" }) "Student" "Details"
    "IEnumerable<StudentDetail>"
  read (read details "StudentDetail" "Subject" "String") "String" "Length" "Int32"

/-- The students, with `subjectLength` selected from each. -/
def subjectLengths : Expr :=
  Chain.select (.table "Students" "Student")
    (.lambda [{ name := "s", type := "Student" }] subjectLength)

theorem subjectLength_refused :
    ∃ root error s' p, parse subjectLengths = .ok root
      ∧ (resolve .school root root subjectLength .select).exec (.new "j") = (.error error, s')
      ∧ planIn .school root root subjectLength .select = .ok p
      ∧ ((Session.new "j").tables.follow .school p.start p.access.joins).1.joins
        = [{ left := { source := p.source, name := some "IDColumn" }
             right :=
              { source := .table (.joined 0), name := some "Student_Detail_to_Student_FK" } }] :=
  ⟨_, _, _, _, rfl, rfl, rfl, rfl⟩

theorem refused_reference_subjectLength :
    ∃ root error s', parse subjectLengths = .ok root
      ∧ (resolve .school root root subjectLength .select).exec (.new "j") = (.error error, s')
      ∧ s'.joins = (Session.new "j").joins ∧ s' ≠ .new "j" := by
  obtain ⟨root, error, s', p, hparse, hexec, hplan, hjoins⟩ := subjectLength_refused
  have hrefused := refused_reference.1 root root subjectLength .select hexec
  refine ⟨root, error, s', hparse, hexec, hrefused.joins, fun hsame => ?_⟩
  -- The table of the details is made before the subject, which is no relation, is met.
  have hmade := (hrefused.unchanged_iff.1 hsame p hplan).joins
  rw [hjoins] at hmade
  exact absurd (hmade _ List.mem_cons_self).2 (Nat.lt_irrefl 0)

end QueryChain
