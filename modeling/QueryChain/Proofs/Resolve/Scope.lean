import QueryChain.Chain.Build
import QueryChain.Proofs.Chain.Enclosing
import QueryChain.Proofs.Resolve.Plan
import QueryChain.Schema.School

/-!
# Which clause a reference belongs to

A reference names a range variable of the query that it stands in or of one around it, and the
nearest of these should own it. Before a query around is asked, though, the members of the reference
are tried as variables one after the other, as if each of them were a bundle of range variables. So
a query in between captures the reference if it binds a variable with the name and the type of one
of the members.

* `resolve_nearest_or_captured`: a reference is resolved against the clause that it names, unless a
  query in between captures it; then it is resolved against the clause of the member it is captured
  by;
* `resolve_nearest_or_captured_studentKey`: a reference to a student's detail, captured by the
  students that are searched for it.
-/

namespace QueryChain

namespace Query

/-- The query has a range clause for the variable `p`. -/
def Binds (q : Query) (p : Parameter) : Prop :=
  ∃ clause ∈ q.rangeClauses, clause.identifier = p

/-- The query has a range clause for a variable with the name and the type of one of the members. -/
def Captures (q : Query) (members : List Member) : Prop :=
  ∃ m ∈ members, q.Binds m.asVariable

variable {q : Query} {p : Parameter} {members before rest : List Member} {m : Member} {index : Nat}

theorem binds_iff : q.Binds p ↔ p ∈ q.rangeClauses.map (·.identifier) :=
  List.mem_map.symm

theorem clauseIndex?_eq_none_iff : q.clauseIndex? p = none ↔ ¬q.Binds p := by
  simp [clauseIndex?, Binds]

theorem Binds.clauseIndex? (h : q.Binds p) : ∃ index, q.clauseIndex? p = some index := by
  rw [← Option.ne_none_iff_exists']
  exact fun hnone => clauseIndex?_eq_none_iff.1 hnone h

theorem binds_of_clauseIndex? (h : q.clauseIndex? p = some index) : q.Binds p := by
  by_contra hbinds
  rw [clauseIndex?_eq_none_iff.2 hbinds] at h
  cases h

theorem captures_cons : q.Captures (m :: members) ↔ q.Binds m.asVariable ∨ q.Captures members := by
  simp [Captures]

theorem owner?_of_index (h : q.clauseIndex? p = some index) :
    q.owner? p members = some (index, { root := p, members }) := by
  simp only [owner?.eq_def, h]

theorem owner?_eq_none (hroot : ¬q.Binds p) (h : ¬q.Captures members) :
    q.owner? p members = none := by
  induction members generalizing p with
  | nil => simp only [owner?.eq_def, clauseIndex?_eq_none_iff.2 hroot]
  | cons m members ih =>
    rw [captures_cons, not_or] at h
    simp only [owner?.eq_def q p, clauseIndex?_eq_none_iff.2 hroot]
    exact ih h.1 h.2

/-- The first member that a query binds is the variable that it finds. -/
theorem owner?_of_first (hroot : ¬q.Binds p) (hbefore : ¬q.Captures before)
    (h : q.clauseIndex? m.asVariable = some index) :
    q.owner? p (before ++ m :: rest) = some (index, { root := m.asVariable, members := rest }) := by
  induction before generalizing p with
  | nil =>
    simp only [List.nil_append, owner?.eq_def q p, clauseIndex?_eq_none_iff.2 hroot]
    exact owner?_of_index h
  | cons k before ih =>
    rw [captures_cons, not_or] at hbefore
    simp only [List.cons_append, owner?.eq_def q p, clauseIndex?_eq_none_iff.2 hroot]
    exact ih hbefore.1 hbefore.2

end Query

/-- Of the queries `nearer`, `q` is the first one that captures a reference with the members
`members`, and `m` is the first member that it binds, before `rest`. -/
structure Capture (nearer : List Query) (members : List Member) (q : Query) (m : Member)
    (rest : List Member) : Prop where
  nearest : ∃ front back, nearer = front ++ q :: back ∧ ∀ q' ∈ front, ¬q'.Captures members
  first : ∃ before, members = before ++ m :: rest ∧ ¬q.Captures before
  binds : q.Binds m.asVariable

/-- A list has a first element with a property if it has one. -/
theorem exists_first {α : Type} {p : α → Prop} {items : List α} (h : ∃ item ∈ items, p item) :
    ∃ front item back, items = front ++ item :: back ∧ p item ∧ ∀ a ∈ front, ¬p a := by
  classical
  obtain ⟨item, hfind⟩ : ∃ item, items.find? (p ·) = some item := by
    rw [← Option.ne_none_iff_exists', ne_eq, List.find?_eq_none]
    simpa using h
  obtain ⟨hitem, front, back, heq, hfront⟩ := List.find?_eq_some_iff_append.1 hfind
  exact ⟨front, item, back, heq, by simpa using hitem, by simpa using hfront⟩

theorem exists_capture {nearer : List Query} {members : List Member}
    (h : ∃ q ∈ nearer, q.Captures members) : ∃ q m rest, Capture nearer members q m rest := by
  obtain ⟨front, q, back, hnearer, hcaptures, hfront⟩ := exists_first h
  obtain ⟨before, m, rest, hmembers, hbinds, hbefore⟩ := exists_first hcaptures
  refine ⟨q, m, rest, ⟨front, back, hnearer, hfront⟩, ⟨before, hmembers, ?_⟩, hbinds⟩
  rintro ⟨k, hk, hbinds⟩
  exact hbefore k hk hbinds

section

variable {q : Query} {front queries : List Query} {r owned : Reference} {index : Nat}

theorem ownerAmong?_append_of_none (h : ∀ q ∈ front, q.owner? r.root r.members = none) :
    ownerAmong? (front ++ queries) r = ownerAmong? queries r := by
  induction front with
  | nil => rfl
  | cons q front ih =>
    rw [List.forall_mem_cons] at h
    simp only [List.cons_append, ownerAmong?, h.1]
    exact ih h.2

theorem ownerAmong?_of_owner? (queries : List Query)
    (h : q.owner? r.root r.members = some (index, owned)) :
    ∃ clause, q.rangeClauses[index]? = some clause ∧ clause.identifier = owned.root
      ∧ ownerAmong? (q :: queries) r = some ({ query := q.key, index }, clause, owned) := by
  obtain ⟨clause, hclause, hidentifier⟩ := identifier_of_clauseIndex? (clauseIndex?_of_owner? h)
  exact ⟨clause, hclause, hidentifier, by simp only [ownerAmong?, h, hclause]⟩

theorem exec_resolve_of_owner {schema : Schema} {root : Query} {e : Expr} {usage : Usage}
    {key : ClauseKey} {clause : RangeClause} (href : e.reference = .ok r)
    (howner : ownerAmong? (q :: root.enclosing q) r = some (key, clause, owned)) (s : Session) :
    (resolve schema root q e usage).exec s
      = (resolveReference schema key clause owned usage).exec s := by
  rw [exec_resolve, exec_resolveReference, planIn, href]
  simp only [Bind.bind, Except.bind, howner]

theorem exec_resolveAt_of_reference {schema : Schema} {e : Expr} {usage : Usage}
    {key : ClauseKey} {clause : RangeClause} (href : e.reference = .ok r) (s : Session) :
    (resolveAt schema key clause e usage).exec s
      = (resolveReference schema key clause r usage).exec s := by
  rw [exec_resolveAt, exec_resolveReference, planAt, href]
  rfl

end

/-- In a parsed tree, let `n` be the nearest query, from `m` upwards, with a clause for the variable
that a reference in `m` starts with. The reference is resolved as it is against that clause, if no
query below `n` captures it. Otherwise it is resolved, from the member that captures it on, against
the clause of that member in the nearest query that does. -/
theorem resolve_nearest_or_captured {chain e : Expr} {root m n : Query}
    {above nearer farther : List Query} {r : Reference} {index : Nat}
    (hparse : parse chain = .ok root) (hunder : root.Under m above)
    (hscope : m :: above = nearer ++ n :: farther) (href : e.reference = .ok r)
    (hnearer : ∀ q ∈ nearer, ¬q.Binds r.root) (hindex : n.clauseIndex? r.root = some index) :
    ((∀ q ∈ nearer, ¬q.Captures r.members)
        ∧ ∃ clause, n.rangeClauses[index]? = some clause ∧ clause.identifier = r.root
          ∧ ∀ schema usage s, (resolve schema root m e usage).exec s
            = (resolveAt schema { query := n.key, index } clause e usage).exec s)
      ∨ ∃ q k rest, Capture nearer r.members q k rest
        ∧ ∃ index clause, q.clauseIndex? k.asVariable = some index
          ∧ q.rangeClauses[index]? = some clause ∧ clause.identifier = k.asVariable
          ∧ ∀ schema usage s, (resolve schema root m e usage).exec s
            = (resolveReference schema { query := q.key, index } clause
                { root := k.asVariable, members := rest } usage).exec s := by
  have hqueries : m :: root.enclosing m = nearer ++ n :: farther := by
    rw [enclosing_eq hparse hunder, hscope]
  by_cases hcaptures : ∃ q ∈ nearer, q.Captures r.members
  · obtain ⟨q, k, rest, hcapture⟩ := exists_capture hcaptures
    obtain ⟨front, back, rfl, hfront⟩ := hcapture.nearest
    obtain ⟨before, hmembers, hbefore⟩ := hcapture.first
    obtain ⟨j, hj⟩ := hcapture.binds.clauseIndex?
    simp only [List.mem_append, List.mem_cons] at hnearer
    have howner : q.owner? r.root r.members
        = some (j, { root := k.asVariable, members := rest }) := by
      rw [hmembers]
      exact Query.owner?_of_first (hnearer q (.inr (.inl rfl))) hbefore hj
    obtain ⟨clause, hclause, hidentifier, hamong⟩ :=
      ownerAmong?_of_owner? (back ++ n :: farther) howner
    refine .inr ⟨q, k, rest, hcapture, j, clause, hj, hclause, hidentifier, ?_⟩
    intro schema usage s
    refine exec_resolve_of_owner href ?_ s
    rw [hqueries, List.append_assoc, List.cons_append, ownerAmong?_append_of_none, hamong]
    exact fun q' hq' => Query.owner?_eq_none (hnearer q' (.inl hq')) (hfront q' hq')
  · have hnone : ∀ q ∈ nearer, ¬q.Captures r.members := fun q hq h => hcaptures ⟨q, hq, h⟩
    obtain ⟨clause, hclause, hidentifier, hamong⟩ :=
      ownerAmong?_of_owner? farther (Query.owner?_of_index hindex)
    refine .inl ⟨hnone, clause, hclause, hidentifier, fun schema usage s => ?_⟩
    rw [exec_resolveAt_of_reference href]
    refine exec_resolve_of_owner href ?_ s
    rw [hqueries, ownerAmong?_append_of_none, hamong]
    exact fun q hq => Query.owner?_eq_none (hnearer q hq) (hnone q hq)

/-- The student that a detail belongs to. -/
def studentOfDetail : Member :=
  { declaringType := "StudentDetail", name := "Student", type := "Student" }

/-- The key of a student. -/
def keyOfStudent : Member :=
  { declaringType := "Student", name := "ID", type := "Int32" }

/-- The key of the student that the detail `d` belongs to. -/
def studentKey : Expr :=
  .member (.member (.parameter { name := "d", type := "StudentDetail" }) studentOfDetail)
    keyOfStudent

/-- The details with any student whose key is `studentKey`. The students are searched with a range
variable named `Student`, as the member of the detail is. -/
def detailsWithStudents : Expr :=
  let d : Parameter := { name := "d", type := "StudentDetail" }
  let student := studentOfDetail.asVariable
  let students := Chain.select
    (Chain.filter (.table "Students" "Student")
      (.lambda [student]
        (.operation .equal (.member (.parameter student) keyOfStudent) studentKey)))
    (.lambda [student] (.parameter student))
  Chain.select
    (Chain.filter (.table "StudentDetails" "StudentDetail")
      (.lambda [d] (Chain.result "Any" students [])))
    (.lambda [d] (.parameter d))

theorem studentKey_scope :
    ∃ root m f g s s', parse detailsWithStudents = .ok root ∧ root.Under m [root]
      ∧ root.clauseIndex? { name := "d", type := "StudentDetail" } = some 0
      ∧ m.rangeClauses = [m.main] ∧ m.main.identifier = studentOfDetail.asVariable
      ∧ (resolve .school root m studentKey .filter).exec (.new "j") = (.ok f, s)
      ∧ (resolveAt .school { query := root.key, index := 0 } root.main studentKey .filter).exec
          (.new "j") = (.ok g, s')
      ∧ f.path.first ≠ g.path.first :=
  ⟨_, _, _, _, _, _, rfl, .child .root List.mem_cons_self, rfl, rfl, rfl, rfl, rfl, by decide⟩

theorem resolve_nearest_or_captured_studentKey :
    ∃ root m q k rest index clause, parse detailsWithStudents = .ok root ∧ root.Under m [root]
      ∧ Capture [m] [studentOfDetail, keyOfStudent] q k rest
      ∧ (∀ schema usage s, (resolve schema root m studentKey usage).exec s
        = (resolveReference schema { query := q.key, index } clause
            { root := k.asVariable, members := rest } usage).exec s)
      ∧ ∃ s, (resolve .school root m studentKey .filter).exec s
        ≠ (resolveAt .school { query := root.key, index := 0 } root.main studentKey
            .filter).exec s := by
  obtain ⟨root, m, f, g, s, s', hparse, hunder, hindex, hclauses, hidentifier, hf, hg, hne⟩ :=
    studentKey_scope
  have hbinds (p : Parameter) : m.Binds p ↔ studentOfDetail.asVariable = p := by
    simp [Query.Binds, hclauses, hidentifier]
  have hnearer : ∀ q ∈ [m], ¬q.Binds { name := "d", type := "StudentDetail" } := by
    simp only [List.forall_mem_singleton, hbinds]
    decide
  have hscope : [m, root] = [m] ++ root :: [] := rfl
  have href : studentKey.reference = .ok {
      root := { name := "d", type := "StudentDetail" }
      members := [studentOfDetail, keyOfStudent] } := rfl
  rcases resolve_nearest_or_captured hparse hunder hscope href hnearer hindex with
    ⟨hnone, -⟩ | ⟨q, k, rest, hcapture, index, clause, -, -, -, hexec⟩
  · exact absurd ⟨_, List.mem_cons_self, (hbinds _).2 rfl⟩ (hnone m List.mem_cons_self)
  · refine ⟨root, m, q, k, rest, index, clause, hparse, hunder, hcapture, hexec, .new "j", ?_⟩
    intro heq
    rw [hf, hg] at heq
    cases heq
    exact hne rfl

end QueryChain
