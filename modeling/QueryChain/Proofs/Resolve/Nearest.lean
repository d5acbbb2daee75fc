import QueryChain.Proofs.Resolve.Scope

/-!
# The first owner of a reference

A reference may mean the variable that it starts with or, where that one bundles others, any of its
members. The search in one query takes the first of these that the query binds. Queries are asked
from the one that the reference stands in outwards, and the first one that finds a clause decides.

* `findOwner_expr_eq_none_iff` and `findOwner_expr_eq_some_iff` say what the search in one query
  comes to;
* `resolve_at_first_owner` says what a reference is resolved against, and that no clause is asked
  about a variable of another.
-/

namespace QueryChain

/-- The variables that a reference may mean, the one that it starts with before its members. -/
def Reference.variables (r : Reference) : List Parameter :=
  r.root :: r.members.map Member.asVariable

/-- The first variable of `r` that the query binds is the `k`-th, and `clause` is the first of its
range clauses for that variable. -/
structure Query.OwnsAt (q : Query) (r : Reference) (k index : Nat) (clause : RangeClause) :
    Prop where
  owner : q.rangeClauses[index]? = some clause
  meant : r.variables[k]? = some clause.identifier
  firstClause : ∀ c ∈ q.rangeClauses.take index, c.identifier ≠ clause.identifier
  firstBound : ∀ x ∈ r.variables.take k, ¬q.Binds x

namespace Query

variable {q : Query} {p : Parameter} {m : Member} {members : List Member} {clause : RangeClause}
  {k index : Nat} {owned : Reference}

theorem clauseIndex?_eq_some_iff :
    q.clauseIndex? p = some index ↔
      ∃ clause, q.rangeClauses[index]? = some clause ∧ clause.identifier = p
        ∧ ∀ c ∈ q.rangeClauses.take index, c.identifier ≠ p := by
  simp only [clauseIndex?, List.findIdx?_eq_some_iff_getElem, beq_iff_eq]
  constructor
  · rintro ⟨hlt, hsame, hbefore⟩
    refine ⟨q.rangeClauses[index], List.getElem?_eq_getElem hlt, hsame, fun c hc => ?_⟩
    obtain ⟨j, hj, rfl⟩ := List.mem_take_iff_getElem.1 hc
    exact hbefore j (by omega)
  · rintro ⟨clause, hclause, rfl, hbefore⟩
    obtain ⟨hlt, rfl⟩ := List.getElem?_eq_some_iff.1 hclause
    refine ⟨hlt, rfl, fun j hj => hbefore _ ?_⟩
    exact List.mem_take_iff_getElem.2 ⟨j, by omega, rfl⟩

theorem OwnsAt.binds {r : Reference} (h : q.OwnsAt r k index clause) : q.Binds clause.identifier :=
  ⟨clause, List.mem_of_getElem? h.owner, rfl⟩

/-- The variable that a reference starts with owns it if the query binds that variable. -/
theorem ownsAt_of_binds (hbinds : q.Binds p) :
    q.OwnsAt { root := p, members } k index clause ↔
      k = 0 ∧ clause.identifier = p ∧ q.rangeClauses[index]? = some clause
        ∧ ∀ c ∈ q.rangeClauses.take index, c.identifier ≠ p := by
  constructor
  · intro h
    have hk : k = 0 := by
      by_contra hk
      obtain ⟨j, rfl⟩ := Nat.exists_eq_succ_of_ne_zero hk
      exact h.firstBound p List.mem_cons_self hbinds
    subst hk
    have hp : clause.identifier = p := (Option.some.inj h.meant).symm
    exact ⟨rfl, hp, h.owner, hp ▸ h.firstClause⟩
  · rintro ⟨rfl, rfl, hclause, hbefore⟩
    exact ⟨hclause, rfl, hbefore, by simp⟩

theorem not_ownsAt_nil (hbinds : ¬q.Binds p) :
    ¬q.OwnsAt { root := p, members := [] } k index clause := by
  intro h
  obtain ⟨-, hp⟩ : k = 0 ∧ p = clause.identifier := by
    simpa [Reference.variables, List.getElem?_singleton] using h.meant
  exact hbinds (hp ▸ h.binds)

/-- A variable that the query does not bind is passed over for the first member. -/
theorem ownsAt_cons (hbinds : ¬q.Binds p) :
    q.OwnsAt { root := p, members := m :: members } k index clause ↔
      ∃ j, k = j + 1 ∧ q.OwnsAt { root := m.asVariable, members } j index clause := by
  constructor
  · intro h
    cases k with
    | zero =>
      have hp : p = clause.identifier := Option.some.inj h.meant
      exact absurd (hp ▸ h.binds) hbinds
    | succ j =>
      exact ⟨j, rfl, h.owner, h.meant, h.firstClause,
        fun x hx => h.firstBound x (List.mem_cons_of_mem p hx)⟩
  · rintro ⟨j, rfl, h⟩
    exact ⟨h.owner, h.meant, h.firstClause,
      List.forall_mem_cons.2 ⟨hbinds, h.firstBound⟩⟩

theorem owner?_cons (hbinds : ¬q.Binds p) :
    q.owner? p (m :: members) = q.owner? m.asVariable members := by
  rw [owner?.eq_def, clauseIndex?_eq_none_iff.2 hbinds]

theorem owner?_eq_none_iff :
    q.owner? p members = none ↔
      ∀ x ∈ Reference.variables { root := p, members }, ¬q.Binds x := by
  induction members generalizing p with
  | nil =>
    simp only [Reference.variables, List.map_nil, List.forall_mem_singleton]
    constructor
    · intro h hbinds
      obtain ⟨index, hindex⟩ := hbinds.clauseIndex?
      rw [owner?_of_index hindex] at h
      cases h
    · intro hbinds
      exact owner?_eq_none hbinds (by simp [Captures])
  | cons m members ih =>
    have hvariables : Reference.variables { root := p, members := m :: members }
        = p :: Reference.variables { root := m.asVariable, members } := rfl
    rw [hvariables, List.forall_mem_cons]
    by_cases hbinds : q.Binds p
    · obtain ⟨index, hindex⟩ := hbinds.clauseIndex?
      simp [owner?_of_index hindex, hbinds]
    · rw [owner?_cons hbinds, ih]
      exact (and_iff_right hbinds).symm

theorem owner?_eq_some_iff_of_binds (hbinds : q.Binds p) :
    q.owner? p members = some (index, owned) ↔
      ∃ k clause, q.OwnsAt { root := p, members } k index clause
        ∧ owned = { root := clause.identifier, members := members.drop k } := by
  obtain ⟨first, hfirst⟩ := hbinds.clauseIndex?
  simp only [owner?_of_index hfirst, Option.some.injEq, Prod.mk.injEq, ownsAt_of_binds hbinds]
  constructor
  · rintro ⟨rfl, rfl⟩
    obtain ⟨clause, hclause, hidentifier, hbefore⟩ := clauseIndex?_eq_some_iff.1 hfirst
    exact ⟨0, clause, ⟨rfl, hidentifier, hclause, hbefore⟩, by rw [hidentifier]; rfl⟩
  · rintro ⟨_, clause, ⟨rfl, rfl, hclause, hbefore⟩, rfl⟩
    have hindex := clauseIndex?_eq_some_iff.2 ⟨clause, hclause, rfl, hbefore⟩
    exact ⟨Option.some.inj (hfirst.symm.trans hindex), rfl⟩

theorem owner?_eq_some_iff :
    q.owner? p members = some (index, owned) ↔
      ∃ k clause, q.OwnsAt { root := p, members } k index clause
        ∧ owned = { root := clause.identifier, members := members.drop k } := by
  induction members generalizing p with
  | nil =>
    by_cases hbinds : q.Binds p
    · exact owner?_eq_some_iff_of_binds hbinds
    · rw [owner?_eq_none hbinds (by simp [Captures])]
      simp [not_ownsAt_nil hbinds]
  | cons m members ih =>
    by_cases hbinds : q.Binds p
    · exact owner?_eq_some_iff_of_binds hbinds
    · rw [owner?_cons hbinds, ih]
      simp only [ownsAt_cons hbinds]
      constructor
      · rintro ⟨j, clause, howns, rfl⟩
        exact ⟨j + 1, clause, ⟨j, rfl, howns⟩, rfl⟩
      · rintro ⟨_, clause, ⟨j, rfl, howns⟩, rfl⟩
        exact ⟨j, clause, howns, rfl⟩

end Query

section

variable {q : Query} {r : Reference} {index : Nat} {e : Expr}

theorem findOwner_expr_eq_none_iff :
    q.findOwner r.expr = .ok none ↔ ∀ x ∈ r.variables, ¬q.Binds x :=
  findOwner_read_eq_none.trans Query.owner?_eq_none_iff

theorem findOwner_expr_eq_some_iff :
    q.findOwner r.expr = .ok (some (index, e)) ↔
      ∃ k clause, q.OwnsAt r k index clause ∧ e = .read clause.identifier (r.members.drop k) := by
  simp only [Reference.expr, findOwner_read, Except.ok.injEq, Option.map_eq_some_iff,
    Prod.mk.injEq, Prod.exists, Query.owner?_eq_some_iff]
  constructor
  · rintro ⟨_, _, ⟨k, clause, howns, rfl⟩, rfl, rfl⟩
    exact ⟨k, clause, howns, rfl⟩
  · rintro ⟨k, clause, howns, rfl⟩
    exact ⟨index, _, ⟨k, clause, howns, rfl⟩, rfl, rfl⟩

end

section

variable {schema : Schema} {root q n : Query} {usage : Usage} {e : Expr} {r : Reference}
  {index : Nat} {nearer farther : List Query}

theorem findOwnerAmong_of_none {queries : List Query}
    (h : ∀ m ∈ queries, m.findOwner e = .ok none) : findOwnerAmong e queries = .ok none := by
  induction queries with
  | nil => rfl
  | cons m queries ih =>
    rw [List.forall_mem_cons] at h
    rw [findOwnerAmong, h.1]
    exact ih h.2

theorem exec_resolve_of_none (hnone : ∀ m ∈ q :: root.enclosing q, m.findOwner e = .ok none)
    (s : Session) : (resolve schema root q e usage).exec s = (.error (.noOwner e), s) := by
  rw [resolve, exec_lift_bind, findOwnerAmong_of_none hnone]
  rfl

theorem exec_resolve_of_first (hscope : q :: root.enclosing q = nearer ++ n :: farther)
    (hnearer : ∀ m ∈ nearer, m.findOwner r.expr = .ok none)
    (hfound : n.findOwner r.expr = .ok (some (index, e))) :
    ∃ clause, n.rangeClauses[index]? = some clause ∧ ∀ s,
      (resolve schema root q r.expr usage).exec s
        = (resolveAt schema { query := n.key, index } clause e usage).exec s := by
  simp only [Reference.expr, findOwner_read_eq_none] at hnearer
  simp only [Reference.expr, findOwner_read, Except.ok.injEq, Option.map_eq_some_iff,
    Prod.mk.injEq, Prod.exists] at hfound
  obtain ⟨_, owned, howner, rfl, rfl⟩ := hfound
  obtain ⟨clause, hclause, -, hamong⟩ := ownerAmong?_of_owner? farther howner
  refine ⟨clause, hclause, fun s => ?_⟩
  rw [exec_resolveAt_of_reference (reference_read owned.root owned.members)]
  refine exec_resolve_of_owner (reference_read r.root r.members) ?_ s
  rw [hscope, ownerAmong?_append_of_none hnearer, hamong]

theorem planIn_error {error : ResolveError} (h : planIn schema root q e usage = .error error) :
    error.AtOwner := by
  rcases bind_eq_error h with href | ⟨r, -, h⟩
  · unfold Expr.reference at href
    split at href <;> cases href
    trivial
  · split at h
    · cases h
      trivial
    · rename_i howner
      exact planReference_error (root_of_ownerAmong? howner) h

/-- No clause refuses a reference for being asked about the variable of another one. -/
theorem exec_resolve_ne_inconsistent (schema : Schema) (root q : Query) (e : Expr) (usage : Usage)
    (s : Session) (cause : ResolveError) :
    ((resolve schema root q e usage).exec s).1 ≠ .error (.inconsistent cause) := by
  intro h
  rw [exec_resolve] at h
  rcases planned_error_cases (Prod.ext h rfl) with ⟨hplan, -⟩ | ⟨_, _, -, -, herror, -⟩
  · exact planIn_error hplan
  · cases herror

end

/-- Whom a reference belongs to. The search in one query finds no clause if the query binds none of
the variables that the reference may mean. Otherwise it finds the clause of the first of them that
the query binds, with what the reference reads from there. A reference in `q` is resolved against
the clause that is found in `q` or in the nearest query around it in which one is; without any, it
has no owner. In a parsed tree, the queries around `q` are those that it stands in. -/
theorem resolve_at_first_owner (r : Reference) :
    (∀ n : Query, n.findOwner r.expr = .ok none ↔ ∀ x ∈ r.variables, ¬n.Binds x)
      ∧ (∀ (n : Query) (index : Nat) (e : Expr), n.findOwner r.expr = .ok (some (index, e)) ↔
          ∃ k clause, n.OwnsAt r k index clause
            ∧ e = .read clause.identifier (r.members.drop k))
      ∧ ∀ (schema : Schema) (root q : Query) (usage : Usage) (s : Session),
          ((∀ n ∈ q :: root.enclosing q, n.findOwner r.expr = .ok none) →
            (resolve schema root q r.expr usage).exec s = (.error (.noOwner r.expr), s))
          ∧ (∀ nearer n farther index e, q :: root.enclosing q = nearer ++ n :: farther →
              (∀ m ∈ nearer, m.findOwner r.expr = .ok none) →
              n.findOwner r.expr = .ok (some (index, e)) →
              ∃ clause, n.rangeClauses[index]? = some clause
                ∧ (resolve schema root q r.expr usage).exec s
                  = (resolveAt schema { query := n.key, index } clause e usage).exec s)
          ∧ (∀ cause, ((resolve schema root q r.expr usage).exec s).1
              ≠ .error (.inconsistent cause))
          ∧ ∀ chain above, parse chain = .ok root → root.Under q above →
              root.enclosing q = above := by
  refine ⟨fun n => findOwner_expr_eq_none_iff, fun n index e => findOwner_expr_eq_some_iff, ?_⟩
  intro schema root q usage s
  refine ⟨fun hnone => exec_resolve_of_none hnone s, ?_,
    exec_resolve_ne_inconsistent schema root q r.expr usage s,
    fun chain above hparse hunder => enclosing_eq hparse hunder⟩
  intro nearer n farther index e hscope hnearer hfound
  obtain ⟨clause, hclause, hexec⟩ := exec_resolve_of_first hscope hnearer hfound
  exact ⟨clause, hclause, hexec s⟩

theorem resolve_at_first_owner_studentKey :
    ∃ root m clause, parse detailsWithStudents = .ok root ∧ root.Under m [root]
      ∧ m.findOwner studentKey
        = .ok (some (0, .member (.parameter studentOfDetail.asVariable) keyOfStudent))
      ∧ m.rangeClauses[0]? = some clause
      ∧ (resolve .school root m studentKey .filter).exec (.new "j")
        = (resolveAt .school { query := m.key, index := 0 } clause
            (.member (.parameter studentOfDetail.asVariable) keyOfStudent) .filter).exec
            (.new "j") := by
  obtain ⟨root, m, _, _, _, _, hparse, hunder, -, hclauses, hidentifier, -⟩ := studentKey_scope
  obtain ⟨-, hfinds, hresolve⟩ := resolve_at_first_owner {
    root := { name := "d", type := "StudentDetail" }
    members := [studentOfDetail, keyOfStudent] }
  have howns : m.OwnsAt { root := { name := "d", type := "StudentDetail" }
                          members := [studentOfDetail, keyOfStudent] } 1 0 m.main :=
    { owner := by rw [hclauses]; rfl
      meant := by rw [hidentifier]; rfl
      firstClause := by simp
      firstBound := by simp [Reference.variables, Query.Binds, hclauses, hidentifier]; decide }
  have hfound := (hfinds m 0 _).2 ⟨1, m.main, howns, rfl⟩
  rw [hidentifier] at hfound
  obtain ⟨-, hfirst, -, henclosing⟩ := hresolve .school root m .filter (.new "j")
  have hscope : m :: root.enclosing m = [] ++ m :: [root] := by
    rw [henclosing _ _ hparse hunder]
    rfl
  obtain ⟨clause, hclause, hexec⟩ := hfirst [] m [root] 0 _ hscope (by simp) hfound
  exact ⟨root, m, clause, hparse, hunder, hfound, hclause, hexec⟩

end QueryChain
