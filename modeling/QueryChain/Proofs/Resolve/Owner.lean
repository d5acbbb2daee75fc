import QueryChain.Proofs.Expr.Substitution
import QueryChain.Resolve.Session

/-!
# Owners of references

The clause that owns a reference is searched by rewriting the reference, a member at a time, until
it starts at a variable of the query. What the search finds can be read off the variable and the
members that the reference spells (`Query.owner?`), as each rewriting takes the first member and
makes it the variable (`unwrapped_read`).

* `findOwner_read` says that the search comes to that in one query;
* `findOwnerAmong_read` says so of the search through several.
-/

namespace QueryChain

/-- The first range variable of a query that is met along a reference, as the index of its clause,
with what is read from it. -/
def Query.owner? (q : Query) (root : Parameter) (members : List Member) :
    Option (Nat × Reference) :=
  match q.clauseIndex? root with
  | some index => some (index, { root, members })
  | none =>
    match members with
    | [] => none
    | k :: ks => q.owner? k.asVariable ks
termination_by structural members

/-- The first of some queries with a clause that owns a reference, with that clause and what is read
from its variable. -/
def ownerAmong? (queries : List Query) (r : Reference) :
    Option (ClauseKey × RangeClause × Reference) :=
  match queries with
  | [] => none
  | q :: qs =>
    match q.owner? r.root r.members with
    | some (index, owned) =>
      match q.rangeClauses[index]? with
      | some clause => some ({ query := q.key, index }, clause, owned)
      | none => none
    | none => ownerAmong? qs r

/-- The expression that spells a reference. -/
def Reference.expr (r : Reference) : Expr :=
  .read r.root r.members

/-! ## References as expressions -/

theorem reference_read (p : Parameter) (members : List Member) :
    (Expr.read p members).reference = .ok { root := p, members } := by
  have hspelled : (Expr.read p members).spelled = .ok { root := p, members } := by
    induction members using List.reverseRecOn with
    | nil => rfl
    | append_singleton members m ih => simp [Expr.read_concat, Expr.spelled, ih]
  rw [Expr.reference, hspelled]

theorem spelled_eq_ok {e : Expr} {r : Reference} (h : e.spelled = .ok r) : e = r.expr := by
  fun_induction Expr.spelled e generalizing r with
  | case1 p =>
    cases h
    rfl
  | case2 object m r' hobject ih =>
    cases h
    rw [ih hobject, Reference.expr, Reference.expr, Expr.read_concat]
  | case3 => cases h
  | case4 => cases h

/-- An expression is a reference exactly if it reads members from a variable. -/
theorem reference_eq_ok {e : Expr} {r : Reference} : e.reference = .ok r ↔ e = r.expr := by
  constructor
  · intro h
    unfold Expr.reference at h
    split at h
    · rename_i hspelled
      cases h
      exact spelled_eq_ok hspelled
    · cases h
  · rintro rfl
    exact reference_read r.root r.members

theorem Reference.expr_injective : Function.Injective Reference.expr := by
  intro r r' h
  have href : r.expr.reference = .ok r := reference_read r.root r.members
  rw [h] at href
  exact (Except.ok.inj ((reference_read r'.root r'.members).symm.trans href)).symm

/-! ## The search -/

/-- Rewriting makes the first member of a reference its variable. -/
theorem unwrapped_read (p : Parameter) (m : Member) (members : List Member) :
    (Expr.read p (m :: members)).unwrapped = .read m.asVariable members := by
  have hwalk : Id.run ((Expr.read p (m :: members)).walk unwrapper)
      = .changed (.read m.asVariable members) := by
    induction members using List.reverseRecOn with
    | nil => exact Expr.walk_unwrapper_start p m
    | append_singleton members k ih =>
      obtain ⟨object, last, hread⟩ := Expr.exists_read_cons_eq_member p m members
      rw [← List.cons_append, Expr.read_concat, Expr.read_concat, hread]
      exact Expr.walk_unwrapper_member (hread ▸ ih) k
  rw [Expr.unwrapped, hwalk, Outcome.value]

theorem findOwner_eq_error {q : Query} {e : Expr} {error : ResolveError}
    (h : e.reference = .error error) : q.findOwner e = .error error := by
  rw [Query.findOwner]
  split
  · rename_i herror
    cases h.symm.trans herror
    rfl
  · rename_i hok
    cases h.symm.trans hok

/-- One round of the search. -/
theorem findOwner_round {q : Query} {e : Expr} {r : Reference} (h : e.reference = .ok r) :
    q.findOwner e =
      match q.clauseIndex? r.root with
      | some index => .ok (some (index, e))
      | none => if r.members = [] then .ok none else q.findOwner e.unwrapped := by
  rw [Query.findOwner]
  split
  · rename_i herror
    cases h.symm.trans herror
  · rename_i hok
    cases h.symm.trans hok
    rfl

/-- The search in one query finds the first variable of the query that is met. -/
theorem findOwner_read (q : Query) (p : Parameter) (members : List Member) :
    q.findOwner (.read p members)
      = .ok ((q.owner? p members).map fun (index, owned) => (index, owned.expr)) := by
  induction members generalizing p with
  | nil =>
    rw [findOwner_round (reference_read p []), Query.owner?.eq_def]
    cases q.clauseIndex? p <;> rfl
  | cons m members ih =>
    rw [findOwner_round (reference_read p (m :: members)), Query.owner?.eq_def]
    cases q.clauseIndex? p with
    | some index => rfl
    | none =>
      rw [if_neg (List.cons_ne_nil m members), unwrapped_read]
      exact ih m.asVariable

theorem findOwner_read_eq_none {q : Query} {p : Parameter} {members : List Member} :
    q.findOwner (.read p members) = .ok none ↔ q.owner? p members = none := by
  rw [findOwner_read, Except.ok.injEq, Option.map_eq_none_iff]

theorem findOwner_read_eq_some {q : Query} {p x : Parameter} {members rest : List Member}
    {index : Nat} :
    q.findOwner (.read p members) = .ok (some (index, .read x rest))
      ↔ q.owner? p members = some (index, { root := x, members := rest }) := by
  rw [findOwner_read, Except.ok.injEq, Option.map_eq_some_iff]
  constructor
  · rintro ⟨⟨i, owned⟩, howner, heq⟩
    obtain ⟨rfl, hexpr⟩ := Prod.mk.inj heq
    have howned : owned = { root := x, members := rest } := Reference.expr_injective hexpr
    rw [howner, howned]
  · exact fun h => ⟨_, h, rfl⟩

/-- The search through several queries ends at the first one that owns the reference. -/
theorem findOwnerAmong_read (queries : List Query) (r : Reference) :
    findOwnerAmong r.expr queries
      = .ok ((ownerAmong? queries r).map fun (key, clause, owned) =>
        (key, clause, owned.expr)) := by
  induction queries with
  | nil => rfl
  | cons q queries ih =>
    rw [findOwnerAmong, ownerAmong?, Reference.expr, findOwner_read]
    cases q.owner? r.root r.members with
    | none => exact ih
    | some found =>
      obtain ⟨index, owned⟩ := found
      simp only [Option.map_some, Bind.bind, Except.bind, pure, Except.pure]
      cases q.rangeClauses[index]? <;> rfl

end QueryChain
