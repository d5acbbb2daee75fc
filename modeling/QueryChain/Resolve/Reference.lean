import QueryChain.Expr.Walk
import QueryChain.Query.Basic
import QueryChain.Resolve.Error

/-!
# References

A reference `a.B.C` is a range variable and the members read from it one after the other. Chains of
operators bundle earlier range variables in objects, so the variable that a reference means may be
spelled as a member: `t.s.First` means `s.First` where `t` bundles `s`.
-/

namespace QueryChain

/-- A range variable and the members read from it, in the order they are read. -/
structure Reference where
  root : Parameter
  members : List Member
deriving DecidableEq, Repr, Inhabited

/-- The reference that an expression spells, or the kind of the node that keeps it from being
one. -/
def Expr.spelled : Expr → Except String Reference
  | .parameter p => .ok { root := p, members := [] }
  | .member object m =>
    match object.spelled with
    | .ok r => .ok { r with members := r.members ++ [m] }
    | .error kind => .error kind
  | e => .error e.kind
termination_by structural e => e

/-- The reference that an expression spells. -/
def Expr.reference (e : Expr) : Except ResolveError Reference :=
  match e.spelled with
  | .ok r => .ok r
  | .error kind => .error (.notAReference e kind)

/-- A member read as a variable of its own. -/
def Member.asVariable (m : Member) : Parameter :=
  { name := m.name, type := m.type }

/-- Puts variables in the places of the members that are read from variables. -/
def unwrapper : Walker Id where
  before
    | .member (.parameter _) m => some (.parameter m.asVariable)
    | _ => none
  after e := .unchanged e

/-- A reference with its first member for the variable: `t.s.First` becomes `s.First`. -/
def Expr.unwrapped (e : Expr) : Expr :=
  (Id.run (e.walk unwrapper)).value

/-- The number of members that an expression reads one after the other. -/
def Expr.memberCount : Expr → Nat
  | .member object _ => object.memberCount + 1
  | _ => 0
termination_by structural e => e

namespace Expr

theorem walk_unwrapper_start (p : Parameter) (m : Member) :
    Id.run ((member (.parameter p) m).walk unwrapper) = .changed (.parameter m.asVariable) :=
  rfl

theorem walk_unwrapper_member {object object' : Expr} {k : Member}
    (h : Id.run ((member object k).walk unwrapper) = .changed object') (m : Member) :
    Id.run ((member (member object k) m).walk unwrapper) = .changed (.member object' m) := by
  have hwalk : (member object k).walk unwrapper = pure (.changed object') := h
  rw [walk, visit, hwalk]
  rfl

/-- A walk takes one member off a reference that has any. -/
theorem walk_unwrapper {e : Expr} {r : Reference} (h : e.spelled = .ok r)
    (hmembers : r.members ≠ []) :
    ∃ e', Id.run (e.walk unwrapper) = .changed e' ∧ e'.memberCount + 1 = e.memberCount := by
  fun_induction spelled e generalizing r with
  | case1 p =>
    cases h
    exact absurd rfl hmembers
  | case2 object m r' hobject ih =>
    cases object with
    | parameter p => exact ⟨_, walk_unwrapper_start p m, rfl⟩
    | member inner k =>
      have hne : r'.members ≠ [] := by
        rw [spelled] at hobject
        split at hobject <;> cases hobject
        simp
      obtain ⟨object', hwalk, hcount⟩ := ih hobject hne
      exact ⟨_, walk_unwrapper_member hwalk m, congrArg (· + 1) hcount⟩
    | _ => cases hobject
  | case3 => cases h
  | case4 => cases h

theorem memberCount_unwrapped_lt {e : Expr} {r : Reference} (h : e.reference = .ok r)
    (hmembers : r.members ≠ []) : e.unwrapped.memberCount < e.memberCount := by
  have hspelled : e.spelled = .ok r := by
    unfold reference at h
    split at h
    · rename_i hspelled
      rw [hspelled, Except.ok.inj h]
    · cases h
  obtain ⟨e', hwalk, hcount⟩ := walk_unwrapper hspelled hmembers
  rw [unwrapped, hwalk, Outcome.value]
  omega

end Expr

/-- The first range variable of a query that is met along the reference `e`, as the index of its
clause, with what is read from it. As long as the variable that `e` starts at is none of the query,
it is taken for a bundle of range variables. -/
@[semireducible]
def Query.findOwner (q : Query) (e : Expr) : Except ResolveError (Option (Nat × Expr)) :=
  match _href : e.reference with
  | .error error => .error error
  | .ok r =>
    match q.clauseIndex? r.root with
    | some index => .ok (some (index, e))
    | none =>
      if _hmembers : r.members = [] then .ok none
      else q.findOwner e.unwrapped
termination_by e.memberCount
decreasing_by exact Expr.memberCount_unwrapped_lt _href _hmembers

end QueryChain
