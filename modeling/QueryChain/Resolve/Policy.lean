import QueryChain.Resolve.Error
import QueryChain.Schema.Basic

/-!
# What a reference means in a clause

The same reference means different things in different clauses. In a select clause a range variable
stands for the whole entity; in a where clause it is compared by primary key; nothing can be sorted
by an entity.
-/

namespace QueryChain

/-- What a clause uses its references for. -/
inductive Usage where
  | select
  | filter
  | ordering
  | binding
deriving DecidableEq, Repr, Inhabited

/-- The relations to join along and the member read at the end; without a member, the whole entity
is read. -/
structure Access where
  joins : List Member
  member : Option Member
deriving DecidableEq, Repr, Inhabited

namespace Usage

/-- The word for a use. -/
def name : Usage → String
  | .select => "select"
  | .filter => "where"
  | .ordering => "orderby"
  | .binding => "let"

/-- Whether a relation's foreign key may be read in place of the primary key of its target. -/
def readsForeignKeys : Usage → Bool
  | .select => false
  | _ => true

end Usage

/-- The primary key of a type. -/
def Schema.primaryKey (s : Schema) (type : String) : Except ResolveError Member :=
  match s.primaryKey? type with
  | some key => .ok key
  | none => .error (.noPrimaryKey type)

/-- The names of members with points between them. -/
def pathText (members : List Member) : String :=
  ".".intercalate (members.map (·.name))

namespace Usage

/-- What a range variable of type `type` means by itself. -/
def directAccess (usage : Usage) (s : Schema) (type : String) : Except ResolveError Access :=
  match usage with
  | .select | .binding => .ok { joins := [], member := none }
  | .filter | .ordering => do
    let key ← s.primaryKey type
    return { joins := [], member := some key }

/-- What the relation `relation`, reached through `joins`, means at the end of a reference. -/
def relationAccess (usage : Usage) (s : Schema) (joins : List Member) (relation : Member) :
    Except ResolveError Access :=
  match usage with
  | .select | .binding => .ok { joins := joins ++ [relation], member := none }
  | .filter =>
    match s.link? relation with
    | none => .error (.notARelation relation relation.text)
    | some link => do
      let key ← s.primaryKey link.targetType
      return { joins := joins ++ [relation], member := some key }
  | .ordering => .error (.orderingByRelation (pathText (joins ++ [relation])) relation)

/-- Reads a stored relation's foreign key in place of its target's primary key, where the use of the
reference allows it. -/
def shortcut (usage : Usage) (s : Schema) (access : Access) : Access :=
  match access.member, access.joins.getLast? with
  | some member, some relation =>
    match s.link? relation with
    | none => access
    | some link =>
      match s.primaryKey? link.targetType with
      | none => access
      | some key =>
        if usage.readsForeignKeys && !link.isVirtual && key.same member then
          { joins := access.joins.dropLast, member := some relation }
        else
          access
  | _, _ => access

end Usage

end QueryChain
