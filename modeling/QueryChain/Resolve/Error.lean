import QueryChain.Expr.Text

/-!
# Why a reference has no column

The reasons for which a reference in a query cannot be resolved.
-/

namespace QueryChain

/-- A reason why a reference has no column. -/
inductive ResolveError where
  /-- A clause was asked about a variable that is not its own. -/
  | otherVariable (own : Parameter) (actual : String)
  /-- The reference starts at no variable of the query or of one around it. -/
  | noOwner (reference : Expr)
  /-- The reference is no chain of members: a node of kind `kind` stands in it. -/
  | notAReference (reference : Expr) (kind : String)
  /-- A member on the way, along the path `path`, leads to no other table. -/
  | notARelation (member : Member) (path : String)
  | unmappedType (type : String)
  | noPrimaryKey (type : String)
  /-- The path `path` ends in the relation `member`, whose elements have no order. -/
  | orderingByRelation (path : String) (member : Member)
  /-- A clause that was found to own a reference refused it. -/
  | inconsistent (cause : ResolveError)
deriving Repr, Inhabited

/-- The text of an error. -/
def ResolveError.message : ResolveError → String
  | .otherVariable own actual =>
    "This resolver can only resolve accesses for parameter '" ++ own.name ++ "' of type '"
      ++ own.type ++ "', but got '" ++ actual ++ "'."
  | .noOwner reference =>
    "The expression '" ++ reference.text
      ++ "' references no from clause of the query or any enclosing query."
  | .notAReference reference kind =>
    "The expression '" ++ reference.text
      ++ "' is not a member access chain rooted at a range variable (" ++ kind ++ " found)."
  | .notARelation member path =>
    "Member '" ++ member.text ++ "' is not a relation, but it is used as one in '" ++ path ++ "'."
  | .unmappedType type => "Type '" ++ type ++ "' has no table mapping."
  | .noPrimaryKey type => "Type '" ++ type ++ "' has no primary key mapping."
  | .orderingByRelation path member =>
    "Ordering by '" ++ path ++ "' is not supported because it denotes an entity ('" ++ member.text
      ++ "' is a relation)."
  | .inconsistent cause => "Internal consistency error: " ++ cause.message

end QueryChain
