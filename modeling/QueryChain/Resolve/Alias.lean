import QueryChain.Resolve.Table

/-!
# Naming joined tables

At the end of a session each joined table gets an alias: the prefix and the number of the table,
with a number appended where that name is taken. An alias is never changed.
-/

namespace QueryChain

/-- The names to try for a table: `base`, `base_1`, `base_2` and so on. -/
def aliasCandidate (base : String) : Nat → String
  | 0 => base
  | n + 1 => base ++ "_" ++ toString (n + 1)

/-- The first candidate from number `n` on that is not taken, after `tries` tries at most. -/
def freeAliasFrom (taken : List String) (base : String) : Nat → Nat → String
  | 0, n => aliasCandidate base n
  | tries + 1, n =>
    if taken.contains (aliasCandidate base n) then freeAliasFrom taken base tries (n + 1)
    else aliasCandidate base n

/-- The first candidate that is not taken. The candidates differ from each other, so one more try
than there are taken names is enough. -/
def freeAlias (taken : List String) (base : String) : String :=
  freeAliasFrom taken base taken.length 0

/-- Names the tables that have no alias, where the first table has the number `index` and `taken`
holds the names in use. -/
def nameTables (aliasPrefix : String) : List String → Nat → List TableEntry → List TableEntry
  | _, _, [] => []
  | taken, index, t :: ts =>
    match t.aliasName with
    | some _ => t :: nameTables aliasPrefix taken (index + 1) ts
    | none =>
      let aliasName := freeAlias taken (aliasPrefix ++ toString index)
      { t with aliasName := some aliasName }
        :: nameTables aliasPrefix (aliasName :: taken) (index + 1) ts

namespace JoinedTables

/-- The aliases given so far. -/
def aliases (ts : JoinedTables) : List String :=
  ts.tables.filterMap (·.aliasName)

/-- Names all joined tables that have no alias, without using a name of `names` or an alias of
another table. -/
def finalizeNames (ts : JoinedTables) (names : List String) : JoinedTables :=
  { ts with tables := nameTables ts.aliasPrefix (names ++ ts.aliases) 0 ts.tables }

/-- Names all joined tables that have no alias. The names of the range variables of `q`, and of the
queries nested in it, are not used. -/
def finalize (ts : JoinedTables) (q : Query) : JoinedTables :=
  ts.finalizeNames q.variableNames

end JoinedTables

end QueryChain
