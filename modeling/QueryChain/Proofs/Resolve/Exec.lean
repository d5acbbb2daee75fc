import QueryChain.Proofs.Resolve.Attach

/-!
# Running sessions

What the operations of a session do to it, one equation or fact for each: sequences and handlers,
making a table, attaching joins.
-/

namespace QueryChain

/-! ## Running a session -/

namespace SessionM

/-- What a session answers, and the session after that. -/
def exec {α : Type} (x : SessionM α) (s : Session) : Except ResolveError α × Session :=
  (x.run).run s

variable {α β : Type}

theorem exec_bind (x : SessionM α) (f : α → SessionM β) (s : Session) :
    exec (x >>= f) s =
      match exec x s with
      | (.ok a, s') => exec (f a) s'
      | (.error error, s') => (.error error, s') := by
  simp only [exec, ExceptT.run_bind, StateT.run_bind]
  obtain ⟨r, s'⟩ := x.run.run s
  cases r <;> rfl

theorem exec_tryCatch (x : SessionM α) (handle : ResolveError → SessionM α) (s : Session) :
    exec (tryCatch x handle) s =
      match exec x s with
      | (.ok a, s') => (.ok a, s')
      | (.error error, s') => exec (handle error) s' := by
  simp only [exec, ExceptT.run_tryCatch, StateT.run_bind]
  generalize x.run.run s = result
  obtain ⟨r, s'⟩ := result
  cases r <;> rfl

end SessionM

/-! ## Making tables -/

/-- The tables of a path are made. -/
structure JoinPath.Made (ts : JoinedTables) (p : JoinPath) : Prop where
  first : p.first.Made ts
  joins : ∀ j ∈ p.joins, j.Made ts

theorem JoinPath.Made.last {ts : JoinedTables} {p : JoinPath} (h : p.Made ts) : p.last.Made ts := by
  unfold JoinPath.last
  split
  · rename_i join hlast
    exact (h.joins join (List.mem_of_getLast? hlast)).2
  · exact h.first

/-- The table at the end of a relation is a made one. -/
theorem join_made (ts : JoinedTables) (path : JoinPath) (relation : Member) (name : String) :
    ∃ index, (ts.join path relation name).1 = .joined index
      ∧ ts.Extends (ts.join path relation name).2
      ∧ index < (ts.join path relation name).2.tables.length := by
  unfold JoinedTables.join
  split
  · rename_i index hindex
    exact ⟨index, rfl, .refl ts, (List.findIdx?_eq_some_iff_getElem.1 hindex).1⟩
  · exact ⟨ts.tables.length, rfl, List.prefix_append _ _, by simp⟩

/-- The source is a joined table. -/
def Source.IsJoined : Source → Prop
  | .table (.joined _) => True
  | _ => False

/-- The source of a clause is no joined table. -/
theorem source_not_joined {schema : Schema} {key : ClauseKey} {clause : RangeClause} {own : Source}
    (h : clause.source schema key = .ok own) : ¬own.IsJoined := by
  unfold RangeClause.source at h
  simp only at h
  repeat' split at h
  all_goals
    cases h
    try exact id

theorem Source.made_of_not_joined {a : Source} (h : ¬a.IsJoined) (ts : JoinedTables) :
    a.Made ts := by
  unfold Made
  split
  · exact absurd trivial h
  · trivial

/-! ## Attaching joins -/

namespace Session

theorem attachAll_tables (s : Session) (key : ClauseKey) (js : List Join) :
    (s.attachAll key js).tables = s.tables := by
  induction js generalizing s with
  | nil => rfl
  | cons j js ih =>
    show ((s.attach key j).attachAll key js).tables = s.tables
    rw [ih, attach]
    split <;> rfl

theorem attach_joins (s : Session) (key : ClauseKey) (j : Join) (k : ClauseKey) :
    (s.attach key j).joins k
      = if k = key then attachTo s.tables (s.joins key) j else s.joins k := by
  unfold attach attachTo hasJoin
  by_cases hsame : ((s.joins key).any (s.tables.sameJoin · j)) = true
  · simp only [hsame, if_true]
    split
    · rename_i hk
      rw [hk]
    · rfl
  · simp only [hsame]
    by_cases hk : k = key <;> simp [hk]

theorem attachAll_joins (s : Session) (key : ClauseKey) (js : List Join) (k : ClauseKey) :
    (s.attachAll key js).joins k
      = if k = key then js.foldl (attachTo s.tables) (s.joins key) else s.joins k := by
  induction js generalizing s with
  | nil =>
    by_cases hk : k = key
    · simp [hk, attachAll]
    · simp [hk, attachAll]
  | cons j js ih =>
    have htables : (s.attach key j).tables = s.tables := attachAll_tables s key [j]
    show ((s.attach key j).attachAll key js).joins k = _
    rw [ih, htables]
    by_cases hk : k = key
    · simp [hk, attach_joins]
    · simp [hk, attach_joins]

end Session

end QueryChain
