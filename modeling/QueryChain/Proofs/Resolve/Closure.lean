import QueryChain.Proofs.Chain.Keys
import QueryChain.Proofs.Resolve.Joins
import QueryChain.Proofs.Resolve.Naming
import QueryChain.Schema.School

/-!
# Closed joins

A text can be made of a resolved field only if the joins of its clause lead to the field's source:
all joins of the field's path must be there, with the same tables, and each join must start at the
clause's own source or where an earlier one ends. Joins are attached by what they look like, and
tables without an alias look alike, so a join that is needed may be dropped for another one.

* `Run` lists the answers of a session on one tree, which resolves references and names tables in
  any order;
* `closed_iff_told` says for every run when no join is lost: each join that is new to its clause
  must differ, by the names and aliases of its tables, from those that the clause was to have
  before;
* `closed_iff_told_backAndForth` is a run of one answer that loses a join, on a path that goes from
  a table to another and back twice.
-/

namespace QueryChain

/-! ## Clauses of a tree -/

/-- The clause with a key in the tree under a query. -/
def Query.HasClause (root : Query) (key : ClauseKey) (clause : RangeClause) : Prop :=
  ∃ q ∈ root.tree, q.key = key.query ∧ q.rangeClauses[key.index]? = some clause

theorem hasClause_unique {root : Query} (hkeys : (root.tree.map (·.key)).Nodup) {key : ClauseKey}
    {clause clause' : RangeClause} (h : root.HasClause key clause)
    (h' : root.HasClause key clause') : clause = clause' := by
  obtain ⟨q, hq, hkey, hclause⟩ := h
  obtain ⟨q', hq', hkey', hclause'⟩ := h'
  obtain rfl := List.inj_on_of_nodup_map hkeys hq hq' (hkey.trans hkey'.symm)
  exact Option.some.inj (hclause.symm.trans hclause')

theorem mem_enclosingFrom {queries : List Query} {steps : Nat} {parent : Option Nat} {m : Query}
    (h : m ∈ Query.enclosingFrom queries steps parent) : m ∈ queries := by
  induction steps generalizing parent with
  | zero => simp [Query.enclosingFrom] at h
  | succ steps ih =>
    cases parent with
    | none => simp [Query.enclosingFrom] at h
    | some key =>
      rw [Query.enclosingFrom] at h
      split at h
      · simp at h
      · rename_i q hfind
        rcases List.mem_cons.1 h with rfl | h
        · exact List.mem_of_find?_eq_some hfind
        · exact ih h

theorem ownerAmong?_mem {queries : List Query} {r owned : Reference} {key : ClauseKey}
    {clause : RangeClause} (h : ownerAmong? queries r = some (key, clause, owned)) :
    ∃ q ∈ queries, q.key = key.query ∧ q.rangeClauses[key.index]? = some clause := by
  induction queries with
  | nil => simp [ownerAmong?] at h
  | cons q qs ih =>
    rw [ownerAmong?] at h
    split at h
    · rename_i index owned' howner
      split at h
      · rename_i clause' hclause
        simp only [Option.some.injEq, Prod.mk.injEq] at h
        obtain ⟨rfl, rfl, -⟩ := h
        exact ⟨q, List.mem_cons_self, rfl, hclause⟩
      · simp at h
    · obtain ⟨m, hm, hclause⟩ := ih h
      exact ⟨m, List.mem_cons_of_mem _ hm, hclause⟩

/-- The clause that owns a reference in a query of a tree belongs to the tree. -/
theorem hasClause_of_owner {root q : Query} (hq : q ∈ root.tree) {r owned : Reference}
    {key : ClauseKey} {clause : RangeClause}
    (h : ownerAmong? (q :: root.enclosing q) r = some (key, clause, owned)) :
    root.HasClause key clause := by
  obtain ⟨m, hm, hclause⟩ := ownerAmong?_mem h
  refine ⟨m, ?_, hclause⟩
  rcases List.mem_cons.1 hm with rfl | hm
  · exact hq
  · exact mem_enclosingFrom hm

/-- The source that the columns of the clause with the key `key` are read from. -/
def OwnSource (schema : Schema) (root : Query) (key : ClauseKey) (own : Source) : Prop :=
  ∃ clause, root.HasClause key clause ∧ clause.source schema key = .ok own

theorem OwnSource.unique {schema : Schema} {root : Query}
    (hkeys : (root.tree.map (·.key)).Nodup) {key : ClauseKey} {own own' : Source}
    (h : OwnSource schema root key own) (h' : OwnSource schema root key own') : own = own' := by
  obtain ⟨clause, hclause, hown⟩ := h
  obtain ⟨clause', hclause', hown'⟩ := h'
  obtain rfl := hasClause_unique hkeys hclause hclause'
  exact Except.ok.inj (hown.symm.trans hown')

/-! ## Runs of a session -/

section

variable {schema : Schema} {root : Query} {s s' : Session} {key : ClauseKey} {f : Field}

/-- A reference that a query of the tree under `root` makes, or that is asked of one of its clauses,
resolves to the field `f` of the clause with the key `key`, and `s'` is the session after that. -/
inductive Answers (schema : Schema) (root : Query) (s : Session) :
    ClauseKey → Field → Session → Prop where
  | inQuery {q : Query} {e : Expr} {usage : Usage} {r owned : Reference} {key : ClauseKey}
      {clause : RangeClause} {f : Field} {s' : Session} :
      q ∈ root.tree → e.reference = .ok r →
      ownerAmong? (q :: root.enclosing q) r = some (key, clause, owned) →
      (resolve schema root q e usage).exec s = (.ok f, s') → Answers schema root s key f s'
  | atClause {e : Expr} {usage : Usage} {key : ClauseKey} {clause : RangeClause} {f : Field}
      {s' : Session} :
      root.HasClause key clause → (resolveAt schema key clause e usage).exec s = (.ok f, s') →
      Answers schema root s key f s'

/-- A reference has no answer, and `s'` is the session after that. -/
inductive Refuses (schema : Schema) (root : Query) (s : Session) : Session → Prop where
  | inQuery {q : Query} {e : Expr} {usage : Usage} {error : ResolveError} {s' : Session} :
      q ∈ root.tree → (resolve schema root q e usage).exec s = (.error error, s') →
      Refuses schema root s s'
  | atClause {e : Expr} {usage : Usage} {key : ClauseKey} {clause : RangeClause}
      {error : ResolveError} {s' : Session} :
      root.HasClause key clause →
      (resolveAt schema key clause e usage).exec s = (.error error, s') → Refuses schema root s s'

theorem Answers.resolved (h : Answers schema root s key f s') :
    ∃ own, OwnSource schema root key own ∧ Resolved s key own f s' := by
  cases h with
  | inQuery hq href howner hexec =>
    rcases resolve_exec hexec with ⟨_, heq, -⟩ | ⟨_, _, _, _, href', howner', hattempt⟩
    · cases heq
    · cases href.symm.trans href'
      cases howner.symm.trans howner'
      cases hattempt with
      | resolved hown hresolved =>
        exact ⟨_, ⟨_, hasClause_of_owner hq howner, hown⟩, hresolved⟩
  | atClause hclause hexec =>
    cases resolveAt_exec hexec with
    | resolved hown hresolved => exact ⟨_, ⟨_, hclause, hown⟩, hresolved⟩

theorem Refuses.grows (h : Refuses schema root s s') : s.Grows s' := by
  cases h with
  | inQuery _ hexec =>
    rcases resolve_exec hexec with ⟨_, -, rfl⟩ | ⟨_, _, _, _, -, -, hattempt⟩
    · exact .refl _
    · cases hattempt with
      | failed hgrows => exact hgrows
  | atClause _ hexec =>
    cases resolveAt_exec hexec with
    | failed hgrows => exact hgrows

end

/-- An answer: the clause that owns the reference, the field it resolves to, and the session around
that. -/
structure Answered where
  key : ClauseKey
  field : Field
  before : Session
  after : Session

/-- Runs of a session on the tree under `root`, with their answers, the last one first. Any
references are resolved in any order, with and without success, and tables may be named for any
query at any time. -/
inductive Run (schema : Schema) (root : Query) (aliasPrefix : String) :
    List Answered → Session → Prop where
  | start : Run schema root aliasPrefix [] (.new aliasPrefix)
  | answered {log : List Answered} {s s' : Session} {key : ClauseKey} {f : Field} :
      Run schema root aliasPrefix log s → Answers schema root s key f s' →
      Run schema root aliasPrefix ({ key, field := f, before := s, after := s' } :: log) s'
  | refused {log : List Answered} {s s' : Session} :
      Run schema root aliasPrefix log s → Refuses schema root s s' →
      Run schema root aliasPrefix log s'
  | named {log : List Answered} {s : Session} (q : Query) :
      Run schema root aliasPrefix log s →
      Run schema root aliasPrefix log { s with tables := s.tables.finalize q }

/-- The joins on the paths of the answers that a clause owns. -/
def owned (log : List Answered) (key : ClauseKey) : List Join :=
  (log.filter (·.key = key)).flatMap (·.field.path.joins)

/-- Each clause has all joins of the paths that it owns, and its joins are chained from its own
source. -/
structure Closed (schema : Schema) (root : Query) (log : List Answered) (s : Session) : Prop where
  present : ∀ a ∈ log, ∀ j ∈ a.field.path.joins, j ∈ s.joins a.key
  chained : ∀ key own, OwnSource schema root key own → Chained own (s.joins key)

/-- The joins of the clauses are closed in the session `s` and were so before each answer. -/
def ClosedThroughout (schema : Schema) (root : Query) : List Answered → Session → Prop
  | [], s => Closed schema root [] s
  | a :: log, s => Closed schema root (a :: log) s ∧ ClosedThroughout schema root log a.before

/-- Each join that is new to a clause was told, when it was to be attached, from all joins on the
paths that the clause owned before and from those before it on its own path. -/
def ToldThroughout : List Answered → Prop
  | [] => True
  | a :: log => Told a.after.tables (owned log a.key) a.field.path.joins ∧ ToldThroughout log

section

variable {schema : Schema} {root : Query} {aliasPrefix : String} {log : List Answered}
  {s s' : Session} {key : ClauseKey} {own : Source} {f : Field}

theorem mem_owned {j : Join} :
    j ∈ owned log key ↔ ∃ a ∈ log, a.key = key ∧ j ∈ a.field.path.joins := by
  simp [owned, and_assoc]

theorem owned_cons (a : Answered) (log : List Answered) (key : ClauseKey) :
    owned (a :: log) key
      = if a.key = key then a.field.path.joins ++ owned log key else owned log key := by
  by_cases h : a.key = key <;> simp [owned, h]

theorem Closed.congr (h : Closed schema root log s) (hjoins : s'.joins = s.joins) :
    Closed schema root log s' where
  present := by
    rw [hjoins]
    exact h.present
  chained := by
    rw [hjoins]
    exact h.chained

/-- A clause has no joins but those of the paths that it owns. -/
theorem Run.joins_subset (hrun : Run schema root aliasPrefix log s) (key : ClauseKey) :
    s.joins key ⊆ owned log key := by
  induction hrun with
  | start => simp [Session.new]
  | @answered log s s' key' f _ hanswers ih =>
    obtain ⟨own, -, hresolved⟩ := hanswers.resolved
    rw [hresolved.joins, owned_cons]
    split
    · rename_i hkey
      subst hkey
      rw [if_pos rfl]
      intro j hj
      rcases List.mem_append.1 (foldl_attachTo_subset _ _ _ hj) with hj | hj
      · exact List.mem_append_right _ (ih hj)
      · exact List.mem_append_left _ hj
    · rename_i hkey
      rw [if_neg fun heq => hkey heq.symm]
      exact ih
  | refused _ hrefuses ih =>
    rw [hrefuses.grows.joins]
    exact ih
  | named q _ ih => exact ih

/-- Where the joins of the clauses are closed, an answer keeps that exactly if it tells its new
joins. -/
theorem Closed.resolved_iff (hkeys : (root.tree.map (·.key)).Nodup) (h : Closed schema root log s)
    (hsub : s.joins key ⊆ owned log key) (hown : OwnSource schema root key own)
    (hresolved : Resolved s key own f s') :
    Closed schema root ({ key, field := f, before := s, after := s' } :: log) s'
      ↔ Told s'.tables (owned log key) f.path.joins := by
  have hmem : ∀ j, j ∈ s.joins key ↔ j ∈ owned log key := by
    intro j
    refine ⟨fun hj => hsub hj, fun hj => ?_⟩
    obtain ⟨a, ha, rfl, hpath⟩ := mem_owned.1 hj
    exact h.present a ha j hpath
  -- What the clause has is what it was to have, so both tell its new joins alike.
  rw [← Told.congr hmem]
  have hjoins := hresolved.joins key
  rw [if_pos rfl] at hjoins
  constructor
  · intro hclosed
    rw [← subset_foldl_attachTo_iff, ← hjoins]
    exact hclosed.present _ List.mem_cons_self
  · intro htold
    refine ⟨?_, ?_⟩
    · intro a ha j hj
      rcases List.mem_cons.1 ha with rfl | ha
      · rw [hjoins]
        exact subset_foldl_attachTo_iff.2 htold hj
      · have hj := h.present a ha j hj
        rw [hresolved.joins]
        split
        · rename_i hkey
          exact (prefix_foldl_attachTo _ _ _).subset (hkey ▸ hj)
        · exact hj
    · intro key' own' hown'
      rw [hresolved.joins]
      split
      · rename_i hkey
        subst hkey
        -- Keys differ within the tree, so the key stands for the clause that answered.
        obtain rfl := hown.unique hkeys hown'
        exact (h.chained _ _ hown).attachAll (.inl rfl) hresolved.linked htold
      · exact h.chained key' own' hown'

theorem ClosedThroughout.closed (h : ClosedThroughout schema root log s) :
    Closed schema root log s := by
  cases log with
  | nil => exact h
  | cons a log => exact h.1

theorem closedThroughout_congr (hjoins : s'.joins = s.joins) :
    ClosedThroughout schema root log s' ↔ ClosedThroughout schema root log s := by
  cases log with
  | nil => exact ⟨fun h => Closed.congr h hjoins.symm, fun h => Closed.congr h hjoins⟩
  | cons a log =>
    exact and_congr_left' ⟨fun h => h.congr hjoins.symm, fun h => h.congr hjoins⟩

theorem Run.closedThroughout_iff (hkeys : (root.tree.map (·.key)).Nodup)
    (hrun : Run schema root aliasPrefix log s) :
    ClosedThroughout schema root log s ↔ ToldThroughout log := by
  induction hrun with
  | start =>
    simp only [ClosedThroughout, ToldThroughout, iff_true]
    exact ⟨by simp, fun _ own _ => .nil own⟩
  | answered hrun hanswers ih =>
    obtain ⟨own, hown, hresolved⟩ := hanswers.resolved
    rw [ClosedThroughout, ToldThroughout, ← ih]
    refine and_congr_left fun hclosed => ?_
    exact hclosed.closed.resolved_iff hkeys (hrun.joins_subset _) hown hresolved
  | refused _ hrefuses ih =>
    rw [closedThroughout_congr hrefuses.grows.joins]
    exact ih
  | named q _ ih =>
    rw [← ih]
    exact closedThroughout_congr rfl

/-- No table has an alias. -/
def JoinedTables.Unnamed (ts : JoinedTables) : Prop :=
  ∀ t ∈ ts.tables, t.aliasName = none

theorem JoinedTables.Unnamed.of_extends {ts ts' : JoinedTables} (h : ts'.Unnamed)
    (hext : ts.Extends ts') : ts.Unnamed :=
  fun t ht => h t (hext.subset ht)

/-- Naming leaves an alias unless there is no table. -/
theorem JoinedTables.Unnamed.finalize_eq {ts : JoinedTables} {q : Query}
    (h : (ts.finalize q).Unnamed) : ts.finalize q = ts := by
  have hnil : (ts.finalize q).tables = [] := by
    refine List.eq_nil_iff_forall_not_mem.2 fun t ht => ?_
    obtain ⟨aliasName, halias⟩ := (finalize_naming ts q).complete t ht
    rw [h t ht] at halias
    cases halias
  have hlength := (finalize_naming ts q).length_eq
  rw [hnil] at hlength
  calc ts.finalize q
      = { ts with tables := (ts.finalize q).tables } := rfl
    _ = ts := by rw [hnil, ← List.length_eq_zero_iff.1 hlength.symm]

/-- While no table is named, equal joins stay equal and different ones different, so each clause has
one join of each kind that it owns. -/
theorem Run.attached (hrun : Run schema root aliasPrefix log s) (hunnamed : s.tables.Unnamed)
    (key : ClauseKey) :
    (∀ j ∈ owned log key, j.Made s.tables) ∧ Attached s.tables (owned log key) (s.joins key) := by
  induction hrun with
  | start => exact ⟨by simp [owned], .nil _⟩
  | @answered log s s' key' f hrun hanswers ih =>
    obtain ⟨own, -, hresolved⟩ := hanswers.resolved
    obtain ⟨hmade, hattached⟩ := ih (hunnamed.of_extends hresolved.tables)
    have hmade' : ∀ j ∈ owned log key, j.Made s'.tables :=
      fun j hj => hresolved.tables.made (hmade j hj)
    -- The tables that were added change nothing between the joins that were there.
    have hattached := hattached.extend hresolved.tables hmade
      fun j hj => hmade j (hrun.joins_subset key hj)
    rw [owned_cons, hresolved.joins]
    split
    · rename_i hkey
      subst hkey
      rw [if_pos rfl]
      refine ⟨?_, hattached.attachAll _⟩
      intro j hj
      rcases List.mem_append.1 hj with hj | hj
      · exact hresolved.made j hj
      · exact hmade' j hj
    · rename_i hkey
      rw [if_neg fun heq => hkey heq.symm]
      exact ⟨hmade', hattached⟩
  | @refused log s s' hrun hrefuses ih =>
    have hgrows := hrefuses.grows
    obtain ⟨hmade, hattached⟩ := ih (hunnamed.of_extends hgrows.tables)
    rw [hgrows.joins]
    exact ⟨fun j hj => hgrows.tables.made (hmade j hj), hattached.extend hgrows.tables hmade
      fun j hj => hmade j (hrun.joins_subset key hj)⟩
  | named q hrun ih =>
    -- There is no table yet, or naming would have left an alias.
    simp only [hunnamed.finalize_eq] at hunnamed ⊢
    exact ih hunnamed

/-- While no table is named, joins that are closed after an answer were so before it. -/
theorem Closed.of_resolved {a : Answered} (hrun : Run schema root aliasPrefix log s)
    (hrun' : Run schema root aliasPrefix (a :: log) s') (hunnamed : s'.tables.Unnamed)
    (hresolved : Resolved s a.key own a.field s') (h : Closed schema root (a :: log) s') :
    Closed schema root log s := by
  have hkept : ∀ key, s.joins key <+: s'.joins key := by
    intro key
    rw [hresolved.joins]
    split
    · rename_i hkey
      subst hkey
      exact prefix_foldl_attachTo _ _ _
    · exact List.prefix_rfl
  refine ⟨?_, fun key own hown => (h.chained key own hown).restrict (hkept key)⟩
  intro b hb j hj
  obtain ⟨hmade, hattached⟩ := hrun.attached (hunnamed.of_extends hresolved.tables) b.key
  obtain ⟨-, hattached'⟩ := hrun'.attached hunnamed b.key
  have hjowned : j ∈ owned log b.key := mem_owned.2 ⟨b, hb, rfl, hj⟩
  -- An equal of `j` was attached before. Both are there after it, so they are one join.
  obtain ⟨j', hj', hsame⟩ := hattached.covered j hjowned
  have hsame : s'.tables.sameJoin j' j := by
    rwa [JoinedTables.sameJoin_of_extends hresolved.tables
      (hmade j' (hrun.joins_subset _ hj')) (hmade j hjowned)]
  have hpresent : j ∈ s'.joins b.key := h.present b (List.mem_cons_of_mem _ hb) j hj
  obtain rfl := hattached'.eq_of_same ((hkept _).subset hj') hpresent hsame
  exact hj'

theorem Run.closed_iff (hkeys : (root.tree.map (·.key)).Nodup)
    (hrun : Run schema root aliasPrefix log s) (hunnamed : s.tables.Unnamed) :
    Closed schema root log s ↔ ToldThroughout log := by
  constructor
  · intro hclosed
    induction hrun with
    | start => trivial
    | answered hrun hanswers ih =>
      obtain ⟨own, hown, hresolved⟩ := hanswers.resolved
      have hbefore := hclosed.of_resolved hrun (hrun.answered hanswers) hunnamed hresolved
      exact ⟨(hbefore.resolved_iff hkeys (hrun.joins_subset _) hown hresolved).1 hclosed,
        ih (hunnamed.of_extends hresolved.tables) hbefore⟩
    | refused _ hrefuses ih =>
      exact ih (hunnamed.of_extends hrefuses.grows.tables) (hclosed.congr hrefuses.grows.joins.symm)
    | named q _ ih =>
      simp only [hunnamed.finalize_eq] at hunnamed
      exact ih hunnamed (hclosed.congr rfl)
  · intro htold
    exact ((hrun.closedThroughout_iff hkeys).2 htold).closed

theorem Run.resolved_of_mem (hrun : Run schema root aliasPrefix log s) {a : Answered}
    (ha : a ∈ log) : ∃ own, Resolved a.before a.key own a.field a.after := by
  induction hrun with
  | start => simp at ha
  | answered _ hanswers ih =>
    rcases List.mem_cons.1 ha with rfl | ha
    · obtain ⟨own, -, hresolved⟩ := hanswers.resolved
      exact ⟨own, hresolved⟩
    · exact ih ha
  | refused _ _ ih => exact ih ha
  | named _ _ ih => exact ih ha

/-- The joins of the clauses of a parsed tree are closed throughout a run exactly if every new join
was told from the joins before it. While no table is named, the joins at the end decide that alone.
A clause without joins gets those of the first path that it owns exactly if no two of them are
equal. -/
theorem closed_iff_told {e : Expr} (hparse : parse e = .ok root)
    (hrun : Run schema root aliasPrefix log s) :
    (ClosedThroughout schema root log s ↔ ToldThroughout log)
      ∧ (s.tables.Unnamed → (Closed schema root log s ↔ ToldThroughout log))
      ∧ ∀ a ∈ log, a.before.joins a.key = [] →
        (a.after.joins a.key = a.field.path.joins
          ↔ a.field.path.joins.Pairwise fun j j' => ¬a.after.tables.sameJoin j j') := by
  have hkeys := keys_nodup hparse
  refine ⟨hrun.closedThroughout_iff hkeys, hrun.closed_iff hkeys, ?_⟩
  intro a ha hfresh
  obtain ⟨own, hresolved⟩ := hrun.resolved_of_mem ha
  rw [hresolved.joins, if_pos rfl, hfresh]
  exact foldl_attachTo_nil

end

/-- A student's detail, and from it to the student and back twice. -/
def backAndForth : Expr :=
  let read (e : Expr) (declaringType name type : String) :=
    Expr.member e { declaringType, name, type }
  let student (e : Expr) := read e "StudentDetail" "Student" "Student"
  let detail (e : Expr) := read (student e) "Student" "Details" "IEnumerable<StudentDetail>"
  read (detail (detail (.parameter { name := "sd", type := "StudentDetail" })))
    "StudentDetail" "Subject" "String"

/-- The subjects that are found in `backAndForth`. -/
def subjectsChain : Expr :=
  Chain.select (.table "StudentDetails" "StudentDetail")
    (.lambda [{ name := "sd", type := "StudentDetail" }] backAndForth)

/-- The join from a detail to the student. -/
def back (detail student : Source) : Join where
  left := { source := detail, name := some "Student_Detail_to_Student_FK" }
  right := { source := student, name := some "IDColumn" }

/-- The join from a student to the details. -/
def forth (student detail : Source) : Join where
  left := { source := student, name := some "IDColumn" }
  right := { source := detail, name := some "Student_Detail_to_Student_FK" }

/-- The joins along `backAndForth`, where the last one is equal to the second. -/
def backAndForthJoins : List Join :=
  let table (index : Nat) := Source.table (.joined index)
  [back (.table (.ofClause { query := 0, index := 0 } "detailTable" "sd")) (table 0),
    forth (table 0) (table 1), back (table 1) (table 2), forth (table 2) (table 3)]

theorem backAndForth_answered :
    ∃ root f s, parse subjectsChain = .ok root
      ∧ Answers .school root (.new "j") { query := 0, index := 0 } f s
      ∧ f.path.joins = backAndForthJoins ∧ s.tables.Unnamed
      ∧ s.tables.sameJoin (forth (.table (.joined 0)) (.table (.joined 1)))
          (forth (.table (.joined 2)) (.table (.joined 3))) := by
  refine ⟨_, _, _, rfl, .inQuery List.mem_cons_self (rfl : backAndForth.reference = _) rfl
    (rfl : (resolve .school _ _ backAndForth .select).exec _ = _), rfl, ?_, rfl⟩
  unfold JoinedTables.Unnamed
  decide

theorem closed_iff_told_backAndForth :
    ∃ root a s, parse subjectsChain = .ok root ∧ Run .school root "j" [a] s
      ∧ ¬Closed .school root [a] s ∧ s.joins a.key ≠ a.field.path.joins := by
  obtain ⟨root, f, s, hparse, hanswers, hjoins, hunnamed, hsame⟩ := backAndForth_answered
  have hrun := Run.start.answered hanswers
  have hclosed := closed_iff_told hparse hrun
  refine ⟨root, _, s, hparse, hrun, ?_, ?_⟩
  · rw [hclosed.2.1 hunnamed]
    rintro ⟨htold, -⟩
    have htold : Told s.tables [] backAndForthJoins := hjoins ▸ htold
    exact htold (backAndForthJoins.take 3) _ [] rfl (by decide) _ (by decide) hsame
  · intro heq
    have hpairwise := (hclosed.2.2 _ List.mem_cons_self rfl).1 heq
    rw [hjoins] at hpairwise
    have := (List.pairwise_iff_getElem.1 hpairwise) 1 3 (by decide) (by decide) (by decide)
    exact this hsame

end QueryChain
