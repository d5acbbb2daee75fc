import Mathlib.Data.List.Nodup
import Mathlib.Data.List.Perm.Subperm
import QueryChain.Proofs.Query.Tree
import QueryChain.Resolve.Alias

/-!
# Aliases along a session

Joined tables are made and named in any order during a session. This module follows the aliases
through all such runs:

* the search for a free name is a loop without a bound (`FreeNameSearch`), and it ends, since its
  candidates differ and only finitely many names are taken;
* naming all tables is a loop around it (`Naming`), from which everything else is read off: aliases
  given before are kept, each table has one in the end, and the new ones avoid all names in use;
* a run keeps the aliases apart and never changes one (`aliases_along_run`).
-/

namespace QueryChain

/-! ## The search for a free name -/

theorem aliasCandidate_injective (base : String) : Function.Injective (aliasCandidate base) := by
  have longer : ∀ n, base ≠ aliasCandidate base (n + 1) := by
    intro n h
    have hlength := congrArg String.length h
    have hbar : "_".length = 1 := rfl
    simp only [aliasCandidate, String.length_append, hbar] at hlength
    omega
  intro m n h
  match m, n with
  | 0, 0 => rfl
  | 0, n + 1 => exact absurd h (longer n)
  | m + 1, 0 => exact absurd h.symm (longer m)
  | m + 1, n + 1 =>
    have hdigits : Nat.toDigits 10 (m + 1) = Nat.toDigits 10 (n + 1) := by
      simpa [aliasCandidate, ← String.toList_inj] using h
    simpa using congrArg (Nat.ofDigitChars 10 · 0) hdigits

/-- The loop that tries the candidates from number `n` on, for as long as they are taken, ends with
the name `found`. -/
inductive FreeNameSearch (taken : List String) (base : String) : Nat → String → Prop where
  | free {n : Nat} : aliasCandidate base n ∉ taken →
    FreeNameSearch taken base n (aliasCandidate base n)
  | next {n : Nat} {found : String} : aliasCandidate base n ∈ taken →
    FreeNameSearch taken base (n + 1) found → FreeNameSearch taken base n found

theorem FreeNameSearch.not_mem {taken : List String} {base : String} {n : Nat} {found : String}
    (h : FreeNameSearch taken base n found) : found ∉ taken := by
  induction h with
  | free h => exact h
  | next _ _ ih => exact ih

/-- A bounded search that has a free candidate within its reach is the search without a bound. -/
theorem freeAliasFrom_search {taken : List String} {base : String} {tries n : Nat}
    (h : ∃ k ≤ tries, aliasCandidate base (n + k) ∉ taken) :
    FreeNameSearch taken base n (freeAliasFrom taken base tries n) := by
  induction tries generalizing n with
  | zero =>
    obtain ⟨k, hk, hfree⟩ := h
    obtain rfl : k = 0 := by omega
    exact .free hfree
  | succ tries ih =>
    simp only [freeAliasFrom, List.contains_iff_mem]
    split
    · rename_i htaken
      refine .next htaken (ih ?_)
      obtain ⟨k, hk, hfree⟩ := h
      match k with
      | 0 => exact absurd htaken hfree
      | k + 1 => exact ⟨k, by omega, by rwa [show n + 1 + k = n + (k + 1) from by omega]⟩
    · rename_i hfree
      exact .free hfree

/-- Of one candidate more than there are taken names, one is free. -/
theorem exists_free_candidate (taken : List String) (base : String) :
    ∃ k ≤ taken.length, aliasCandidate base k ∉ taken := by
  -- Otherwise the candidates, which all differ, would be more than the taken names.
  by_contra hall
  have hsub : (List.range (taken.length + 1)).map (aliasCandidate base) ⊆ taken := by
    intro name hname
    obtain ⟨k, hk, rfl⟩ := List.mem_map.1 hname
    have hk' : k ≤ taken.length := by
      have := List.mem_range.1 hk
      omega
    by_contra hfree
    exact hall ⟨k, hk', hfree⟩
  have hnodup := List.nodup_range (n := taken.length + 1) |>.map (aliasCandidate_injective base)
  have hlength := (hnodup.subperm hsub).length_le
  simp only [List.length_map, List.length_range] at hlength
  omega

theorem freeAlias_search (taken : List String) (base : String) :
    FreeNameSearch taken base 0 (freeAlias taken base) := by
  refine freeAliasFrom_search ?_
  obtain ⟨k, hk, hfree⟩ := exists_free_candidate taken base
  exact ⟨k, hk, by simpa using hfree⟩

/-! ## Naming all tables -/

/-- The loop over the tables, from the table with the number `index` on: a table with an alias keeps
it, and one without gets the name that a search finds, which is taken from then on. -/
inductive Naming (aliasPrefix : String) :
    List String → Nat → List TableEntry → List TableEntry → Prop where
  | done {taken : List String} {index : Nat} : Naming aliasPrefix taken index [] []
  | kept {taken : List String} {index : Nat} {t : TableEntry} {ts named : List TableEntry}
      {aliasName : String} : t.aliasName = some aliasName →
    Naming aliasPrefix taken (index + 1) ts named →
    Naming aliasPrefix taken index (t :: ts) (t :: named)
  | given {taken : List String} {index : Nat} {t : TableEntry} {ts named : List TableEntry}
      {aliasName : String} : t.aliasName = none →
    FreeNameSearch taken (aliasPrefix ++ toString index) 0 aliasName →
    Naming aliasPrefix (aliasName :: taken) (index + 1) ts named →
    Naming aliasPrefix taken index (t :: ts) ({ t with aliasName := some aliasName } :: named)

theorem nameTables_naming (aliasPrefix : String) (taken : List String) (index : Nat)
    (ts : List TableEntry) :
    Naming aliasPrefix taken index ts (nameTables aliasPrefix taken index ts) := by
  induction ts generalizing taken index with
  | nil => exact .done
  | cons t ts ih =>
    cases h : t.aliasName with
    | some aliasName =>
      simp only [nameTables, h]
      exact .kept h (ih taken (index + 1))
    | none =>
      simp only [nameTables, h]
      exact .given h (freeAlias_search _ _) (ih _ (index + 1))

namespace Naming

variable {aliasPrefix : String} {taken : List String} {index : Nat} {ts named : List TableEntry}

theorem length_eq (h : Naming aliasPrefix taken index ts named) : named.length = ts.length := by
  induction h with
  | done => rfl
  | kept _ _ ih => simp [ih]
  | given _ _ _ ih => simp [ih]

/-- No table is left without an alias. -/
theorem complete (h : Naming aliasPrefix taken index ts named) :
    ∀ t ∈ named, ∃ aliasName, t.aliasName = some aliasName := by
  induction h with
  | done => simp
  | kept h _ ih => simpa [h] using ih
  | given _ _ _ ih => simpa using ih

/-- A table that has an alias is left as it is. -/
theorem kept_entry (h : Naming aliasPrefix taken index ts named) {i : Nat} {t : TableEntry}
    {aliasName : String} (ht : ts[i]? = some t) (halias : t.aliasName = some aliasName) :
    named[i]? = some t := by
  induction h generalizing i with
  | done => simp at ht
  | kept _ _ ih =>
    cases i with
    | zero => simpa using ht
    | succ i => simpa using ih (by simpa using ht)
  | given hnone _ _ ih =>
    cases i with
    | zero =>
      obtain rfl := by simpa using ht
      simp [hnone] at halias
    | succ i => simpa using ih (by simpa using ht)

/-- Nothing of a table is changed but its alias. -/
theorem entry (h : Naming aliasPrefix taken index ts named) {i : Nat} {t : TableEntry}
    (ht : ts[i]? = some t) :
    ∃ aliasName, named[i]? = some { t with aliasName := some aliasName } := by
  induction h generalizing i with
  | done => simp at ht
  | @kept _ _ t' _ _ aliasName hsome _ ih =>
    cases i with
    | zero =>
      obtain rfl := by simpa using ht
      exact ⟨aliasName, by simp [← hsome]⟩
    | succ i => simpa using ih (by simpa using ht)
  | given _ _ _ ih =>
    cases i with
    | zero =>
      obtain rfl := by simpa using ht
      exact ⟨_, by simp; rfl⟩
    | succ i => simpa using ih (by simpa using ht)

/-- The alias of a table that had none is not taken. -/
theorem given_not_mem (h : Naming aliasPrefix taken index ts named) {i : Nat} {t t' : TableEntry}
    {aliasName : String} (ht : ts[i]? = some t) (hnone : t.aliasName = none)
    (ht' : named[i]? = some t') (halias : t'.aliasName = some aliasName) : aliasName ∉ taken := by
  induction h generalizing i with
  | done => simp at ht
  | kept hsome _ ih =>
    cases i with
    | zero =>
      obtain rfl := by simpa using ht
      simp [hnone] at hsome
    | succ i => exact ih (by simpa using ht) (by simpa using ht')
  | given _ hsearch _ ih =>
    cases i with
    | zero =>
      obtain rfl := by simpa using ht'
      obtain rfl := by simpa using halias
      exact hsearch.not_mem
    | succ i =>
      intro hmem
      exact ih (by simpa using ht) (by simpa using ht') (List.mem_cons_of_mem _ hmem)

theorem eq_self_of_complete (h : Naming aliasPrefix taken index ts named)
    (hall : ∀ t ∈ ts, ∃ aliasName, t.aliasName = some aliasName) : named = ts := by
  induction h with
  | done => rfl
  | kept _ _ ih => rw [ih fun t ht => hall t (List.mem_cons_of_mem _ ht)]
  | given hnone _ _ _ =>
    obtain ⟨aliasName, h⟩ := hall _ List.mem_cons_self
    simp [hnone] at h

/-- The aliases stay apart when all that are in use count as taken. -/
theorem nodup (h : Naming aliasPrefix taken index ts named)
    (hnodup : (ts.filterMap (·.aliasName)).Nodup)
    (htaken : ∀ a ∈ ts.filterMap (·.aliasName), a ∈ taken) :
    (named.filterMap (·.aliasName)).Nodup ∧
      ∀ a ∈ named.filterMap (·.aliasName), a ∈ ts.filterMap (·.aliasName) ∨ a ∉ taken := by
  induction h with
  | done => simp
  | @kept taken index t ts named aliasName hsome _ ih =>
    simp only [List.filterMap_cons, hsome, List.nodup_cons, List.mem_cons] at hnodup htaken ⊢
    obtain ⟨hfresh, hnodup⟩ := hnodup
    obtain ⟨hrest, hnew⟩ := ih hnodup fun a ha => htaken a (.inr ha)
    refine ⟨⟨fun hmem => ?_, hrest⟩, ?_⟩
    · rcases hnew _ hmem with hold | hfree
      · exact hfresh hold
      · exact hfree (htaken _ (.inl rfl))
    · rintro a (rfl | ha)
      · exact .inl (.inl rfl)
      · exact (hnew a ha).imp_left .inr
  | @given taken index t ts named aliasName hnone hsearch _ ih =>
    simp only [List.filterMap_cons, hnone] at hnodup htaken ⊢
    obtain ⟨hrest, hnew⟩ := ih hnodup fun a ha => List.mem_cons_of_mem _ (htaken a ha)
    simp only [List.mem_cons, not_or] at hnew
    refine ⟨List.nodup_cons.2 ⟨fun hmem => ?_, hrest⟩, ?_⟩
    · rcases hnew _ hmem with hold | hfree
      · exact hsearch.not_mem (htaken _ hold)
      · exact hfree.1 rfl
    · intro a ha
      rcases List.mem_cons.1 ha with rfl | ha
      · exact .inr hsearch.not_mem
      · exact (hnew a ha).imp_right And.right

end Naming

/-! ## Runs of a session -/

/-- What a session does with its joined tables: it asks for the table at the end of a relation, or
names all tables for a query. -/
inductive TableStep where
  | join (path : JoinPath) (relation : Member) (name : String)
  | finalize (q : Query)

namespace JoinedTables

/-- The joined tables after a step. -/
def step (ts : JoinedTables) : TableStep → JoinedTables
  | .join path relation name => (ts.join path relation name).2
  | .finalize q => ts.finalize q

/-- The joined tables after some steps. -/
def run (ts : JoinedTables) (steps : List TableStep) : JoinedTables :=
  steps.foldl step ts

/-- No two tables have one alias. -/
def AliasesApart (ts : JoinedTables) : Prop :=
  (ts.tables.filterMap (·.aliasName)).Nodup

theorem finalize_naming (ts : JoinedTables) (q : Query) :
    Naming ts.aliasPrefix (q.variableNames ++ ts.aliases) 0 ts.tables (ts.finalize q).tables :=
  nameTables_naming _ _ _ _

/-- A table that is asked for is an old one, or a new one without an alias. -/
theorem join_tables (ts : JoinedTables) (path : JoinPath) (relation : Member) (name : String) :
    (ts.join path relation name).2.tables = ts.tables ∨
      (ts.join path relation name).2.tables
        = ts.tables ++ [{ path, relation, name, aliasName := none }] := by
  unfold join
  split
  · exact .inl rfl
  · exact .inr rfl

theorem AliasesApart.step {ts : JoinedTables} (h : ts.AliasesApart) (s : TableStep) :
    (ts.step s).AliasesApart := by
  cases s with
  | join path relation name =>
    simp only [AliasesApart, JoinedTables.step]
    rcases join_tables ts path relation name with heq | heq
    · rwa [heq]
    · simpa [AliasesApart, heq] using h
  | finalize q =>
    refine ((finalize_naming ts q).nodup h fun a ha => ?_).1
    exact List.mem_append_right _ ha

theorem AliasesApart.run {ts : JoinedTables} (h : ts.AliasesApart) (steps : List TableStep) :
    (ts.run steps).AliasesApart := by
  induction steps generalizing ts with
  | nil => exact h
  | cons s steps ih => exact ih (h.step s)

theorem AliasesApart.index_unique {ts : JoinedTables} (h : ts.AliasesApart) {i j : Nat}
    {aliasName : String} (hi : ts.alias? (.joined i) = some aliasName)
    (hj : ts.alias? (.joined j) = some aliasName) : i = j := by
  simp only [alias?, Option.bind_eq_some_iff] at hi hj
  obtain ⟨t, ht, hti⟩ := hi
  obtain ⟨u, hu, huj⟩ := hj
  by_contra hne
  have hpair := List.pairwise_filterMap.1 h
  have hget := List.pairwise_iff_getElem.1 hpair
  obtain ⟨hilt, rfl⟩ := List.getElem?_eq_some_iff.1 ht
  obtain ⟨hjlt, rfl⟩ := List.getElem?_eq_some_iff.1 hu
  rcases Nat.lt_or_gt_of_ne hne with hlt | hgt
  · exact hget i j hilt hjlt hlt _ hti _ huj rfl
  · exact hget j i hjlt hilt hgt _ huj _ hti rfl

theorem alias_step {ts : JoinedTables} {i : Nat} {aliasName : String}
    (h : ts.alias? (.joined i) = some aliasName) (s : TableStep) :
    (ts.step s).alias? (.joined i) = some aliasName := by
  obtain ⟨t, ht, halias⟩ := Option.bind_eq_some_iff.1 h
  refine Option.bind_eq_some_iff.2 ⟨t, ?_, halias⟩
  cases s with
  | join path relation name =>
    rcases join_tables ts path relation name with heq | heq
    · simpa [JoinedTables.step, heq] using ht
    · have hlt := (List.getElem?_eq_some_iff.1 ht).1
      simpa [JoinedTables.step, heq, List.getElem?_append_left hlt] using ht
  | finalize q => exact (finalize_naming ts q).kept_entry ht halias

theorem alias_run {ts : JoinedTables} {i : Nat} {aliasName : String}
    (h : ts.alias? (.joined i) = some aliasName) (steps : List TableStep) :
    (ts.run steps).alias? (.joined i) = some aliasName := by
  induction steps generalizing ts with
  | nil => exact h
  | cons s steps ih => exact ih (alias_step h s)

theorem finalize_alias_isSome (ts : JoinedTables) (q : Query) {i : Nat}
    (hi : i < (ts.finalize q).tables.length) :
    ∃ aliasName, (ts.finalize q).alias? (.joined i) = some aliasName := by
  obtain ⟨aliasName, halias⟩ := (finalize_naming ts q).complete _ (List.getElem_mem hi)
  exact ⟨aliasName, by simp [alias?, List.getElem?_eq_getElem hi, halias]⟩

/-- An alias that is given for a query is none of the names in its tree. -/
theorem finalize_avoids {ts : JoinedTables} {q : Query} {i : Nat} {aliasName : String}
    (hnone : ts.alias? (.joined i) = none)
    (hsome : (ts.finalize q).alias? (.joined i) = some aliasName) :
    aliasName ∉ q.variableNames := by
  obtain ⟨t', ht', halias⟩ := Option.bind_eq_some_iff.1 hsome
  have hlength := (finalize_naming ts q).length_eq
  have hi : i < ts.tables.length := by
    have := (List.getElem?_eq_some_iff.1 ht').1
    omega
  have hnone' : ts.tables[i].aliasName = none := by
    simpa [alias?, List.getElem?_eq_getElem hi] using hnone
  intro hmem
  exact (finalize_naming ts q).given_not_mem (List.getElem?_eq_getElem hi) hnone' ht' halias
    (List.mem_append_left _ hmem)

theorem finalize_finalize (ts : JoinedTables) (q q' : Query) :
    (ts.finalize q).finalize q' = ts.finalize q := by
  have hsame := (finalize_naming (ts.finalize q) q').eq_self_of_complete
    (finalize_naming ts q).complete
  calc (ts.finalize q).finalize q'
      = { ts.finalize q with tables := ((ts.finalize q).finalize q').tables } := rfl
    _ = ts.finalize q := by rw [hsame]

/-- What naming the tables `ts` for the query `q` comes to. -/
structure NamedFor (ts : JoinedTables) (q : Query) : Prop where
  /-- The loops over the tables and over the names to try end, and in `ts.finalize q`. -/
  terminates : Naming ts.aliasPrefix (q.variableNames ++ ts.aliases) 0 ts.tables
    (ts.finalize q).tables
  complete : ∀ i < (ts.finalize q).tables.length,
    ∃ aliasName, (ts.finalize q).alias? (.joined i) = some aliasName
  avoids : ∀ i aliasName, ts.alias? (.joined i) = none →
    (ts.finalize q).alias? (.joined i) = some aliasName →
    ∀ m, q.Within m → ∀ c ∈ m.rangeClauses, c.identifier.name ≠ aliasName
  settled : ∀ q', (ts.finalize q).finalize q' = ts.finalize q

theorem namedFor (ts : JoinedTables) (q : Query) : ts.NamedFor q where
  terminates := finalize_naming ts q
  complete := fun _ hi => finalize_alias_isSome ts q hi
  avoids := by
    intro i aliasName hnone hsome m hm c hc heq
    exact finalize_avoids hnone hsome (Query.mem_variableNames.2 ⟨m, hm, c, hc, heq⟩)
  settled := finalize_finalize ts q

/-- After any steps of a session the aliases are apart, no later step changes one, and naming the
tables for any query ends, leaves no table without an alias, uses no name of the query's tree and
has nothing to do a second time. -/
theorem aliases_along_run (aliasPrefix : String) (steps : List TableStep) :
    let ts := run { aliasPrefix } steps
    (∀ i j aliasName, ts.alias? (.joined i) = some aliasName →
        ts.alias? (.joined j) = some aliasName → i = j) ∧
      (∀ later i aliasName, ts.alias? (.joined i) = some aliasName →
        (ts.run later).alias? (.joined i) = some aliasName) ∧
      ∀ q, ts.NamedFor q := by
  intro ts
  have happart : ts.AliasesApart := AliasesApart.run (by simp [AliasesApart]) steps
  exact ⟨fun _ _ _ hi hj => happart.index_unique hi hj, fun later _ _ h => alias_run h later,
    namedFor ts⟩

/-- A query of students, who are called `name`. -/
def studentsCalled (name : String) : Query where
  key := 0
  parent := none
  main :=
    { identifier := { name, type := "Student" }, kind := .main (.table "Students" "Student") }
  body := []
  select := { projection := none, distinct := false, modifiers := [] }
  expression := .table "Students" "Student"
  embedded := []
  sources := []

/-- A session asks for the table at the end of a relation of students, which is called `name`. -/
def joinOfStudent (relation name : String) : TableStep :=
  .join
    { first := .table (.ofClause { query := 0, index := 0 } "studentTable" "s"), joins := [] }
    { declaringType := "Student", name := relation, type := relation } name

/-- Schools are joined and named, then details. For a query that calls its students `j1`, the
details are not, and schools keep their name. -/
theorem aliases_along_run_details :
    let ts := run { aliasPrefix := "j" }
      [joinOfStudent "School" "schoolTable", .finalize (studentsCalled "s"),
        joinOfStudent "Details" "detailTable"]
    let named := ts.finalize (studentsCalled "j1")
    ts.alias? (.joined 0) = some "j0" ∧ ts.alias? (.joined 1) = none
      ∧ named.alias? (.joined 0) = some "j0" ∧ named.alias? (.joined 1) = some "j1_1"
      ∧ ts.NamedFor (studentsCalled "j1") ∧ ∀ q, named.finalize q = named := by
  intro ts named
  have hschools : ts.alias? (.joined 0) = some "j0" := by decide
  obtain ⟨-, hlater, hnamed⟩ := aliases_along_run "j"
    [joinOfStudent "School" "schoolTable", .finalize (studentsCalled "s"),
      joinOfStudent "Details" "detailTable"]
  exact ⟨hschools, by decide, hlater [.finalize (studentsCalled "j1")] 0 "j0" hschools, by decide,
    hnamed _, (hnamed _).settled⟩

end JoinedTables

end QueryChain
