import QueryChain.Chain.Build
import QueryChain.Chain.Parse
import QueryChain.Proofs.Resolve.Naming

/-!
# Aliases by number

A joined table is named when a query's names are known, at one point of a session or another. Other
tables may have aliases by then, which are skipped as well, so its alias could depend on when that
was. It does not: names that are tried for different tables differ (`aliasCandidate_inj`), whatever
the prefix, so aliases of others never stand in the way, and only the names of the query do.

* `FirstFree` is the alias that a table should have, and `Naming.firstFree` the loop invariant by
  which it has;
* `alias_by_number` says so of every run that names for one query.
-/

namespace QueryChain

/-! ## Names for different tables -/

/-- What follows the base of a candidate does not start with a digit. -/
theorem toList_aliasCandidate (base : String) (k : Nat) :
    ∃ rest, (aliasCandidate base k).toList = base.toList ++ rest
      ∧ rest.takeWhile Char.isDigit = [] := by
  cases k with
  | zero => exact ⟨[], by simp [aliasCandidate], rfl⟩
  | succ k =>
    refine ⟨'_' :: Nat.toDigits 10 (k + 1), ?_, List.takeWhile_cons_of_neg (by decide)⟩
    simp [aliasCandidate]

theorem takeWhile_toDigits_append {rest : List Char} (h : rest.takeWhile Char.isDigit = [])
    (n : Nat) : (Nat.toDigits 10 n ++ rest).takeWhile Char.isDigit = Nat.toDigits 10 n := by
  have hdigits : ∀ c ∈ Nat.toDigits 10 n, c.isDigit := fun c hc =>
    Nat.isDigit_of_mem_toDigits (by decide) (by decide) hc
  rw [List.takeWhile_append_of_pos hdigits, h, List.append_nil]

/-- No name is tried for two tables, and none twice for one. -/
theorem aliasCandidate_inj {aliasPrefix : String} {i j k l : Nat}
    (h : aliasCandidate (aliasPrefix ++ toString i) k
      = aliasCandidate (aliasPrefix ++ toString j) l) : i = j ∧ k = l := by
  have hij : i = j := by
    obtain ⟨rest, hi, hrest⟩ := toList_aliasCandidate (aliasPrefix ++ toString i) k
    obtain ⟨rest', hj, hrest'⟩ := toList_aliasCandidate (aliasPrefix ++ toString j) l
    have hlist : Nat.toDigits 10 i ++ rest = Nat.toDigits 10 j ++ rest' := by
      rw [h, hj] at hi
      simpa using hi.symm
    have hdigits := congrArg (List.takeWhile Char.isDigit) hlist
    rw [takeWhile_toDigits_append hrest, takeWhile_toDigits_append hrest'] at hdigits
    simpa using congrArg (Nat.ofDigitChars 10 · 0) hdigits
  subst hij
  exact ⟨rfl, aliasCandidate_injective _ h⟩

/-! ## The first free name -/

/-- The name is the first candidate for `base` that is none of `names`. -/
def FirstFree (names : List String) (base name : String) : Prop :=
  ∃ k, name = aliasCandidate base k ∧ name ∉ names ∧ ∀ j < k, aliasCandidate base j ∈ names

theorem FirstFree.unique {names names' : List String} {base name name' : String}
    (h : FirstFree names base name) (h' : FirstFree names' base name')
    (hnames : ∀ a, a ∈ names ↔ a ∈ names') : name = name' := by
  obtain ⟨k, rfl, hfree, hbefore⟩ := h
  obtain ⟨k', rfl, hfree', hbefore'⟩ := h'
  rcases Nat.lt_trichotomy k k' with hlt | rfl | hlt
  · exact absurd ((hnames _).2 (hbefore' k hlt)) hfree
  · rfl
  · exact absurd ((hnames _).1 (hbefore k' hlt)) hfree'

theorem FreeNameSearch.firstFree_from {taken : List String} {base found : String} {n : Nat}
    (h : FreeNameSearch taken base n found) :
    ∃ k, n ≤ k ∧ found = aliasCandidate base k ∧ found ∉ taken
      ∧ ∀ j, n ≤ j → j < k → aliasCandidate base j ∈ taken := by
  induction h with
  | @free n hfree => exact ⟨n, Nat.le_refl n, rfl, hfree, fun j hj hlt => absurd hlt (by omega)⟩
  | @next n _ htaken _ ih =>
    obtain ⟨k, hk, rfl, hfree, hbefore⟩ := ih
    refine ⟨k, by omega, rfl, hfree, fun j hj hlt => ?_⟩
    rcases Nat.eq_or_lt_of_le hj with rfl | hj
    · exact htaken
    · exact hbefore j hj hlt

/-- Names that are taken beside those of `names` do not matter if none of them is a candidate. -/
theorem FreeNameSearch.firstFree {taken names : List String} {base found : String}
    (h : FreeNameSearch taken base 0 found)
    (hsame : ∀ k, aliasCandidate base k ∈ taken ↔ aliasCandidate base k ∈ names) :
    FirstFree names base found := by
  obtain ⟨k, -, rfl, hfree, hbefore⟩ := h.firstFree_from
  exact ⟨k, rfl, mt (hsame k).2 hfree, fun j hj => (hsame j).1 (hbefore j (Nat.zero_le j) hj)⟩

/-- The loop over the tables gives each table without an alias the first free candidate. -/
theorem Naming.firstFree {aliasPrefix : String} {taken names : List String} {index : Nat}
    {ts named : List TableEntry} (h : Naming aliasPrefix taken index ts named)
    (hsame : ∀ i t, ts[i]? = some t → t.aliasName = none → ∀ k,
      aliasCandidate (aliasPrefix ++ toString (index + i)) k ∈ taken ↔
        aliasCandidate (aliasPrefix ++ toString (index + i)) k ∈ names) :
    ∀ i t, ts[i]? = some t → t.aliasName = none →
      ∃ t' aliasName, named[i]? = some t' ∧ t'.aliasName = some aliasName
        ∧ FirstFree names (aliasPrefix ++ toString (index + i)) aliasName := by
  induction h with
  | done => simp
  | @kept taken index t ts named aliasName hsome _ ih =>
    intro i u hu hnone
    cases i with
    | zero =>
      obtain rfl : t = u := by simpa using hu
      simp [hsome] at hnone
    | succ i =>
      have hshift : ∀ i, index + 1 + i = index + (i + 1) := fun i => by omega
      simp only [hshift] at ih
      exact ih (fun i t ht => hsame (i + 1) t ht) i u hu hnone
  | @given taken index t ts named aliasName hnone hsearch _ ih =>
    have hfirst : FirstFree names (aliasPrefix ++ toString index) aliasName :=
      hsearch.firstFree (hsame 0 t rfl hnone)
    intro i u hu hunone
    cases i with
    | zero => exact ⟨_, aliasName, rfl, rfl, hfirst⟩
    | succ i =>
      have hshift : ∀ i, index + 1 + i = index + (i + 1) := fun i => by omega
      simp only [hshift] at ih
      refine ih (fun i t ht hnone k => ?_) i u hu hunone
      have hne : aliasCandidate (aliasPrefix ++ toString (index + (i + 1))) k ≠ aliasName := by
        obtain ⟨l, rfl, -⟩ := hfirst
        intro heq
        have := (aliasCandidate_inj heq).1
        omega
      rw [List.mem_cons, or_iff_right hne]
      exact hsame (i + 1) t ht hnone k

/-! ## Runs that name for one query -/

/-- If the step names the tables, it does so for `q`. -/
def TableStep.NamesFor (q : Query) : TableStep → Prop
  | .join _ _ _ => True
  | .finalize q' => q' = q

/-- A range variable of the query, or of one that is nested in it, is called `name`. -/
def Query.HasVariable (q : Query) (name : String) : Prop :=
  ∃ m, q.Within m ∧ ∃ c ∈ m.rangeClauses, c.identifier.name = name

namespace JoinedTables

/-- Every alias is the first free candidate for the number of its table. -/
def NamedByNumber (ts : JoinedTables) (q : Query) : Prop :=
  ∀ i aliasName, ts.alias? (.joined i) = some aliasName →
    FirstFree q.variableNames (ts.aliasPrefix ++ toString i) aliasName

variable {ts : JoinedTables} {q : Query}

/-- Aliases of other tables are no candidates for a table that has none yet. -/
theorem NamedByNumber.taken_iff (h : ts.NamedByNumber q) {i : Nat} {t : TableEntry}
    (ht : ts.tables[i]? = some t) (hnone : t.aliasName = none) (k : Nat) :
    aliasCandidate (ts.aliasPrefix ++ toString i) k ∈ q.variableNames ++ ts.aliases ↔
      aliasCandidate (ts.aliasPrefix ++ toString i) k ∈ q.variableNames := by
  rw [List.mem_append, or_iff_left]
  intro hmem
  obtain ⟨u, hu, halias⟩ := List.mem_filterMap.1 hmem
  obtain ⟨j, hj, rfl⟩ := List.getElem_of_mem hu
  have hget := List.getElem?_eq_getElem hj
  have hjoined : ts.alias? (.joined j)
      = some (aliasCandidate (ts.aliasPrefix ++ toString i) k) := by
    rw [alias?, hget]
    exact halias
  -- The other table has a candidate for its own number, so it is no other one.
  obtain ⟨l, heq, -⟩ := h j _ hjoined
  obtain rfl := (aliasCandidate_inj heq).1
  obtain rfl := Option.some.inj (ht.symm.trans hget)
  cases hnone.symm.trans halias

theorem NamedByNumber.finalize (h : ts.NamedByNumber q) : (ts.finalize q).NamedByNumber q := by
  intro i aliasName halias
  cases hold : ts.alias? (.joined i) with
  | some old =>
    obtain rfl := Option.some.inj ((alias_step hold (.finalize q)).symm.trans halias)
    exact h i old hold
  | none =>
    obtain ⟨t', ht', halias'⟩ := Option.bind_eq_some_iff.1 halias
    have hnaming := finalize_naming ts q
    have hi : i < ts.tables.length := by
      rw [← hnaming.length_eq]
      exact (List.getElem?_eq_some_iff.1 ht').1
    have hget := List.getElem?_eq_getElem hi
    have hnone : ts.tables[i].aliasName = none := by simpa [alias?, hget] using hold
    have htaken : ∀ i t, ts.tables[i]? = some t → t.aliasName = none → ∀ k,
        aliasCandidate (ts.aliasPrefix ++ toString (0 + i)) k ∈ q.variableNames ++ ts.aliases ↔
          aliasCandidate (ts.aliasPrefix ++ toString (0 + i)) k ∈ q.variableNames := by
      intro i t ht hnone k
      rw [Nat.zero_add]
      exact h.taken_iff ht hnone k
    obtain ⟨u, a, hu, ha, hfirst⟩ := hnaming.firstFree htaken i _ hget hnone
    obtain rfl := Option.some.inj (ht'.symm.trans hu)
    obtain rfl := Option.some.inj (halias'.symm.trans ha)
    rwa [Nat.zero_add] at hfirst

theorem join_aliasPrefix (ts : JoinedTables) (path : JoinPath) (relation : Member)
    (name : String) : (ts.join path relation name).2.aliasPrefix = ts.aliasPrefix := by
  unfold join
  split <;> rfl

/-- A table that is made has no alias yet. -/
theorem alias_of_join {path : JoinPath} {relation : Member} {name aliasName : String} {i : Nat}
    (h : (ts.join path relation name).2.alias? (.joined i) = some aliasName) :
    ts.alias? (.joined i) = some aliasName := by
  obtain ⟨t, ht, halias⟩ := Option.bind_eq_some_iff.1 h
  refine Option.bind_eq_some_iff.2 ⟨t, ?_, halias⟩
  rcases join_tables ts path relation name with heq | heq
  · rwa [heq] at ht
  · rw [heq, List.getElem?_append] at ht
    split at ht
    · exact ht
    · obtain rfl := List.mem_singleton.1 (List.mem_of_getElem? ht)
      cases halias

theorem NamedByNumber.join (h : ts.NamedByNumber q) (path : JoinPath) (relation : Member)
    (name : String) : (ts.join path relation name).2.NamedByNumber q := by
  intro i aliasName halias
  rw [join_aliasPrefix]
  exact h i aliasName (alias_of_join halias)

theorem NamedByNumber.step (h : ts.NamedByNumber q) {s : TableStep} (hs : s.NamesFor q) :
    (ts.step s).NamedByNumber q := by
  cases s with
  | join path relation name => exact h.join path relation name
  | finalize q' =>
    obtain rfl : q' = q := hs
    exact h.finalize

theorem NamedByNumber.run (h : ts.NamedByNumber q) {steps : List TableStep}
    (hsteps : ∀ s ∈ steps, s.NamesFor q) : (ts.run steps).NamedByNumber q := by
  induction steps generalizing ts with
  | nil => exact h
  | cons s steps ih =>
    rw [List.forall_mem_cons] at hsteps
    exact ih (h.step hsteps.1) hsteps.2

theorem step_aliasPrefix (ts : JoinedTables) (s : TableStep) :
    (ts.step s).aliasPrefix = ts.aliasPrefix := by
  cases s with
  | join path relation name => exact join_aliasPrefix ts path relation name
  | finalize q => rfl

theorem run_aliasPrefix (ts : JoinedTables) (steps : List TableStep) :
    (ts.run steps).aliasPrefix = ts.aliasPrefix := by
  induction steps generalizing ts with
  | nil => rfl
  | cons s steps ih => exact (ih (ts.step s)).trans (step_aliasPrefix ts s)

theorem namedByNumber_new (aliasPrefix : String) (q : Query) :
    NamedByNumber { aliasPrefix } q := by
  intro i aliasName halias
  simp [alias?] at halias

/-- After a run that ends with naming, every table has the first free name for its number. -/
theorem alias_firstFree (aliasPrefix : String) {steps : List TableStep}
    (hsteps : ∀ s ∈ steps, s.NamesFor q) {i : Nat}
    (hi : i < (run { aliasPrefix } (steps ++ [.finalize q])).tables.length) :
    ∃ aliasName, (run { aliasPrefix } (steps ++ [.finalize q])).alias? (.joined i) = some aliasName
      ∧ FirstFree q.variableNames (aliasPrefix ++ toString i) aliasName := by
  have hlast : run { aliasPrefix } (steps ++ [.finalize q])
      = (run { aliasPrefix } steps).finalize q :=
    List.foldl_concat _ _ _ _
  have hsteps : ∀ s ∈ steps ++ [.finalize q], s.NamesFor q := by
    rw [List.forall_mem_append, List.forall_mem_singleton]
    exact ⟨hsteps, rfl⟩
  have hnamed := (namedByNumber_new aliasPrefix q).run hsteps
  obtain ⟨aliasName, halias⟩ : ∃ aliasName,
      (run { aliasPrefix } (steps ++ [.finalize q])).alias? (.joined i) = some aliasName := by
    rw [hlast] at hi ⊢
    exact finalize_alias_isSome _ q hi
  refine ⟨aliasName, halias, ?_⟩
  simpa only [run_aliasPrefix] using hnamed i aliasName halias

/-- In a run that names its tables for one query, at any points and in the end, the table with the
number `i` gets the prefix followed by `i`, if no range variable of the query's tree has that name.
Otherwise it gets that name followed by `_k`, for the least `k` from one on with which none has the
name. So in every other run that names for the same variables, the table with this number has the
same alias. -/
theorem alias_by_number (aliasPrefix : String) (q : Query) {steps : List TableStep}
    (hsteps : ∀ s ∈ steps, s.NamesFor q) :
    let ts := run { aliasPrefix } (steps ++ [.finalize q])
    ∀ i < ts.tables.length,
      let base := aliasPrefix ++ toString i
      (¬q.HasVariable base → ts.alias? (.joined i) = some base)
        ∧ (q.HasVariable base → ∃ k ≥ 1, ts.alias? (.joined i) = some (base ++ "_" ++ toString k)
            ∧ ¬q.HasVariable (base ++ "_" ++ toString k)
            ∧ ∀ j ≥ 1, j < k → q.HasVariable (base ++ "_" ++ toString j))
        ∧ ∀ q' steps', (∀ s ∈ steps', s.NamesFor q') →
            (∀ name, q'.HasVariable name ↔ q.HasVariable name) →
            let ts' := run { aliasPrefix } (steps' ++ [.finalize q'])
            i < ts'.tables.length → ts'.alias? (.joined i) = ts.alias? (.joined i) := by
  intro ts i hi base
  obtain ⟨aliasName, halias, hfirst⟩ := alias_firstFree aliasPrefix hsteps hi
  have hnames (q : Query) (name : String) : name ∈ q.variableNames ↔ q.HasVariable name :=
    Query.mem_variableNames
  refine ⟨fun hfree => ?_, fun htaken => ?_, ?_⟩
  · obtain ⟨k, rfl, -, hbefore⟩ := hfirst
    cases k with
    | zero => exact halias
    | succ k => exact absurd ((hnames q _).1 (hbefore 0 (Nat.succ_pos k))) hfree
  · obtain ⟨k, rfl, hfree, hbefore⟩ := hfirst
    cases k with
    | zero => exact absurd ((hnames q _).2 htaken) hfree
    | succ k =>
      refine ⟨k + 1, Nat.succ_pos k, halias, mt (hnames q _).2 hfree, fun j hj hlt => ?_⟩
      obtain ⟨j, rfl⟩ := Nat.exists_eq_add_of_le' hj
      exact (hnames q _).1 (hbefore (j + 1) hlt)
  · intro q' steps' hsteps' hsame ts' hi'
    obtain ⟨aliasName', halias', hfirst'⟩ := alias_firstFree aliasPrefix hsteps' hi'
    have heq : aliasName' = aliasName :=
      hfirst'.unique hfirst fun a => by rw [hnames, hnames, hsame]
    rw [halias', halias, heq]

/-- The students, each as `j0`. -/
def studentsAsJ0 : Expr :=
  let j0 : Parameter := { name := "j0", type := "Student" }
  Chain.select (.table "Students" "Student") (.lambda [j0] (.parameter j0))

theorem parse_studentsAsJ0 : ∃ q, parse studentsAsJ0 = .ok q ∧ q.HasVariable "j0" :=
  ⟨_, rfl, _, .self, _, List.mem_cons_self, rfl⟩

theorem alias_by_number_j0 :
    ∃ q, parse studentsAsJ0 = .ok q ∧ ∀ path relation name,
      let steps := [.finalize q, .join path relation name]
      let ts := run { aliasPrefix := "j" } (steps ++ [.finalize q])
      (∀ s ∈ steps, s.NamesFor q) ∧ ts.tables.length = 1 ∧ ∃ k ≥ 1,
        ts.alias? (.joined 0) = some ("j0" ++ "_" ++ toString k)
          ∧ ¬q.HasVariable ("j0" ++ "_" ++ toString k) := by
  obtain ⟨q, hparse, hname⟩ := parse_studentsAsJ0
  refine ⟨q, hparse, fun path relation name => ?_⟩
  intro steps ts
  have hsteps : ∀ s ∈ steps, s.NamesFor q := by
    simp [steps, TableStep.NamesFor]
  have hlength : ts.tables.length = 1 := rfl
  obtain ⟨-, htaken, -⟩ := alias_by_number "j" q hsteps 0 (hlength ▸ Nat.one_pos)
  obtain ⟨k, hk, halias, hfree, -⟩ := htaken hname
  exact ⟨hsteps, hlength, k, hk, halias, hfree⟩

end JoinedTables

end QueryChain
