import QueryChain.Proofs.Chain.Sources
import QueryChain.Proofs.Resolve.Order

/-!
# Tables of different variables

A joined table is known by how the path to it looks and by a relation, and a path starts at the
source of the clause that owns the reference. A source looks like the table and the name of its
clause's variable. So references to different variables are read through tables of their own as
long as the variables can be told apart by these, and through one table where they cannot be.

* `shares_iff_requests`: two references share a table exactly if they ask for one in common;
* `requests_iff_meet`: this is so exactly if their sources look alike and the relations that they
  follow meet (`Schema.Meet`);
* `look_eq_iff`: when the sources of two clauses look alike;
* `shares_iff_alike`: so the references of different clauses of a tree share a table exactly if the
  clauses look alike and the relations meet. Variables of different names never do, and neither do
  variables over nested queries.
-/

namespace QueryChain

/-! ## Relations that meet -/

/-- Two ways along relations meet if after joins that look alike both follow the same relation. -/
def Schema.Meet (schema : Schema) : List Member → List Member → Prop
  | relation :: relations, relation' :: relations' =>
    ∃ link link', schema.link? relation = some link ∧ schema.link? relation' = some link'
      ∧ (relation.same relation' ∨ link.LooksLike link' ∧ schema.Meet relations relations')
  | _, _ => False

namespace Schema

variable {schema : Schema} {path path' : JoinPath} {relation relation' : Member}
  {relations relations' : List Member} {link link' : Link} {r : Request}

theorem meet_cons (hlink : schema.link? relation = some link)
    (hlink' : schema.link? relation' = some link') :
    schema.Meet (relation :: relations) (relation' :: relations')
      ↔ relation.same relation' ∨ link.LooksLike link' ∧ schema.Meet relations relations' := by
  simp only [Meet, hlink, hlink', Option.some.injEq, ↓existsAndEq, true_and]

theorem requests_of_link (path : JoinPath) (relations : List Member)
    (hlink : schema.link? relation = some link) :
    schema.requests path (relation :: relations)
      = { path, declaringType := relation.declaringType, relation := relation.name }
        :: schema.requests (path.extend link (.free 0 link.targetTable none)) relations := by
  rw [requests, hlink]

/-- Requests are made from longer and longer paths. -/
theorem length_le_of_mem_requests (h : r ∈ schema.requests path relations) :
    path.joins.length ≤ r.path.joins.length := by
  induction relations generalizing path with
  | nil => simp [requests] at h
  | cons relation relations ih =>
    cases hlink : schema.link? relation with
    | none => simp [requests, hlink] at h
    | some link =>
      rw [requests_of_link path relations hlink] at h
      rcases List.mem_cons.1 h with rfl | h
      · exact Nat.le_refl _
      · have hle := ih h
        simp only [JoinPath.extend, List.length_append] at hle
        omega

/-- From paths of one length, the same request is made exactly if the paths are the same and the
relations meet. -/
theorem exists_mem_requests_iff (hlength : path.joins.length = path'.joins.length) :
    (∃ r ∈ schema.requests path relations, r ∈ schema.requests path' relations')
      ↔ path = path' ∧ schema.Meet relations relations' := by
  induction relations generalizing path path' relations' with
  | nil => simp [requests, Meet]
  | cons relation relations ih =>
    cases relations' with
    | nil => simp [requests, Meet]
    | cons relation' relations' =>
      cases hlink : schema.link? relation with
      | none => simp [requests, Meet, hlink]
      | some link =>
        cases hlink' : schema.link? relation' with
        | none => simp [requests, Meet, hlink']
        | some link' =>
          -- What is asked for further on is asked for from a longer path.
          have hlater {p : JoinPath} {l : Link} {ks : List Member} {r : Request}
              (h : r ∈ schema.requests (p.extend l (.free 0 l.targetTable none)) ks) :
              p.joins.length < r.path.joins.length := by
            have hle := length_le_of_mem_requests h
            simp only [JoinPath.extend, List.length_append, List.length_singleton] at hle
            omega
          have hnext := @ih (path.extend link (.free 0 link.targetTable none))
            (path'.extend link' (.free 0 link'.targetTable none)) relations'
            (by simp [JoinPath.extend, hlength])
          rw [JoinPath.extend_inj] at hnext
          rw [requests_of_link path relations hlink, requests_of_link path' relations' hlink',
            meet_cons hlink hlink']
          constructor
          · rintro ⟨r, h, h'⟩
            rcases List.mem_cons.1 h with rfl | h <;> rcases List.mem_cons.1 h' with heq | h'
            · simp only [Request.mk.injEq] at heq
              obtain ⟨rfl, hdeclaring, hname⟩ := heq
              exact ⟨rfl, .inl (Member.same_iff.2 ⟨hdeclaring, hname⟩)⟩
            · have hlt := hlater h'
              simp only at hlt
              omega
            · have hlt := hlater h
              simp only [heq] at hlt
              omega
            · obtain ⟨⟨rfl, hleft, hright, htable⟩, hmeet⟩ := hnext.1 ⟨r, h, h'⟩
              simp only [Table.free.injEq, and_true, true_and] at htable
              exact ⟨rfl, .inr ⟨⟨htable, hleft, hright⟩, hmeet⟩⟩
          · rintro ⟨rfl, hsame | ⟨⟨htable, hleft, hright⟩, hmeet⟩⟩
            · obtain ⟨hdeclaring, hname⟩ := Member.same_iff.1 hsame
              exact ⟨_, List.mem_cons_self, by rw [hdeclaring, hname]; exact List.mem_cons_self⟩
            · obtain ⟨r, h, h'⟩ := hnext.2 ⟨⟨rfl, hleft, hright, by rw [htable]⟩, hmeet⟩
              exact ⟨r, List.mem_cons_of_mem _ h, List.mem_cons_of_mem _ h'⟩

end Schema

/-! ## Tables on a path -/

namespace JoinedTables

variable {schema : Schema} {ts : JoinedTables} {path : JoinPath} {relations : List Member}

theorem through_extend {p : JoinPath} {link : Link} {i index : Nat} :
    (p.extend link (.joined i)).Through index ↔ p.Through index ∨ index = i := by
  simp only [JoinPath.Through, JoinPath.extend, List.mem_append, List.mem_singleton, or_and_right,
    exists_or, exists_eq_left, Source.table.injEq, Table.joined.injEq, eq_comm]

/-- Once all tables are there, a path that follows relations goes through those that stand for the
requests made on the way. -/
theorem through_follow_iff (h : ts.Fresh schema) (hmade : path.Made ts) (hrouted : path.Routed)
    (hsettled : (ts.follow schema path relations).2 = ts) {index : Nat} :
    (ts.follow schema path relations).1.Through index ↔ path.Through index
      ∨ ∃ r ∈ schema.requests (path.map ts.look) relations, ts.requests[index]? = some r := by
  induction relations generalizing path with
  | nil => simp [follow, Schema.requests]
  | cons relation relations ih =>
    cases hlink : schema.link? relation with
    | none => simp [follow_of_no_link hlink, Schema.requests, hlink]
    | some link =>
      obtain ⟨i, hi, hjoin⟩ := join_of_follow_eq hlink hsettled
      have hlook := h.path_look_extend hmade hrouted hlink
      have hnext := hmade.extend relation link
      have hroute := hrouted.extend link i
      rw [hjoin] at hlook hnext
      rw [follow_of_link hlink, hjoin] at hsettled
      -- The table that the relation leads to is the only one for its request.
      have hrequest : ts.requests[index]? = some (ts.request path relation) ↔ index = i := by
        rw [← h.orderly.indexOf?_iff, hi, Option.some.injEq, eq_comm]
      rw [follow_of_link hlink, hjoin, ih hnext hroute hsettled, hlook, through_extend, or_assoc,
        Schema.requests_of_link _ _ hlink, List.exists_mem_cons_iff, ← hrequest]
      rfl

end JoinedTables

section

variable {schema : Schema} {root : Query} {call call' : Call} {ts : JoinedTables} {f g : Field}
  {plan plan' : Plan}

/-- A field is read through the tables that stand for the requests of its call. -/
theorem Call.through_iff (h : ts.Fresh schema) (hanswer : call.answer schema root ts = .ok f)
    (hsettled : call.Settled schema root ts) {index : Nat} :
    f.path.Through index ↔ ∃ r ∈ call.requests schema root, ts.requests[index]? = some r := by
  obtain ⟨plan, hplan, hf⟩ := bind_eq_ok.1 hanswer
  have hsourced := Call.sourced hplan
  rw [Plan.path_of_answer hf, JoinedTables.through_follow_iff h (hsourced.made_start ts)
    (.start hsourced.not_joined) (hsettled plan hplan), hsourced.look_start, Call.requests, hplan]
  simp [JoinPath.Through, Plan.start]

/-- Two fields share a table exactly if their calls make a request in common. -/
theorem shares_iff_requests (h : ts.Fresh schema) (hf : call.answer schema root ts = .ok f)
    (hg : call'.answer schema root ts = .ok g) (hsettled : call.Settled schema root ts)
    (hsettled' : call'.Settled schema root ts)
    (hasked : ∀ r ∈ call.requests schema root, r ∈ ts.requests) :
    f.Shares g ↔ ∃ r ∈ call.requests schema root, r ∈ call'.requests schema root := by
  simp only [Field.Shares, Call.through_iff h hf hsettled, Call.through_iff h hg hsettled']
  constructor
  · rintro ⟨index, ⟨r, hr, hindex⟩, r', hr', hindex'⟩
    cases hindex.symm.trans hindex'
    exact ⟨r, hr, hr'⟩
  · rintro ⟨r, hr, hr'⟩
    obtain ⟨index, hindex⟩ := List.mem_iff_getElem?.1 (hasked r hr)
    exact ⟨index, ⟨r, hr, hindex⟩, r, hr', hindex⟩

/-- Two calls make a request in common exactly if the sources that they start at look alike and the
relations that are followed from there meet. -/
theorem requests_iff_meet (ts : JoinedTables) (hplan : call.plan schema root = .ok plan)
    (hplan' : call'.plan schema root = .ok plan') :
    (∃ r ∈ call.requests schema root, r ∈ call'.requests schema root)
      ↔ ts.look plan.source = ts.look plan'.source
        ∧ schema.Meet plan.access.joins plan'.access.joins := by
  rw [Call.requests, Call.requests, hplan, hplan', Schema.exists_mem_requests_iff (by rfl),
    ← (Call.sourced hplan).look_start ts, ← (Call.sourced hplan').look_start ts, Plan.start,
    Plan.start, JoinPath.map_start, JoinPath.map_start, JoinPath.mk.injEq, and_iff_left rfl]

end

/-! ## Clauses that look alike -/

namespace RangeClause

variable {schema : Schema} {clause clause' : RangeClause} {key key' : ClauseKey} {a b : Source}

/-- The table that a clause ranges over. -/
def table? (schema : Schema) (clause : RangeClause) : Option String :=
  match clause.kind with
  | .main _ | .additional _ _ => schema.table? clause.identifier.type
  | .nested _ _ | .binding _ _ => none

/-- Whether a let binding stands for another range variable. -/
def bound? (clause : RangeClause) : Option Bool :=
  match clause.kind with
  | .binding value _ => some value.parameter?.isSome
  | _ => none

/-- The variables of two clauses have one name, and range over one table or are both bound, both or
neither to another variable. -/
structure Alike (schema : Schema) (clause clause' : RangeClause) : Prop where
  name : clause.identifier.name = clause'.identifier.name
  origin : (∃ table, clause.table? schema = some table ∧ clause'.table? schema = some table)
    ∨ ∃ isTable, clause.bound? = some isTable ∧ clause'.bound? = some isTable

theorem source_cases (h : clause.source schema key = .ok a) :
    (∃ table, clause.table? schema = some table ∧ clause.nested? = none ∧ clause.bound? = none
        ∧ a = .table (.ofClause key table clause.identifier.name))
      ∨ (∃ ref, clause.table? schema = none ∧ clause.nested? = some ref ∧ clause.bound? = none
        ∧ a = .nested key ref clause.identifier.name)
      ∨ ∃ isTable, clause.table? schema = none ∧ clause.nested? = none
        ∧ clause.bound? = some isTable ∧ a = .binding key clause.identifier.name isTable := by
  obtain ⟨identifier, kind⟩ := clause
  cases kind with
  | main | additional =>
    simp only [source] at h
    cases htable : schema.table? identifier.type with
    | none =>
      rw [htable] at h
      cases h
    | some table =>
      rw [htable] at h
      cases h
      exact .inl ⟨table, htable, rfl, rfl, rfl⟩
  | nested ref projection =>
    cases h
    exact .inr (.inl ⟨ref, rfl, rfl, rfl, rfl⟩)
  | binding value projection =>
    cases h
    exact .inr (.inr ⟨_, rfl, rfl, rfl, rfl⟩)

/-- The sources of two clauses look alike exactly if the clauses do, or range over the same nested
query under one name. -/
theorem look_eq_iff (ts : JoinedTables) (h : clause.source schema key = .ok a)
    (h' : clause'.source schema key' = .ok b) :
    ts.look a = ts.look b ↔ clause.Alike schema clause'
      ∨ clause.identifier.name = clause'.identifier.name
        ∧ ∃ ref ref', clause.nested? = some ref ∧ clause'.nested? = some ref'
          ∧ ref.key = ref'.key := by
  have halike : clause.Alike schema clause'
      ↔ clause.identifier.name = clause'.identifier.name
        ∧ ((∃ table, clause.table? schema = some table ∧ clause'.table? schema = some table)
          ∨ ∃ isTable, clause.bound? = some isTable ∧ clause'.bound? = some isTable) :=
    ⟨fun h => ⟨h.name, h.origin⟩, fun h => ⟨h.1, h.2⟩⟩
  rw [halike]
  rcases source_cases h with ⟨t, ht, hn, hb, rfl⟩ | ⟨r, ht, hn, hb, rfl⟩ | ⟨i, ht, hn, hb, rfl⟩ <;>
    rcases source_cases h' with ⟨t', ht', hn', hb', rfl⟩ | ⟨r', ht', hn', hb', rfl⟩
      | ⟨i', ht', hn', hb', rfl⟩ <;>
    simp [JoinedTables.look, JoinedTables.name, JoinedTables.alias?, ht, hn, hb, ht', hn', hb',
      and_comm, eq_comm]

end RangeClause

/-! ## Calls from the clauses of a tree -/

/-- A call that a query of the tree under `root` makes, or that is asked of one of its clauses. -/
def Call.Of (root : Query) : Call → Prop
  | .inQuery q _ _ => q ∈ root.tree
  | .atClause key clause _ _ => root.HasClause key clause

section

variable {schema : Schema} {root : Query} {plan : Plan} {key key' : ClauseKey}
  {clause clause' : RangeClause} {a b : Source}

theorem Plan.ownSource {r : Reference} {usage : Usage} (hclause : root.HasClause key clause)
    (h : planReference schema key clause r usage = .ok plan) :
    OwnSource schema root plan.key plan.source := by
  obtain ⟨-, rfl, hsource, -⟩ := planReference_ok h
  exact ⟨clause, hclause, hsource⟩

/-- The plan of a call starts at the source of the clause that owns the reference. -/
theorem Call.Of.ownSource {call : Call} (h : call.Of root)
    (hplan : call.plan schema root = .ok plan) : OwnSource schema root plan.key plan.source := by
  cases call with
  | inQuery q e usage =>
    obtain ⟨r, -, hplan⟩ := bind_eq_ok.1 hplan
    split at hplan
    · cases hplan
    · rename_i howner
      exact Plan.ownSource (hasClause_of_owner h howner) hplan
  | atClause key clause e usage =>
    obtain ⟨r, -, hplan⟩ := bind_eq_ok.1 hplan
    exact Plan.ownSource h hplan

/-- The sources of two clauses of a tree look alike exactly if they are one clause or the clauses
do. No two clauses range over the same nested query. -/
theorem look_eq_iff_alike {e : Expr} (hparse : parse e = .ok root) (ts : JoinedTables)
    (hclause : root.HasClause key clause) (hclause' : root.HasClause key' clause')
    (h : clause.source schema key = .ok a) (h' : clause'.source schema key' = .ok b) :
    ts.look a = ts.look b ↔ key = key' ∨ clause.Alike schema clause' := by
  constructor
  · intro hlook
    rcases (RangeClause.look_eq_iff ts h h').1 hlook with halike | ⟨-, ref, ref', href, href', hkey⟩
    · exact .inr halike
    · obtain ⟨q, hq, hquery, hindex⟩ := hclause
      obtain ⟨q', hq', hquery', hindex'⟩ := hclause'
      obtain ⟨rfl, hsame⟩ := nested_unique hparse (Query.mem_nested_iff.1 hq)
        (Query.mem_nested_iff.1 hq') hindex hindex' href href' hkey
      refine .inl ?_
      cases key
      cases key'
      rw [ClauseKey.mk.injEq]
      exact ⟨hquery.symm.trans hquery', hsame⟩
  · rintro (rfl | halike)
    · obtain rfl := hasClause_unique (keys_nodup hparse) hclause hclause'
      rw [Except.ok.inj (h.symm.trans h')]
    · exact (RangeClause.look_eq_iff ts h h').2 (.inl halike)

end

/-- Two answers to calls from the clauses of a tree share a table exactly if they are owned by the
same clause or by clauses that look alike, and the relations that they follow meet. -/
theorem shares_iff_alike (schema : Schema) {e : Expr} {root : Query} (hparse : parse e = .ok root)
    (aliasPrefix : String) {calls : List Call} (hcalls : ∀ call ∈ calls, call.Of root) :
    let run := askAll schema root calls (.new aliasPrefix)
    ∀ (i k : Nat) (call call' : Call) (f g : Field),
      calls[i]? = some call → calls[k]? = some call' →
      run.1[i]? = some (.ok f) → run.1[k]? = some (.ok g) →
      ∃ plan plan' clause clause',
        call.plan schema root = .ok plan ∧ call'.plan schema root = .ok plan'
        ∧ root.HasClause plan.key clause ∧ root.HasClause plan'.key clause'
        ∧ (f.Shares g ↔ (plan.key = plan'.key ∨ clause.Alike schema clause')
          ∧ schema.Meet plan.access.joins plan'.access.joins) := by
  intro run i k call call' f g hcall hcall' hf hg
  have hrun : AskedAll schema root calls _ run :=
    askAll_askedAll (JoinedTables.fresh_new schema aliasPrefix) calls
  have hmem := List.mem_of_getElem? hcall
  have hmem' := List.mem_of_getElem? hcall'
  -- The answers are the same in the session after all calls, where all tables are there.
  have hanswer {i : Nat} {call : Call} {f : Field} (hcall : calls[i]? = some call)
      (hf : run.1[i]? = some (.ok f)) : call.answer schema root run.2.tables = .ok f := by
    rw [hrun.answers run.2.tables (.refl _), List.getElem?_map, hcall] at hf
    exact Option.some.inj hf
  have hsettled := hrun.settled run.2.tables (.refl _)
  have hasked (r : Request) (hr : r ∈ call.requests schema root) : r ∈ run.2.tables.requests :=
    (hrun.mem_requests r).2 (.inr ⟨call, hmem, hr⟩)
  obtain ⟨plan, hplan, -⟩ := bind_eq_ok.1 (hanswer hcall hf)
  obtain ⟨plan', hplan', -⟩ := bind_eq_ok.1 (hanswer hcall' hg)
  obtain ⟨clause, hclause, hsource⟩ := (hcalls call hmem).ownSource hplan
  obtain ⟨clause', hclause', hsource'⟩ := (hcalls call' hmem').ownSource hplan'
  refine ⟨plan, plan', clause, clause', hplan, hplan', hclause, hclause', ?_⟩
  rw [shares_iff_requests hrun.fresh (hanswer hcall hf) (hanswer hcall' hg)
    (hsettled call hmem) (hsettled call' hmem') hasked,
    requests_iff_meet run.2.tables hplan hplan',
    look_eq_iff_alike hparse _ hclause hclause' hsource hsource']

/-- A name of the student that the detail `d` belongs to. -/
def studentName (name : String) : Expr :=
  let student : Member := { declaringType := "StudentDetail", name := "Student", type := "Student" }
  .member (.member (.parameter { name := "d", type := "StudentDetail" }) student)
    { declaringType := "Student", name, type := "String" }

/-- The students, if some detail is that of a Tom and some detail is that of a Smith. Both times the
details are searched with a range variable named `d`. -/
def studentsOfNames : Expr :=
  let s : Parameter := { name := "s", type := "Student" }
  let d : Parameter := { name := "d", type := "StudentDetail" }
  let detailOf (name value : String) :=
    Chain.result "Any" (Chain.filter (.table "StudentDetails" "StudentDetail")
      (.lambda [d] (.operation .equal (studentName name) (.ofConstant (.string value))))) []
  Chain.filter
    (Chain.filter (.table "Students" "Student") (.lambda [s] (detailOf "First" "Tom")))
    (.lambda [s] (detailOf "Last" "Smith"))

/-- The names in the two searches, in order. -/
def nameCalls (root : Query) : List Call :=
  (root.embedded.zip ["First", "Last"]).map fun (q, name) => .inQuery q (studentName name) .filter

theorem of_mem_nameCalls {root : Query} : ∀ call ∈ nameCalls root, call.Of root := by
  intro call hcall
  obtain ⟨⟨q, name⟩, hq, rfl⟩ := List.mem_map.1 hcall
  have hchild : q ∈ root.children := List.mem_append_left _ (List.of_mem_zip hq).1
  exact Query.mem_nested_iff.2 (.child .self hchild)

theorem nameCalls_answered :
    ∃ root call call' plan plan' f g, parse studentsOfNames = .ok root
      ∧ nameCalls root = [call, call'] ∧ call.plan .school root = .ok plan
      ∧ call'.plan .school root = .ok plan' ∧ plan.key ≠ plan'.key
      ∧ (askAll .school root (nameCalls root) (.new "j")).1 = [.ok f, .ok g] ∧ f.Shares g :=
  ⟨_, _, _, _, _, _, _, rfl, rfl, rfl, rfl, by decide, rfl, 0, ⟨_, .head _, rfl⟩, ⟨_, .head _, rfl⟩⟩

/-- The two variables named `d` look alike, and the student is read through one table for both. -/
theorem shares_iff_alike_studentName :
    ∃ (root : Query) (plan plan' : Plan) (clause clause' : RangeClause) (f g : Field),
      parse studentsOfNames = .ok root ∧ (∀ call ∈ nameCalls root, call.Of root)
      ∧ (askAll .school root (nameCalls root) (.new "j")).1 = [.ok f, .ok g]
      ∧ root.HasClause plan.key clause ∧ root.HasClause plan'.key clause' ∧ plan.key ≠ plan'.key
      ∧ f.Shares g ∧ clause.Alike .school clause'
      ∧ Schema.school.Meet plan.access.joins plan'.access.joins := by
  obtain ⟨root, call, call', plan, plan', f, g, hparse, hcalls, hplan, hplan', hne, hrun,
    hshares⟩ := nameCalls_answered
  have hiff := shares_iff_alike .school hparse "j" of_mem_nameCalls 0 1 call call' f g
  rw [hrun, hcalls] at hiff
  obtain ⟨_, _, clause, clause', hsame, hsame', hclause, hclause', hiff⟩ := hiff rfl rfl rfl rfl
  cases hplan.symm.trans hsame
  cases hplan'.symm.trans hsame'
  obtain ⟨heq | halike, hmeet⟩ := hiff.1 hshares
  · exact absurd heq hne
  · exact ⟨root, plan, plan', clause, clause', f, g, hparse, of_mem_nameCalls, hrun, hclause,
      hclause', hne, hshares, halike, hmeet⟩

/-- Two references may be owned by different clauses and be read through one table nevertheless. -/
theorem not_apart_of_ne :
    ¬∀ (schema : Schema) (e : Expr) (root : Query) (aliasPrefix : String) (calls : List Call),
      schema.validate = .ok () → parse e = .ok root → (∀ call ∈ calls, call.Of root) →
      ∀ (i k : Nat) (call call' : Call) (plan plan' : Plan) (f g : Field),
        calls[i]? = some call → calls[k]? = some call' →
        call.plan schema root = .ok plan → call'.plan schema root = .ok plan' →
        plan.key ≠ plan'.key →
        (askAll schema root calls (.new aliasPrefix)).1[i]? = some (.ok f) →
        (askAll schema root calls (.new aliasPrefix)).1[k]? = some (.ok g) → ¬f.Shares g := by
  intro h
  obtain ⟨root, call, call', plan, plan', f, g, hparse, hcalls, hplan, hplan', hne, hrun,
    hshares⟩ := nameCalls_answered
  exact h .school _ root "j" (nameCalls root) rfl hparse of_mem_nameCalls 0 1 call call' plan plan'
    f g (by rw [hcalls]; rfl) (by rw [hcalls]; rfl) hplan hplan' hne (by rw [hrun]; rfl)
    (by rw [hrun]; rfl) hshares

end QueryChain
