import QueryChain.Proofs.Chain.Bindings
import QueryChain.Proofs.Resolve.Nearest

/-!
# Members of bundles

A `Select` below another operator makes an object that is meant to bundle what later operators read:
range variables that it hands on, and as the last member one new value, which becomes the variable
of a let clause. That the other members hand on range variables is not checked. They leave no trace
in the query but the selector itself, and what later operators read by them is found by name.

* `HandsOn` says that a member only passes on the variable of an earlier clause;
* `ReadsBack` says what becomes of a member that does, and of one that no variable is named as;
* `let_of_nested_select`: a `Select` below another operator makes an object, and its last member is
  read from the let clause that it becomes if no earlier clause has a variable like it.
-/

namespace QueryChain

namespace Query

variable {q : Query} {p t x : Parameter} {members way : List Member} {k : Member} {index : Nat}
  {owned : Reference} {a : Expr}

/-! ## References through bundles -/

/-- Further members do not matter to the search for an owner. -/
theorem owner?_append (h : q.owner? p members = some (index, owned)) (rest : List Member) :
    q.owner? p (members ++ rest)
      = some (index, { owned with members := owned.members ++ rest }) := by
  induction members generalizing p with
  | nil =>
    rw [owner?.eq_def] at h
    split at h
    · rename_i hindex
      cases h
      exact owner?_of_index hindex
    · cases h
  | cons m members ih =>
    by_cases hbinds : q.Binds p
    · obtain ⟨i, hi⟩ := hbinds.clauseIndex?
      cases (owner?_of_index hi).symm.trans h
      exact owner?_of_index hi
    · rw [owner?_cons hbinds] at h
      rw [List.cons_append, owner?_cons hbinds]
      exact ih h

/-- A lambda parameter and members read from it, none of which looks like a range variable of the
query. What is read from them may stand for one. -/
structure Bundles (q : Query) (t : Parameter) (way : List Member) : Prop where
  root : ¬q.Binds t
  members : ¬q.Captures way

theorem Bundles.findOwner_of_index (h : q.Bundles t way)
    (hindex : q.clauseIndex? k.asVariable = some index) (rest : List Member) :
    q.findOwner (.read t (way ++ k :: rest)) = .ok (some (index, .read k.asVariable rest)) :=
  findOwner_read_eq_some.2 (owner?_of_first h.root h.members hindex)

theorem Bundles.findOwner_of_not_binds (h : q.Bundles t way) (hk : ¬q.Binds k.asVariable) :
    q.findOwner (.read t (way ++ [k])) = .ok none := by
  have hcaptures : ¬q.Captures (way ++ [k]) := by
    rintro ⟨m, hm, hbinds⟩
    rcases List.mem_append.1 hm with hm | hm
    · exact h.members ⟨m, hm, hbinds⟩
    · obtain rfl := List.mem_singleton.1 hm
      exact hk hbinds
  exact findOwner_read_eq_none.2 (owner?_eq_none h.root hcaptures)

/-! ## Members that are handed on -/

/-- The argument `a` of a lambda with the parameter `p` only hands on the range variable `x`: it is
read from `p`, and it means the variable of a range clause before the one with the index `index`. -/
def HandsOn (q : Query) (p : Parameter) (index : Nat) (a : Expr) (x : Parameter) : Prop :=
  ∃ members, ∃ earlier < index,
    a = .read p members ∧ q.findOwner a = .ok (some (earlier, .parameter x))

theorem HandsOn.owner? (h : q.HandsOn p index a x) :
    ∃ members, ∃ earlier < index,
      a = .read p members ∧ q.owner? p members = some (earlier, { root := x, members := [] }) := by
  obtain ⟨members, earlier, hearlier, rfl, howner⟩ := h
  exact ⟨members, earlier, hearlier, rfl, findOwner_read_eq_some.1 howner⟩

theorem HandsOn.binds (h : q.HandsOn p index a x) : q.Binds x := by
  obtain ⟨members, earlier, -, -, howner⟩ := h.owner?
  exact binds_of_clauseIndex? (clauseIndex?_of_owner? howner)

/-- What becomes of the member `k` of an object, which is set by the argument `a`, where later
operators read it. The object is made by a lambda with the parameter `p`, which is the selector of
the let clause with the index `index`. -/
structure ReadsBack (q : Query) (p : Parameter) (index : Nat) (k : Member) (a : Expr) : Prop where
  /-- A range variable that is handed on under its own name is read as before. -/
  handedOn : q.HandsOn p index a k.asVariable → ∃ members, ∃ earlier < index,
    a = .read p members ∧ ∀ rest,
      q.findOwner (.read p (members ++ rest)) = .ok (some (earlier, .read k.asVariable rest))
        ∧ ∀ t way, q.Bundles t way → q.findOwner (.read t (way ++ k :: rest))
          = .ok (some (earlier, .read k.asVariable rest))
  lost : ¬q.Binds k.asVariable → ∀ t way, q.Bundles t way →
    q.findOwner (.read t (way ++ [k])) = .ok none

theorem readsBack (q : Query) (p : Parameter) (index : Nat) (k : Member) (a : Expr) :
    q.ReadsBack p index k a where
  handedOn h := by
    obtain ⟨members, earlier, hearlier, ha, howner⟩ := h.owner?
    exact ⟨members, earlier, hearlier, ha, fun rest =>
      ⟨findOwner_read_eq_some.2 (owner?_append howner rest),
        fun _ _ hbundles => hbundles.findOwner_of_index (clauseIndex?_of_owner? howner) rest⟩⟩
  lost hk _ _ hbundles := hbundles.findOwner_of_not_binds hk

/-! ## Nested selects -/

/-- The index, among the range clauses, of one that follows the clauses of the operators `below`. An
operator that refines an ordering has no clause. -/
def letIndex (q : Query) (below : List Layer) : Nat :=
  ((q.body.take (below.countP (!·.refines))).filterMap Clause.range?).length + 1

theorem rangeClauses_letIndex {below : List Layer} {clause : RangeClause}
    (h : q.body[below.countP (!·.refines)]? = some (.range clause)) :
    q.rangeClauses[q.letIndex below]? = some clause := by
  obtain ⟨hlt, hclause⟩ := List.getElem?_eq_some_iff.1 h
  have hbody : q.body.filterMap Clause.range?
      = (q.body.take (below.countP (!·.refines))).filterMap Clause.range?
        ++ clause :: (q.body.drop (below.countP (!·.refines) + 1)).filterMap Clause.range? := by
    conv_lhs => rw [← List.take_append_drop (below.countP (!·.refines)) q.body]
    rw [List.filterMap_append, List.drop_eq_getElem_cons hlt, hclause]
    rfl
  rw [rangeClauses, letIndex, List.getElem?_cons_succ, hbody]
  rw [List.getElem?_append_right (Nat.le_refl _), Nat.sub_self, List.getElem?_cons_zero]

/-- What the query has of a `Select` above the operators `below` and below others: its lambda with
the parameter `p` makes an object of the members `others` and the last member `m` with the argument
`value`, and a let clause binds `m` to `value`. -/
structure LetOf (q : Query) (below : List Layer) (p : Parameter) (body : Expr)
    (others : List (Member × Expr)) (m : Member) (value : Expr) : Prop where
  object : body.SetsMembers (others ++ [(m, value)])
  clause : ∃ clause value', clause
      = { identifier := m.asVariable, kind := .binding value' (.lambda [p] body) }
    ∧ value.NestedAs (MadeOf q.embedded) value'
    ∧ q.body[below.countP (!·.refines)]? = some (.range clause)
    ∧ q.rangeClauses[q.letIndex below]? = some clause
  /-- Later operators read the last member from the let clause itself, if it is the first clause with
  such a variable. -/
  last : (∀ c ∈ q.rangeClauses.take (q.letIndex below), c.identifier ≠ m.asVariable) →
    ∀ t way, q.Bundles t way → ∀ rest, q.findOwner (.read t (way ++ m :: rest))
      = .ok (some (q.letIndex below, .read m.asVariable rest))
  members : ∀ ka ∈ others, q.ReadsBack p (q.letIndex below) ka.1 ka.2

end Query

theorem Rendered.letOf {q : Query} {source : Expr} {below above : List Layer} {p : Parameter}
    {body : Expr} (h : Rendered q source (below ++ .select p body :: above)) (habove : above ≠ []) :
    ∃ others m value, q.LetOf below p body others m value := by
  obtain ⟨others, m, value, value', hobject, hvalue, hclause⟩ := h.body.binding_at rfl habove
  have hlet := Query.rangeClauses_letIndex hclause
  refine ⟨others, m, value, hobject, ⟨_, value', rfl, hvalue, hclause, hlet⟩, ?_,
    fun ka _ => Query.readsBack q p _ ka.1 ka.2⟩
  intro hfirst t way hbundles rest
  exact hbundles.findOwner_of_index (Query.clauseIndex?_eq_some_iff.2 ⟨_, hlet, rfl, hfirst⟩) rest

theorem letOf_of_parse {e source : Expr} {root q : Query} {below above : List Layer} {p : Parameter}
    {body : Expr} {distinct : Bool} {modifiers : List Modifier} (hparse : parse e = .ok root)
    (hq : Query.Within root q)
    (hspine : Spine source (below ++ .select p body :: above) q.expression distinct modifiers)
    (habove : above ≠ []) : ∃ others m value, q.LetOf below p body others m value := by
  obtain ⟨source, layers, hrendered⟩ := (rendered_of_parse hparse).2 q hq
  obtain ⟨rfl, rfl, -⟩ := hspine.unique hrendered.spine
  exact hrendered.letOf habove

/-- In every query of a parsed tree, a `Select` below another lambda operator makes an object, and
its last member is bound by a let clause. If each of the others only hands on the variable of an
earlier clause under its own name, and no earlier clause has a variable like the last member, then
nothing of the object is lost. A chain in which such a `Select` makes anything else is not parsed,
and what is told is that the object is missing, unless there is a fault below the `Select`. -/
theorem let_of_nested_select (e : Expr) :
    (∀ root, parse e = .ok root → ∀ q, Query.Within root q →
        (∃ source layers distinct modifiers, Spine source layers q.expression distinct modifiers)
          ∧ ∀ source below p body above distinct modifiers,
            Spine source (below ++ .select p body :: above) q.expression distinct modifiers →
            above ≠ [] → ∃ others m value, q.LetOf below p body others m value)
      ∧ ∀ source below p body above distinct modifiers,
        Spine source (below ++ .select p body :: above) e distinct modifiers → above ≠ [] →
        (∀ others m value, ¬body.SetsMembers (others ++ [(m, value)])) →
          (∀ root, parse e ≠ .ok root)
            ∧ (source.evaluate.isSource → Layer.Faultless Expr.MakesQuery below →
              parse e = .error { fault := .bindingShape (.lambda [p] body), query := e }) := by
  constructor
  · intro root hparse q hq
    obtain ⟨source, layers, hrendered⟩ := (rendered_of_parse hparse).2 q hq
    exact ⟨⟨source, layers, _, _, hrendered.spine⟩,
      fun _ _ _ _ _ _ _ hspine habove => letOf_of_parse hparse hq hspine habove⟩
  · intro source below p body above distinct modifiers hspine habove hobject
    constructor
    · intro root hparse
      obtain rfl := (rendered_of_parse hparse).1
      obtain ⟨others, m, value, hlet⟩ := letOf_of_parse hparse .self hspine habove
      exact hobject others m value hlet.object
    · intro hsource hbelow
      refine parse_bindingShape hspine hsource habove hbelow fun hbinds => ?_
      obtain ⟨others, m, value, h⟩ := Layer.binds_select_iff.1 hbinds
      exact hobject others m value h

/-- The names of students, and a filter of them. -/
def filteredNames (body predicate : Expr) : Expr :=
  Chain.filter
    (Chain.select (.table "Students" "Student")
      (.lambda [{ name := "s", type := "Student" }] body))
    (.lambda [{ name := "t", type := "Names" }] predicate)

theorem spine_filteredNames (body predicate : Expr) :
    Spine (.table "Students" "Student")
      ([] ++ .select { name := "s", type := "Student" } body
        :: [.filter { name := "t", type := "Names" } predicate])
      (filteredNames body predicate) false [] := by
  have hsource : Layered (.table "Students" "Student") (.table "Students" "Student") [] :=
    .source nofun
  have hselect : Layered (.table "Students" "Student")
      (Chain.select (.table "Students" "Student")
        (.lambda [{ name := "s", type := "Student" }] body))
      ([] ++ [.select { name := "s", type := "Student" } body]) := .layer hsource (.select rfl)
  exact .lambdas (.layer hselect (.filter rfl))

/-- A name of the student that the `Select` is applied to. -/
def nameOfStudent (name : String) : Expr :=
  .read { name := "s", type := "Student" } [{ declaringType := "Student", name, type := "String" }]

/-- A member of the object that holds a student's names. -/
def namesMember (name : String) : Member :=
  { declaringType := "Names", name, type := "String" }

/-- Whether the first name is Tom. -/
def isTom : Expr :=
  .operation .equal (.read { name := "t", type := "Names" } [namesMember "first"])
    (.ofConstant (.string "Tom"))

/-- An object that holds a student's names. -/
def namesObject : Expr :=
  .anonymous "Names" [("first", nameOfStudent "First"), ("last", nameOfStudent "Last")]

/-- The names of the students that are called Tom. -/
def tomsNames : Expr :=
  filteredNames namesObject isTom

/-- The range variables are the student and the last name. -/
theorem parse_tomsNames : ∃ root, parse tomsNames = .ok root
    ∧ root.rangeClauses.map (·.identifier)
      = [{ name := "s", type := "Student" }, (namesMember "last").asVariable] :=
  ⟨_, rfl, rfl⟩

/-- Other members than the last one need not hand on range variables. -/
theorem not_only_handed_on :
    ¬∀ e root, parse e = .ok root → ∀ source below p body above distinct modifiers,
      Spine source (below ++ .select p body :: above) e distinct modifiers → above ≠ [] →
      ∀ others m value, body.SetsMembers (others ++ [(m, value)]) →
        ∀ ka ∈ others, root.HandsOn p (root.letIndex below) ka.2 ka.1.asVariable := by
  intro h
  obtain ⟨root, hparse, hvariables⟩ := parse_tomsNames
  have hhanded := h tomsNames root hparse _ [] _ _ _ _ _ (spine_filteredNames _ isTom) (by simp)
    [(namesMember "first", nameOfStudent "First")] (namesMember "last") (nameOfStudent "Last")
    ⟨"Names", rfl⟩ _ (List.mem_singleton_self _)
  have hfirst : ¬root.Binds (namesMember "first").asVariable := by
    rw [Query.binds_iff, hvariables]
    decide
  exact hfirst hhanded.binds

/-- An object that holds a student and the student's names. -/
def namedStudent : Expr :=
  .anonymous "Names" [("s", .parameter { name := "s", type := "Student" }),
    ("first", nameOfStudent "First"), ("last", nameOfStudent "Last")]

/-- The student in `namedStudent`. -/
def studentMember : Member :=
  { declaringType := "Names", name := "s", type := "Student" }

theorem parse_namedStudent : ∃ root, parse (filteredNames namedStudent isTom) = .ok root
    ∧ root.expression = filteredNames namedStudent isTom
    ∧ root.main.identifier = { name := "s", type := "Student" }
    ∧ root.rangeClauses.map (·.identifier)
      = [{ name := "s", type := "Student" }, (namesMember "last").asVariable] :=
  ⟨_, rfl, rfl, rfl, rfl⟩

/-- The student is handed on and the last name is bound, but the first name, by which the students
are filtered, is lost. Without an object there is no query. -/
theorem let_of_nested_select_toms :
    let t : Parameter := { name := "t", type := "Names" }
    let s : Parameter := { name := "s", type := "Student" }
    (∃ root, parse (filteredNames namedStudent isTom) = .ok root
        ∧ (∀ rest, root.findOwner (.read t (studentMember :: rest))
          = .ok (some (0, .read s rest)))
        ∧ (∀ rest, root.findOwner (.read t (namesMember "last" :: rest))
          = .ok (some (1, .read (namesMember "last").asVariable rest)))
        ∧ root.findOwner (.read t [namesMember "first"]) = .ok none)
      ∧ parse (filteredNames (nameOfStudent "First") isTom) = .error {
        fault := .bindingShape (.lambda [s] (nameOfStudent "First"))
        query := filteredNames (nameOfStudent "First") isTom } := by
  intro t s
  constructor
  · obtain ⟨root, hparse, hexpression, hmain, hvariables⟩ := parse_namedStudent
    have hbundles : root.Bundles t [] :=
      ⟨by rw [Query.binds_iff, hvariables]; decide, by simp [Query.Captures]⟩
    obtain ⟨-, hlets⟩ := (let_of_nested_select (filteredNames namedStudent isTom)).1 root hparse
      root .self
    obtain ⟨others, m, value, hlet⟩ := hlets (.table "Students" "Student") [] s namedStudent
      [.filter t isTom] false [] (hexpression ▸ spine_filteredNames namedStudent isTom)
      (List.cons_ne_nil _ _)
    have hobject : namedStudent.SetsMembers
        ([(studentMember, .parameter s), (namesMember "first", nameOfStudent "First")]
          ++ [(namesMember "last", nameOfStudent "Last")]) := ⟨"Names", rfl⟩
    obtain ⟨rfl, hlast⟩ := List.append_inj' (hlet.object.unique hobject) rfl
    obtain ⟨rfl, rfl⟩ := Prod.mk.inj (List.singleton_inj.1 hlast)
    have hindex : root.clauseIndex? s = some 0 :=
      Query.clauseIndex?_eq_some_iff.2 ⟨root.main, rfl, hmain, by simp⟩
    have howner : root.findOwner (.read s []) = .ok (some (0, .read s [])) :=
      findOwner_read_eq_some.2 (Query.owner?_of_index hindex)
    have hstudent : root.HandsOn s (root.letIndex []) (.parameter s) studentMember.asVariable :=
      ⟨[], 0, Nat.zero_lt_one, rfl, howner⟩
    refine ⟨root, hparse, fun rest => ?_, fun rest => ?_, ?_⟩
    · obtain ⟨members, earlier, hearlier, -, hreads⟩ :=
        (hlet.members _ List.mem_cons_self).handedOn hstudent
      obtain rfl := Nat.lt_one_iff.1 hearlier
      exact (hreads rest).2 t [] hbundles
    · refine hlet.last ?_ t [] hbundles rest
      intro c hc
      obtain rfl := List.mem_singleton.1 hc
      rw [hmain]
      decide
    · have hfirst := hlet.members _ (List.mem_cons_of_mem _ (List.mem_singleton_self _))
      refine hfirst.lost ?_ t [] hbundles
      rw [Query.binds_iff, hvariables]
      decide
  · obtain ⟨-, hrejected⟩ := (let_of_nested_select (filteredNames (nameOfStudent "First") isTom)).2
      _ _ _ _ _ _ _ (spine_filteredNames _ isTom) (List.cons_ne_nil _ _)
      (by rintro _ _ _ ⟨_, ⟨⟩⟩)
    exact hrejected rfl ⟨Layer.ordered_iff.2 rfl, by simp, by simp⟩

end QueryChain
