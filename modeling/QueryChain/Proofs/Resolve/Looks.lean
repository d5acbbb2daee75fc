import QueryChain.Resolve.Table

/-!
# How sources look

Sources, joins and paths are compared by the names and aliases of their tables. Two of them are
equal if they look the same, where the look of a source is the plainest source that is equal to it
(`JoinedTables.look`). So every comparison is an equality (`sameSource_iff`, `sameJoin_iff`,
`samePath_iff`), and what changes a look is all that can change a comparison.
-/

namespace QueryChain

/-! ## Replacing sources -/

/-- A column of another source. -/
def Column.map (f : Source → Source) (c : Column) : Column :=
  { c with source := f c.source }

/-- A join between other sources. -/
def Join.map (f : Source → Source) (j : Join) : Join where
  left := j.left.map f
  right := j.right.map f

/-- A path through other sources. -/
def JoinPath.map (f : Source → Source) (p : JoinPath) : JoinPath where
  first := f p.first
  joins := p.joins.map (Join.map f)

section

variable {f g : Source → Source}

theorem Join.map_congr {j : Join} (hleft : f j.left.source = g j.left.source)
    (hright : f j.right.source = g j.right.source) : j.map f = j.map g := by
  simp only [Join.map, Column.map, hleft, hright]

namespace JoinPath

variable {p : JoinPath}

theorem map_start (f : Source → Source) (first : Source) :
    JoinPath.map f { first, joins := [] } = { first := f first, joins := [] } :=
  rfl

theorem map_map (f g : Source → Source) (p : JoinPath) : (p.map f).map g = p.map (g ∘ f) := by
  simp only [map, List.map_map, Function.comp_apply]
  rfl

theorem last_map (f : Source → Source) (p : JoinPath) : (p.map f).last = f p.last := by
  unfold last map
  simp only [List.getLast?_map]
  cases p.joins.getLast? <;> rfl

theorem map_congr (hfirst : f p.first = g p.first) (hjoins : ∀ j ∈ p.joins, j.map f = j.map g) :
    p.map f = p.map g := by
  rw [map, map, hfirst, List.map_congr_left hjoins]

end JoinPath

end

/-! ## Looks -/

namespace JoinedTables

variable {ts : JoinedTables}

/-- How a source looks: the plainest source that is equal to it. -/
def look (ts : JoinedTables) : Source → Source
  | .table t => .table (.free 0 (ts.name t) (ts.alias? t))
  | .nested _ query aliasName =>
    .nested default { key := query.key, text := "", elementType := "" } aliasName
  | .binding _ aliasName isTable => .binding default aliasName isTable

theorem sameSource_iff {a b : Source} : ts.sameSource a b ↔ ts.look a = ts.look b := by
  cases a <;> cases b <;> simp [sameSource, sameTable, look, and_comm]

theorem sameJoin_iff {j k : Join} : ts.sameJoin j k ↔ j.map ts.look = k.map ts.look := by
  simp only [sameJoin, sameColumn, Bool.and_eq_true, beq_iff_eq, sameSource_iff, Join.map,
    Column.map, Join.mk.injEq, Column.mk.injEq]

theorem sameJoins_iff {js ks : List Join} :
    ts.sameJoins js ks ↔ js.map (Join.map ts.look) = ks.map (Join.map ts.look) := by
  induction js generalizing ks with
  | nil => cases ks <;> simp [sameJoins]
  | cons j js ih =>
    cases ks with
    | nil => simp [sameJoins]
    | cons k ks => simp [sameJoins, sameJoin_iff, ih]

/-- Paths are equal if they look the same. -/
theorem samePath_iff {p q : JoinPath} : ts.samePath p q ↔ p.map ts.look = q.map ts.look := by
  simp only [samePath, Bool.and_eq_true, sameSource_iff, sameJoins_iff, JoinPath.map,
    JoinPath.mk.injEq]

theorem sameSource_refl (ts : JoinedTables) (a : Source) : ts.sameSource a a = true :=
  sameSource_iff.2 rfl

theorem sameSource_symm {a b : Source} (h : ts.sameSource a b) : ts.sameSource b a :=
  sameSource_iff.2 (sameSource_iff.1 h).symm

theorem sameSource_trans {a b c : Source} (h : ts.sameSource a b) (h' : ts.sameSource b c) :
    ts.sameSource a c :=
  sameSource_iff.2 ((sameSource_iff.1 h).trans (sameSource_iff.1 h'))

theorem sameJoin_refl (ts : JoinedTables) (j : Join) : ts.sameJoin j j = true :=
  sameJoin_iff.2 rfl

theorem sameJoin_symm {j k : Join} (h : ts.sameJoin j k) : ts.sameJoin k j :=
  sameJoin_iff.2 (sameJoin_iff.1 h).symm

theorem sameJoin_trans {j k l : Join} (h : ts.sameJoin j k) (h' : ts.sameJoin k l) :
    ts.sameJoin j l :=
  sameJoin_iff.2 ((sameJoin_iff.1 h).trans (sameJoin_iff.1 h'))

theorem samePath_refl (ts : JoinedTables) (p : JoinPath) : ts.samePath p p = true :=
  samePath_iff.2 rfl

theorem samePath_symm {p q : JoinPath} (h : ts.samePath p q) : ts.samePath q p :=
  samePath_iff.2 (samePath_iff.1 h).symm

theorem samePath_trans {p q r : JoinPath} (h : ts.samePath p q) (h' : ts.samePath q r) :
    ts.samePath p r :=
  samePath_iff.2 ((samePath_iff.1 h).trans (samePath_iff.1 h'))

end JoinedTables

end QueryChain
