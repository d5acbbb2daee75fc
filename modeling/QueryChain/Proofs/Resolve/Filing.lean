import QueryChain.Proofs.Resolve.Routes
import QueryChain.Proofs.Schema.Apart

/-!
# Filed tables

A table is shared by the relation and the path that it was made for, and paths are compared by the
names and aliases of their tables. So a table may come to be shared by paths that are equal only
until the tables on them are named; later it is not found any more on a path that it was not made
for.

* `JoinedTables.Orderly` holds of the tables of every session: in particular no two tables are made
  for one relation and equal paths;
* `JoinedTables.Filed` says of a path that each table on it was made for a path that is equal to
  what comes before it. Relations that were followed once lead to the same path again exactly if
  that is filed (`follow_of_filed`, `filed_of_follow_eq`);
* `JoinedTables.FiledExactly` says that each table on a path was made for what comes before it,
  table by table, which naming does not change. All paths are like that if no two relations make
  joins that look alike (`Schema.JoinsApart`).
-/

namespace QueryChain

namespace JoinedTables

variable {schema : Schema} {ts ts' : JoinedTables} {path : JoinPath} {relation : Member}
  {relations : List Member} {link : Link} {name : String}

/-! ## Orderly tables -/

/-- What holds of the joined tables of a session at any time. -/
structure Orderly (schema : Schema) (ts : JoinedTables) : Prop where
  apart : ts.AliasesApart
  made : ts.PathsMade
  routed : ∀ t ∈ ts.tables, t.path.Routed
  linked : ∀ t ∈ ts.tables, ∃ link, schema.link? t.relation = some link
    ∧ t.name = link.targetTable
  /-- No two tables are made for equal paths and one relation. -/
  unique : ∀ (i k : Nat) (t u : TableEntry), ts.tables[i]? = some t → ts.tables[k]? = some u →
    t.relation.same u.relation → ts.samePath t.path u.path → i = k

theorem orderly_new (schema : Schema) (aliasPrefix : String) :
    Orderly schema { aliasPrefix } where
  apart := .nil
  made := by simp [PathsMade]
  routed := by simp
  linked := by simp
  unique := by simp

theorem getElem?_concat_cases {α : Type} {items : List α} {a b : α} {i : Nat}
    (h : (items ++ [a])[i]? = some b) : items[i]? = some b ∨ i = items.length ∧ b = a := by
  rw [List.getElem?_append] at h
  split at h
  · exact .inl h
  · obtain ⟨hlt, heq⟩ := List.getElem?_eq_some_iff.1 h
    have hlt : i - items.length < 1 := hlt
    exact .inr ⟨by omega, by simpa using heq.symm⟩

theorem Orderly.join (h : ts.Orderly schema) (hmade : path.Made ts) (hrouted : path.Routed)
    (hlink : schema.link? relation = some link) :
    (ts.join path relation link.targetTable).2.Orderly schema := by
  have hext := join_extends ts path relation link.targetTable
  have hapart : (ts.join path relation link.targetTable).2.AliasesApart :=
    h.apart.step (.join path relation link.targetTable)
  have hpaths : (ts.join path relation link.targetTable).2.PathsMade := h.made.join hmade
  rcases join_cases ts path relation link.targetTable with ⟨_, -, heq⟩ | ⟨hnone, heq⟩
  · rwa [heq]
  · rw [heq] at hext hapart hpaths ⊢
    -- No old table was made for a path equal to that of the new one.
    have hnew : ∀ t ∈ ts.tables, t.relation.same relation → ¬ts.samePath t.path path := by
      intro t ht hrelation hpath
      simpa [hrelation, hpath] using List.findIdx?_eq_none_iff.1 hnone t ht
    refine ⟨hapart, hpaths, ?_, ?_, ?_⟩
    · intro t ht
      rcases List.mem_append.1 ht with ht | ht
      · exact h.routed t ht
      · obtain rfl := List.mem_singleton.1 ht
        exact hrouted
    · intro t ht
      rcases List.mem_append.1 ht with ht | ht
      · exact h.linked t ht
      · obtain rfl := List.mem_singleton.1 ht
        exact ⟨link, hlink, rfl⟩
    · intro i k t u ht hu hrelation hpath
      rcases getElem?_concat_cases ht with hi | ⟨rfl, rfl⟩
      · have hmem := List.mem_of_getElem? hi
        rcases getElem?_concat_cases hu with hk | ⟨rfl, rfl⟩
        · rw [hext.samePath_eq (h.made t hmem) (h.made u (List.mem_of_getElem? hk))] at hpath
          exact h.unique i k t u hi hk hrelation hpath
        · rw [hext.samePath_eq (h.made t hmem) hmade] at hpath
          exact absurd hpath (hnew t hmem hrelation)
      · rcases getElem?_concat_cases hu with hk | ⟨rfl, rfl⟩
        · have hmem := List.mem_of_getElem? hk
          rw [hext.samePath_eq hmade (h.made u hmem)] at hpath
          exact absurd (samePath_symm hpath) (hnew u hmem (Member.same_symm hrelation))
        · rfl

theorem join_routed (hpath : path.Routed) (relation : Member) (link : Link) :
    (path.extend link (ts.join path relation link.targetTable).1).Routed := by
  obtain ⟨index, htable, -⟩ := join_made ts path relation link.targetTable
  rw [htable]
  exact hpath.extend link index

theorem Orderly.follow (h : ts.Orderly schema) (hmade : path.Made ts) (hrouted : path.Routed) :
    (ts.follow schema path relations).2.Orderly schema := by
  induction relations generalizing ts path with
  | nil => exact h
  | cons relation relations ih =>
    cases hlink : schema.link? relation with
    | none => rwa [follow_of_no_link hlink]
    | some link =>
      rw [follow_of_link hlink]
      exact ih (h.join hmade hrouted hlink) (hmade.extend relation link)
        (join_routed hrouted relation link)

theorem Orderly.finalize (h : ts.Orderly schema) (q : Query) : (ts.finalize q).Orderly schema where
  apart := h.apart.step (.finalize q)
  made := by
    intro t ht
    obtain ⟨i, hi⟩ := List.mem_iff_getElem?.1 ht
    obtain ⟨t', _, ht', rfl⟩ := finalize_entry hi
    exact (precedes_finalize ts q).made_path (h.made t' (List.mem_of_getElem? ht'))
  routed := by
    intro t ht
    obtain ⟨i, hi⟩ := List.mem_iff_getElem?.1 ht
    obtain ⟨t', _, ht', rfl⟩ := finalize_entry hi
    exact h.routed t' (List.mem_of_getElem? ht')
  linked := by
    intro t ht
    obtain ⟨i, hi⟩ := List.mem_iff_getElem?.1 ht
    obtain ⟨t', _, ht', rfl⟩ := finalize_entry hi
    exact h.linked t' (List.mem_of_getElem? ht')
  unique := by
    intro i k t u ht hu hrelation hpath
    obtain ⟨t', _, ht', rfl⟩ := finalize_entry ht
    obtain ⟨u', _, hu', rfl⟩ := finalize_entry hu
    -- Paths that naming leaves equal were equal before.
    exact h.unique i k t' u' ht' hu' hrelation (samePath_of_finalize h.apart
      (h.routed t' (List.mem_of_getElem? ht')) (h.routed u' (List.mem_of_getElem? hu')) hpath)

/-! ## Filed paths -/

/-- Each joined table on the path was made for a path that is equal to what comes before it. -/
def Filed (ts : JoinedTables) (path : JoinPath) : Prop :=
  ∀ before j after index, path.joins = before ++ j :: after →
    j.right.source = .table (.joined index) →
    ∃ t, ts.tables[index]? = some t ∧ ts.samePath t.path { first := path.first, joins := before }

theorem filed_start (ts : JoinedTables) (first : Source) : ts.Filed { first, joins := [] } := by
  intro before j after index heq
  simp at heq

theorem Filed.extend (h : ts.Filed path) {index : Nat} {t : TableEntry}
    (ht : ts.tables[index]? = some t) (hpath : ts.samePath t.path path) (link : Link) :
    ts.Filed (path.extend link (.joined index)) := by
  intro before j after index' heq hj
  rcases List.eq_nil_or_concat after with rfl | ⟨after, last, rfl⟩
  · obtain ⟨rfl, hlast⟩ := List.append_inj' heq rfl
    cases hlast
    cases hj
    exact ⟨t, ht, hpath⟩
  · rw [List.concat_eq_append, ← List.cons_append, ← List.append_assoc] at heq
    obtain ⟨heq, -⟩ := List.append_inj' heq rfl
    exact h before j after index' heq hj

/-- The table that a relation leads to was made for the relation and an equal path. -/
theorem join_entry (ts : JoinedTables) (path : JoinPath) (relation : Member) (name : String) :
    ∃ index t, (ts.join path relation name).1 = .joined index
      ∧ (ts.join path relation name).2.tables[index]? = some t ∧ t.relation.same relation
      ∧ (ts.join path relation name).2.samePath t.path path := by
  rcases join_cases ts path relation name with ⟨index, hindex, heq⟩ | ⟨-, heq⟩
  · obtain ⟨t, ht, hrelation, hpath, -⟩ := indexOf?_eq_some_iff.1 hindex
    rw [heq]
    exact ⟨index, t, rfl, ht, hrelation, hpath⟩
  · rw [heq]
    exact ⟨_, _, rfl, List.getElem?_concat_length, Member.same_iff.2 ⟨rfl, rfl⟩, samePath_refl _ _⟩

theorem follow_first (schema : Schema) (ts : JoinedTables) (path : JoinPath)
    (relations : List Member) : (ts.follow schema path relations).1.first = path.first := by
  induction relations generalizing ts path with
  | nil => rfl
  | cons relation relations ih =>
    cases hlink : schema.link? relation with
    | none => rw [follow_of_no_link hlink]
    | some link =>
      rw [follow_of_link hlink, ih]
      rfl

/-- In orderly tables, a table is found by the relation and any path equal to the one that it was
made for. -/
theorem Orderly.indexOf?_eq (h : ts.Orderly schema) {index : Nat} {t : TableEntry}
    (ht : ts.tables[index]? = some t) (hrelation : t.relation.same relation)
    (hpath : ts.samePath t.path path) : ts.indexOf? path relation = some index := by
  refine indexOf?_eq_some_iff.2 ⟨t, ht, hrelation, hpath, ?_⟩
  intro i hi u hu hrelation' hpath'
  have hsame := Member.same_trans hrelation' (Member.same_symm hrelation)
  have := h.unique i index u t hu ht hsame (samePath_trans hpath' (samePath_symm hpath))
  omega

/-- Relations that were followed once lead to the same path again if that is still filed. -/
theorem follow_of_filed (h : ts'.Orderly schema)
    (hkept : (ts.follow schema path relations).2.Precedes ts')
    (hfiled : ts'.Filed (ts.follow schema path relations).1) :
    ts'.follow schema path relations = ((ts.follow schema path relations).1, ts') := by
  induction relations generalizing ts path with
  | nil => rfl
  | cons relation relations ih =>
    cases hlink : schema.link? relation with
    | none => rw [follow_of_no_link hlink, follow_of_no_link hlink]
    | some link =>
      rw [follow_of_link hlink] at hkept hfiled ⊢
      obtain ⟨index, t, htable, ht, hrelation, -⟩ := join_entry ts path relation link.targetTable
      have hfirst := follow_first schema (ts.join path relation link.targetTable).2
        (path.extend link (ts.join path relation link.targetTable).1) relations
      obtain ⟨after, hafter⟩ := follow_prefix schema (ts.join path relation link.targetTable).2
        (path.extend link (ts.join path relation link.targetTable).1) relations
      obtain ⟨aliasName, ht'⟩ := ((follow_extends _ _ _ _).precedes.trans hkept) index t ht
      obtain ⟨u, hu, hpath⟩ := hfiled path.joins _ after index
        (by rw [← hafter, JoinPath.extend, List.append_assoc]; rfl) (congrArg Source.table htable)
      cases ht'.symm.trans hu
      rw [hfirst] at hpath
      have hindex : ts'.indexOf? path relation = some index := h.indexOf?_eq hu hrelation hpath
      rw [follow_of_link hlink, join_of_indexOf? hindex, ← htable]
      exact ih hkept hfiled

/-- A path that was followed without making a table is filed. -/
theorem filed_of_follow_eq (hpath : ts.Filed path) (h : (ts.follow schema path relations).2 = ts) :
    ts.Filed (ts.follow schema path relations).1 := by
  induction relations generalizing path with
  | nil => exact hpath
  | cons relation relations ih =>
    cases hlink : schema.link? relation with
    | none => rwa [follow_of_no_link hlink]
    | some link =>
      obtain ⟨index, hindex, hjoin⟩ := join_of_follow_eq hlink h
      obtain ⟨t, ht, -, hsame, -⟩ := indexOf?_eq_some_iff.1 hindex
      rw [follow_of_link hlink, hjoin] at h ⊢
      exact ih (hpath.extend ht hsame link) h

end JoinedTables

/-! ## Exactly filed paths -/

/-- The joins of a path without the sources that they start at. -/
def JoinPath.hops (path : JoinPath) : List (Option String × Column) :=
  path.joins.map fun j => (j.left.name, j.right)

theorem hops_extend (path : JoinPath) (link : Link) (table : Table) :
    (path.extend link table).hops = path.hops ++
      [(some link.leftColumn, { source := .table table, name := some link.rightColumn })] := by
  simp [JoinPath.hops, JoinPath.extend]

theorem hops_extend_ne_nil (path : JoinPath) (link : Link) (table : Table) :
    (path.extend link table).hops ≠ [] := by
  simp [hops_extend]

theorem hops_extend_inj {p q : JoinPath} {link link' : Link} {i k : Nat}
    (h : (p.extend link (.joined i)).hops = (q.extend link' (.joined k)).hops) :
    p.hops = q.hops ∧ link.leftColumn = link'.leftColumn ∧ i = k
      ∧ link.rightColumn = link'.rightColumn := by
  rw [hops_extend, hops_extend] at h
  obtain ⟨hbefore, hlast⟩ := List.append_inj' h rfl
  refine ⟨hbefore, ?_⟩
  simpa using hlast

/-- Paths that go through the same tables, from sources that are equal whatever tables there are. -/
structure JoinPath.Alike (p q : JoinPath) : Prop where
  first : ∀ ts : JoinedTables, ts.sameSource p.first q.first
  hops : p.hops = q.hops

namespace JoinPath.Alike

variable {p q r : JoinPath}

theorem refl (p : JoinPath) : p.Alike p :=
  ⟨fun ts => ts.sameSource_refl p.first, rfl⟩

theorem symm (h : p.Alike q) : q.Alike p :=
  ⟨fun ts => JoinedTables.sameSource_symm (h.first ts), h.hops.symm⟩

theorem trans (h : p.Alike q) (h' : q.Alike r) : p.Alike r :=
  ⟨fun ts => JoinedTables.sameSource_trans (h.first ts) (h'.first ts), h.hops.trans h'.hops⟩

/-- Paths through the same tables are equal, whatever aliases these have. -/
theorem samePath (hp : p.Routed) (hq : q.Routed) (h : p.Alike q) (ts : JoinedTables) :
    ts.samePath p q := by
  induction hp generalizing q with
  | start =>
    cases hq with
    | start =>
      simp only [JoinedTables.samePath, Bool.and_eq_true]
      exact ⟨h.first ts, rfl⟩
    | extend => exact absurd h.hops.symm (hops_extend_ne_nil _ _ _)
  | extend link i _ ih =>
    cases hq with
    | start => exact absurd h.hops (hops_extend_ne_nil _ _ _)
    | extend link' k hq =>
      obtain ⟨hhops, hleft, rfl, hright⟩ := hops_extend_inj h.hops
      refine JoinedTables.samePath_extend_iff.2 ⟨ih hq ⟨h.first, hhops⟩, hleft, hright, ?_⟩
      simp [JoinedTables.sameTable]

end JoinPath.Alike

namespace JoinedTables

variable {schema : Schema} {ts ts' : JoinedTables} {path p q : JoinPath} {relation : Member}
  {relations : List Member} {link : Link}

/-- Each joined table on the path was made for a path through the same tables as what comes before
it, and for a relation that makes the join. -/
inductive FiledExactly (schema : Schema) (ts : JoinedTables) : JoinPath → Prop where
  | start {first : Source} : ¬first.IsJoined → FiledExactly schema ts { first, joins := [] }
  | extend {path : JoinPath} {link : Link} {index : Nat} {t : TableEntry} :
    FiledExactly schema ts path → ts.tables[index]? = some t → t.path.Alike path →
    schema.link? t.relation = some link → t.name = link.targetTable →
    FiledExactly schema ts (path.extend link (.joined index))

theorem FiledExactly.routed (h : FiledExactly schema ts path) : path.Routed := by
  induction h with
  | start hfirst => exact .start hfirst
  | extend _ _ _ _ _ ih => exact ih.extend _ _

theorem FiledExactly.mono (hkept : ts.Precedes ts') (h : FiledExactly schema ts path) :
    FiledExactly schema ts' path := by
  induction h with
  | start hfirst => exact .start hfirst
  | extend _ ht halike hlink hname ih =>
    obtain ⟨_, ht'⟩ := hkept _ _ ht
    exact ih.extend ht' halike hlink hname

theorem FiledExactly.filed (horderly : ts.Orderly schema) (h : FiledExactly schema ts path) :
    ts.Filed path := by
  induction h with
  | start => exact filed_start ts _
  | extend hpath ht halike _ _ ih =>
    have hrouted := horderly.routed _ (List.mem_of_getElem? ht)
    exact ih.extend ht (halike.samePath hrouted hpath.routed ts) _

/-- Where relations make joins that look different, equal paths go through the same tables. -/
theorem FiledExactly.alike (hschema : schema.JoinsApart) (horderly : ts.Orderly schema)
    (hp : FiledExactly schema ts p) (hq : FiledExactly schema ts q) (hsame : ts.samePath p q) :
    p.Alike q := by
  induction hp generalizing q with
  | start hfirst =>
    cases hq with
    | start hfirst' =>
      simp only [samePath, Bool.and_eq_true] at hsame
      refine ⟨fun ts' => ?_, rfl⟩
      rw [sameSource_eq_of_not_joined hfirst hfirst']
      exact hsame.1
    | extend => exact absurd hsame not_samePath_start_extend
  | @extend p link i t hp ht halike hlink hname ih =>
    cases hq with
    | start => exact absurd (samePath_symm hsame) not_samePath_start_extend
    | @extend q link' k u hq hu halike' hlink' hname' =>
      obtain ⟨hpath, hleft, hright, htable⟩ := samePath_extend_iff.1 hsame
      have hbefore := ih hq hpath
      -- The two tables have one name, so they were made for one relation, and on equal paths.
      have hnames : t.name = u.name := by
        simp only [sameTable, Bool.and_eq_true, beq_iff_eq] at htable
        simpa [name, ht, hu] using htable.1
      have hrelation : t.relation.same u.relation :=
        hschema _ _ _ _ hlink hlink' ⟨by rw [← hname, ← hname', hnames], hleft, hright⟩
      have hpaths : ts.samePath t.path u.path :=
        (halike.trans (hbefore.trans halike'.symm)).samePath
          (horderly.routed t (List.mem_of_getElem? ht))
          (horderly.routed u (List.mem_of_getElem? hu)) ts
      obtain rfl := horderly.unique i k t u ht hu hrelation hpaths
      exact ⟨hbefore.first, by rw [hops_extend, hops_extend, hbefore.hops, hleft, hright]⟩

/-- All tables were made for exactly filed paths. -/
def Exact (schema : Schema) (ts : JoinedTables) : Prop :=
  ∀ t ∈ ts.tables, FiledExactly schema ts t.path

theorem Exact.join (hschema : schema.JoinsApart) (horderly : ts.Orderly schema)
    (h : ts.Exact schema) (hpath : FiledExactly schema ts path)
    (hlink : schema.link? relation = some link) :
    (ts.join path relation link.targetTable).2.Exact schema
      ∧ FiledExactly schema (ts.join path relation link.targetTable).2
        (path.extend link (ts.join path relation link.targetTable).1) := by
  have hkept := (join_extends ts path relation link.targetTable).precedes
  rcases join_cases ts path relation link.targetTable with ⟨index, hindex, heq⟩ | ⟨-, heq⟩
  · obtain ⟨t, ht, hrelation, hsame, -⟩ := indexOf?_eq_some_iff.1 hindex
    have hmem := List.mem_of_getElem? ht
    obtain ⟨link', hlink', hname⟩ := horderly.linked t hmem
    rw [Schema.link?_of_same hrelation, hlink] at hlink'
    cases hlink'
    rw [heq]
    refine ⟨h, hpath.extend ht ((h t hmem).alike hschema horderly hpath hsame) ?_ hname⟩
    rw [Schema.link?_of_same hrelation, hlink]
  · rw [heq] at hkept ⊢
    refine ⟨?_, (hpath.mono hkept).extend List.getElem?_concat_length (.refl path) hlink rfl⟩
    intro t ht
    rcases List.mem_append.1 ht with ht | ht
    · exact (h t ht).mono hkept
    · obtain rfl := List.mem_singleton.1 ht
      exact hpath.mono hkept

theorem Exact.follow (hschema : schema.JoinsApart) (horderly : ts.Orderly schema)
    (h : ts.Exact schema) (hmade : path.Made ts) (hpath : FiledExactly schema ts path) :
    (ts.follow schema path relations).2.Exact schema
      ∧ FiledExactly schema (ts.follow schema path relations).2
        (ts.follow schema path relations).1 := by
  induction relations generalizing ts path with
  | nil => exact ⟨h, hpath⟩
  | cons relation relations ih =>
    cases hlink : schema.link? relation with
    | none =>
      rw [follow_of_no_link hlink]
      exact ⟨h, hpath⟩
    | some link =>
      rw [follow_of_link hlink]
      obtain ⟨hexact, hnext⟩ := h.join hschema horderly hpath hlink
      exact ih (horderly.join hmade hpath.routed hlink) hexact (hmade.extend relation link) hnext

theorem Exact.finalize (h : ts.Exact schema) (q : Query) : (ts.finalize q).Exact schema := by
  intro t ht
  obtain ⟨i, hi⟩ := List.mem_iff_getElem?.1 ht
  obtain ⟨t', _, ht', rfl⟩ := finalize_entry hi
  exact (h t' (List.mem_of_getElem? ht')).mono (precedes_finalize ts q)

end JoinedTables

end QueryChain
