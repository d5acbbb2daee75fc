import QueryChain.Proofs.Resolve.Plan

/-!
# Shared tables

The table that a relation leads to is made once and found again by its path and relation. While
tables are only added, none is lost that way: whatever was followed once is followed again to the
same tables, and nothing is made (`follow_again`). Conversely following makes nothing exactly if all
tables on the way were there before (`follow_eq_self_iff`).
-/

namespace QueryChain

/-! ## Comparing paths -/

/-- Replacements that agree on the tables that are made agree on a path through them. -/
theorem JoinPath.Made.map_congr {ts : JoinedTables} {p : JoinPath} {f g : Source → Source}
    (h : p.Made ts) (hsame : ∀ a : Source, a.Made ts → f a = g a) : p.map f = p.map g :=
  JoinPath.map_congr (hsame _ h.first)
    fun j hj => Join.map_congr (hsame _ (h.joins j hj).1) (hsame _ (h.joins j hj).2)

namespace JoinedTables

variable {ts ts' : JoinedTables}

/-- Paths that are made look the same after tables are added. -/
theorem Extends.path_look_eq {p : JoinPath} (h : ts.Extends ts') (hp : p.Made ts) :
    p.map ts'.look = p.map ts.look :=
  hp.map_congr fun _ => h.look_eq

/-- Paths that are made stay equal or different as tables are added. -/
theorem Extends.samePath_eq {p q : JoinPath} (h : ts.Extends ts') (hp : p.Made ts)
    (hq : q.Made ts) : ts'.samePath p q = ts.samePath p q := by
  rw [Bool.eq_iff_iff, samePath_iff, samePath_iff, h.path_look_eq hp, h.path_look_eq hq]

theorem Extends.made_path {p : JoinPath} (h : ts.Extends ts') (hp : p.Made ts) : p.Made ts' where
  first := h.made_source hp.first
  joins := fun j hj => h.made (hp.joins j hj)

/-! ## One relation -/

variable {path : JoinPath} {relation : Member} {name : String}

/-- A relation leads to the table found for it, or to a new one at the end. -/
theorem join_cases (ts : JoinedTables) (path : JoinPath) (relation : Member) (name : String) :
    (∃ index, ts.indexOf? path relation = some index
        ∧ ts.join path relation name = (.joined index, ts))
      ∨ (ts.indexOf? path relation = none
        ∧ ts.join path relation name = (.joined ts.tables.length,
            { ts with tables := ts.tables ++ [{ path, relation, name, aliasName := none }] })) := by
  unfold join
  cases h : ts.indexOf? path relation with
  | some index => exact .inl ⟨index, rfl, rfl⟩
  | none => exact .inr ⟨rfl, rfl⟩

theorem join_extends (ts : JoinedTables) (path : JoinPath) (relation : Member) (name : String) :
    ts.Extends (ts.join path relation name).2 := by
  obtain ⟨_, -, h, -⟩ := join_made ts path relation name
  exact h

theorem join_of_indexOf? {index : Nat} (h : ts.indexOf? path relation = some index) :
    ts.join path relation name = (.joined index, ts) := by
  simp only [join, h]

/-- The paths that tables were made for name no table that is still to be made. -/
def PathsMade (ts : JoinedTables) : Prop :=
  ∀ t ∈ ts.tables, t.path.Made ts

theorem PathsMade.join (h : ts.PathsMade) (hpath : path.Made ts) :
    (ts.join path relation name).2.PathsMade := by
  have hext := join_extends ts path relation name
  intro t ht
  rcases join_cases ts path relation name with ⟨_, -, heq⟩ | ⟨-, heq⟩
  · rw [heq] at ht ⊢
    exact h t ht
  · rw [heq] at ht
    rcases List.mem_append.1 ht with ht | ht
    · exact hext.made_path (h t ht)
    · obtain rfl := List.mem_singleton.1 ht
      exact hext.made_path hpath

/-- The table that a relation is found to lead to is the first one that was made for it. -/
theorem indexOf?_eq_some_iff {index : Nat} :
    ts.indexOf? path relation = some index ↔
      ∃ t, ts.tables[index]? = some t ∧ t.relation.same relation ∧ ts.samePath t.path path
        ∧ ∀ i < index, ∀ u, ts.tables[i]? = some u → u.relation.same relation →
          ¬ts.samePath u.path path := by
  simp only [indexOf?, List.findIdx?_eq_some_iff_getElem, Bool.and_eq_true]
  constructor
  · rintro ⟨hlt, ⟨hrelation, hpath⟩, hfirst⟩
    refine ⟨_, List.getElem?_eq_getElem hlt, hrelation, hpath, ?_⟩
    intro i hi u hu hrelation' hpath'
    obtain ⟨hlt', rfl⟩ := List.getElem?_eq_some_iff.1 hu
    exact hfirst i hi ⟨hrelation', hpath'⟩
  · rintro ⟨t, ht, hrelation, hpath, hfirst⟩
    obtain ⟨hlt, rfl⟩ := List.getElem?_eq_some_iff.1 ht
    refine ⟨hlt, ⟨hrelation, hpath⟩, ?_⟩
    rintro i hi ⟨hrelation', hpath'⟩
    exact hfirst i hi _ (List.getElem?_eq_getElem (by omega)) hrelation' hpath'

/-- A table that is found once is found again after tables are added. -/
theorem Extends.indexOf?_eq (h : ts.Extends ts') (hpaths : ts.PathsMade) (hpath : path.Made ts)
    {index : Nat} (hindex : ts.indexOf? path relation = some index) :
    ts'.indexOf? path relation = some index := by
  obtain ⟨t, ht, hrelation, hsame, hfirst⟩ := indexOf?_eq_some_iff.1 hindex
  have hlt := (List.getElem?_eq_some_iff.1 ht).1
  refine indexOf?_eq_some_iff.2 ⟨t, ?_, hrelation, ?_, ?_⟩
  · rw [h.entry_eq hlt, ht]
  · rwa [h.samePath_eq (hpaths t (List.mem_of_getElem? ht)) hpath]
  · intro i hi u hu hrelation' hsame'
    rw [h.entry_eq (by omega)] at hu
    rw [h.samePath_eq (hpaths u (List.mem_of_getElem? hu)) hpath] at hsame'
    exact hfirst i hi u hu hrelation' hsame'

/-- A table that was found or made is found at once. -/
theorem indexOf?_join (hpaths : ts.PathsMade) (hpath : path.Made ts) :
    ∃ index, (ts.join path relation name).1 = .joined index
      ∧ (ts.join path relation name).2.indexOf? path relation = some index := by
  have hext := join_extends ts path relation name
  rcases join_cases ts path relation name with ⟨index, hindex, heq⟩ | ⟨hnone, heq⟩
  · rw [heq]
    exact ⟨index, rfl, hindex⟩
  · rw [heq] at hext ⊢
    refine ⟨ts.tables.length, rfl,
      indexOf?_eq_some_iff.2 ⟨_, List.getElem?_concat_length, ?_, ?_, ?_⟩⟩
    · simp [Member.same]
    · exact samePath_refl _ _
    · intro i hi u hu hrelation hsame
      rw [List.getElem?_append_left hi] at hu
      have hu := List.mem_of_getElem? hu
      rw [hext.samePath_eq (hpaths u hu) hpath] at hsame
      have hnone := List.findIdx?_eq_none_iff.1 hnone u hu
      simp [hrelation, hsame] at hnone

/-- A relation that was followed once leads to the same table after tables are added, and no table
is made for it. -/
theorem join_again (hpaths : ts.PathsMade) (hpath : path.Made ts)
    (hext : (ts.join path relation name).2.Extends ts') :
    ts'.join path relation name = ((ts.join path relation name).1, ts') := by
  obtain ⟨index, htable, hindex⟩ :
      ∃ index, (ts.join path relation name).1 = .joined index
        ∧ (ts.join path relation name).2.indexOf? path relation = some index :=
    indexOf?_join hpaths hpath
  have hpath' := (join_extends ts path relation name).made_path hpath
  rw [htable]
  exact join_of_indexOf? (hext.indexOf?_eq (hpaths.join hpath) hpath' hindex)

end JoinedTables

theorem JoinPath.Made.extend {ts : JoinedTables} {path : JoinPath} (h : path.Made ts)
    (relation : Member) (link : Link) :
    (path.extend link (ts.join path relation link.targetTable).1).Made
      (ts.join path relation link.targetTable).2 := by
  obtain ⟨index, htable, hext, hindex⟩ := join_made ts path relation link.targetTable
  refine ⟨hext.made_source h.first, ?_⟩
  intro j hj
  rcases List.mem_append.1 hj with hj | hj
  · exact hext.made (h.joins j hj)
  · obtain rfl := List.mem_singleton.1 hj
    refine ⟨hext.made_source h.last, ?_⟩
    rw [htable]
    exact hindex

namespace JoinedTables

variable {schema : Schema} {ts ts' : JoinedTables} {path : JoinPath} {relations : List Member}

/-! ## Several relations -/

theorem follow_made (hpath : path.Made ts) :
    (ts.follow schema path relations).1.Made (ts.follow schema path relations).2 := by
  induction relations generalizing ts path with
  | nil => exact hpath
  | cons relation relations ih =>
    cases hlink : schema.link? relation with
    | none => rwa [follow_of_no_link hlink]
    | some link =>
      rw [follow_of_link hlink]
      exact ih (hpath.extend relation link)

/-- Tables that are made on the way stand after those that were there, and have no alias. -/
theorem follow_tables (schema : Schema) (ts : JoinedTables) (path : JoinPath)
    (relations : List Member) :
    ∃ made, (ts.follow schema path relations).2 = { ts with tables := ts.tables ++ made }
      ∧ ∀ t ∈ made, t.aliasName = none := by
  induction relations generalizing ts path with
  | nil => exact ⟨[], by simp [follow], by simp⟩
  | cons relation relations ih =>
    cases hlink : schema.link? relation with
    | none => exact ⟨[], by simp [follow_of_no_link hlink], by simp⟩
    | some link =>
      rw [follow_of_link hlink]
      rcases join_cases ts path relation link.targetTable with ⟨index, -, heq⟩ | ⟨-, heq⟩
      · rw [heq]
        exact ih ts _
      · rw [heq]
        obtain ⟨made, htables, hnone⟩ := ih _ (path.extend link (.joined ts.tables.length))
        rw [htables]
        exact ⟨_ :: made, by simp; rfl, by simpa using hnone⟩

theorem follow_extends (schema : Schema) (ts : JoinedTables) (path : JoinPath)
    (relations : List Member) : ts.Extends (ts.follow schema path relations).2 := by
  obtain ⟨made, htables, -⟩ := follow_tables schema ts path relations
  rw [htables]
  exact List.prefix_append _ _

/-- Where following relations makes nothing, the table that the first one leads to is found. -/
theorem join_of_follow_eq {relation : Member} {link : Link}
    (hlink : schema.link? relation = some link)
    (h : (ts.follow schema path (relation :: relations)).2 = ts) :
    ∃ index, ts.indexOf? path relation = some index
      ∧ ts.join path relation link.targetTable = (.joined index, ts) := by
  rcases join_cases ts path relation link.targetTable with hfound | ⟨-, heq⟩
  · exact hfound
  · rw [follow_of_link hlink] at h
    have hlength := (follow_extends schema (ts.join path relation link.targetTable).2
      (path.extend link (ts.join path relation link.targetTable).1) relations).length_le
    rw [h, heq, List.length_append, List.length_singleton] at hlength
    omega

/-- Relations that were followed once lead to the same path after tables are added, and no table is
made for them. -/
theorem follow_again (hpaths : ts.PathsMade) (hpath : path.Made ts)
    (hext : (ts.follow schema path relations).2.Extends ts') :
    ts'.follow schema path relations = ((ts.follow schema path relations).1, ts') := by
  induction relations generalizing ts path with
  | nil => rfl
  | cons relation relations ih =>
    cases hlink : schema.link? relation with
    | none => rw [follow_of_no_link hlink, follow_of_no_link hlink]
    | some link =>
      rw [follow_of_link hlink] at hext ⊢
      have hjoined : (ts.join path relation link.targetTable).2.Extends ts' :=
        (follow_extends _ _ _ _).trans hext
      rw [follow_of_link hlink, join_again hpaths hpath hjoined]
      exact ih (hpaths.join hpath) (hpath.extend relation link) hext

/-- The path that was there stays at the front. -/
theorem follow_prefix (schema : Schema) (ts : JoinedTables) (path : JoinPath)
    (relations : List Member) :
    path.joins <+: (ts.follow schema path relations).1.joins := by
  induction relations generalizing ts path with
  | nil => exact List.prefix_rfl
  | cons relation relations ih =>
    cases hlink : schema.link? relation with
    | none => simp [follow_of_no_link hlink]
    | some link =>
      rw [follow_of_link hlink]
      exact (List.prefix_append _ _).trans (ih _ (path.extend link _))

/-- Nothing is made on the way exactly if all tables along the path were there before. -/
theorem follow_eq_self_iff (hpath : path.Made ts) :
    (ts.follow schema path relations).2 = ts ↔ (ts.follow schema path relations).1.Made ts := by
  constructor
  · intro heq
    have hmade : (ts.follow schema path relations).1.Made (ts.follow schema path relations).2 :=
      follow_made hpath
    rwa [heq] at hmade
  · intro hmade
    induction relations generalizing path with
    | nil => rfl
    | cons relation relations ih =>
      cases hlink : schema.link? relation with
      | none => rw [follow_of_no_link hlink]
      | some link =>
        rw [follow_of_link hlink] at hmade ⊢
        rcases join_cases ts path relation link.targetTable with ⟨index, -, heq⟩ | ⟨-, heq⟩
        · have hnext := hpath.extend relation link
          rw [heq] at hmade hnext ⊢
          exact ih hnext hmade
        · -- A new table is not among those that were there, and the path goes through it.
          rw [heq] at hmade
          have hkept := follow_prefix schema (ts.join path relation link.targetTable).2
            (path.extend link (.joined ts.tables.length)) relations
          rw [heq] at hkept
          have hlast := hkept.subset (List.mem_append_right _ (List.mem_singleton_self _))
          exact absurd (hmade.joins _ hlast).2 (Nat.lt_irrefl _)

end JoinedTables

section

variable {schema : Schema} {plan : Except ResolveError Plan} {s s' t : Session} {f : Field}

/-- A plan has the same answer once more tables are made, and makes none then. -/
theorem planned_later (hsourced : ∀ p, plan = .ok p → p.Sourced schema) (hs : s.tables.PathsMade)
    (hext : (planned schema plan s).2.tables.Extends t.tables) :
    (planned schema plan t).1 = (planned schema plan s).1
      ∧ (planned schema plan t).2.tables = t.tables := by
  cases plan with
  | error error => exact ⟨rfl, rfl⟩
  | ok p =>
    rw [planned, outcome_tables] at hext
    have hagain : t.tables.follow schema p.start p.access.joins
        = ((s.tables.follow schema p.start p.access.joins).1, t.tables) :=
      JoinedTables.follow_again hs ((hsourced p rfl).made_start s.tables) hext
    refine ⟨?_, by rw [planned, outcome_tables, hagain]⟩
    simp only [planned, Plan.outcome, hagain]
    split <;> rfl

/-- What was resolved once is resolved again to the same field after tables are added, and no table
is made for it. -/
theorem planned_again (hsourced : ∀ p, plan = .ok p → p.Sourced schema) (hs : s.tables.PathsMade)
    (h : planned schema plan s = (.ok f, s')) (hext : s'.tables.Extends t.tables) :
    ∃ t', planned schema plan t = (.ok f, t') ∧ t'.tables = t.tables := by
  have hlater := planned_later (t := t) hsourced hs
  rw [h] at hlater
  obtain ⟨hanswer, htables⟩ := hlater hext
  exact ⟨(planned schema plan t).2, Prod.ext hanswer rfl, htables⟩

end

end QueryChain
