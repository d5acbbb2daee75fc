import QueryChain.Proofs.Resolve.Naming
import QueryChain.Proofs.Resolve.Sharing

/-!
# Routes

The paths of a session start at a source of a clause and go on from joined table to joined table
(`JoinPath.Routed`). Two such paths are equal if they take equal steps (`samePath_extend_iff`).
Naming may tell paths that were equal, as it gives different aliases to different tables, but it
makes no paths equal (`samePath_of_finalize`).
-/

namespace QueryChain

/-- The path starts elsewhere than at a joined table, and every join of it leads from where the one
before ends to a joined table. -/
inductive JoinPath.Routed : JoinPath → Prop where
  | start {first : Source} : ¬first.IsJoined → Routed { first, joins := [] }
  | extend {path : JoinPath} (link : Link) (index : Nat) :
    Routed path → Routed (path.extend link (.joined index))

/-! ## Comparing step by step -/

namespace JoinPath

variable {p q : JoinPath} {link link' : Link} {t t' : Table}

theorem map_extend {f : Source → Source} (h : f (.table t) = .table t') (p : JoinPath)
    (link : Link) : (p.extend link t).map f = (p.map f).extend link t' := by
  have hlast := last_map f p
  simp only [extend, map, List.map_append, List.map_cons, List.map_nil, Join.map, Column.map, h]
    at hlast ⊢
  rw [hlast]

theorem extend_inj : p.extend link t = q.extend link' t' ↔
    p = q ∧ link.leftColumn = link'.leftColumn ∧ link.rightColumn = link'.rightColumn ∧ t = t' := by
  constructor
  · intro h
    rw [extend, extend, mk.injEq] at h
    obtain ⟨hfirst, hjoins⟩ := h
    obtain ⟨hbefore, hstep⟩ := List.append_inj' hjoins rfl
    simp only [List.cons.injEq, Join.mk.injEq, Column.mk.injEq, Option.some.injEq,
      Source.table.injEq, and_true] at hstep
    refine ⟨?_, hstep.1.2, hstep.2.2, hstep.2.1⟩
    cases p
    cases q
    rw [mk.injEq]
    exact ⟨hfirst, hbefore⟩
  · rintro ⟨rfl, hleft, hright, rfl⟩
    rw [extend, extend, hleft, hright]

end JoinPath

namespace JoinedTables

variable {ts ts' : JoinedTables} {p q : JoinPath} {link link' : Link} {t t' : Table}

theorem not_samePath_start_extend {a : Source} :
    ¬ts.samePath { first := a, joins := [] } (q.extend link t) := by
  rw [samePath_iff]
  simp [JoinPath.map, JoinPath.extend]

theorem samePath_extend_iff :
    ts.samePath (p.extend link t) (q.extend link' t') ↔
      ts.samePath p q ∧ link.leftColumn = link'.leftColumn ∧ link.rightColumn = link'.rightColumn
        ∧ ts.sameTable t t' := by
  rw [samePath_iff, JoinPath.map_extend rfl, JoinPath.map_extend rfl, JoinPath.extend_inj,
    ← samePath_iff]
  simp [sameTable]

/-- Sources other than joined tables look the same in every session. -/
theorem look_of_not_joined {a : Source} (h : ¬a.IsJoined) (ts ts' : JoinedTables) :
    ts.look a = ts'.look a := by
  cases a with
  | nested | binding => rfl
  | table t =>
    cases t with
    | joined => exact absurd trivial h
    | ofClause | free => rfl

/-- Whether sources other than joined tables are equal does not depend on the joined tables. -/
theorem sameSource_eq_of_not_joined {a b : Source} (ha : ¬a.IsJoined) (hb : ¬b.IsJoined) :
    ts.sameSource a b = ts'.sameSource a b := by
  rw [Bool.eq_iff_iff, sameSource_iff, sameSource_iff, look_of_not_joined ha ts ts',
    look_of_not_joined hb ts ts']

/-! ## Naming and paths -/

/-- The tables of `ts` are still there in `ts'`, where their aliases may differ. -/
def Precedes (ts ts' : JoinedTables) : Prop :=
  ∀ (i : Nat) (t : TableEntry), ts.tables[i]? = some t →
    ∃ aliasName, ts'.tables[i]? = some { t with aliasName := aliasName }

theorem Precedes.refl (ts : JoinedTables) : ts.Precedes ts :=
  fun _ t ht => ⟨t.aliasName, ht⟩

theorem Precedes.trans {ts'' : JoinedTables} (h : ts.Precedes ts') (h' : ts'.Precedes ts'') :
    ts.Precedes ts'' := by
  intro i t ht
  obtain ⟨_, ht'⟩ := h i t ht
  obtain ⟨aliasName, ht''⟩ := h' i _ ht'
  exact ⟨aliasName, ht''⟩

theorem Extends.precedes (h : ts.Extends ts') : ts.Precedes ts' := by
  intro i t ht
  refine ⟨t.aliasName, ?_⟩
  rw [h.entry_eq (List.getElem?_eq_some_iff.1 ht).1, ht]

theorem precedes_finalize (ts : JoinedTables) (q : Query) : ts.Precedes (ts.finalize q) := by
  intro i t ht
  obtain ⟨aliasName, ht'⟩ := (finalize_naming ts q).entry ht
  exact ⟨some aliasName, ht'⟩

theorem Precedes.made_path (h : ts.Precedes ts') (hp : p.Made ts) : p.Made ts' := by
  have hsource {a : Source} (ha : a.Made ts) : a.Made ts' := by
    unfold Source.Made at ha ⊢
    split
    · obtain ⟨_, ht⟩ := h _ _ (List.getElem?_eq_getElem ha)
      exact (List.getElem?_eq_some_iff.1 ht).1
    · trivial
  exact ⟨hsource hp.first, fun j hj => ⟨hsource (hp.joins j hj).1, hsource (hp.joins j hj).2⟩⟩

/-- The tables that are named were there before. -/
theorem finalize_entry {query : Query} {i : Nat} {t : TableEntry}
    (ht : (ts.finalize query).tables[i]? = some t) :
    ∃ t' aliasName, ts.tables[i]? = some t' ∧ t = { t' with aliasName := aliasName } := by
  have hlt : i < ts.tables.length := by
    rw [← (finalize_naming ts query).length_eq]
    exact (List.getElem?_eq_some_iff.1 ht).1
  obtain ⟨aliasName, ht'⟩ := precedes_finalize ts query i _ (List.getElem?_eq_getElem hlt)
  exact ⟨_, aliasName, List.getElem?_eq_getElem hlt, Option.some.inj (ht.symm.trans ht')⟩

/-- No two joined tables are equal once they are named. -/
theorem sameTable_of_finalize {query : Query} (happart : ts.AliasesApart) {i k : Nat}
    (h : (ts.finalize query).sameTable (.joined i) (.joined k)) :
    ts.sameTable (.joined i) (.joined k) := by
  have happart' : (ts.finalize query).AliasesApart := happart.step (.finalize query)
  have hlength := (finalize_naming ts query).length_eq
  simp only [sameTable, Bool.and_eq_true, beq_iff_eq] at h
  cases hi : (ts.finalize query).alias? (.joined i) with
  | some aliasName =>
    obtain rfl := happart'.index_unique hi (h.2 ▸ hi)
    simp [sameTable]
  | none =>
    -- Neither of them is made, as all that are made have aliases.
    have hout {n : Nat} (hn : (ts.finalize query).alias? (.joined n) = none) :
        ts.tables[n]? = none := by
      rw [List.getElem?_eq_none_iff]
      by_contra hlt
      obtain ⟨aliasName, halias⟩ := finalize_alias_isSome ts query (by omega : n < _)
      rw [hn] at halias
      cases halias
    simp [sameTable, name, alias?, hout hi, hout (h.2 ▸ hi)]

/-- Paths that are equal after naming were equal before. -/
theorem samePath_of_finalize {query : Query} (happart : ts.AliasesApart) (hp : p.Routed)
    (hq : q.Routed) (h : (ts.finalize query).samePath p q) : ts.samePath p q := by
  induction hp generalizing q with
  | start hfirst =>
    cases hq with
    | start hfirst' =>
      simp only [samePath, Bool.and_eq_true] at h ⊢
      exact ⟨sameSource_eq_of_not_joined hfirst hfirst' ▸ h.1, rfl⟩
    | extend => exact absurd h not_samePath_start_extend
  | extend link i _ ih =>
    cases hq with
    | start => exact absurd (samePath_symm h) not_samePath_start_extend
    | extend link' k hq =>
      obtain ⟨hpath, hleft, hright, htable⟩ := samePath_extend_iff.1 h
      exact samePath_extend_iff.2 ⟨ih hq hpath, hleft, hright, sameTable_of_finalize happart htable⟩

end JoinedTables

end QueryChain
