import Mathlib.Data.List.Pairwise
import Mathlib.Tactic.ByContra
import QueryChain.Proofs.Resolve.Looks
import QueryChain.Resolve.Session

/-!
# Attaching joins

The joins of a resolved path are attached to a clause one after the other, and one that is equal to
an attached join is dropped. Joins are compared by the names and aliases of their tables, so they
may be equal although they join different tables.

* the comparison does not change as tables are added (`sameJoin_of_extends`);
* all joins of a path are attached exactly if none is dropped for another one
  (`subset_foldl_attachTo_iff`), and then the sources stay chained (`Chained.attachAll`);
* `Attached` says what holds of the joins of a clause in any case.
-/

namespace QueryChain

/-! ## Tables that are made later -/

namespace JoinedTables

variable {ts ts' : JoinedTables}

/-- The tables `ts'` are those of `ts` and some that were made later. -/
def Extends (ts ts' : JoinedTables) : Prop :=
  ts.tables <+: ts'.tables

theorem Extends.refl (ts : JoinedTables) : ts.Extends ts :=
  List.prefix_rfl

theorem Extends.trans {ts'' : JoinedTables} (h : ts.Extends ts') (h' : ts'.Extends ts'') :
    ts.Extends ts'' :=
  List.IsPrefix.trans h h'

end JoinedTables

/-- A source is no table that is still to be made. -/
def Source.Made (ts : JoinedTables) : Source → Prop
  | .table (.joined index) => index < ts.tables.length
  | _ => True

/-- Both sides of a join are made. -/
def Join.Made (ts : JoinedTables) (j : Join) : Prop :=
  j.left.source.Made ts ∧ j.right.source.Made ts

namespace JoinedTables

variable {ts ts' : JoinedTables}

theorem Extends.made_source {a : Source} (h : ts.Extends ts') (ha : a.Made ts) : a.Made ts' := by
  have hle := h.length_le
  unfold Source.Made at ha ⊢
  split
  · simp only at ha
    omega
  · trivial

theorem Extends.made {j : Join} (h : ts.Extends ts') (hj : j.Made ts) : j.Made ts' :=
  ⟨h.made_source hj.1, h.made_source hj.2⟩

theorem Extends.entry_eq (h : ts.Extends ts') {index : Nat} (hindex : index < ts.tables.length) :
    ts'.tables[index]? = ts.tables[index]? := by
  obtain ⟨later, heq⟩ := h
  rw [← heq, List.getElem?_append_left hindex]

theorem Extends.table_eq {t : Table} (h : ts.Extends ts') (ht : (Source.table t).Made ts) :
    ts'.name t = ts.name t ∧ ts'.alias? t = ts.alias? t := by
  cases t with
  | ofClause | free => exact ⟨rfl, rfl⟩
  | joined index => simp only [name, alias?, h.entry_eq ht, and_self]

/-- Sources that are made look the same after tables are added. -/
theorem Extends.look_eq {a : Source} (h : ts.Extends ts') (ha : a.Made ts) :
    ts'.look a = ts.look a := by
  cases a with
  | nested | binding => rfl
  | table t => simp only [look, (h.table_eq ha).1, (h.table_eq ha).2]

theorem Extends.join_look_eq {j : Join} (h : ts.Extends ts') (hj : j.Made ts) :
    j.map ts'.look = j.map ts.look :=
  Join.map_congr (h.look_eq hj.1) (h.look_eq hj.2)

/-- Joins of tables that are made stay equal or different as tables are added. -/
theorem sameJoin_of_extends {a b : Join} (h : ts.Extends ts') (ha : a.Made ts) (hb : b.Made ts) :
    ts'.sameJoin a b = ts.sameJoin a b := by
  rw [Bool.eq_iff_iff, sameJoin_iff, sameJoin_iff, h.join_look_eq ha, h.join_look_eq hb]

end JoinedTables

/-! ## Attaching in turn -/

/-- Attaches a join unless an equal one is attached. -/
def attachTo (ts : JoinedTables) (joins : List Join) (j : Join) : List Join :=
  if joins.any (ts.sameJoin · j) then joins else joins ++ [j]

/-- A join of `path` that is neither in `joins` nor earlier in `path` has no equal there. -/
def Told (ts : JoinedTables) (joins path : List Join) : Prop :=
  ∀ before j after, path = before ++ j :: after → j ∉ joins ++ before →
    ∀ j' ∈ joins ++ before, ¬ts.sameJoin j' j

section

variable {ts ts' : JoinedTables} {joins path : List Join}

theorem attachTo_of_same {j j' : Join} (hj' : j' ∈ joins) (hsame : ts.sameJoin j' j) :
    attachTo ts joins j = joins := by
  have hany : joins.any (ts.sameJoin · j) = true := List.any_eq_true.2 ⟨j', hj', hsame⟩
  rw [attachTo, if_pos hany]

theorem attachTo_of_new {j : Join} (h : ∀ j' ∈ joins, ¬ts.sameJoin j' j) :
    attachTo ts joins j = joins ++ [j] := by
  have hany : ¬joins.any (ts.sameJoin · j) = true := by
    rw [List.any_eq_true]
    rintro ⟨j', hj', hsame⟩
    exact h j' hj' hsame
  rw [attachTo, if_neg hany]

/-- A join is dropped for an equal one or attached at the end. -/
theorem attachTo_cases (ts : JoinedTables) (joins : List Join) (j : Join) :
    (∃ j' ∈ joins, ts.sameJoin j' j ∧ attachTo ts joins j = joins)
      ∨ ((∀ j' ∈ joins, ¬ts.sameJoin j' j) ∧ attachTo ts joins j = joins ++ [j]) := by
  by_cases h : ∃ j' ∈ joins, ts.sameJoin j' j
  · obtain ⟨j', hj', hsame⟩ := h
    exact .inl ⟨j', hj', hsame, attachTo_of_same hj' hsame⟩
  · have hnew : ∀ j' ∈ joins, ¬ts.sameJoin j' j := fun j' hj' hsame => h ⟨j', hj', hsame⟩
    exact .inr ⟨hnew, attachTo_of_new hnew⟩

theorem prefix_attachTo (ts : JoinedTables) (joins : List Join) (j : Join) :
    joins <+: attachTo ts joins j := by
  rcases attachTo_cases ts joins j with ⟨-, -, -, heq⟩ | ⟨-, heq⟩
  · simp [heq]
  · simp [heq]

theorem prefix_foldl_attachTo (ts : JoinedTables) (joins path : List Join) :
    joins <+: path.foldl (attachTo ts) joins := by
  induction path generalizing joins with
  | nil => exact List.prefix_rfl
  | cons j js ih => exact (prefix_attachTo ts joins j).trans (ih _)

theorem foldl_attachTo_subset (ts : JoinedTables) (joins path : List Join) :
    path.foldl (attachTo ts) joins ⊆ joins ++ path := by
  induction path generalizing joins with
  | nil => simp
  | cons j js ih =>
    intro k hk
    have hk := ih _ hk
    rcases attachTo_cases ts joins j with ⟨-, -, -, heq⟩ | ⟨-, heq⟩
    · rw [heq] at hk
      simp only [List.mem_append, List.mem_cons] at hk ⊢
      exact hk.imp_right .inr
    · rw [heq] at hk
      simpa using hk

/-- Whatever was to be attached has an equal among what is attached. -/
theorem foldl_attachTo_covers (ts : JoinedTables) (joins path : List Join) :
    ∀ j ∈ path, ∃ j' ∈ path.foldl (attachTo ts) joins, ts.sameJoin j' j := by
  induction path generalizing joins with
  | nil => simp
  | cons k ks ih =>
    intro j hj
    rcases List.mem_cons.1 hj with rfl | hj
    · have hkept := (prefix_foldl_attachTo ts (attachTo ts joins j) ks).subset
      rcases attachTo_cases ts joins j with ⟨j', hj', hsame, -⟩ | ⟨-, heq⟩
      · exact ⟨j', hkept ((prefix_attachTo ts joins j).subset hj'), hsame⟩
      · exact ⟨j, hkept (by simp [heq]), ts.sameJoin_refl j⟩
    · exact ih _ j hj

/-- A join that is dropped once is not attached later. -/
theorem not_mem_foldl_attachTo {j j' : Join} (hj' : j' ∈ joins) (hsame : ts.sameJoin j' j)
    (hj : j ∉ joins) : j ∉ path.foldl (attachTo ts) joins := by
  induction path generalizing joins with
  | nil => exact hj
  | cons k ks ih =>
    refine ih ((prefix_attachTo ts joins k).subset hj') ?_
    rcases attachTo_cases ts joins k with ⟨-, -, -, heq⟩ | ⟨hnew, heq⟩
    · rwa [heq]
    · rw [heq, List.mem_append, List.mem_singleton]
      rintro (hmem | rfl)
      · exact hj hmem
      · exact hnew j' hj' hsame

theorem Told.congr {joins' : List Join} (hmem : ∀ j, j ∈ joins ↔ j ∈ joins') :
    Told ts joins path ↔ Told ts joins' path := by
  simp only [Told, List.mem_append, hmem]

/-- The first join of a told path is attached, and the others are told from it too. -/
theorem Told.cons {j : Join} (h : Told ts joins (j :: path)) :
    j ∈ attachTo ts joins j ∧ Told ts (attachTo ts joins j) path := by
  have hmem : ∀ k, k ∈ attachTo ts joins j ↔ k ∈ joins ++ [j] := by
    intro k
    by_cases hj : j ∈ joins
    · rw [attachTo_of_same hj (ts.sameJoin_refl j)]
      simp only [List.mem_append, List.mem_singleton]
      constructor
      · exact .inl
      · rintro (hk | rfl)
        · exact hk
        · exact hj
    · rw [attachTo_of_new (by simpa using h [] j path rfl (by simpa using hj))]
  refine ⟨by simp [hmem], (Told.congr hmem).2 ?_⟩
  intro before k after heq hk
  simpa using h (j :: before) k after (by rw [heq]; rfl) (by simpa using hk)

/-- All joins of a path are attached exactly if each new one is told from those before it. -/
theorem subset_foldl_attachTo_iff :
    path ⊆ path.foldl (attachTo ts) joins ↔ Told ts joins path := by
  constructor
  · intro hsub before j after hpath hj j' hj' hsame
    -- When `j` is to be attached, an equal join is there, maybe not `j'` itself.
    obtain ⟨k, hk, hsame'⟩ : ∃ k ∈ before.foldl (attachTo ts) joins, ts.sameJoin k j := by
      rcases List.mem_append.1 hj' with hj' | hj'
      · exact ⟨j', (prefix_foldl_attachTo ts joins before).subset hj', hsame⟩
      · obtain ⟨k, hk, hsame'⟩ := foldl_attachTo_covers ts joins before j' hj'
        exact ⟨k, hk, JoinedTables.sameJoin_trans hsame' hsame⟩
    have hj₁ : j ∉ before.foldl (attachTo ts) joins :=
      fun hmem => hj (foldl_attachTo_subset ts joins before hmem)
    -- So `j` is dropped then, and the same join keeps it out later.
    have hdropped : j ∉ path.foldl (attachTo ts) joins := by
      rw [hpath, List.foldl_append]
      exact not_mem_foldl_attachTo hk hsame' hj₁
    exact hdropped (hsub (by simp [hpath]))
  · intro h
    induction path generalizing joins with
    | nil => simp
    | cons j js ih =>
      obtain ⟨hj, hjs⟩ := h.cons
      exact List.cons_subset.2 ⟨(prefix_foldl_attachTo ts _ js).subset hj, ih hjs⟩

/-- Joins that differ from each other still do with a path attached to them. -/
theorem pairwise_foldl_attachTo (h : joins.Pairwise fun a b => ¬ts.sameJoin a b) :
    (path.foldl (attachTo ts) joins).Pairwise fun a b => ¬ts.sameJoin a b := by
  induction path generalizing joins with
  | nil => exact h
  | cons j js ih =>
    refine ih ?_
    rcases attachTo_cases ts joins j with ⟨-, -, -, heq⟩ | ⟨hnew, heq⟩
    · rwa [heq]
    · rw [heq, List.pairwise_append]
      refine ⟨h, List.pairwise_singleton _ _, ?_⟩
      intro k hk k' hk'
      obtain rfl := List.mem_singleton.1 hk'
      exact hnew k hk

theorem foldl_attachTo_of_pairwise (h : (joins ++ path).Pairwise fun a b => ¬ts.sameJoin a b) :
    path.foldl (attachTo ts) joins = joins ++ path := by
  induction path generalizing joins with
  | nil => simp
  | cons j js ih =>
    have hnew : ∀ j' ∈ joins, ¬ts.sameJoin j' j :=
      fun j' hj' => (List.pairwise_append.1 h).2.2 j' hj' j List.mem_cons_self
    rw [List.foldl_cons, attachTo_of_new hnew, ih (by simpa using h), List.append_assoc]
    rfl

/-- A path is attached to a clause without joins as it is, exactly if no two of its joins are
equal. -/
theorem foldl_attachTo_nil :
    path.foldl (attachTo ts) [] = path ↔ path.Pairwise fun a b => ¬ts.sameJoin a b := by
  constructor
  · intro heq
    rw [← heq]
    exact pairwise_foldl_attachTo .nil
  · intro h
    exact foldl_attachTo_of_pairwise h

end

/-! ## Sources along joins -/

/-- Each join starts where the one before ends, and the first one at `first`. -/
inductive Linked : Source → List Join → Prop where
  | nil {first : Source} : Linked first []
  | cons {j : Join} {js : List Join} : Linked j.right.source js → Linked j.left.source (j :: js)

theorem last_cons (first : Source) (k : Join) (js : List Join) :
    JoinPath.last { first, joins := k :: js }
      = JoinPath.last { first := k.right.source, joins := js } := by
  simp only [JoinPath.last, List.getLast?_cons]
  cases js.getLast? <;> rfl

theorem Linked.concat {first : Source} {joins : List Join} (h : Linked first joins) {j : Join}
    (hj : j.left.source = JoinPath.last { first, joins }) : Linked first (joins ++ [j]) := by
  induction h with
  | nil =>
    obtain rfl := hj
    exact .cons .nil
  | cons _ ih =>
    rw [last_cons] at hj
    exact .cons (ih hj)

/-- The source `a` is `own`, or one of the joins leads to it. -/
def Supplied (own : Source) (joins : List Join) (a : Source) : Prop :=
  a = own ∨ ∃ k ∈ joins, k.right.source = a

/-- Each join starts at `own` or where an earlier join ends. -/
def Chained (own : Source) (joins : List Join) : Prop :=
  ∀ before j after, joins = before ++ j :: after → Supplied own before j.left.source

section

variable {ts : JoinedTables} {own : Source} {joins path : List Join}

theorem Chained.nil (own : Source) : Chained own [] := by
  intro before j after heq
  simp at heq

theorem Chained.restrict {joins' : List Join} (h : Chained own joins') (hjoins : joins <+: joins') :
    Chained own joins := by
  obtain ⟨more, rfl⟩ := hjoins
  intro before j after heq
  exact h before j (after ++ more) (by simp [heq])

theorem Chained.concat (h : Chained own joins) {j : Join} (hj : Supplied own joins j.left.source) :
    Chained own (joins ++ [j]) := by
  intro before k after heq
  -- Either `k` is the new join or it stands in `joins`.
  rcases List.eq_nil_or_concat after with rfl | ⟨after, last, rfl⟩
  · obtain ⟨rfl, hk⟩ := List.append_inj' heq rfl
    cases hk
    exact hj
  · rw [List.concat_eq_append, ← List.cons_append, ← List.append_assoc] at heq
    obtain ⟨rfl, -⟩ := List.append_inj' heq rfl
    exact h before k after rfl

/-- Joins stay chained as a linked path is attached to them of which nothing is lost. -/
theorem Chained.attachAll {a : Source} (h : Chained own joins) (ha : Supplied own joins a)
    (hpath : Linked a path) (htold : Told ts joins path) :
    Chained own (path.foldl (attachTo ts) joins) := by
  induction hpath generalizing joins with
  | nil => exact h
  | @cons j js _ ih =>
    obtain ⟨hj, hjs⟩ := htold.cons
    have hstep : Chained own (attachTo ts joins j) := by
      rcases attachTo_cases ts joins j with ⟨-, -, -, heq⟩ | ⟨-, heq⟩
      · rwa [heq]
      · rw [heq]
        exact h.concat ha
    -- `j` is in the list, attached now or before, and the path goes on where it ends.
    exact ih hstep (.inr ⟨j, hj, rfl⟩) hjs

end

/-! ## The joins of one clause -/

/-- What holds of the joins of a clause after the joins `wanted` were to be attached. -/
structure Attached (ts : JoinedTables) (wanted joins : List Join) : Prop where
  apart : joins.Pairwise fun a b => ¬ts.sameJoin a b
  covered : ∀ j ∈ wanted, ∃ j' ∈ joins, ts.sameJoin j' j

namespace Attached

variable {ts ts' : JoinedTables} {wanted joins path : List Join}

theorem nil (ts : JoinedTables) : Attached ts [] [] where
  apart := .nil
  covered := by simp

theorem attachAll (h : Attached ts wanted joins) (path : List Join) :
    Attached ts (path ++ wanted) (path.foldl (attachTo ts) joins) where
  apart := pairwise_foldl_attachTo h.apart
  covered := by
    intro j hj
    rcases List.mem_append.1 hj with hj | hj
    · exact foldl_attachTo_covers ts joins path j hj
    · obtain ⟨j', hj', hsame⟩ := h.covered j hj
      exact ⟨j', (prefix_foldl_attachTo ts joins path).subset hj', hsame⟩

/-- Added tables change nothing for joins of tables that were made before. -/
theorem extend (h : Attached ts wanted joins) (hext : ts.Extends ts')
    (hwanted : ∀ j ∈ wanted, j.Made ts) (hjoins : ∀ j ∈ joins, j.Made ts) :
    Attached ts' wanted joins where
  apart := by
    refine h.apart.imp_of_mem fun {a b} ha hb hne heq => hne ?_
    rwa [JoinedTables.sameJoin_of_extends hext (hjoins a ha) (hjoins b hb)] at heq
  covered := by
    intro j hj
    obtain ⟨j', hj', hsame⟩ := h.covered j hj
    refine ⟨j', hj', ?_⟩
    rwa [JoinedTables.sameJoin_of_extends hext (hjoins j' hj') (hwanted j hj)]

/-- Of two joins that are equal, only one is attached. -/
theorem eq_of_same (h : Attached ts wanted joins) {a b : Join} (ha : a ∈ joins) (hb : b ∈ joins)
    (hsame : ts.sameJoin a b) : a = b := by
  have : Std.Symm fun a b => ¬ts.sameJoin a b = true :=
    ⟨fun _ _ hne heq => hne (JoinedTables.sameJoin_symm heq)⟩
  by_contra hne
  exact h.apart.forall ha hb hne hsame

end Attached

end QueryChain
