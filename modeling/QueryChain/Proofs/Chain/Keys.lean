import Mathlib.Data.List.Nodup
import QueryChain.Proofs.Chain.Clauses

/-!
# Keys of parsed queries

Parsing gives out keys from a counter. The keys of a parsed tree lie between the counts before and
after, and no two queries of it have one key (`keys_nodup`), so a key stands for a query. What is
counted for a tree adds up from what is counted for each of its queries (`AddsUp.parseChain`).
-/

namespace QueryChain

/-! ## Counting along a parse -/

/-- What `Counted` says of the queries made between two states of a parse adds up, and the order in
which they are listed does not matter. -/
structure AddsUp (Counted : ParseState → List Query → ParseState → Prop) : Prop where
  nil (s : ParseState) : Counted s [] s
  append {s s₁ s' : ParseState} {queries queries' : List Query} :
    Counted s queries s₁ → Counted s₁ queries' s' → Counted s (queries ++ queries') s'
  perm {s s' : ParseState} {queries queries' : List Query} :
    Counted s queries s' → queries'.Perm queries → Counted s queries' s'

namespace AddsUp

variable {Counted : ParseState → List Query → ParseState → Prop}

/-- Queries that are parsed in turn are counted with all that is nested in them, if those of each
parsed chain are. -/
theorem inTurn (hadds : AddsUp Counted) {parseSub : SubParser}
    (hparse : ∀ {c : Expr} {s s' : ParseState} {q : Query},
      (parseSub c).run s = .ok (q, s') → Counted s q.tree s')
    {s s' : ParseState} {queries : List Query} (h : parseSub.InTurn s queries s') :
    Counted s (queries.flatMap Query.tree) s' := by
  induction h with
  | nil => exact hadds.nil _
  | cons hq _ ih => exact hadds.append (hparse hq) ih

/-- A parsed tree is counted if each query is. A query is counted when its chain has been collected,
before its children are parsed. -/
theorem parseChain (hadds : AddsUp Counted)
    (hself : ∀ {depth : Nat} {parent : Option Nat} {e : Expr} {c : Collected} {q : Query}
      {s s₁ s' : ParseState},
      (collect e none true).run { s with nextKey := s.nextKey + 1 } = .ok (c, s₁) →
      (assemble (parseChain depth (some s.nextKey)) s.nextKey parent e c).run s₁ = .ok (q, s') →
      Counted s [q] s₁)
    {depth : Nat} {parent : Option Nat} {e : Expr} {q : Query} {s s' : ParseState}
    (h : (parseChain depth parent e).run s = .ok (q, s')) : Counted s q.tree s' := by
  induction depth generalizing parent e q s s' with
  | zero => exact (ParseM.run_throw_ok.1 h).elim
  | succ depth ih =>
    obtain ⟨_, c, s₁, ⟨⟩, hc, hassemble⟩ := parseChain_eq_ok.1 h
    obtain ⟨source, layers, distinct, modifiers, hspine, -, -, rfl⟩ := collect_top_ok hc
    have hkeeps : SubParser.Keeps (QueryChain.parseChain depth (some s.nextKey)) :=
      fun h => (parseChain_ok h).2.1
    obtain ⟨-, -, -, queries, hturn, hperm⟩ := assemble_ok hkeeps hspine hassemble
    refine hadds.perm (hadds.append (hself hc hassemble) (hadds.inTurn ih hturn)) ?_
    exact q.tree_perm.trans ((hperm.flatMap_right _).cons q)

end AddsUp

/-! ## Keys -/

/-- The keys of some queries differ and lie between two counts. -/
structure KeysWithin (low high : Nat) (queries : List Query) : Prop where
  nodup : (queries.map (·.key)).Nodup
  bounds : ∀ q ∈ queries, low ≤ q.key ∧ q.key < high

namespace KeysWithin

variable {low middle high : Nat} {queries queries' : List Query}

theorem perm (h : KeysWithin low high queries) (hperm : queries'.Perm queries) :
    KeysWithin low high queries' where
  nodup := (hperm.map _).nodup_iff.2 h.nodup
  bounds := fun q hq => h.bounds q (hperm.mem_iff.1 hq)

theorem append (h : KeysWithin low middle queries) (h' : KeysWithin middle high queries')
    (hlow : low ≤ middle) (hhigh : middle ≤ high) : KeysWithin low high (queries ++ queries') where
  nodup := by
    rw [List.map_append]
    refine h.nodup.append h'.nodup ?_
    intro key hkey hkey'
    obtain ⟨q, hq, rfl⟩ := List.mem_map.1 hkey
    obtain ⟨q', hq', heq⟩ := List.mem_map.1 hkey'
    have := h.bounds q hq
    have := h'.bounds q' hq'
    omega
  bounds := by
    intro q hq
    rcases List.mem_append.1 hq with hq | hq
    · have := h.bounds q hq
      omega
    · have := h'.bounds q hq
      omega

end KeysWithin

theorem keysWithin_addsUp : AddsUp fun s queries s' =>
    s.nextKey ≤ s'.nextKey ∧ KeysWithin s.nextKey s'.nextKey queries where
  nil s := ⟨Nat.le_refl _, by simp, by simp⟩
  append h h' := ⟨Nat.le_trans h.1 h'.1, h.2.append h'.2 h.1 h'.1⟩
  perm h hperm := ⟨h.1, h.2.perm hperm⟩

theorem parseChain_keysWithin {depth : Nat} {parent : Option Nat} {e : Expr} {q : Query}
    {s s' : ParseState} (h : (parseChain depth parent e).run s = .ok (q, s')) :
    s.nextKey ≤ s'.nextKey ∧ KeysWithin s.nextKey s'.nextKey q.tree := by
  refine keysWithin_addsUp.parseChain (fun hc hassemble => ?_) h
  obtain ⟨_, _, _, _, -, -, hnext, -⟩ := collect_top_ok hc
  obtain ⟨_, _, _, _, _, _, _, _, -, -, -, -, rfl⟩ := assemble_eq_ok.1 hassemble
  simp only at hnext
  exact ⟨by omega, by simp, by simp [hnext]⟩

/-- No two queries of a parsed tree have one key. -/
theorem keys_nodup {e : Expr} {q : Query} (h : parse e = .ok q) : (q.tree.map (·.key)).Nodup := by
  obtain ⟨s', h⟩ := parse_eq_ok.1 h
  exact (parseChain_keysWithin h).2.nodup

end QueryChain
