import Mathlib.Data.List.Forall2
import QueryChain.Proofs.Expr.Walks

/-!
# Embedded chains

Chains that stand in the expressions of clauses are parsed on the way and replaced by references.
The replacement is taken apart into two steps:

* the outermost chains of an expression are listed in the order they are written (`outerChains`) and
  parsed one after the other;
* the references to their queries are filled in where the chains stood (`fill`).

`nestChains_eq` says that nothing else happens. `NestedAs` states the outcome without either step:
an expression equals another one up to references in place of its outermost chains.
-/

namespace QueryChain

/-! ## Runs of a parse -/

theorem bind_eq_ok {ε α β : Type} {x : Except ε α} {f : α → Except ε β} {b : β} :
    x >>= f = .ok b ↔ ∃ a, x = .ok a ∧ f a = .ok b := by
  cases x with
  | error fault => simp [bind, Except.bind]
  | ok a => simp [bind, Except.bind]

theorem bind_eq_error {ε α β : Type} {x : Except ε α} {f : α → Except ε β} {error : ε}
    (h : x >>= f = .error error) : x = .error error ∨ ∃ a, x = .ok a ∧ f a = .error error := by
  cases x with
  | error error' =>
    cases h
    exact .inl rfl
  | ok a => exact .inr ⟨a, rfl, h⟩

namespace ParseM

variable {α β : Type} {s s' : ParseState}

theorem run_bind_ok {x : ParseM α} {f : α → ParseM β} {b : β} :
    (x >>= f).run s = .ok (b, s')
      ↔ ∃ a s₁, x.run s = .ok (a, s₁) ∧ (f a).run s₁ = .ok (b, s') := by
  rw [StateT.run_bind, bind_eq_ok]
  exact Prod.exists

theorem run_bind_of_ok {x : ParseM α} {a : α} (h : x.run s = .ok (a, s')) (f : α → ParseM β) :
    (x >>= f).run s = (f a).run s' := by
  rw [StateT.run_bind, h]
  rfl

theorem run_bind_of_error {x : ParseM α} {fault : ChainFault} (h : x.run s = .error fault)
    (f : α → ParseM β) : (x >>= f).run s = .error fault := by
  rw [StateT.run_bind, h]
  rfl

theorem run_pure_ok {a b : α} : (pure a : ParseM α).run s = .ok (b, s') ↔ a = b ∧ s = s' := by
  show Except.ok (a, s) = Except.ok (b, s') ↔ _
  simp

theorem run_map_ok {x : ParseM α} {f : α → β} {b : β} :
    (f <$> x).run s = .ok (b, s') ↔ ∃ a, x.run s = .ok (a, s') ∧ f a = b := by
  simp only [map_eq_pure_bind, run_bind_ok, run_pure_ok]
  constructor
  · rintro ⟨a, s₁, ha, rfl, rfl⟩
    exact ⟨a, ha, rfl⟩
  · rintro ⟨a, ha, rfl⟩
    exact ⟨a, s', ha, rfl, rfl⟩

theorem run_throw_ok {fault : ChainFault} {b : α} :
    (throw fault : ParseM α).run s = .ok (b, s') ↔ False := by
  show Except.error fault = Except.ok (b, s') ↔ _
  simp

theorem run_lift_ok {x : Except ChainFault α} {a : α} :
    (liftM x : ParseM α).run s = .ok (a, s') ↔ x = .ok a ∧ s = s' := by
  cases x with
  | error fault =>
    show Except.error fault = Except.ok (a, s') ↔ _
    simp
  | ok b =>
    show Except.ok (b, s) = Except.ok (a, s') ↔ _
    simp

end ParseM

namespace Expr

/-! ## The outermost chains of an expression -/

mutual

/-- The chains in an expression that stand in no other chain, in the order they are written. -/
def outerChains (e : Expr) : List Expr :=
  if e.isChain then [e] else outerChainsAll e.subterms
termination_by (e.size, 0)
decreasing_by exact .left _ _ (by rw [size_eq e]; omega)

/-- The outermost chains of expressions. -/
def outerChainsAll : List Expr → List Expr
  | [] => []
  | e :: es => outerChains e ++ outerChainsAll es
termination_by es => (sizeAll es, 1)
decreasing_by
  · rcases Nat.eq_or_lt_of_le (Nat.le_add_right e.size (sizeAll es)) with h | h
    · simp only [sizeAll, ← h]
      exact .right _ (by omega)
    · exact .left _ _ h
  · have := size_pos e
    exact .left _ _ (by simp only [sizeAll]; omega)

end

mutual

/-- Puts references in the places of the outermost chains, one for each. -/
def fill (e : Expr) (refs : List QueryRef) : Expr :=
  if e.isChain then (refs.head?.map subQuery).getD e
  else e.withSubterms (fillAll e.subterms refs)
termination_by (e.size, 0)
decreasing_by exact .left _ _ (by rw [size_eq e]; omega)

/-- Puts references in the places of the outermost chains of expressions. -/
def fillAll : List Expr → List QueryRef → List Expr
  | [], _ => []
  | e :: es, refs =>
    e.fill (refs.take e.outerChains.length) :: fillAll es (refs.drop e.outerChains.length)
termination_by es => (sizeAll es, 1)
decreasing_by
  · rcases Nat.eq_or_lt_of_le (Nat.le_add_right e.size (sizeAll es)) with h | h
    · simp only [sizeAll, ← h]
      exact .right _ (by omega)
    · exact .left _ _ h
  · have := size_pos e
    exact .left _ _ (by simp only [sizeAll]; omega)

end

theorem outerChains_of_isChain {e : Expr} (h : e.isChain) : e.outerChains = [e] := by
  rw [outerChains, if_pos h]

theorem outerChains_of_not_isChain {e : Expr} (h : ¬e.isChain) :
    e.outerChains = outerChainsAll e.subterms := by
  rw [outerChains, if_neg h]

theorem not_isChain_of_outerChains {e : Expr} (h : e.outerChains = []) : e.isChain = false := by
  by_contra hchain
  simp [outerChains_of_isChain (by simpa using hchain)] at h

theorem outerChainsAll_eq_nil {es : List Expr} :
    outerChainsAll es = [] ↔ ∀ e ∈ es, e.outerChains = [] := by
  induction es with
  | nil => simp [outerChainsAll]
  | cons e es ih => simp [outerChainsAll, ih]

theorem outerChains_eq_nil {e : Expr} :
    e.outerChains = [] ↔ e.isChain = false ∧ ∀ c ∈ e.subterms, c.outerChains = [] := by
  constructor
  · intro h
    have hnot := not_isChain_of_outerChains h
    rw [outerChains_of_not_isChain (by simp [hnot]), outerChainsAll_eq_nil] at h
    exact ⟨hnot, h⟩
  · rintro ⟨hnot, h⟩
    rw [outerChains_of_not_isChain (by simp [hnot]), outerChainsAll_eq_nil]
    exact h

theorem outerChains_unquoted (e : Expr) : e.unquoted.outerChains = e.outerChains := by
  induction e using subterms_induction with
  | node e ih =>
    cases e with
    | unary op operand type =>
      cases op with
      | quote =>
        rw [unquoted, ih operand (by simp [subterms]),
          outerChains_of_not_isChain (e := .unary .quote operand type) (by simp [isChain])]
        simp [subterms, outerChainsAll]
      | _ => rfl
    | _ => rfl

theorem outerChains_lambda_eq (parameters : List Parameter) (body : Expr) :
    (lambda parameters body).outerChains = body.outerChains := by
  rw [outerChains_of_not_isChain (by simp [isChain])]
  simp [subterms, outerChainsAll]

theorem fill_of_isChain {e : Expr} (h : e.isChain) (ref : QueryRef) :
    e.fill [ref] = .subQuery ref := by
  rw [fill, if_pos h]
  rfl

theorem fill_of_not_isChain {e : Expr} (h : ¬e.isChain) (refs : List QueryRef) :
    e.fill refs = e.withSubterms (fillAll e.subterms refs) := by
  rw [fill, if_neg h]

theorem fillAll_eq_self {es : List Expr} {refs : List QueryRef} (h : outerChainsAll es = [])
    (each : ∀ e ∈ es, e.outerChains = [] → ∀ refs, e.fill refs = e) : fillAll es refs = es := by
  induction es generalizing refs with
  | nil => simp [fillAll]
  | cons e es ih =>
    simp only [outerChainsAll, List.append_eq_nil_iff] at h
    rw [fillAll, each e List.mem_cons_self h.1,
      ih h.2 fun d hd => each d (List.mem_cons_of_mem _ hd)]

/-- Where there is no chain, nothing is filled in. -/
theorem fill_eq_self {e : Expr} (h : e.outerChains = []) (refs : List QueryRef) :
    e.fill refs = e := by
  induction e using subterms_induction generalizing refs with
  | node e ih =>
    have hnot : ¬e.isChain := by
      intro hchain
      simp [outerChains_of_isChain hchain] at h
    rw [outerChains_of_not_isChain hnot] at h
    rw [fill_of_not_isChain hnot, fillAll_eq_self h fun c hc h refs => ih c hc h refs,
      withSubterms_subterms]

/-! ## What a walk does to embedded chains -/

/-- The outcome of putting references in the places of chains. -/
def filled (e : Expr) (refs : List QueryRef) : Outcome Expr :=
  if e.outerChains = [] then .unchanged e else .changed (e.fill refs)

/-- The outcome of putting references in the places of the chains of expressions. -/
def filledAll (es : List Expr) (refs : List QueryRef) : Outcome (List Expr) :=
  if outerChainsAll es = [] then .unchanged es else .changed (fillAll es refs)

theorem value_filled (e : Expr) (refs : List QueryRef) : (e.filled refs).value = e.fill refs := by
  unfold filled
  split
  · rename_i h
    rw [fill_eq_self h, Outcome.value_unchanged]
  · rfl

theorem value_filledAll (es : List Expr) (refs : List QueryRef) :
    (filledAll es refs).value = fillAll es refs := by
  unfold filledAll
  split
  · rename_i h
    rw [fillAll_eq_self h fun e _ h refs => fill_eq_self h refs, Outcome.value_unchanged]
  · rfl

theorem filledAll_cons (e : Expr) (es : List Expr) {refs refs' : List QueryRef}
    (h : refs.length = e.outerChains.length) :
    ((e.filled refs).pair (filledAll es refs')).map (fun (e, es) => e :: es)
      = filledAll (e :: es) (refs ++ refs') := by
  have hvalues : fillAll (e :: es) (refs ++ refs')
      = (e.filled refs).value :: (filledAll es refs').value := by
    rw [fillAll, ← h, List.take_left, List.drop_left, value_filled, value_filledAll]
  rw [filledAll.eq_def (e :: es), hvalues]
  by_cases he : e.outerChains = [] <;> by_cases hes : outerChainsAll es = [] <;>
    simp [filled, filledAll, outerChainsAll, he, hes, Outcome.pair, Outcome.map]

end Expr

theorem chainNester_faithful (parseSub : SubParser) : (chainNester parseSub).Faithful := by
  intro e
  simp [chainNester, Outcome.orKeep]

namespace Expr

/-- A walk over expressions parses the outermost chains in turn, notes their queries and fills in
the references, if it does so for each of the expressions. -/
theorem run_walkAll_chainNester {parseSub : SubParser} {es : List Expr}
    (each : ∀ e ∈ es, ∀ noted, (e.walk (chainNester parseSub)).run noted
      = (fun qs => (e.filled (qs.map Query.ref), noted ++ qs)) <$> e.outerChains.mapM parseSub)
    (noted : List Query) :
    (walkAll (chainNester parseSub) es).run noted
      = (fun qs => (filledAll es (qs.map Query.ref), noted ++ qs))
        <$> (outerChainsAll es).mapM parseSub := by
  induction es generalizing noted with
  | nil => simp [walkAll, filledAll, outerChainsAll]
  | cons e es ih =>
    have ih := ih fun d hd => each d (List.mem_cons_of_mem _ hd)
    simp only [walkAll, StateT.run_bind, each e List.mem_cons_self, ih, outerChainsAll,
      List.mapM_append, bind_map_left, map_bind]
    refine mapM_bind_congr fun qs hqs => ?_
    congr 1
    funext qs'
    rw [filledAll_cons e es (by rw [List.length_map, hqs]), map_pure, List.map_append,
      List.append_assoc]
    rfl

/-- A walk over an expression parses the outermost chains in turn, notes their queries and fills in
the references. -/
theorem run_walk_chainNester (parseSub : SubParser) (e : Expr) (noted : List Query) :
    (e.walk (chainNester parseSub)).run noted
      = (fun qs => (e.filled (qs.map Query.ref), noted ++ qs)) <$> e.outerChains.mapM parseSub := by
  induction e using subterms_induction generalizing noted with
  | node e ih =>
    rw [walk_eq_visit (chainNester_faithful parseSub)]
    by_cases hchain : e.isChain
    · rw [outerChains_of_isChain hchain]
      simp [visit, chainNester, hchain, filled, fill_of_isChain, outerChains_of_isChain]
    · have hbefore : (chainNester parseSub).before e = pure none := by
        simp [chainNester, hchain]
      have hall := run_walkAll_chainNester ih noted
      simp only [visit, hbefore, pure_bind, StateT.run_bind, hall,
        outerChains_of_not_isChain hchain, map_eq_pure_bind, bind_assoc]
      congr 1
      funext qs
      by_cases hnone : outerChainsAll e.subterms = []
      · simp [filled, filledAll, outerChains_of_not_isChain hchain, hnone, Outcome.map,
          chainNester]
      · simp [filled, filledAll, outerChains_of_not_isChain hchain, hnone, Outcome.map,
          chainNester, fill_of_not_isChain hchain]

end Expr

/-- An expression has its outermost chains parsed one after the other, and references to their
queries filled in. -/
theorem nestChains_eq (parseSub : SubParser) (e : Expr) :
    nestChains parseSub e
      = (fun qs => (e.fill (qs.map Query.ref), qs)) <$> e.outerChains.mapM parseSub := by
  unfold nestChains
  rw [Expr.run_walk_chainNester]
  simp [Expr.value_filled]

/-! ## Up to embedded chains -/

namespace Expr

/-- `e'` is `e` with a reference in place of each outermost chain; `found` tells which reference may
stand for which chain. -/
inductive NestedAs (found : Expr → QueryRef → Prop) : Expr → Expr → Prop where
  | chain {c : Expr} {ref : QueryRef} :
    c.isChain → found c ref → NestedAs found c (.subQuery ref)
  | node {e : Expr} {es : List Expr} :
    ¬e.isChain → List.Forall₂ (NestedAs found) e.subterms es → NestedAs found e (e.withSubterms es)

variable {found : Expr → QueryRef → Prop}

theorem fillAll_nestedAs {es : List Expr} {refs : List QueryRef}
    (each : ∀ e ∈ es, ∀ refs, List.Forall₂ found e.outerChains refs →
      NestedAs found e (e.fill refs))
    (h : List.Forall₂ found (outerChainsAll es) refs) :
    List.Forall₂ (NestedAs found) es (fillAll es refs) := by
  induction es generalizing refs with
  | nil => simp [fillAll]
  | cons e es ih =>
    rw [outerChainsAll] at h
    rw [fillAll]
    refine .cons (each e List.mem_cons_self _ ?_)
      (ih (fun d hd => each d (List.mem_cons_of_mem _ hd)) ?_)
    · simpa using List.forall₂_take e.outerChains.length h
    · simpa using List.forall₂_drop e.outerChains.length h

theorem fill_nestedAs {e : Expr} {refs : List QueryRef}
    (h : List.Forall₂ found e.outerChains refs) : NestedAs found e (e.fill refs) := by
  induction e using subterms_induction generalizing refs with
  | node e ih =>
    by_cases hchain : e.isChain
    · rw [outerChains_of_isChain hchain] at h
      obtain _ | ⟨href, hnil⟩ := h
      cases hnil
      rw [fill_of_isChain hchain]
      exact .chain hchain href
    · rw [outerChains_of_not_isChain hchain] at h
      rw [fill_of_not_isChain hchain]
      exact .node hchain (fillAll_nestedAs (fun c hc refs => ih c hc) h)

theorem forall₂_imp_mem {α β : Type} {R S : α → β → Prop} {as : List α} {bs : List β}
    (himp : ∀ a ∈ as, ∀ b ∈ bs, R a b → S a b) (h : List.Forall₂ R as bs) :
    List.Forall₂ S as bs := by
  rw [List.forall₂_iff_zip] at h ⊢
  refine ⟨h.1, fun hmem => ?_⟩
  obtain ⟨ha, hb⟩ := List.of_mem_zip hmem
  exact himp _ ha _ hb (h.2 hmem)

theorem NestedAs.mono {found' : Expr → QueryRef → Prop} (hle : ∀ c ref, found c ref → found' c ref)
    {e e' : Expr} (h : NestedAs found e e') : NestedAs found' e e' := by
  induction e using subterms_induction generalizing e' with
  | node e ih =>
    cases h with
    | chain hchain href => exact .chain hchain (hle _ _ href)
    | node hnot hall => exact .node hnot (forall₂_imp_mem (fun c hc c' _ h => ih c hc h) hall)

theorem NestedAs.lambda {parameters : List Parameter} {body e : Expr}
    (h : NestedAs found (.lambda parameters body) e) :
    ∃ body', e = .lambda parameters body' ∧ NestedAs found body body' := by
  cases h with
  | chain hchain => cases hchain
  | node _ hes =>
    obtain _ | ⟨hbody, hnil⟩ := hes
    cases hnil
    exact ⟨_, rfl, hbody⟩

end Expr

/-- One of `queries` was made of the chain `c`, and `ref` refers to it. -/
def MadeOf (queries : List Query) (c : Expr) (ref : QueryRef) : Prop :=
  ∃ q ∈ queries, q.expression = c ∧ q.ref = ref

theorem MadeOf.mono {queries queries' : List Query} (hle : queries ⊆ queries') {c : Expr}
    {ref : QueryRef} (h : MadeOf queries c ref) : MadeOf queries' c ref := by
  obtain ⟨q, hq, h⟩ := h
  exact ⟨q, hle hq, h⟩

theorem nestChains_of_no_chain (parseSub : SubParser) {e : Expr} (h : e.outerChains = []) :
    nestChains parseSub e = pure (e, []) := by
  simp [nestChains_eq, h, Expr.fill_eq_self h]

/-! ## Parsing one chain after the other -/

namespace SubParser

variable {parseSub : SubParser}

/-- A query that a parser makes of a chain keeps the chain. -/
def Keeps (parseSub : SubParser) : Prop :=
  ∀ {c : Expr} {s s' : ParseState} {q : Query}, (parseSub c).run s = .ok (q, s') → q.expression = c

/-- Queries that are parsed one after the other, each where the one before left off. -/
inductive InTurn (parseSub : SubParser) : ParseState → List Query → ParseState → Prop where
  | nil {s : ParseState} : InTurn parseSub s [] s
  | cons {s s₁ s' : ParseState} {c : Expr} {q : Query} {qs : List Query} :
    (parseSub c).run s = .ok (q, s₁) → InTurn parseSub s₁ qs s' → InTurn parseSub s (q :: qs) s'

theorem InTurn.append {s s₁ s' : ParseState} {qs qs' : List Query}
    (h : parseSub.InTurn s qs s₁) (h' : parseSub.InTurn s₁ qs' s') :
    parseSub.InTurn s (qs ++ qs') s' := by
  induction h with
  | nil => exact h'
  | cons hq _ ih => exact .cons hq (ih h')

theorem mapM_ok (hkeeps : parseSub.Keeps) {cs : List Expr} {qs : List Query} {s s' : ParseState}
    (h : (cs.mapM parseSub).run s = .ok (qs, s')) :
    List.Forall₂ (fun c q => q.expression = c) cs qs ∧ parseSub.InTurn s qs s' := by
  induction cs generalizing s qs with
  | nil =>
    obtain ⟨rfl, rfl⟩ := ParseM.run_pure_ok.1 h
    exact ⟨.nil, .nil⟩
  | cons c cs ih =>
    rw [List.mapM_cons] at h
    obtain ⟨q, s₁, hq, h⟩ := ParseM.run_bind_ok.1 h
    obtain ⟨qs', s₂, hqs, h⟩ := ParseM.run_bind_ok.1 h
    obtain ⟨rfl, rfl⟩ := ParseM.run_pure_ok.1 h
    obtain ⟨hchains, hturn⟩ := ih hqs
    exact ⟨.cons (hkeeps hq) hchains, .cons hq hturn⟩

end SubParser

/-- An expression comes out up to references to queries that were made of its chains in turn. -/
theorem nestChains_ok {parseSub : SubParser} (hkeeps : parseSub.Keeps) {e e' : Expr}
    {queries : List Query} {s s' : ParseState}
    (h : (nestChains parseSub e).run s = .ok ((e', queries), s')) :
    e.NestedAs (MadeOf queries) e' ∧ parseSub.InTurn s queries s' := by
  rw [nestChains_eq] at h
  obtain ⟨qs, hqs, heq⟩ := ParseM.run_map_ok.1 h
  cases heq
  obtain ⟨hchains, hturn⟩ := SubParser.mapM_ok hkeeps hqs
  refine ⟨Expr.fill_nestedAs ?_, hturn⟩
  rw [List.forall₂_map_right_iff]
  exact Expr.forall₂_imp_mem (fun c _ q hq hchain => ⟨q, hq, hchain, rfl⟩) hchains

end QueryChain
