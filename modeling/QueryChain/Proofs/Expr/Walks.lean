import Mathlib.Data.List.Forall2
import QueryChain.Proofs.Expr.Subterms

/-!
# Walks by subterms

A walk comes to a node, goes through its subterms in the order they are written, and leaves the node
with what became of it (`walk_eq`), whatever its walker does.

* `Expr.rebuilt` is what becomes of a node; if subterms that are not changed come out as they were,
  it is the node over what its subterms became (`rebuiltFrom_of_handedBack`);
* a walker that does not change what it calls unchanged visits a node around a walk over the list of
  its subterms (`walk_eq_visit`);
* what is kept where computations are put in sequence is kept by walks (`Sequenced.walk`).
-/

namespace QueryChain

namespace Outcome

variable {α β : Type}

@[simp] theorem value_changed (a : α) : (changed a).value = a := rfl

@[simp] theorem value_unchanged (a : α) : (unchanged a).value = a := rfl

@[simp] theorem value_map (f : α → β) (o : Outcome α) : (o.map f).value = f o.value := by
  cases o <;> rfl

/-- What comes of a node when its last hook answers `o` over what became of its subterms. -/
def atop (o below : Outcome α) : Outcome α :=
  if below.isChanged then .changed o.value else o

theorem isChanged_atop (o below : Outcome α) :
    (o.atop below).isChanged = (below.isChanged || o.isChanged) := by
  unfold atop
  cases below.isChanged <;> rfl

theorem value_atop (o below : Outcome α) : (o.atop below).value = o.value := by
  unfold atop
  split <;> rfl

/-- The outcome for items that are changed one by one: it is changed when one of them is. -/
def all (os : List (Outcome α)) : Outcome (List α) :=
  if os.any isChanged then .changed (os.map value) else .unchanged (os.map value)

theorem all_nil : all ([] : List (Outcome α)) = .unchanged [] :=
  rfl

theorem all_cons (o : Outcome α) (os : List (Outcome α)) :
    all (o :: os) = (o.pair (all os)).map fun (a, as) => a :: as := by
  unfold all
  cases o <;> cases h : os.any isChanged <;> simp [isChanged, pair, map, value, h]

end Outcome

/-- What is done with the results for a list may rely on getting as many. -/
theorem mapM_bind_congr {α β γ : Type} {m : Type → Type} [Monad m] [LawfulMonad m] {p : α → m β}
    {as : List α} {f g : List β → m γ} (h : ∀ bs, bs.length = as.length → f bs = g bs) :
    as.mapM p >>= f = as.mapM p >>= g := by
  induction as generalizing f g with
  | nil => simpa using h [] rfl
  | cons a as ih =>
    simp only [List.mapM_cons, bind_assoc, pure_bind]
    congr 1
    funext b
    exact ih fun bs hbs => h (b :: bs) (by simp [hbs])

namespace Expr

variable {m : Type → Type} [Monad m] [LawfulMonad m] {r : Walker m}

theorem walkBindings_eq_walkAll (bs : List (Member × Expr)) :
    walkBindings r bs
      = (Outcome.map (bs.map Prod.fst).zip ·) <$> walkAll r (bs.map Prod.snd) := by
  induction bs with
  | nil => simp [walkBindings, walkAll, Outcome.map]
  | cons b bs ih =>
    obtain ⟨k, e⟩ := b
    simp only [walkBindings, ih, List.map_cons, walkAll, bind_map_left, map_bind, map_pure]
    congr 1
    funext o
    congr 1
    funext os
    cases o <;> cases os <;> rfl

/-- The subterms that a node is rebuilt from. The construction in front of members or elements is
kept as it was when none of its arguments is changed. -/
def kept : Expr → List (Outcome Expr) → List Expr
  | .memberInit _ arguments _ _, os | .listInit _ arguments _ _, os =>
    if (os.take arguments.length).any Outcome.isChanged then os.map Outcome.value
    else arguments ++ (os.drop arguments.length).map Outcome.value
  | _, os => os.map Outcome.value

/-- What a walk makes of a node whose subterms come out as `os`. -/
def rebuilt (e : Expr) (os : List (Outcome Expr)) : Outcome Expr :=
  if os.any Outcome.isChanged then .changed (e.withSubterms (e.kept os)) else .unchanged e

theorem walkAll_eq_all (es : List Expr) : walkAll r es = Outcome.all <$> es.mapM (walk r) := by
  induction es with
  | nil => simp [walkAll, Outcome.all_nil]
  | cons e es ih =>
    simp only [walkAll, ih, List.mapM_cons, map_bind, bind_map_left, map_pure, Outcome.all_cons]

/-- A node whose children are not changed is left as it is, whatever they come out as. -/
theorem visit_eq_of_orKeep {e : Expr} {children children' : m (Outcome Expr)}
    (h : (Outcome.orKeep e ·) <$> children = (Outcome.orKeep e ·) <$> children') :
    visit r e children = visit r e children' := by
  have hkeep (c : m (Outcome Expr)) : visit r e c = visit r e ((Outcome.orKeep e ·) <$> c) := by
    simp only [visit, bind_map_left]
    congr 1
    funext answer
    cases answer with
    | some => rfl
    | none =>
      simp only
      congr 1
      funext o
      cases o <;> rfl
  rw [hkeep children, hkeep children', h]

theorem orKeep_rebuilt (e : Expr) (os : List (Outcome Expr)) :
    (e.rebuilt os).orKeep e = e.rebuilt os := by
  unfold rebuilt
  split <;> rfl

theorem walk_eq_visit_rebuilt (r : Walker m) (e : Expr) :
    walk r e = visit r e (e.rebuilt <$> e.subterms.mapM (walk r)) := by
  cases e with
  | constant | parameter | staticMember | subQuery =>
    simp [walk, subterms, rebuilt]
  | staticCall | new | newArray =>
    refine visit_eq_of_orKeep ?_
    simp only [subterms, walkAll_eq_all, bind_pure_comp, Functor.map_map]
    congr 1
    funext os
    rw [orKeep_rebuilt]
    simp only [Outcome.all, rebuilt]
    split <;> rfl
  | member | unary | lambda | typeIs =>
    refine visit_eq_of_orKeep ?_
    simp only [subterms, List.mapM_cons, List.mapM_nil, map_bind, map_pure, pure_bind]
    congr 1
    funext o
    cases o <;> rfl
  | call | invoke =>
    refine visit_eq_of_orKeep ?_
    simp only [subterms, List.mapM_cons, walkAll_eq_all, map_bind, map_pure, bind_map_left]
    congr 1
    funext o
    congr 1
    funext os
    cases o <;> cases h : os.any Outcome.isChanged <;>
      simp [Outcome.all, h, rebuilt, Outcome.pair, Outcome.map, Outcome.orKeep, withSubterms, kept,
        Outcome.isChanged]
  | binary =>
    refine visit_eq_of_orKeep ?_
    simp only [subterms, List.mapM_cons, List.mapM_nil, map_bind, map_pure, pure_bind, bind_assoc]
    congr 1
    funext o
    congr 1
    funext o'
    cases o <;> cases o' <;> rfl
  | conditional =>
    refine visit_eq_of_orKeep ?_
    simp only [subterms, List.mapM_cons, List.mapM_nil, map_bind, map_pure, pure_bind, bind_assoc]
    congr 1
    funext o
    congr 1
    funext o'
    congr 1
    funext o''
    cases o <;> cases o' <;> cases o'' <;> rfl
  | memberInit | listInit =>
    refine visit_eq_of_orKeep ?_
    simp only [subterms, List.mapM_append, walkBindings_eq_walkAll, walkAll_eq_all, map_bind,
      map_pure, bind_map_left]
    refine mapM_bind_congr fun os hos => ?_
    congr 1
    funext ps
    cases h : os.any Outcome.isChanged <;> cases h' : ps.any Outcome.isChanged <;>
      simp [Outcome.all, h, h', rebuilt, Outcome.pair, Outcome.map, Outcome.orKeep, withSubterms,
        kept, ← hos]

theorem rebuilt_of_unchanged {e d : Expr} {os : List (Outcome Expr)}
    (h : e.rebuilt os = .unchanged d) : d = e := by
  unfold rebuilt at h
  split at h <;> cases h
  rfl

/-- A walk comes to a node, goes through its subterms in the order they are written, and leaves the
node with what became of it. -/
theorem walk_eq (r : Walker m) (e : Expr) :
    walk r e = do
      match ← r.before e with
      | some replacement => return .changed replacement
      | none =>
        let os ← e.subterms.mapM (walk r)
        let o ← r.after (e.rebuilt os).value
        return o.atop (e.rebuilt os) := by
  rw [walk_eq_visit_rebuilt]
  simp only [visit, bind_map_left]
  congr 1
  funext answer
  cases answer with
  | some replacement => rfl
  | none =>
    simp only
    congr 1
    funext os
    cases h : e.rebuilt os with
    | changed d => rfl
    | unchanged d =>
      obtain rfl := rebuilt_of_unchanged h
      simp [Outcome.atop, Outcome.isChanged]

end Expr

/-! ## Rebuilding -/

namespace Expr

/-- What became of the subterms of a node makes the node: if no subterm is changed, the node is
kept, and otherwise it is put over what they became, each in its place. The node over other subterms
has these subterms, and it is the node as it was once the former ones are put back. -/
structure RebuiltFrom (e : Expr) (os : List (Outcome Expr)) : Prop where
  kept : os.any Outcome.isChanged = false → e.rebuilt os = .unchanged e
  changed : os.any Outcome.isChanged →
    e.rebuilt os = .changed (e.withSubterms (os.map Outcome.value))
  subterms : (e.withSubterms (os.map Outcome.value)).subterms = os.map Outcome.value
  putBack : (e.withSubterms (os.map Outcome.value)).withSubterms e.subterms = e

/-- Putting the former subterms back makes the former node. -/
theorem withSubterms_putBack {e : Expr} {es : List Expr} (h : es.length = e.subterms.length) :
    (e.withSubterms es).withSubterms e.subterms = e := by
  cases e with
  | constant | parameter | staticMember | subQuery | staticCall | new | newArray => rfl
  | member | unary | lambda | typeIs =>
    obtain ⟨a, rfl⟩ := List.length_eq_one_iff.1 h
    rfl
  | binary =>
    obtain ⟨a, b, rfl⟩ := List.length_eq_two.1 h
    rfl
  | conditional =>
    obtain ⟨a, b, c, rfl⟩ := List.length_eq_three.1 h
    rfl
  | call | invoke =>
    obtain ⟨a, as, rfl⟩ := List.exists_cons_of_length_pos (l := es) (by rw [h]; simp [subterms])
    rfl
  | memberInit type arguments members bindings =>
    simp only [subterms, List.length_append, List.length_map] at h
    simp only [withSubterms, subterms, List.length_take, h, Nat.min_eq_left (Nat.le_add_right _ _),
      List.take_left, List.drop_left]
    rw [List.map_fst_zip (by simp [h]), List.zip_map', List.map_id']
  | listInit type arguments members elements =>
    simp only [subterms, List.length_append] at h
    simp [withSubterms, subterms, h]

/-- Each expression that is not changed comes out as it was. -/
def HandedBack (es : List Expr) (os : List (Outcome Expr)) : Prop :=
  List.Forall₂ (fun e o => ∀ d, o = .unchanged d → d = e) es os

theorem HandedBack.map_value {es : List Expr} {os : List (Outcome Expr)} (h : HandedBack es os)
    (hnone : os.any Outcome.isChanged = false) : os.map Outcome.value = es := by
  induction h with
  | nil => rfl
  | @cons e o es os he _ ih =>
    rw [List.any_cons, Bool.or_eq_false_iff] at hnone
    cases o with
    | changed d => cases hnone.1
    | unchanged d => rw [List.map_cons, ih hnone.2, Outcome.value_unchanged, he d rfl]

theorem kept_of_handedBack {e : Expr} {os : List (Outcome Expr)} (h : HandedBack e.subterms os) :
    e.kept os = os.map Outcome.value := by
  -- A construction that is kept has the arguments that came out, for none of them is changed.
  have hconstruction {arguments rest : List Expr} (h : HandedBack (arguments ++ rest) os) :
      (if (os.take arguments.length).any Outcome.isChanged then os.map Outcome.value
        else arguments ++ (os.drop arguments.length).map Outcome.value)
      = os.map Outcome.value := by
    split
    · rfl
    · rename_i hnone
      have htake := List.forall₂_take arguments.length h
      rw [List.take_left] at htake
      have harguments := HandedBack.map_value htake (by simpa using hnone)
      conv_rhs => rw [← List.take_append_drop arguments.length os, List.map_append, harguments]
  cases e with
  | memberInit | listInit => exact hconstruction h
  | _ => rfl

/-- If subterms that are not changed come out as they were, a node is rebuilt of what all became. -/
theorem rebuiltFrom_of_handedBack {e : Expr} {os : List (Outcome Expr)}
    (h : HandedBack e.subterms os) : e.RebuiltFrom os where
  kept hnone := by rw [rebuilt, hnone]; rfl
  changed hsome := by rw [rebuilt, if_pos hsome, kept_of_handedBack h]
  subterms := subterms_withSubterms (by simp [List.Forall₂.length_eq h])
  putBack := withSubterms_putBack (by simp [List.Forall₂.length_eq h])

theorem value_rebuilt {e : Expr} {os : List (Outcome Expr)} (h : HandedBack e.subterms os) :
    (e.rebuilt os).value = e.withSubterms (os.map Outcome.value) := by
  cases hany : os.any Outcome.isChanged with
  | true => rw [(rebuiltFrom_of_handedBack h).changed hany, Outcome.value_changed]
  | false =>
    rw [(rebuiltFrom_of_handedBack h).kept hany, h.map_value hany, withSubterms_subterms,
      Outcome.value_unchanged]

/-- If the last hook hands back what it calls unchanged, so does the whole visit. -/
theorem handedBack_of_atop {e d : Expr} {os : List (Outcome Expr)} {o : Outcome Expr}
    (hback : ∀ c, o = .unchanged c → c = (e.rebuilt os).value)
    (h : o.atop (e.rebuilt os) = .unchanged d) : d = e := by
  cases hrebuilt : e.rebuilt os with
  | changed =>
    rw [hrebuilt] at h
    cases h
  | unchanged c =>
    obtain rfl := rebuilt_of_unchanged hrebuilt
    rw [hrebuilt] at h hback
    exact hback d h

end Expr

/-! ## Faithful walkers -/

/-- A walker is faithful when a node that it leaves unchanged is the node that it was given. -/
def Walker.Faithful {m : Type → Type} [Monad m] (r : Walker m) : Prop :=
  ∀ e, r.after e = (Outcome.orKeep e ·) <$> r.after e

namespace Expr

variable {m : Type → Type} [Monad m] [LawfulMonad m] {r : Walker m}

theorem visit_orKeep (h : r.Faithful) (e : Expr) (children : m (Outcome Expr)) :
    (Outcome.orKeep e ·) <$> visit r e children = visit r e children := by
  simp only [visit, map_bind]
  congr 1
  funext answer
  cases answer with
  | some replacement => simp [Outcome.orKeep]
  | none =>
    simp only [map_bind]
    congr 1
    funext outcome
    cases outcome with
    | changed rebuilt => simp [Outcome.orKeep]
    | unchanged _ => exact (h e).symm

/-- A walk that changes nothing answers with the expression itself. -/
theorem walk_orKeep (h : r.Faithful) (e : Expr) :
    (Outcome.orKeep e ·) <$> walk r e = walk r e := by
  cases e <;> simp only [walk] <;> exact visit_orKeep h _ _

/-- What is done after walking expressions may rely on getting those back that are not changed. -/
theorem mapM_walk_congr {β : Type} (h : r.Faithful) {es : List Expr}
    {f g : List (Outcome Expr) → m β} (hfg : ∀ os, HandedBack es os → f os = g os) :
    es.mapM (walk r) >>= f = es.mapM (walk r) >>= g := by
  induction es generalizing f g with
  | nil => simpa using hfg [] .nil
  | cons e es ih =>
    have hkept (o : Outcome Expr) : ∀ d, o.orKeep e = .unchanged d → d = e := by
      cases o <;> simp [Outcome.orKeep, eq_comm]
    simp only [List.mapM_cons, bind_assoc, pure_bind]
    rw [← walk_orKeep h e, bind_map_left, bind_map_left]
    congr 1
    funext o
    exact ih fun os hos => hfg _ (.cons (hkept o) hos)

/-- A walk by a faithful walker visits each node around a walk over its subterms. -/
theorem walk_eq_visit (h : r.Faithful) (e : Expr) :
    walk r e = visit r e ((Outcome.map e.withSubterms ·) <$> walkAll r e.subterms) := by
  rw [walk_eq_visit_rebuilt, walkAll_eq_all]
  refine visit_eq_of_orKeep ?_
  simp only [map_eq_pure_bind, bind_assoc, pure_bind]
  refine mapM_walk_congr h fun os hos => ?_
  rw [orKeep_rebuilt, rebuilt, Outcome.all, kept_of_handedBack hos]
  split <;> rfl

end Expr

/-! ## Related walks -/

/-- A relation between computations of two kinds that is kept where they are put in sequence. -/
structure Sequenced {m n : Type → Type} [Monad m] [Monad n]
    (R : ∀ α : Type, m α → n α → Prop) : Prop where
  pure : ∀ {α : Type} (a : α), R α (pure a) (pure a)
  bind : ∀ {α β : Type} {x : m α} {y : n α} {f : α → m β} {g : α → n β},
    R α x y → (∀ a, R β (f a) (g a)) → R β (x >>= f) (y >>= g)

namespace Sequenced

variable {m n : Type → Type} [Monad m] [Monad n] {R : ∀ α : Type, m α → n α → Prop}

theorem mapM [LawfulMonad m] [LawfulMonad n] (h : Sequenced R) {α β : Type} {f : α → m β}
    {g : α → n β} {as : List α} (hfg : ∀ a ∈ as, R β (f a) (g a)) :
    R (List β) (as.mapM f) (as.mapM g) := by
  induction as with
  | nil => simpa using h.pure []
  | cons a as ih =>
    rw [List.forall_mem_cons] at hfg
    rw [List.mapM_cons, List.mapM_cons]
    exact h.bind hfg.1 fun b => h.bind (ih hfg.2) fun bs => h.pure (b :: bs)

variable {r : Walker m} {r' : Walker n}

/-- Walkers whose hooks are related walk in related ways. -/
theorem walk [LawfulMonad m] [LawfulMonad n] (h : Sequenced R)
    (before : ∀ e, R _ (r.before e) (r'.before e)) (after : ∀ e, R _ (r.after e) (r'.after e))
    (e : Expr) : R _ (e.walk r) (e.walk r') := by
  induction e using Expr.subterms_induction with
  | node e ih =>
    rw [Expr.walk_eq, Expr.walk_eq]
    refine h.bind (before e) fun answer => ?_
    cases answer with
    | some replacement => exact h.pure _
    | none =>
      exact h.bind (h.mapM ih) fun os => h.bind (after _) fun o => h.pure _

end Sequenced

end QueryChain
