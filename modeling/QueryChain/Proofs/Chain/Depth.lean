import QueryChain.Proofs.Chain.Embedded

/-!
# How deep a parse may go

The depth that a parse is given bounds how far chains are nested in one another, and has no other
effect: whatever a parse answers, it answers with more depth too (`parseChain_agrees`). So the query
of a chain does not depend on the size of the expression that the chain stands in.
-/

namespace QueryChain

namespace ParseM

variable {α β : Type}

/-- Whatever `x` answers, `y` answers too, and both leave the same state. -/
def Agrees (x y : ParseM α) : Prop :=
  ∀ ⦃s s' : ParseState⦄ ⦃a : α⦄, x.run s = .ok (a, s') → y.run s = .ok (a, s')

namespace Agrees

theorem refl (x : ParseM α) : x.Agrees x :=
  fun _ _ _ h => h

theorem bind {x y : ParseM α} {f g : α → ParseM β} (h : x.Agrees y)
    (hfg : ∀ a, (f a).Agrees (g a)) : (x >>= f).Agrees (y >>= g) := by
  intro s s' b hrun
  obtain ⟨a, s₁, ha, hb⟩ := run_bind_ok.1 hrun
  exact run_bind_ok.2 ⟨a, s₁, h ha, hfg a hb⟩

theorem map {x y : ParseM α} (h : x.Agrees y) (f : α → β) : (f <$> x).Agrees (f <$> y) := by
  intro s s' b hrun
  obtain ⟨a, ha, rfl⟩ := run_map_ok.1 hrun
  exact run_map_ok.2 ⟨a, h ha, rfl⟩

theorem mapM {f g : α → ParseM β} (h : ∀ a, (f a).Agrees (g a)) (as : List α) :
    (as.mapM f).Agrees (as.mapM g) := by
  induction as with
  | nil => exact refl _
  | cons a as ih =>
    rw [List.mapM_cons, List.mapM_cons]
    exact (h a).bind fun b => ih.bind fun bs => refl _

theorem foldlM {f g : β → α → ParseM β} (h : ∀ b a, (f b a).Agrees (g b a)) (as : List α) (b : β) :
    (as.foldlM f b).Agrees (as.foldlM g b) := by
  induction as generalizing b with
  | nil => exact refl _
  | cons a as ih =>
    rw [List.foldlM_cons, List.foldlM_cons]
    exact (h b a).bind ih

end Agrees

end ParseM

open ParseM

/-! ## Each part of a parse -/

section

variable {p p' : SubParser}

theorem nestChains_agrees (h : ∀ c, (p c).Agrees (p' c)) (e : Expr) :
    (nestChains p e).Agrees (nestChains p' e) := by
  rw [nestChains_eq, nestChains_eq]
  exact (Agrees.mapM h e.outerChains).map _

namespace Draft

theorem replace_agrees (h : ∀ c, (p c).Agrees (p' c)) (d : Draft) (e : Expr) :
    (d.replace p e).Agrees (d.replace p' e) :=
  (nestChains_agrees h e).bind fun _ => .refl _

theorem replaceProjection_agrees (h : ∀ c, (p c).Agrees (p' c)) (d : Draft)
    (projection : Option Expr) :
    (d.replaceProjection p projection).Agrees (d.replaceProjection p' projection) := by
  cases projection with
  | none => exact .refl _
  | some e => exact (d.replace_agrees h e).bind fun _ => .refl _

theorem addStep_agrees (h : ∀ c, (p c).Agrees (p' c)) (d : Draft) (step : Step) :
    (d.addStep p step).Agrees (d.addStep p' step) := by
  cases step with
  | range x source =>
    refine (Agrees.refl _).bind fun ⟨projection, d⟩ =>
      (d.replaceProjection_agrees h projection).bind fun ⟨projection, d⟩ => ?_
    cases hchain : nestedChain? source with
    | some chain => exact (h chain).bind fun _ => .refl _
    | none => exact (d.replace_agrees h source).bind fun _ => .refl _
  | filter predicate => exact (d.replace_agrees h predicate).bind fun _ => .refl _
  | ordering key direction first => exact (d.replace_agrees h key).bind fun _ => .refl _
  | binding selector =>
    refine (Agrees.refl _).bind fun ⟨projection, d⟩ => ?_
    cases hbound : boundVariable? selector with
    | none => exact .refl _
    | some bound => exact (d.replace_agrees h bound.2).bind fun _ => .refl _

end Draft

theorem assemble_agrees (h : ∀ c, (p c).Agrees (p' c)) (key : Nat) (parent : Option Nat) (e : Expr)
    (c : Collected) : (assemble p key parent e c).Agrees (assemble p' key parent e c) := by
  unfold assemble
  simp only
  split
  · refine (Agrees.refl _).bind fun ⟨main, steps⟩ =>
      (Agrees.foldlM (Draft.addStep_agrees h) steps _).bind fun d => ?_
    split
    · rename_i projection _
      exact (d.replaceProjection_agrees h projection).bind fun _ => .refl _
    · exact fun _ _ _ hthrow => (ParseM.run_throw_ok.1 hthrow).elim
  · exact fun _ _ _ hthrow => (ParseM.run_throw_ok.1 hthrow).elim

end

/-- With more depth a parse answers what it answers with less. -/
theorem parseChain_agrees {depth depth' : Nat} (hle : depth ≤ depth') (parent : Option Nat)
    (e : Expr) : (parseChain depth parent e).Agrees (parseChain depth' parent e) := by
  induction depth generalizing depth' parent e with
  | zero => exact fun _ _ _ h => (ParseM.run_throw_ok.1 h).elim
  | succ depth ih =>
    obtain ⟨depth', rfl⟩ := Nat.exists_eq_add_of_lt hle
    refine (Agrees.refl _).bind fun key => (Agrees.refl _).bind fun c => ?_
    exact assemble_agrees (ih (by omega) (some key)) key parent e c

end QueryChain
