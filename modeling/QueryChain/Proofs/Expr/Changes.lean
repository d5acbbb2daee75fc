import QueryChain.Proofs.Expr.Calls

/-!
# What a walk changes

A walk says that an expression was changed exactly if a hook changed something on the way
(`Tour.isChanged_eq`). If the last hook of a walker answers that a node is unchanged only with the
node itself, then so does the walk, and a node that is rebuilt differs from the one before in its
subterms only (`Expr.RebuiltFrom`).
-/

namespace QueryChain

/-- When the last hook of a walker calls a node unchanged, it hands back the node it was given. -/
def Walker.HandsBack {ε σ : Type} (r : Walker (EStateM ε σ)) : Prop :=
  ∀ {e d s s'}, (r.after e).run s = .ok (.unchanged d) s' → d = e

variable {ε σ : Type} {r : Walker (EStateM ε σ)}

/-! ## Outcomes and calls -/

theorem Tours.any_isChanged {es : List Expr} {s s' : σ} {calls : List (HookCall ε)}
    {os : List (Outcome Expr)} (each : ∀ e ∈ es, ∀ {s calls o s'}, Tour r e s calls o s' →
      o.isChanged = calls.any HookCall.changes)
    (h : Tours r es s calls os s') : os.any Outcome.isChanged = calls.any HookCall.changes := by
  induction es generalizing s calls os with
  | nil =>
    cases h
    rfl
  | cons e es ih =>
    rw [List.forall_mem_cons] at each
    cases h with
    | cons hfirst hrest =>
      rw [List.any_cons, List.any_append, each.1 hfirst, ih each.2 hrest]

/-- An expression comes out changed exactly if a hook changed something. -/
theorem Tour.isChanged_eq {e : Expr} {s s' : σ} {calls : List (HookCall ε)} {o : Outcome Expr}
    (h : Tour r e s calls o s') : o.isChanged = calls.any HookCall.changes := by
  induction e using Expr.subterms_induction generalizing s calls o s' with
  | node e ih =>
    cases h with
    | replaced => rfl
    | @visited _ _ _ _ _ calls os o _ htours _ =>
      have hbelow := htours.any_isChanged fun c hc => ih c hc
      have hrebuilt : (e.rebuilt os).isChanged = os.any Outcome.isChanged := by
        unfold Expr.rebuilt
        split <;> simp_all [Outcome.isChanged]
      have hlast : ∀ d, (HookCall.after d (.ok o) : HookCall ε).changes = o.isChanged := by
        intro d
        cases o <;> rfl
      rw [Outcome.isChanged_atop, hrebuilt, hbelow, List.any_cons, List.any_append,
        List.any_cons, hlast]
      simp [HookCall.changes]

/-- A walk hands back what its walker does. -/
theorem Tour.handedBack (hr : r.HandsBack) {e d : Expr} {s s' : σ} {calls : List (HookCall ε)}
    (h : Tour r e s calls (.unchanged d) s') : d = e := by
  generalize ho : Outcome.unchanged d = o at h
  cases h with
  | replaced => cases ho
  | visited _ _ hafter => exact Expr.handedBack_of_atop (fun c hc => hr (hc ▸ hafter)) ho.symm

theorem Tours.handedBack (hr : r.HandsBack) {es : List Expr} {s s' : σ} {calls : List (HookCall ε)}
    {os : List (Outcome Expr)} (h : Tours r es s calls os s') : Expr.HandedBack es os := by
  induction es generalizing s calls os with
  | nil =>
    cases h
    exact .nil
  | cons e es ih =>
    cases h with
    | cons hfirst hrest => exact .cons (fun d hd => (hd ▸ hfirst).handedBack hr) (ih hrest)

/-- A walk that does not fail, by a walker that hands back what it leaves unchanged: the expression
comes out changed exactly if a hook changed something, and otherwise comes out as it is; and each
node is rebuilt of what its subterms became, with nothing else changed. -/
theorem isChanged_iff_of_walk (hr : r.HandsBack) {e : Expr} {o : Outcome Expr} {s s' : σ}
    (h : (e.walk r).run s = .ok o s') :
    (o.isChanged ↔ ∃ c ∈ r.calls e s, c.changes) ∧ (o.isChanged = false → o = .unchanged e)
      ∧ Tour r e s (r.calls e s) o s'
      ∧ ∀ (d : Expr) s₁ calls os s₂, Tours r d.subterms s₁ calls os s₂ → d.RebuiltFrom os := by
  have htour : Tour r e s (r.calls e s) o s' :=
    tour_of_walk (Prod.ext ((recorded_records r e s).trans h) rfl)
  refine ⟨?_, fun hnot => ?_, htour, fun d s₁ calls os s₂ htours => ?_⟩
  · rw [htour.isChanged_eq, List.any_eq_true]
  · cases o with
    | changed => cases hnot
    | unchanged d => rw [htour.handedBack hr]
  · exact Expr.rebuiltFrom_of_handedBack (htours.handedBack hr)

/-- Calls the parameter `s` by the name `x`, and counts the nodes it comes to. -/
def renamer : Walker (EStateM String Nat) where
  before _ := do
    modify (· + 1)
    return none
  after
    | .parameter p =>
      pure (if p.name = "s" then .changed (.parameter { p with name := "x" })
        else .unchanged (.parameter p))
    | e => pure (.unchanged e)

theorem renamer_handsBack : renamer.HandsBack := by
  intro e d s s' h
  cases e with
  | parameter p =>
    by_cases hp : p.name = "s" <;> simp only [renamer, hp, if_true, if_false] at h <;> cases h
    rfl
  | _ =>
    cases h
    rfl

/-- `s => s.ID == 5` becomes `s => x.ID == 5`. -/
theorem isChanged_iff_of_walk_renamer :
    let s : Parameter := { name := "s", type := "Student" }
    let predicate (p : Parameter) := Expr.lambda [s] (.operation .equal
      (.member (.parameter p) { declaringType := "Student", name := "ID", type := "Int32" })
      (.ofConstant (.int 5)))
    let o : Outcome Expr := .changed (predicate { s with name := "x" })
    ((predicate s).walk renamer).run 0 = .ok o 5
      ∧ (o.isChanged ↔ ∃ c ∈ renamer.calls (predicate s) 0, c.changes)
      ∧ (o.isChanged = false → o = .unchanged (predicate s))
      ∧ Tour renamer (predicate s) 0 (renamer.calls (predicate s) 0) o 5
      ∧ ∀ (d : Expr) s₁ calls os s₂, Tours renamer d.subterms s₁ calls os s₂ →
        d.RebuiltFrom os := by
  intro s predicate o
  have hrun : ((predicate s).walk renamer).run 0 = .ok o 5 := by rfl
  exact ⟨hrun, isChanged_iff_of_walk renamer_handsBack hrun⟩

end QueryChain
