import QueryChain.Proofs.Expr.Folding
import QueryChain.Proofs.Expr.Parts

/-!
# Folded expressions are normal

An expression is normal if no node in it can be folded. Folding leaves exactly the normal
expressions as they are (`folded_eq_unchanged_iff`). A node folds to a constant or to one of its
subterms (`fold?_cases`), so one pass from the bottom up makes every expression normal
(`normal_evaluate`), and a second pass finds nothing to do.
-/

namespace QueryChain.Expr

/-- No node of a normal expression can be folded. -/
def Normal (e : Expr) : Prop :=
  ∀ c ∈ e.parts, fold? c = none

theorem normal_iff {e : Expr} : e.Normal ↔ fold? e = none ∧ ∀ c ∈ e.subterms, c.Normal :=
  forall_parts_iff

theorem normal_ofConstant (value : Constant) : (ofConstant value).Normal := by
  rw [normal_iff]
  exact ⟨rfl, by simp [ofConstant, subterms]⟩

/-! ## One node -/

/-- A node folds to a constant or to one of its subterms. -/
theorem fold?_cases {e d : Expr} (h : fold? e = some d) :
    (∃ value, d = ofConstant value) ∨ d ∈ e.subterms := by
  unfold fold? at h
  split at h
  case h_1 | h_2 | h_6 | h_7 =>
    obtain ⟨value, _, rfl⟩ := Option.map_eq_some_iff.1 h
    exact .inl ⟨_, rfl⟩
  case h_3 | h_4 | h_5 =>
    cases h
    exact .inr (by simp [subterms])
  case h_8 => cases h

/-- A node over normal subterms is normal once it is folded. -/
theorem normal_foldNode {e : Expr} (h : ∀ c ∈ e.subterms, c.Normal) : e.foldNode.Normal := by
  unfold foldNode
  cases hfold : fold? e with
  | none => exact normal_iff.2 ⟨hfold, h⟩
  | some d =>
    obtain ⟨value, rfl⟩ | hd := fold?_cases hfold
    · exact normal_ofConstant value
    · exact h d hd

theorem after_folder_of_none {e : Expr} (h : fold? e = none) : folder.after e = .unchanged e := by
  simp only [folder, h]

theorem isChanged_after_folder (e : Expr) :
    Outcome.isChanged (folder.after e) = (fold? e).isSome := by
  simp only [folder]
  cases fold? e <;> rfl

/-! ## Whole expressions -/

/-- What folding makes of an expression is normal. -/
theorem normal_evaluate (e : Expr) : e.evaluate.Normal := by
  induction e using subterms_induction with
  | node e ih =>
    rw [evaluate_eq]
    apply normal_foldNode
    rw [subterms_withSubterms (by simp)]
    intro c' hc'
    obtain ⟨c, hc, rfl⟩ := List.mem_map.1 hc'
    exact ih c hc

/-- A pass reports a change exactly if some node could be folded. -/
theorem isChanged_folded_iff (e : Expr) : e.folded.isChanged = false ↔ e.Normal := by
  induction e using subterms_induction with
  | node e ih =>
    rw [folded_eq, Outcome.isChanged_atop, normal_iff]
    cases hany : (e.subterms.map folded).any Outcome.isChanged with
    | true =>
      -- Some subterm is changed, so it is not normal, and the node is put over what it became.
      obtain ⟨c, hc, hchanged⟩ : ∃ c ∈ e.subterms, c.folded.isChanged = true := by
        simpa using hany
      have hnot : ¬c.Normal := fun hn => by simp [(ih c hc).2 hn] at hchanged
      simp only [rebuilt, hany, if_true, Outcome.isChanged, Bool.true_or, Bool.true_eq_false,
        false_iff]
      intro h
      exact hnot (h.2 c hc)
    | false =>
      have hsubterms : ∀ c ∈ e.subterms, c.Normal := fun c hc =>
        (ih c hc).1 (by simpa using List.any_eq_false.1 hany c.folded (List.mem_map_of_mem hc))
      have hrebuilt : e.rebuilt (e.subterms.map folded) = .unchanged e := by
        simp [rebuilt, hany]
      rw [hrebuilt, Outcome.value_unchanged, isChanged_after_folder]
      simp only [Outcome.isChanged, Bool.false_or, Option.isSome_eq_false_iff,
        Option.isNone_iff_eq_none]
      exact ⟨fun h => ⟨h, hsubterms⟩, fun h => h.1⟩

/-- Folding leaves exactly the normal expressions as they are. -/
theorem folded_eq_unchanged_iff (e : Expr) : e.folded = .unchanged e ↔ e.Normal := by
  rw [← isChanged_folded_iff]
  cases h : e.folded with
  | changed => exact ⟨nofun, nofun⟩
  | unchanged d =>
    rw [folded_handedBack h]
    exact ⟨fun _ => rfl, fun _ => rfl⟩

/-- Folding reaches a fixed point at once: no node of a folded expression can be folded, and folding
it again reports no change and gives the same expression. -/
theorem evaluate_reaches_normal (e : Expr) :
    (∀ c ∈ e.evaluate.parts, folder.after c = .unchanged c) ∧
      e.evaluate.folded = .unchanged e.evaluate ∧ e.evaluate.evaluate = e.evaluate := by
  have hnormal := normal_evaluate e
  have hfolded := (folded_eq_unchanged_iff e.evaluate).2 hnormal
  refine ⟨fun c hc => after_folder_of_none (hnormal c hc), hfolded, ?_⟩
  rw [evaluate, hfolded, Outcome.value_unchanged]

end QueryChain.Expr
