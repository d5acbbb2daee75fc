import QueryChain.Proofs.Chain.Spine
import QueryChain.Proofs.Expr.Parts

/-!
# Where embedded chains are looked for

Embedded chains are looked for in the lambdas of a chain as they become expressions of clauses. Of a
`Select` below another lambda operator that is the last argument alone, the value that it binds.
`Layer.scannedAll` lists what is looked through. It stands inside the chain
(`Spine.subterm_of_scanned`), so embedded chains are smaller than the chain around them.
-/

namespace QueryChain

namespace Draft

theorem outerChains_of_nestedChain? {source chain : Expr} (h : nestedChain? source = some chain) :
    source.outerChains = [chain] := by
  unfold nestedChain? at h
  split at h
  · rename_i body hlambda
    split at h
    · rename_i hchain
      cases h
      rw [← Expr.outerChains_unquoted, hlambda, Expr.outerChains_lambda_eq,
        Expr.outerChains_of_isChain hchain]
    · cases h
  · cases h

theorem boundVariable?_mem_parts {selector value : Expr} {x : Parameter}
    (h : boundVariable? selector = some (x, value)) : value ∈ selector.parts := by
  unfold boundVariable? at h
  split at h
  · rename_i parameters type arguments members hselector
    have hvalue : value ∈ arguments := by
      split at h
      · split at h
        · rename_i hlast
          cases h
          exact List.mem_of_getLast? hlast
        · cases h
      · cases h
    have hbody := Expr.mem_parts_of_subterm (e := .new type arguments members) hvalue
      (Expr.mem_parts_self value)
    have hlambda := Expr.mem_parts_of_subterm
      (e := .lambda parameters (.new type arguments members)) (List.mem_singleton_self _) hbody
    exact Expr.parts_trans (hselector ▸ Expr.unquoted_mem_parts selector) hlambda
  · cases h

end Draft

namespace Layer

/-- The last argument of an object that is made. -/
def lastArgument? : Expr → Option Expr
  | .new _ arguments _ => arguments.getLast?
  | _ => none

/-- The expressions of an operator below another one in which embedded chains are looked for. -/
def scanned : Layer → List Expr
  | .select _ body => (lastArgument? body).toList
  | .selectMany p found q x body => [.lambda [p] found, .lambda [q, x] body]
  | .filter p body | .ordering _ _ p body => [.lambda [p] body]

/-- The expressions of a chain in which embedded chains are looked for. The last `Select` has no
other operator above it. -/
def scannedAll : List Layer → List Expr
  | [] => []
  | [.select p body] => [.lambda [p] body]
  | layer :: layers => layer.scanned ++ scannedAll layers

/-- The lambdas of an operator. -/
def lambdas : Layer → List Expr
  | .select p body | .filter p body | .ordering _ _ p body => [.lambda [p] body]
  | .selectMany p found q x body => [.lambda [p] found, .lambda [q, x] body]

theorem Reads.argument_of_lambda {method : String} {arguments : List Expr} {layer : Layer}
    (h : layer.Reads method arguments) {l : Expr} (hl : l ∈ layer.lambdas) :
    ∃ argument ∈ arguments, l ∈ argument.parts := by
  cases h with
  | selectMany hfound hbody =>
    rcases List.mem_pair.1 hl with rfl | rfl
    · exact ⟨_, by simp, hfound ▸ Expr.unquoted_mem_parts _⟩
    · exact ⟨_, by simp, hbody ▸ Expr.unquoted_mem_parts _⟩
  | select hbody | filter hbody | ordering hbody =>
    obtain rfl := List.mem_singleton.1 hl
    exact ⟨_, by simp, hbody ▸ Expr.unquoted_mem_parts _⟩

theorem scanned_parts {layer : Layer} {d : Expr} (hd : d ∈ layer.scanned) :
    ∃ l ∈ layer.lambdas, d ∈ l.parts := by
  cases layer with
  | select p body =>
    refine ⟨_, List.mem_singleton_self _, ?_⟩
    cases body with
    | new type arguments members =>
      have harg : d ∈ arguments := List.mem_of_getLast? (by simpa [scanned, lastArgument?] using hd)
      have hbody := Expr.mem_parts_of_subterm (e := .new type arguments members) harg
        (Expr.mem_parts_self d)
      exact Expr.mem_parts_of_subterm (by simp [Expr.subterms]) hbody
    | _ => simp [scanned, lastArgument?] at hd
  | _ => exact ⟨d, hd, Expr.mem_parts_self d⟩

theorem scannedAll_parts {layers : List Layer} {d : Expr} (hd : d ∈ scannedAll layers) :
    ∃ layer ∈ layers, ∃ l ∈ layer.lambdas, d ∈ l.parts := by
  fun_induction scannedAll layers with
  | case1 => simp at hd
  | case2 p body =>
    exact ⟨_, List.mem_singleton_self _, d, hd, Expr.mem_parts_self d⟩
  | case3 layer layers _ ih =>
    rcases List.mem_append.1 hd with hd | hd
    · exact ⟨layer, by simp, scanned_parts hd⟩
    · obtain ⟨below, hbelow, hl⟩ := ih hd
      exact ⟨below, by simp [hbelow], hl⟩

end Layer

/-- The lambdas of the operators of a chain stand in it. -/
theorem Layered.subterm_of_lambda {source e : Expr} {layers : List Layer}
    (h : Layered source e layers) {layer : Layer} (hlayer : layer ∈ layers) {l : Expr}
    (hl : l ∈ layer.lambdas) : ∃ b ∈ e.subterms, l ∈ b.parts := by
  induction h with
  | source => simp at hlayer
  | layer _ hreads ih =>
    rcases List.mem_append.1 hlayer with hlayer | hlayer
    · obtain ⟨b, hb, hl⟩ := ih hlayer
      exact ⟨_, List.mem_cons_self, Expr.mem_parts_of_subterm hb hl⟩
    · obtain rfl := List.mem_singleton.1 hlayer
      obtain ⟨argument, hargument, hl⟩ := hreads.argument_of_lambda hl
      exact ⟨argument, List.mem_cons_of_mem _ hargument, hl⟩

theorem Spine.subterm_of_lambda {source e : Expr} {layers : List Layer} {distinct : Bool}
    {modifiers : List Modifier} (h : Spine source layers e distinct modifiers) {layer : Layer}
    (hlayer : layer ∈ layers) {l : Expr} (hl : l ∈ layer.lambdas) :
    ∃ b ∈ e.subterms, l ∈ b.parts := by
  induction h with
  | lambdas h => exact h.subterm_of_lambda hlayer hl
  | distinct _ ih | result _ _ ih =>
    obtain ⟨b, hb, hl⟩ := ih
    exact ⟨_, List.mem_cons_self, Expr.mem_parts_of_subterm hb hl⟩

/-- What stands in a lambda of a chain stands in the chain, and is smaller. -/
theorem Spine.part_of_lambda {source e : Expr} {layers : List Layer} {distinct : Bool}
    {modifiers : List Modifier} (h : Spine source layers e distinct modifiers) {layer : Layer}
    (hlayer : layer ∈ layers) {l d : Expr} (hl : l ∈ layer.lambdas) (hd : d ∈ l.parts) :
    d ∈ e.parts ∧ d.size < e.size := by
  obtain ⟨b, hb, hl⟩ := h.subterm_of_lambda hlayer hl
  have hdb := Expr.parts_trans hl hd
  exact ⟨Expr.mem_parts_of_subterm hb hdb,
    Nat.lt_of_le_of_lt (Expr.size_le_of_mem_parts hdb) (Expr.size_lt_of_mem_subterms hb)⟩

/-- What is looked through for embedded chains stands in the chain, below its outermost node. -/
theorem Spine.subterm_of_scanned {source e : Expr} {layers : List Layer} {distinct : Bool}
    {modifiers : List Modifier} (h : Spine source layers e distinct modifiers) {d : Expr}
    (hd : d ∈ Layer.scannedAll layers) : ∃ b ∈ e.subterms, d ∈ b.parts := by
  obtain ⟨layer, hlayer, l, hl, hd⟩ := Layer.scannedAll_parts hd
  obtain ⟨b, hb, hl⟩ := h.subterm_of_lambda hlayer hl
  exact ⟨b, hb, Expr.parts_trans hl hd⟩

end QueryChain
