import QueryChain.Proofs.Expr.Parts

/-!
# The calls of a walk

A walker may have a state, and its hooks may fail. Its calls are noted by a second walker that does
the same and keeps a list (`Walker.recorded`); noting them changes nothing (`recorded_records`).

* `Tour` says in which order a walk calls the hooks: before a node, for its subterms as they are
  written, after the node; and nothing below a node that is replaced;
* `tour_of_walk`: a walk that does not fail is a tour;
* `Walker.Extends.follows`: up to the first call that fails, a walk makes the calls of every walker
  that does the same where this one does not fail.

`calls_of_walk` puts these together.
-/

namespace QueryChain

/-! ## Calls -/

/-- The hooks of a walker. -/
inductive Hook where
  | before
  | after
deriving DecidableEq, Repr

/-- A call of a hook with a node, and the answer or the error that the hook gave. -/
inductive HookCall (ε : Type) where
  | before (node : Expr) (answer : Except ε (Option Expr))
  | after (node : Expr) (answer : Except ε (Outcome Expr))

namespace HookCall

variable {ε : Type}

/-- The hook that was called. -/
def hook : HookCall ε → Hook
  | .before _ _ => .before
  | .after _ _ => .after

/-- The node that a hook was called with. -/
def node : HookCall ε → Expr
  | .before node _ => node
  | .after node _ => node

/-- The error that a hook failed with. -/
def error? : HookCall ε → Option ε
  | .before _ (.error error) | .after _ (.error error) => some error
  | _ => none

/-- Whether a hook put another node in the place of its node. -/
def changes : HookCall ε → Bool
  | .before _ (.ok (some _)) | .after _ (.ok (.changed _)) => true
  | _ => false

/-- The node that the walk came to with a call. -/
def entered? : HookCall ε → Option Expr
  | .before node _ => some node
  | .after _ _ => none

end HookCall

/-! ## Recording calls -/

/-- A computation with state `σ` that may fail with an error of type `ε`, and the calls it makes. -/
structure Recorded (ε σ α : Type) where
  run : σ → EStateM.Result ε σ α × List (HookCall ε)

namespace Recorded

variable {ε σ α β : Type}

instance : Monad (Recorded ε σ) where
  pure a := ⟨fun s => (.ok a s, [])⟩
  bind x f := ⟨fun s =>
    match x.run s with
    | (.ok a s', calls) => (((f a).run s').1, calls ++ ((f a).run s').2)
    | (.error error s', calls) => (.error error s', calls)⟩

@[simp] theorem run_pure (a : α) (s : σ) : (pure a : Recorded ε σ α).run s = (.ok a s, []) :=
  rfl

theorem run_bind (x : Recorded ε σ α) (f : α → Recorded ε σ β) (s : σ) :
    (x >>= f).run s = match x.run s with
      | (.ok a s', calls) => (((f a).run s').1, calls ++ ((f a).run s').2)
      | (.error error s', calls) => (.error error s', calls) :=
  rfl

theorem eq_of_run {x y : Recorded ε σ α} (h : ∀ s, x.run s = y.run s) : x = y :=
  congrArg mk (funext h)

instance : LawfulMonad (Recorded ε σ) :=
  LawfulMonad.mk' _
    (fun x => eq_of_run fun s => by
      show (x >>= pure).run s = x.run s
      rw [run_bind]
      rcases x.run s with ⟨_ | _, calls⟩ <;> simp)
    (fun a f => eq_of_run fun s => by simp [run_bind])
    (fun x f g => eq_of_run fun s => by
      simp only [run_bind]
      rcases x.run s with ⟨⟨a, s'⟩ | ⟨error, s'⟩, calls⟩
      · simp only
        rcases (f a).run s' with ⟨_ | _, calls'⟩ <;> simp
      · rfl)

/-- One call: what the hook `x` does, noted with its answer. -/
def call (note : Except ε α → HookCall ε) (x : EStateM ε σ α) : Recorded ε σ α :=
  ⟨fun s =>
    match x.run s with
    | .ok a s' => (.ok a s', [note (.ok a)])
    | .error error s' => (.error error s', [note (.error error)])⟩

theorem run_call (note : Except ε α → HookCall ε) (x : EStateM ε σ α) (s : σ) :
    (call note x).run s = match x.run s with
      | .ok a s' => (.ok a s', [note (.ok a)])
      | .error error s' => (.error error s', [note (.error error)]) :=
  rfl

theorem run_bind_ok {x : Recorded ε σ α} {f : α → Recorded ε σ β} {b : β} {s s' : σ}
    {calls : List (HookCall ε)} :
    (x >>= f).run s = (.ok b s', calls)
      ↔ ∃ a s₁ first rest, x.run s = (.ok a s₁, first) ∧ (f a).run s₁ = (.ok b s', rest)
        ∧ calls = first ++ rest := by
  rw [run_bind]
  rcases x.run s with ⟨⟨a, s₁⟩ | ⟨error, s₁⟩, first⟩
  · constructor
    · intro h
      obtain ⟨hresult, hcalls⟩ := Prod.ext_iff.1 h
      exact ⟨a, s₁, first, ((f a).run s₁).2, rfl, Prod.ext hresult rfl, hcalls.symm⟩
    · rintro ⟨_, _, _, rest, ⟨⟩, hrest, rfl⟩
      simp [hrest]
  · simp

theorem run_pure_ok {a b : α} {s s' : σ} {calls : List (HookCall ε)} :
    (pure a : Recorded ε σ α).run s = (.ok b s', calls) ↔ a = b ∧ s = s' ∧ calls = [] := by
  rw [run_pure, Prod.mk.injEq, EStateM.Result.ok.injEq, and_assoc, eq_comm (a := [])]

theorem run_call_ok {note : Except ε α → HookCall ε} {x : EStateM ε σ α} {a : α} {s s' : σ}
    {calls : List (HookCall ε)} :
    (call note x).run s = (.ok a s', calls) ↔ x.run s = .ok a s' ∧ calls = [note (.ok a)] := by
  rw [run_call]
  cases x.run s with
  | ok b s₁ =>
    simp only [Prod.mk.injEq, EStateM.Result.ok.injEq]
    constructor
    · rintro ⟨⟨rfl, rfl⟩, rfl⟩
      exact ⟨⟨rfl, rfl⟩, rfl⟩
    · rintro ⟨⟨rfl, rfl⟩, rfl⟩
      exact ⟨⟨rfl, rfl⟩, rfl⟩
  | error error s₁ => simp

end Recorded

namespace Walker

variable {ε σ : Type}

/-- A walker that notes its calls and does the same otherwise. -/
def recorded (r : Walker (EStateM ε σ)) : Walker (Recorded ε σ) where
  before e := .call (.before e) (r.before e)
  after e := .call (.after e) (r.after e)

/-- The calls that a walk over `e` makes from the state `s` on, in order. -/
def calls (r : Walker (EStateM ε σ)) (e : Expr) (s : σ) : List (HookCall ε) :=
  ((e.walk r.recorded).run s).2

/-- A walker that goes on where `r` fails, and leaves the node there as it is. -/
def mended (r : Walker (EStateM ε σ)) : Walker (EStateM ε σ) where
  before e := tryCatch (r.before e) fun _ => pure none
  after e := tryCatch (r.after e) fun _ => pure (.unchanged e)

/-- A walker extends another one if it does the same wherever that one does not fail. -/
structure Extends (r' r : Walker (EStateM ε σ)) : Prop where
  before : ∀ {e s answer s'}, (r.before e).run s = .ok answer s' →
    (r'.before e).run s = .ok answer s'
  after : ∀ {e s o s'}, (r.after e).run s = .ok o s' → (r'.after e).run s = .ok o s'

theorem Extends.refl (r : Walker (EStateM ε σ)) : r.Extends r :=
  ⟨id, id⟩

theorem run_tryCatch_of_ok {α : Type} {x : EStateM ε σ α} {recover : ε → EStateM ε σ α} {a : α}
    {s s' : σ} (h : x.run s = .ok a s') : (tryCatch x recover).run s = .ok a s' := by
  show EStateM.tryCatch x recover s = _
  unfold EStateM.tryCatch
  rw [show x s = .ok a s' from h]

theorem mended_extends (r : Walker (EStateM ε σ)) : r.mended.Extends r :=
  ⟨run_tryCatch_of_ok, run_tryCatch_of_ok⟩

end Walker

namespace Recorded

variable {ε σ α β : Type}

/-- `x` does what `y` does, and notes its calls. -/
def Records (x : Recorded ε σ α) (y : EStateM ε σ α) : Prop :=
  ∀ s, (x.run s).1 = y.run s

theorem records_sequenced : Sequenced (fun α => Records (ε := ε) (σ := σ) (α := α)) where
  pure := fun _ _ => rfl
  bind := by
    intro α β x y f g hxy hfg s
    rw [run_bind, EStateM.run_bind, ← hxy s]
    rcases x.run s with ⟨⟨a, s'⟩ | ⟨error, s'⟩, calls⟩
    · exact hfg a s'
    · rfl

theorem call_records (note : Except ε α → HookCall ε) (x : EStateM ε σ α) :
    (call note x).Records x := by
  intro s
  rw [run_call]
  cases x.run s <;> rfl

/-- `x'` makes the calls that `x` makes. If none fails, it gives the same result. If `x` fails, then
with the error of its last call, the first that fails, and there `x'` makes the same call, whatever
the answer and the calls to come. -/
def Follows (x' x : Recorded ε σ α) : Prop :=
  ∀ s, match x.run s with
    | (.ok a s', calls) => (∀ c ∈ calls, c.error? = none) ∧ x'.run s = (.ok a s', calls)
    | (.error error _, calls) => ∃ made last, calls = made ++ [last]
      ∧ (∀ c ∈ made, c.error? = none) ∧ last.error? = some error
      ∧ ∃ last' rest, (x'.run s).2 = made ++ last' :: rest
        ∧ last'.hook = last.hook ∧ last'.node = last.node

/-- What is done after a computation has made calls only adds to them. -/
theorem calls_bind_prefix (x : Recorded ε σ α) (f : α → Recorded ε σ β) (s : σ) :
    (x.run s).2 <+: ((x >>= f).run s).2 := by
  rw [run_bind]
  rcases x.run s with ⟨⟨a, s'⟩ | ⟨error, s'⟩, calls⟩
  · exact List.prefix_append _ _
  · exact List.prefix_rfl

theorem follows_sequenced : Sequenced (fun α => Follows (ε := ε) (σ := σ) (α := α)) where
  pure := fun a s => ⟨by simp, rfl⟩
  bind := by
    intro α β x' x f' f hx hf s
    have hx := hx s
    have hprefix := calls_bind_prefix x' f' s
    rw [run_bind x f]
    split at hx
    · rename_i a s₁ first hxs
      obtain ⟨hfirst, hx's⟩ := hx
      have hf := hf a s₁
      simp only [run_bind, hx's]
      split at hf
      · rename_i b s₂ second hfs
        obtain ⟨hsecond, hf's⟩ := hf
        rw [hfs, hf's]
        exact ⟨List.forall_mem_append.2 ⟨hfirst, hsecond⟩, rfl⟩
      · rename_i error s₂ second hfs
        obtain ⟨made, last, rfl, hmade, hlast, last', rest, hcalls, hsame⟩ := hf
        rw [hfs, hcalls]
        exact ⟨first ++ made, last, by simp, List.forall_mem_append.2 ⟨hfirst, hmade⟩, hlast,
          last', rest, by simp, hsame⟩
    · rename_i error s₁ first hxs
      obtain ⟨made, last, rfl, hmade, hlast, last', rest, hcalls, hsame⟩ := hx
      obtain ⟨more, hmore⟩ := hprefix
      exact ⟨made, last, rfl, hmade, hlast, last', rest ++ more,
        by rw [← hmore, hcalls]; simp, hsame⟩

theorem call_follows {note : Except ε α → HookCall ε} {x' x : EStateM ε σ α}
    (hok : ∀ a, (note (.ok a)).error? = none)
    (herror : ∀ error, (note (.error error)).error? = some error)
    (hsame : ∀ a b, (note a).hook = (note b).hook ∧ (note a).node = (note b).node)
    (h : ∀ {s a s'}, x.run s = .ok a s' → x'.run s = .ok a s') :
    (call note x').Follows (call note x) := by
  intro s
  rw [run_call note x, run_call note x']
  cases hx : x.run s with
  | ok a s' =>
    rw [h hx]
    exact ⟨by simp [hok], rfl⟩
  | error error s' =>
    refine ⟨[], _, rfl, by simp, herror error, ?_⟩
    cases x'.run s with
    | ok a s' => exact ⟨_, [], rfl, hsame _ _⟩
    | error error' s' => exact ⟨_, [], rfl, hsame _ _⟩

end Recorded

/-! ## Tours -/

section

variable {ε σ : Type}

mutual

/-- The walker `r` makes the calls of a walk over a node, which ends with an outcome, and each call
finds the state that the call before it left. -/
inductive Tour (r : Walker (EStateM ε σ)) :
    Expr → σ → List (HookCall ε) → Outcome Expr → σ → Prop where
  /-- Below a node that is replaced no hook is called. -/
  | replaced {e d : Expr} {s s' : σ} :
    (r.before e).run s = .ok (some d) s' → Tour r e s [.before e (.ok (some d))] (.changed d) s'
  /-- The first call is made before those of the subterms, the second one after them, with what
  became of the node. -/
  | visited {e : Expr} {s s₁ s₂ s' : σ} {calls : List (HookCall ε)} {os : List (Outcome Expr)}
    {o : Outcome Expr} :
    (r.before e).run s = .ok none s₁ → Tours r e.subterms s₁ calls os s₂ →
      (r.after (e.rebuilt os).value).run s₂ = .ok o s' →
      Tour r e s (.before e (.ok none) :: (calls ++ [.after (e.rebuilt os).value (.ok o)]))
        (o.atop (e.rebuilt os)) s'

/-- The calls of walks over expressions, one after the other in the order they are written. -/
inductive Tours (r : Walker (EStateM ε σ)) :
    List Expr → σ → List (HookCall ε) → List (Outcome Expr) → σ → Prop where
  | nil {s : σ} : Tours r [] s [] [] s
  | cons {e : Expr} {es : List Expr} {s s₁ s' : σ} {calls calls' : List (HookCall ε)}
    {o : Outcome Expr} {os : List (Outcome Expr)} :
    Tour r e s calls o s₁ → Tours r es s₁ calls' os s' →
      Tours r (e :: es) s (calls ++ calls') (o :: os) s'

end

variable {r : Walker (EStateM ε σ)}

open Recorded

theorem tours_of_mapM {es : List Expr} {s s' : σ} {calls : List (HookCall ε)}
    {os : List (Outcome Expr)}
    (each : ∀ e ∈ es, ∀ {s calls o s'}, (e.walk r.recorded).run s = (.ok o s', calls) →
      Tour r e s calls o s')
    (h : (es.mapM (Expr.walk r.recorded)).run s = (.ok os s', calls)) :
    Tours r es s calls os s' := by
  induction es generalizing s calls os with
  | nil =>
    rw [List.mapM_nil] at h
    obtain ⟨rfl, rfl, rfl⟩ := run_pure_ok.1 h
    exact .nil
  | cons e es ih =>
    rw [List.forall_mem_cons] at each
    rw [List.mapM_cons] at h
    obtain ⟨o, s₁, first, rest, ho, hrest, rfl⟩ := run_bind_ok.1 h
    obtain ⟨os, s₂, second, rest, hos, hpure, rfl⟩ := run_bind_ok.1 hrest
    obtain ⟨rfl, rfl, rfl⟩ := run_pure_ok.1 hpure
    simpa using Tours.cons (each.1 ho) (ih each.2 hos)

/-- A walk that does not fail is a tour. -/
theorem tour_of_walk {e : Expr} {s s' : σ} {calls : List (HookCall ε)} {o : Outcome Expr}
    (h : (e.walk r.recorded).run s = (.ok o s', calls)) : Tour r e s calls o s' := by
  induction e using Expr.subterms_induction generalizing s calls o s' with
  | node e ih =>
    rw [Expr.walk_eq] at h
    obtain ⟨answer, s₁, _, rest, hcall, hrest, rfl⟩ := run_bind_ok.1 h
    obtain ⟨hbefore, rfl⟩ := run_call_ok.1 hcall
    cases answer with
    | some d =>
      obtain ⟨rfl, rfl, rfl⟩ := run_pure_ok.1 hrest
      exact .replaced hbefore
    | none =>
      obtain ⟨os, s₂, calls, _, hos, hlast, rfl⟩ := run_bind_ok.1 hrest
      obtain ⟨o, s₃, _, _, hcall, hpure, rfl⟩ := run_bind_ok.1 hlast
      obtain ⟨hafter, rfl⟩ := run_call_ok.1 hcall
      obtain ⟨rfl, rfl, rfl⟩ := run_pure_ok.1 hpure
      exact .visited hbefore (tours_of_mapM (fun c hc => ih c hc) hos) hafter

/-! ## The order of calls -/

theorem Tours.entered_sublist {es : List Expr} {s s' : σ} {calls : List (HookCall ε)}
    {os : List (Outcome Expr)} (each : ∀ e ∈ es, ∀ {s calls o s'}, Tour r e s calls o s' →
      (calls.filterMap HookCall.entered?).Sublist e.parts)
    (h : Tours r es s calls os s') :
    (calls.filterMap HookCall.entered?).Sublist (es.flatMap Expr.parts) := by
  induction es generalizing s calls os with
  | nil =>
    cases h
    exact .slnil
  | cons e es ih =>
    rw [List.forall_mem_cons] at each
    cases h with
    | cons hfirst hrest =>
      rw [List.filterMap_append, List.flatMap_cons]
      exact (each.1 hfirst).append (ih each.2 hrest)

/-- A tour comes to each part at most once, and to a part before those that stand in it. -/
theorem Tour.entered_sublist {e : Expr} {s s' : σ} {calls : List (HookCall ε)} {o : Outcome Expr}
    (h : Tour r e s calls o s') : (calls.filterMap HookCall.entered?).Sublist e.parts := by
  induction e using Expr.subterms_induction generalizing s calls o s' with
  | node e ih =>
    rw [Expr.parts_eq]
    cases h with
    | replaced => exact List.Sublist.cons_cons e (List.nil_sublist _)
    | visited _ htours =>
      have hbelow := htours.entered_sublist fun c hc => ih c hc
      simpa [List.filterMap_cons, HookCall.entered?] using hbelow

theorem recorded_records (r : Walker (EStateM ε σ)) (e : Expr) :
    (e.walk r.recorded).Records (e.walk r) :=
  records_sequenced.walk (fun _ => call_records _ _) (fun _ => call_records _ _) e

theorem Walker.Extends.follows {r' : Walker (EStateM ε σ)} (h : r'.Extends r) (e : Expr) :
    (e.walk r'.recorded).Follows (e.walk r.recorded) := by
  refine follows_sequenced.walk (fun e => ?_) (fun e => ?_) e
  · exact call_follows (fun _ => rfl) (fun _ => rfl) (fun _ _ => ⟨rfl, rfl⟩) h.before
  · exact call_follows (fun _ => rfl) (fun _ => rfl) (fun _ _ => ⟨rfl, rfl⟩) h.after

/-- Whatever a walker does, a walk makes its calls in the order of a tour. If one of them fails, the
walk fails with its error, and the calls up to there are those of any walker that does the same as
long as this one does not fail. -/
theorem calls_of_walk (r : Walker (EStateM ε σ)) (e : Expr) (s : σ) :
    ((e.walk r.recorded).run s).1 = (e.walk r).run s
      ∧ (∀ o s', (e.walk r).run s = .ok o s' →
        Tour r e s (r.calls e s) o s' ∧ ((r.calls e s).filterMap HookCall.entered?).Sublist e.parts)
      ∧ ∀ error s', (e.walk r).run s = .error error s' →
        ∃ made last, r.calls e s = made ++ [last] ∧ (∀ c ∈ made, c.error? = none)
          ∧ last.error? = some error
          ∧ ∀ r' : Walker (EStateM ε σ), r'.Extends r → ∃ last' rest,
            r'.calls e s = made ++ last' :: rest
              ∧ last'.hook = last.hook ∧ last'.node = last.node := by
  have hrecords := recorded_records r e s
  refine ⟨hrecords, fun o s' hok => ?_, fun error s' herror => ?_⟩
  · have htour : Tour r e s (r.calls e s) o s' := tour_of_walk (Prod.ext (hrecords.trans hok) rfl)
    exact ⟨htour, htour.entered_sublist⟩
  · have hrun : (e.walk r.recorded).run s = (.error error s', r.calls e s) :=
      Prod.ext (hrecords.trans herror) rfl
    have hfollows {r' : Walker (EStateM ε σ)} (h : r'.Extends r) := h.follows e s
    simp only [hrun] at hfollows
    obtain ⟨made, last, hcalls, hmade, hlast, -⟩ := hfollows (.refl r)
    refine ⟨made, last, hcalls, hmade, hlast, fun r' hr' => ?_⟩
    obtain ⟨made', last', hcalls', -, -, hsame⟩ := hfollows hr'
    obtain ⟨rfl, hlast'⟩ := List.append_inj' (hcalls.symm.trans hcalls') rfl
    cases hlast'
    exact hsame

end

/-- Counts the nodes it comes to, puts null in the place of static calls, and fails at the parameter
`y`. -/
def surveyor : Walker (EStateM String Nat) where
  before e := do
    modify (· + 1)
    match e with
    | .staticCall _ _ _ => return some (.ofConstant .null)
    | .parameter p => if p.name = "y" then throw p.name else return none
    | _ => return none
  after e := pure (.unchanged e)

/-- `Count(xs) + x * y`: the call is replaced with what stands in it, and the walk fails at the
fifth node that it comes to. -/
theorem calls_of_walk_surveyor :
    let x := Expr.parameter { name := "x", type := "Int32" }
    let y := Expr.parameter { name := "y", type := "Int32" }
    let e := Expr.operation .add (.staticCall "Count" [.table "xs" "Int32"] "Int32")
      (.operation .multiply x y)
    (e.walk surveyor).run 0 = .error "y" 5
      ∧ ∃ made last, surveyor.calls e 0 = made ++ [last] ∧ (∀ c ∈ made, c.error? = none)
        ∧ last.error? = some "y" ∧ ∃ last' rest,
          surveyor.mended.calls e 0 = made ++ last' :: rest
            ∧ last'.hook = last.hook ∧ last'.node = last.node := by
  intro x y e
  obtain ⟨-, -, hfails⟩ := calls_of_walk surveyor e 0
  obtain ⟨made, last, hcalls, hmade, hlast, hextends⟩ := hfails "y" 5 rfl
  exact ⟨rfl, made, last, hcalls, hmade, hlast, hextends _ surveyor.mended_extends⟩

end QueryChain
