import QueryChain.Proofs.Expr.Parts
import QueryChain.Proofs.Json.Constants

/-!
# Reading expressions back

`Expr.Written e v`: `v` is the written form of `e`, and is read as `e` again. There is one lemma for
each kind of node, from the same of the expressions in it.

`Expr.jsonText?_restores`: an expression is read back from its JSON text, so no two expressions have
the same text. It is the same expression down to the types of its members, which comparing
expressions leaves out. Assumed is that no query is embedded in it, that its doubles are finite and
read back from their numerals, and that the text is not too deep to be read.
-/

namespace QueryChain

open JsonValue (ofText ofFields depth_array_le depth_ofFields_le mapM_map_eq_some get? getText?
  lookup? readArray? readName? alternative?_ofFields fields?_ofFields)

/-! ## Names, members and parameters -/

@[simp] theorem UnaryOp.lookup_name (op : UnaryOp) : UnaryOp.names.lookup op.name = some op := by
  cases op <;> rfl

@[simp] theorem BinaryOp.lookup_name (op : BinaryOp) :
    BinaryOp.names.lookup op.name = some op := by
  cases op <;> rfl

namespace JsonValue

@[simp] theorem text?_ofText (s : String) : (ofText s).text? = some s :=
  rfl

@[simp] theorem readName?_ofText (room : Nat) (name : String) :
    readName? room (ofText name) = some name :=
  rfl

/-- Items are read back where each of them is. -/
theorem readArray?_map {α : Type} {read : Nat → JsonValue → Option α} {write : α → JsonValue}
    (h : ∀ a {room}, (write a).depth ≤ room → read room (write a) = some a) {as : List α}
    {room : Nat} (hroom : (array (as.map write)).depth ≤ room) :
    readArray? room (array (as.map write)) read = some as := by
  obtain ⟨room, rfl, hinner⟩ := depth_array_le hroom
  rw [List.forall_mem_map] at hinner
  exact mapM_map_eq_some fun a ha => h a (hinner a ha)

end JsonValue

@[simp] theorem Member.wellFormed_toJson (m : Member) : m.toJson.WellFormed := by
  simp [toJson]

@[simp] theorem Parameter.wellFormed_toJson (p : Parameter) : p.toJson.WellFormed := by
  simp [toJson]

theorem Member.ofJson?_toJson (m : Member) {room : Nat} (hroom : m.toJson.depth ≤ room) :
    Member.ofJson? room m.toJson = some m := by
  obtain ⟨room, rfl, -⟩ := depth_ofFields_le hroom
  rfl

theorem Parameter.ofJson?_toJson (p : Parameter) {room : Nat} (hroom : p.toJson.depth ≤ room) :
    Parameter.ofJson? room p.toJson = some p := by
  obtain ⟨room, rfl, -⟩ := depth_ofFields_le hroom
  rfl

namespace Expr

variable {e : Expr} {es : List Expr} {v : JsonValue} {vs : List JsonValue}

/-- The readers for the parts of a node. -/
def readers (room : Nat) : PartReaders :=
  partReaders room (ofJson? room) (ofJson? (room - 1)) (ofJson? (room - 2))

@[simp] theorem readers_one (room : Nat) : (readers room).one = ofJson? room :=
  rfl

theorem ofJson?_add_two (room : Nat) : ofJson? (room + 2) = node? room (readers room) :=
  match room with
  | 0 | 1 | _ + 2 => rfl

/-! ## Written forms -/

/-- `v` is the written form of `e`. It has a text, and is read as `e` where there is room for it. -/
structure Written (e : Expr) (v : JsonValue) : Prop where
  toJson? : e.toJson? = some v
  wellFormed : v.WellFormed
  ofJson? : ∀ {room}, v.depth ≤ room → ofJson? room v = some e

/-- `vs` are the written forms of `es`. -/
structure WrittenAll (es : List Expr) (vs : List JsonValue) : Prop where
  toJsonAll? : toJsonAll? es = some vs
  wellFormed : ∀ v ∈ vs, v.WellFormed
  mapM_ofJson? : ∀ {room}, (∀ v ∈ vs, v.depth ≤ room) → vs.mapM (ofJson? room) = some es

/-- `vs` are the written forms of the values `bs` given to members. Each is a record, so they stand
where at least one more object may be opened. -/
structure WrittenBindings (bs : List (Member × Expr)) (vs : List JsonValue) : Prop where
  toJsonBindings? : toJsonBindings? bs = some vs
  wellFormed : ∀ v ∈ vs, v.WellFormed
  depth_pos : ∀ v ∈ vs, 0 < v.depth
  mapM_binding? : ∀ {room}, (∀ v ∈ vs, v.depth ≤ room + 1) →
    vs.mapM (binding? room (ofJson? room)) = some bs

/-- An expression is written as an object, where a missing part would be null. -/
theorem Written.eq_object (h : Written e v) : ∃ fields, v = .object fields := by
  have hread := h.ofJson? (Nat.le_add_right v.depth 2)
  rw [ofJson?_add_two] at hread
  cases v with
  | object fields => exact ⟨fields, rfl⟩
  | string s => cases s <;> cases hread
  | null | bool | number | array => cases hread

/-- A node is written and read back if it is so from the fields of its record. -/
theorem exists_written {kind : String} {fields : List (String × JsonValue)}
    (hwrite : e.toJson? = some (ofFields [(kind, ofFields fields)]))
    (hwell : ∀ field ∈ fields, field.2.WellFormed)
    (hread : ∀ room, (∀ field ∈ fields, field.2.depth ≤ room) →
      nodeOfFields? room (readers room) kind fields = some e) :
    ∃ v, Written e v := by
  refine ⟨_, hwrite, by simpa using hwell, fun hroom => ?_⟩
  obtain ⟨room, rfl, hinner⟩ := depth_ofFields_le hroom
  obtain ⟨room, rfl, hfields⟩ := depth_ofFields_le (hinner _ List.mem_cons_self)
  rw [ofJson?_add_two, node?, alternative?_ofFields]
  simp [hread room hfields]

/-! ## Lists of parts -/

theorem exists_writtenAll (each : ∀ e ∈ es, ∃ v, Written e v) : ∃ vs, WrittenAll es vs := by
  induction es with
  | nil => exact ⟨[], rfl, by simp, fun _ => rfl⟩
  | cons e es ih =>
    rw [List.forall_mem_cons] at each
    obtain ⟨v, hv⟩ := each.1
    obtain ⟨vs, hvs⟩ := ih each.2
    refine ⟨v :: vs, ?_, List.forall_mem_cons.2 ⟨hv.wellFormed, hvs.wellFormed⟩, fun hroom => ?_⟩
    · rw [toJsonAll?, hv.toJson?, hvs.toJsonAll?]
      rfl
    · rw [List.forall_mem_cons] at hroom
      rw [List.mapM_cons, hv.ofJson? hroom.1, hvs.mapM_ofJson? hroom.2]
      rfl

theorem Written.binding? (h : Written e v) (m : Member) {room : Nat}
    (hroom : (ofFields [("member", m.toJson), ("expression", v)]).depth ≤ room + 1) :
    binding? room (Expr.ofJson? room) (ofFields [("member", m.toJson), ("expression", v)])
      = some (m, e) := by
  obtain ⟨room, hsucc, hinner⟩ := depth_ofFields_le hroom
  cases hsucc
  simp only [List.forall_mem_cons] at hinner
  simp [Expr.binding?, get?, lookup?, m.ofJson?_toJson hinner.1, h.ofJson? hinner.2.1]

theorem exists_writtenBindings {bs : List (Member × Expr)}
    (each : ∀ b ∈ bs, ∃ v, Written b.2 v) : ∃ vs, WrittenBindings bs vs := by
  induction bs with
  | nil => exact ⟨[], rfl, by simp, by simp, fun _ => rfl⟩
  | cons b bs ih =>
    obtain ⟨m, e⟩ := b
    rw [List.forall_mem_cons] at each
    obtain ⟨v, hv⟩ := each.1
    obtain ⟨vs, hvs⟩ := ih each.2
    refine ⟨ofFields [("member", m.toJson), ("expression", v)] :: vs, ?_, ?_, ?_, fun hroom => ?_⟩
    · rw [toJsonBindings?, hv.toJson?, hvs.toJsonBindings?]
      rfl
    · exact List.forall_mem_cons.2 ⟨by simp [hv.wellFormed], hvs.wellFormed⟩
    · exact List.forall_mem_cons.2 ⟨Nat.succ_pos _, hvs.depth_pos⟩
    · rw [List.forall_mem_cons] at hroom
      rw [List.mapM_cons, hv.binding? m hroom.1, hvs.mapM_binding? hroom.2]
      rfl

theorem WrittenAll.readers_all (h : WrittenAll es vs) {room : Nat}
    (hroom : (JsonValue.array vs).depth ≤ room) : (readers room).all (.array vs) = some es := by
  obtain ⟨room, rfl, hinner⟩ := depth_array_le hroom
  exact h.mapM_ofJson? hinner

theorem WrittenBindings.readers_bindings {bs : List (Member × Expr)} (h : WrittenBindings bs vs)
    {room : Nat} (hroom : (JsonValue.array vs).depth ≤ room) :
    (readers room).bindings (.array vs) = some bs := by
  obtain ⟨room, rfl, hinner⟩ := depth_array_le hroom
  match room, vs with
  | 0, [] =>
    have hread : [].mapM (binding? 0 (ofJson? 0)) = some bs := h.mapM_binding? (by simp)
    exact hread
  | 0, v :: vs =>
    have := hinner v List.mem_cons_self
    have := h.depth_pos v List.mem_cons_self
    omega
  | room + 1, vs => exact h.mapM_binding? hinner

theorem construction?_newJson {room : Nat} {readAll : JsonValue → Option (List Expr)}
    (type : String) (members : List Member) (hall : readAll (.array vs) = some es)
    (hmembers : (JsonValue.array (members.map Member.toJson)).depth ≤ room) :
    construction? room readAll [("type_name", ofText type), ("arguments", .array vs),
      ("members", .array (members.map Member.toJson))] = some (type, es, members) := by
  simp [Expr.construction?, get?, lookup?, getText?, hall,
    JsonValue.readArray?_map Member.ofJson?_toJson hmembers]

theorem WrittenAll.readers_construction (h : WrittenAll es vs) (type : String)
    (members : List Member) {room : Nat} (hroom : (newJson type vs members).depth ≤ room) :
    (readers room).construction (newJson type vs members) = some (type, es, members) := by
  obtain ⟨room, rfl, hinner⟩ := depth_ofFields_le hroom
  simp only [List.forall_mem_cons] at hinner
  obtain ⟨-, harguments, hmembers, -⟩ := hinner
  obtain ⟨room, rfl, hvs⟩ := depth_array_le harguments
  exact construction?_newJson type members (h.mapM_ofJson? hvs) hmembers

theorem WrittenAll.wellFormed_newJson (h : WrittenAll es vs) (type : String)
    (members : List Member) : (newJson type vs members).WellFormed := by
  simpa [newJson] using h.wellFormed

/-! ## Kinds of nodes -/

section Kinds

attribute [local simp] toJson? nodeOfFields? get? lookup? getText?

theorem written_constant {value : Constant} (h : value.Restorable) (type : String) :
    ∃ v, Written (constant value type) v := by
  refine exists_written rfl (by simp [h.wellFormed]) fun room hroom => ?_
  simp only [List.forall_mem_cons] at hroom
  simp [h.ofJson?_toJson hroom.1]

theorem written_parameter (p : Parameter) : ∃ v, Written (parameter p) v :=
  exists_written rfl (by simp) fun _ _ => rfl

theorem written_staticMember (m : Member) : ∃ v, Written (staticMember m) v := by
  refine exists_written rfl (by simp) fun room hroom => ?_
  simp only [List.forall_mem_cons] at hroom
  simp [m.ofJson?_toJson hroom.2.1]

theorem Written.member (h : Written e v) (m : Member) : ∃ v, Written (member e m) v := by
  refine exists_written (by rw [Expr.toJson?, h.toJson?]; rfl) (by simp [h.wellFormed])
    fun room hroom => ?_
  simp only [List.forall_mem_cons] at hroom
  obtain ⟨object, rfl⟩ := h.eq_object
  simp [m.ofJson?_toJson hroom.2.1, h.ofJson? hroom.1]

theorem WrittenAll.staticCall (h : WrittenAll es vs) (method type : String) :
    ∃ v, Written (staticCall method es type) v := by
  refine exists_written (by rw [toJson?, h.toJsonAll?]; rfl) (by simpa using h.wellFormed)
    fun room hroom => ?_
  simp only [List.forall_mem_cons] at hroom
  simp [h.readers_all hroom.2.2.1]

theorem Written.call (h : Written e v) (hs : WrittenAll es vs) (method type : String) :
    ∃ v, Written (call e method es type) v := by
  refine exists_written (by rw [Expr.toJson?, h.toJson?, hs.toJsonAll?]; rfl)
    (by simpa [h.wellFormed] using hs.wellFormed) fun room hroom => ?_
  simp only [List.forall_mem_cons] at hroom
  obtain ⟨object, rfl⟩ := h.eq_object
  simp [h.ofJson? hroom.1, hs.readers_all hroom.2.2.1]

theorem Written.unary (h : Written e v) (op : UnaryOp) (type : String) :
    ∃ v, Written (unary op e type) v := by
  refine exists_written (by rw [Expr.toJson?, h.toJson?]; rfl) (by simp [h.wellFormed])
    fun room hroom => ?_
  simp only [List.forall_mem_cons] at hroom
  simp [h.ofJson? hroom.2.1]

theorem Written.binary {f : Expr} {w : JsonValue} (h : Written e v) (hf : Written f w)
    (op : BinaryOp) (type : String) : ∃ v, Written (binary op e f type) v := by
  refine exists_written (by rw [Expr.toJson?, h.toJson?, hf.toJson?]; rfl)
    (by simp [h.wellFormed, hf.wellFormed]) fun room hroom => ?_
  simp only [List.forall_mem_cons] at hroom
  simp [h.ofJson? hroom.2.1, hf.ofJson? hroom.2.2.1]

theorem Written.lambda (h : Written e v) (parameters : List Parameter) :
    ∃ v, Written (lambda parameters e) v := by
  refine exists_written (by rw [Expr.toJson?, h.toJson?]; rfl) (by simp [h.wellFormed])
    fun room hroom => ?_
  simp only [List.forall_mem_cons] at hroom
  simp [h.ofJson? hroom.2.1, JsonValue.readArray?_map Parameter.ofJson?_toJson hroom.1]

theorem WrittenAll.new (h : WrittenAll es vs) (type : String) (members : List Member) :
    ∃ v, Written (new type es members) v := by
  refine exists_written (by rw [toJson?, h.toJsonAll?]; rfl) (by simpa using h.wellFormed)
    fun room hroom => ?_
  simp only [List.forall_mem_cons] at hroom
  simp [construction?_newJson type members (h.readers_all hroom.2.1) hroom.2.2.1]

theorem WrittenAll.newArray (h : WrittenAll es vs) (elementType : String) :
    ∃ v, Written (newArray elementType es) v := by
  refine exists_written (by rw [toJson?, h.toJsonAll?]; rfl) (by simpa using h.wellFormed)
    fun room hroom => ?_
  simp only [List.forall_mem_cons] at hroom
  simp [h.readers_all hroom.2.1]

theorem WrittenAll.memberInit {bs : List (Member × Expr)} {ws : List JsonValue}
    (h : WrittenAll es vs) (hbs : WrittenBindings bs ws) (type : String) (members : List Member) :
    ∃ v, Written (memberInit type es members bs) v := by
  refine exists_written (by rw [toJson?, h.toJsonAll?, hbs.toJsonBindings?]; rfl)
    (by simpa [h.wellFormed_newJson] using hbs.wellFormed) fun room hroom => ?_
  simp only [List.forall_mem_cons] at hroom
  simp [h.readers_construction type members hroom.1, hbs.readers_bindings hroom.2.1]

theorem WrittenAll.listInit {fs : List Expr} {ws : List JsonValue} (h : WrittenAll es vs)
    (hfs : WrittenAll fs ws) (type : String) (members : List Member) :
    ∃ v, Written (listInit type es members fs) v := by
  refine exists_written (by rw [toJson?, h.toJsonAll?, hfs.toJsonAll?]; rfl)
    (by simpa [h.wellFormed_newJson] using hfs.wellFormed) fun room hroom => ?_
  simp only [List.forall_mem_cons] at hroom
  simp [h.readers_construction type members hroom.1, hfs.readers_all hroom.2.1]

theorem Written.conditional {f g : Expr} {w x : JsonValue} (h : Written e v) (hf : Written f w)
    (hg : Written g x) : ∃ v, Written (conditional e f g) v := by
  refine exists_written (by rw [Expr.toJson?, h.toJson?, hf.toJson?, hg.toJson?]; rfl)
    (by simp [h.wellFormed, hf.wellFormed, hg.wellFormed]) fun room hroom => ?_
  simp only [List.forall_mem_cons] at hroom
  simp [h.ofJson? hroom.1, hf.ofJson? hroom.2.1, hg.ofJson? hroom.2.2.1]

theorem Written.typeIs (h : Written e v) (type : String) : ∃ v, Written (typeIs e type) v := by
  refine exists_written (by rw [Expr.toJson?, h.toJson?]; rfl) (by simp [h.wellFormed])
    fun room hroom => ?_
  simp only [List.forall_mem_cons] at hroom
  simp [h.ofJson? hroom.1]

theorem Written.invoke (h : Written e v) (hs : WrittenAll es vs) :
    ∃ v, Written (invoke e es) v := by
  refine exists_written (by rw [Expr.toJson?, h.toJson?, hs.toJsonAll?]; rfl)
    (by simpa [h.wellFormed] using hs.wellFormed) fun room hroom => ?_
  simp only [List.forall_mem_cons] at hroom
  simp [h.ofJson? hroom.1, hs.readers_all hroom.2.1]

end Kinds

/-! ## Expressions -/

/-- No query is embedded in an expression, its constants are read back, and its written form is no
deeper than what is read. -/
structure Restorable (e : Expr) : Prop where
  refs : e.refs = []
  constants : ∀ value type, constant value type ∈ e.parts → value.Restorable
  depth : ∀ v, e.toJson? = some v → v.depth ≤ JsonValue.maxDepth

/-- An expression is written, and read back, if the constants in it are read back and no query is
embedded in it. -/
theorem exists_written_of_constants (hrefs : e.refs = [])
    (hconstants : ∀ value type, constant value type ∈ e.parts → value.Restorable) :
    ∃ v, Written e v := by
  induction e using subterms_induction with
  | node e ih =>
    -- What stands in the expression holds no query and no other constants either.
    have each : ∀ c ∈ e.subterms, ∃ v, Written c v := by
      intro c hc
      rw [refs_eq, List.append_eq_nil_iff, List.flatMap_eq_nil_iff] at hrefs
      exact ih c hc (hrefs.2 c hc) fun value type h =>
        hconstants value type (mem_parts_of_subterm hc h)
    cases e with
    | constant value type => exact written_constant (hconstants value type (mem_parts_self _)) type
    | parameter p => exact written_parameter p
    | staticMember m => exact written_staticMember m
    | subQuery query =>
      rw [refs_eq] at hrefs
      cases hrefs
    | staticCall method arguments type =>
      obtain ⟨vs, hvs⟩ := exists_writtenAll each
      exact hvs.staticCall method type
    | new type arguments members =>
      obtain ⟨vs, hvs⟩ := exists_writtenAll each
      exact hvs.new type members
    | newArray elementType elements =>
      obtain ⟨vs, hvs⟩ := exists_writtenAll each
      exact hvs.newArray elementType
    | member object m =>
      obtain ⟨v, hv⟩ := List.forall_mem_singleton.1 each
      exact hv.member m
    | unary op operand type =>
      obtain ⟨v, hv⟩ := List.forall_mem_singleton.1 each
      exact hv.unary op type
    | lambda parameters body =>
      obtain ⟨v, hv⟩ := List.forall_mem_singleton.1 each
      exact hv.lambda parameters
    | typeIs operand type =>
      obtain ⟨v, hv⟩ := List.forall_mem_singleton.1 each
      exact hv.typeIs type
    | binary op left right type =>
      simp only [subterms, List.forall_mem_cons] at each
      obtain ⟨⟨v, hv⟩, ⟨w, hw⟩, -⟩ := each
      exact hv.binary hw op type
    | conditional test ifTrue ifFalse =>
      simp only [subterms, List.forall_mem_cons] at each
      obtain ⟨⟨v, hv⟩, ⟨w, hw⟩, ⟨x, hx⟩, -⟩ := each
      exact hv.conditional hw hx
    | call object method arguments type =>
      obtain ⟨⟨v, hv⟩, hall⟩ := List.forall_mem_cons.1 each
      obtain ⟨vs, hvs⟩ := exists_writtenAll hall
      exact hv.call hvs method type
    | invoke function arguments =>
      obtain ⟨⟨v, hv⟩, hall⟩ := List.forall_mem_cons.1 each
      obtain ⟨vs, hvs⟩ := exists_writtenAll hall
      exact hv.invoke hvs
    | memberInit type arguments members bindings =>
      obtain ⟨harguments, hbindings⟩ := List.forall_mem_append.1 each
      rw [List.forall_mem_map] at hbindings
      obtain ⟨vs, hvs⟩ := exists_writtenAll harguments
      obtain ⟨ws, hws⟩ := exists_writtenBindings hbindings
      exact hvs.memberInit hws type members
    | listInit type arguments members elements =>
      obtain ⟨harguments, helements⟩ := List.forall_mem_append.1 each
      obtain ⟨vs, hvs⟩ := exists_writtenAll harguments
      obtain ⟨ws, hws⟩ := exists_writtenAll helements
      exact hvs.listInit hws type members

theorem Restorable.ofJsonText? (h : e.Restorable) :
    ∃ s, e.jsonText? = some s ∧ ofJsonText? s = some e := by
  obtain ⟨v, hv⟩ := exists_written_of_constants h.refs h.constants
  refine ⟨v.text, by rw [jsonText?, hv.toJson?, Option.map_some], ?_⟩
  rw [Expr.ofJsonText?, hv.wellFormed.read?_text, Option.bind_some]
  exact hv.ofJson? (h.depth v hv.toJson?)

/-- An expression without queries has a JSON text, which is read as this expression and is no other
expression's text. -/
theorem jsonText?_restores (h : e.Restorable) :
    ∃ s, e.jsonText? = some s ∧ ofJsonText? s = some e ∧
      ∀ other : Expr, other.Restorable → other.jsonText? = some s → other = e := by
  obtain ⟨s, hwrite, hread⟩ := h.ofJsonText?
  refine ⟨s, hwrite, hread, fun other hother hsame => ?_⟩
  obtain ⟨t, hwrite', hread'⟩ := hother.ofJsonText?
  obtain rfl : t = s := Option.some.inj (hwrite'.symm.trans hsame)
  exact Option.some.inj (hread'.symm.trans hread)

/-- Whether the grade of a subject is above a captured bound. -/
def aboveBound : Expr :=
  .lambda [{ name := "s", type := "Subject" }] (.binary .greaterThan
    (.member (.parameter { name := "s", type := "Subject" })
      { declaringType := "Subject", name := "Grade", type := "Double" })
    (.member (.constant (.record [("bound", .float 0.5), ("note", .string "a \"pass\"")]) "Closure")
      { declaringType := "Closure", name := "bound", type := "Double" }) "Boolean")

theorem restorable_aboveBound : aboveBound.Restorable where
  refs := by simp [aboveBound, refs_eq, subterms, query?]
  constants value type h := by
    simp only [aboveBound, parts_eq, subterms, List.flatMap_cons, List.flatMap_nil,
      List.append_nil, List.cons_append, List.nil_append, List.mem_cons, reduceCtorEq,
      constant.injEq, List.not_mem_nil, or_false, false_or] at h
    rw [h.1]
    refine .record (List.pairwise_pair.2 (by decide)) ?_
    simp only [List.forall_mem_cons]
    refine ⟨.float ⟨rfl, ?_⟩, .string _, by simp⟩
    rintro n ⟨⟩
    rfl
  depth v h := by
    cases h
    decide

theorem jsonText?_restores_aboveBound :
    aboveBound.Restorable ∧ ∃ s, aboveBound.jsonText? = some s ∧ ofJsonText? s = some aboveBound ∧
      ∀ other : Expr, other.Restorable → other.jsonText? = some s → other = aboveBound :=
  ⟨restorable_aboveBound, jsonText?_restores restorable_aboveBound⟩

end Expr

end QueryChain
