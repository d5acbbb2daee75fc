import QueryChain.Expr.Json
import QueryChain.Proofs.Json.Numerals

/-!
# Reading constants back

Readers count how many arrays and objects may still be opened. A value is read where there is room
for as many as stand inside each other in it (`JsonValue.depth`).

`Constant.Restorable.ofJson?_toJson`: a constant is read back from its written form, if its doubles
are read back from their numerals and its closures have their names in order.
-/

namespace QueryChain

open JsonValue (ofText ofFields)

/-! ## Maps -/

namespace NameMap

variable {α : Type}

/-- A name beyond all others is put at the end. -/
theorem insert_last {map : NameMap α} {name : String} (h : ∀ pair ∈ map, pair.1 < name)
    (value : α) : map.insert name value = map ++ [(name, value)] := by
  induction map with
  | nil => rfl
  | cons pair map ih =>
    rw [List.forall_mem_cons] at h
    have hne : pair.1 ≠ name := by
      rintro rfl
      exact String.lt_irrefl _ h.1
    rw [insert, if_neg hne, if_neg (String.lt_asymm h.1), ih h.2, List.cons_append]

theorem foldl_insert (before after : NameMap α) (h : Ascending (before ++ after)) :
    after.foldl (fun map pair => map.insert pair.1 pair.2) before = before ++ after := by
  induction after generalizing before with
  | nil => simp
  | cons pair after ih =>
    have hlast : ∀ other ∈ before, other.1 < pair.1 := fun other hother =>
      (List.pairwise_append.1 h).2.2 other hother pair List.mem_cons_self
    rw [List.foldl_cons, insert_last hlast, ih _ (by simpa using h)]
    simp

/-- A list in ascending order is a map as it is. -/
theorem Ascending.ofList_eq {map : NameMap α} (h : map.Ascending) : ofList map = map :=
  foldl_insert [] map h

end NameMap

namespace JsonValue

/-! ## Depth -/

mutual

/-- How many arrays and objects stand inside each other in a value. -/
def depth : JsonValue → Nat
  | .array items => depthAll items + 1
  | .object fields => depthFields fields + 1
  | _ => 0
termination_by structural v => v

/-- The depth of the deepest of some values. -/
def depthAll : List JsonValue → Nat
  | [] => 0
  | v :: vs => max (depth v) (depthAll vs)
termination_by structural vs => vs

/-- The depth of the deepest value of some fields. -/
def depthFields : List (Option String × JsonValue) → Nat
  | [] => 0
  | (_, v) :: fields => max (depth v) (depthFields fields)
termination_by structural fields => fields

end

theorem depthAll_le {vs : List JsonValue} {room : Nat} :
    depthAll vs ≤ room ↔ ∀ v ∈ vs, v.depth ≤ room := by
  induction vs with
  | nil => simp [depthAll]
  | cons v vs ih => rw [depthAll, Nat.max_le, ih, List.forall_mem_cons]

theorem depthFields_le {fields : List (Option String × JsonValue)} {room : Nat} :
    depthFields fields ≤ room ↔ ∀ f ∈ fields, f.2.depth ≤ room := by
  induction fields with
  | nil => simp [depthFields]
  | cons f fields ih => rw [depthFields, Nat.max_le, ih, List.forall_mem_cons]

/-- Where an array is read, there is room inside it for its items. -/
theorem depth_array_le {items : List JsonValue} {room : Nat} (h : (array items).depth ≤ room) :
    ∃ inner, room = inner + 1 ∧ ∀ v ∈ items, v.depth ≤ inner := by
  rw [depth] at h
  exact ⟨room - 1, by omega, depthAll_le.1 (by omega)⟩

/-- Where a record is read, there is room inside it for its fields. -/
theorem depth_ofFields_le {fields : List (String × JsonValue)} {room : Nat}
    (h : (ofFields fields).depth ≤ room) :
    ∃ inner, room = inner + 1 ∧ ∀ field ∈ fields, field.2.depth ≤ inner := by
  rw [ofFields, depth] at h
  have hfields := depthFields_le.1 (Nat.le_sub_one_of_lt h)
  exact ⟨room - 1, by omega, List.forall_mem_map.1 hfields⟩

/-! ## Well-formed records -/

@[simp] theorem wellFormed_ofText (s : String) : (ofText s).WellFormed :=
  .string s

@[simp] theorem wellFormed_null : JsonValue.null.WellFormed :=
  .null

@[simp] theorem wellFormed_array {items : List JsonValue} :
    (array items).WellFormed ↔ ∀ v ∈ items, v.WellFormed :=
  ⟨fun h => by cases h; assumption, .array⟩

@[simp] theorem wellFormed_ofFields {fields : List (String × JsonValue)} :
    (ofFields fields).WellFormed ↔ ∀ field ∈ fields, field.2.WellFormed := by
  constructor
  · rintro (_ | _ | _ | _ | _ | ⟨-, h⟩) field hfield
    exact h _ (List.mem_map_of_mem hfield)
  · intro h
    refine .object (fun f hf => ?_) fun f hf => ?_
    · obtain ⟨field, -, rfl⟩ := List.mem_map.1 hf
      rfl
    · obtain ⟨field, hfield, rfl⟩ := List.mem_map.1 hf
      exact h field hfield

/-! ## Reading records -/

theorem mapM_map_eq_some {α β : Type} {read : β → Option α} {write : α → β} {as : List α}
    (h : ∀ a ∈ as, read (write a) = some a) : (as.map write).mapM read = some as := by
  induction as with
  | nil => rfl
  | cons a as ih =>
    rw [List.forall_mem_cons] at h
    rw [List.map_cons, List.mapM_cons, h.1, ih h.2]
    rfl

@[simp] theorem alternative?_ofFields (name : String) (v : JsonValue) :
    alternative? (ofFields [(name, v)]) = some (name, some v) :=
  rfl

@[simp] theorem entries?_ofFields (fields : List (String × JsonValue)) :
    entries? (ofFields fields) = some fields :=
  mapM_map_eq_some fun _ _ => rfl

@[simp] theorem fields?_ofFields (names : List String) (fields : List (String × JsonValue)) :
    fields? names (ofFields fields) = some fields :=
  entries?_ofFields fields

end JsonValue

/-! ## Constants -/

open JsonValue (depth_array_le depth_ofFields_le mapM_map_eq_some)

/-- A double is finite. -/
def FloatShape.isFinite : FloatShape → Bool
  | .zero _ | .finite _ _ => true
  | .notANumber | .infinite _ => false

/-- A double is finite, and read back from its numeral. -/
def RestorableFloat (x : Float) : Prop :=
  (FloatShape.ofFloat x).isFinite ∧ ∀ n, Numeral.ofFloat? x = some n → n.float? = some x

theorem RestorableFloat.ofFloat? {x : Float} (h : RestorableFloat x) :
    ∃ n, Numeral.ofFloat? x = some n ∧ n.WellFormed ∧ n.float? = some x := by
  obtain ⟨n, hn⟩ : ∃ n, Numeral.ofFloat? x = some n := by
    have hfinite := h.1
    unfold Numeral.ofFloat?
    cases hshape : FloatShape.ofFloat x with
    | notANumber | infinite => simp [hshape, FloatShape.isFinite] at hfinite
    | zero | finite => exact ⟨_, rfl⟩
  exact ⟨n, hn, Numeral.wellFormed_of_ofFloat? hn, h.2 n hn⟩

/-- All doubles in a constant are read back from their numerals, and its closures have their names
in ascending order. -/
inductive Constant.Restorable : Constant → Prop where
  | null : Restorable .null
  | bool (value : Bool) : Restorable (.bool value)
  | int (value : Int64) : Restorable (.int value)
  | float {value : Float} : RestorableFloat value → Restorable (.float value)
  | string (value : String) : Restorable (.string value)
  | list {items : List Constant} : (∀ c ∈ items, Restorable c) → Restorable (.list items)
  | record {fields : List (String × Constant)} :
    NameMap.Ascending fields → (∀ f ∈ fields, Restorable f.2) → Restorable (.record fields)
  | queryable (source : Queryable) : Restorable (.queryable source)

namespace Constant

theorem toJsonAll_eq_map (items : List Constant) : toJsonAll items = items.map toJson := by
  induction items with
  | nil => rfl
  | cons c items ih => rw [toJsonAll, ih, List.map_cons]

theorem object_toJsonFields (fields : List (String × Constant)) :
    JsonValue.object (toJsonFields fields)
      = ofFields (fields.map fun field => (field.1, field.2.toJson)) := by
  rw [ofFields]
  congr 1
  induction fields with
  | nil => rfl
  | cons field fields ih => rw [toJsonFields, ih, List.map_cons, List.map_cons]

namespace Restorable

theorem wellFormed {c : Constant} (h : c.Restorable) : c.toJson.WellFormed := by
  induction h with
  | null | string | queryable => simp [toJson]
  | bool value => simpa [toJson] using JsonValue.WellFormed.bool value
  | int value => simpa [toJson] using JsonValue.WellFormed.number (Numeral.wellFormed_ofInt _)
  | float h =>
    obtain ⟨n, hn, hwell, -⟩ := h.ofFloat?
    simpa [toJson, hn] using JsonValue.WellFormed.number hwell
  | list _ ih => simpa [toJson, toJsonAll_eq_map] using ih
  | record _ _ ih =>
    simp only [toJson, object_toJsonFields, JsonValue.wellFormed_ofFields,
      List.forall_mem_singleton, List.forall_mem_map]
    exact ih

/-- A constant is read back from its written form. -/
theorem ofJson?_toJson {c : Constant} (h : c.Restorable) {room : Nat}
    (hroom : c.toJson.depth ≤ room) : Constant.ofJson? room c.toJson = some c := by
  induction h generalizing room with
  | null => cases room <;> rfl
  | bool | string =>
    obtain ⟨room, rfl, -⟩ := depth_ofFields_le hroom
    rfl
  | int value =>
    obtain ⟨room, rfl, -⟩ := depth_ofFields_le hroom
    simp [toJson, Constant.ofJson?, Numeral.int?_ofInt]
  | float h =>
    obtain ⟨room, rfl, -⟩ := depth_ofFields_le hroom
    obtain ⟨n, hn, -, hread⟩ := h.ofFloat?
    simp [toJson, Constant.ofJson?, hn, hread]
  | list _ ih =>
    rw [toJson, toJsonAll_eq_map] at hroom ⊢
    obtain ⟨room, rfl, hinner⟩ := depth_ofFields_le hroom
    obtain ⟨room, rfl, hitems⟩ := depth_array_le (hinner _ List.mem_cons_self)
    rw [List.forall_mem_map] at hitems
    simp [Constant.ofJson?, mapM_map_eq_some fun c hc => ih c hc (hitems c hc)]
  | @record fields hascending _ ih =>
    rw [toJson, object_toJsonFields] at hroom ⊢
    obtain ⟨room, rfl, hinner⟩ := depth_ofFields_le hroom
    obtain ⟨room, rfl, hfields⟩ := depth_ofFields_le (hinner _ List.mem_cons_self)
    rw [List.forall_mem_map] at hfields
    have hread : (fields.map fun field => (field.1, field.2.toJson)).mapM
        (fun entry => (Constant.ofJson? room entry.2).map (entry.1, ·)) = some fields :=
      mapM_map_eq_some fun field hfield => by simp [ih field hfield (hfields field hfield)]
    change ((JsonValue.entries? (ofFields (fields.map fun field => (field.1, field.2.toJson)))).bind
      fun entries => (entries.mapM
        (fun entry => (Constant.ofJson? room entry.2).map (entry.1, ·))).bind
          fun values => some (Constant.record (NameMap.ofList values))) = _
    rw [JsonValue.entries?_ofFields, Option.bind_some, hread, Option.bind_some,
      hascending.ofList_eq]
  | queryable source =>
    obtain ⟨room, rfl, hinner⟩ := depth_ofFields_le hroom
    obtain ⟨room, rfl, -⟩ := depth_ofFields_le (hinner _ List.mem_cons_self)
    rfl

end Restorable

end Constant

end QueryChain
