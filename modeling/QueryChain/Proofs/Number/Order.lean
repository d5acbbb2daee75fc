import QueryChain.Integer

/-!
# The order of numbers

Any two integers stand in exactly one order, and all comparisons follow from it (`Compares`). So do
any two doubles, unless one of them is not a number (`exists_compares_double`). The double nearest
to an integer is a number (`isNaN_nearestDouble`).
-/

namespace QueryChain

/-- The five comparisons of two numbers answer as the order `o` says. -/
structure Compares {α : Type} [LT α] [LE α] [BEq α] (a b : α) (o : Ordering) : Prop where
  lt : a < b ↔ o = .lt
  beq : a == b ↔ o = .eq
  gt : b < a ↔ o = .gt
  le : a ≤ b ↔ o ≠ .gt
  ge : b ≤ a ↔ o ≠ .lt

theorem exists_compares_int64 (a b : Int64) : ∃ o, Compares a b o := by
  have hlt (a b : Int64) : a < b ↔ a.toInt < b.toInt := Int64.lt_iff_toInt_lt
  have hle (a b : Int64) : a ≤ b ↔ a.toInt ≤ b.toInt := Int64.le_iff_toInt_le
  have heq : a == b ↔ a.toInt = b.toInt := by rw [beq_iff_eq, Int64.toInt_inj]
  obtain h | h | h := Int.lt_trichotomy a.toInt b.toInt
  · refine ⟨.lt, ?_, ?_, ?_, ?_, ?_⟩ <;> simp only [hlt, hle, heq] <;> simp <;> omega
  · refine ⟨.eq, ?_, ?_, ?_, ?_, ?_⟩ <;> simp only [hlt, hle, heq] <;> simp <;> omega
  · refine ⟨.gt, ?_, ?_, ?_, ?_, ?_⟩ <;> simp only [hlt, hle, heq] <;> simp <;> omega

/-! ## Doubles -/

open Float.Model Float.Model.UnpackedFloat

theorem swap_then_compare (d e : Int) (m n : Nat) :
    ((compare d e).then (compare m n)).swap = (compare e d).then (compare n m) := by
  rw [Ordering.swap_then, Int.compare_swap, Nat.compare_swap]

/-- Comparing two doubles the other way round gives the opposite order. -/
theorem unpacked_compare_swap (a b : UnpackedFloat) :
    b.compare a = (a.compare b).map Ordering.swap := by
  cases a with
  | notANumber => cases b <;> rfl
  | infinity s =>
    cases b with
    | infinity t => cases s <;> cases t <;> rfl
    | _ => cases s <;> rfl
  | zero s =>
    cases b with
    | infinity t | finite t => cases t <;> rfl
    | _ => rfl
  | finite s m d =>
    cases b with
    | infinity t => cases s <;> cases t <;> rfl
    | finite t n e =>
      have hswap := swap_then_compare d e m n
      cases s <;> cases t
      case positive.positive => exact congrArg some hswap.symm
      case negative.negative => exact congrArg (some ·.swap) hswap.symm
      all_goals rfl
    | _ => cases s <;> rfl

theorem exists_unpacked_compare {a b : UnpackedFloat} (ha : a.isNaN = false)
    (hb : b.isNaN = false) : ∃ o, a.compare b = some o := by
  cases a with
  | notANumber => cases ha
  | infinity s =>
    cases b with
    | notANumber => cases hb
    | infinity t => exact ⟨_, rfl⟩
    | _ => cases s <;> exact ⟨_, rfl⟩
  | zero s =>
    cases b with
    | notANumber => cases hb
    | infinity t | finite t => cases t <;> exact ⟨_, rfl⟩
    | zero => exact ⟨_, rfl⟩
  | finite s m d =>
    cases b with
    | notANumber => cases hb
    | infinity t | finite t => cases s <;> cases t <;> exact ⟨_, rfl⟩
    | zero => cases s <;> exact ⟨_, rfl⟩

theorem double_lt_iff (x y : Float) :
    x < y ↔ x.toModel.unpack.compare y.toModel.unpack = some .lt := by
  show decide ((x.toModel.unpack.compare y.toModel.unpack == some .lt) = true) = true ↔ _
  rw [decide_eq_true_iff, beq_iff_eq]

theorem double_le_iff (x y : Float) :
    x ≤ y ↔ (x.toModel.unpack.compare y.toModel.unpack).any (·.isLE) := by
  show decide ((x.toModel.unpack.compare y.toModel.unpack).any (·.isLE) = true) = true ↔ _
  rw [decide_eq_true_iff]

theorem double_beq_iff (x y : Float) :
    x == y ↔ x.toModel.unpack.compare y.toModel.unpack = some .eq := by
  show (x.toModel.unpack.compare y.toModel.unpack == some .eq) = true ↔ _
  rw [beq_iff_eq]

/-- Two doubles that are numbers stand in exactly one order. -/
theorem exists_compares_double {x y : Float} (hx : x.isNaN = false) (hy : y.isNaN = false) :
    ∃ o, Compares x y o := by
  obtain ⟨o, ho⟩ := exists_unpacked_compare (a := x.toModel.unpack) (b := y.toModel.unpack) hx hy
  have hswap : y.toModel.unpack.compare x.toModel.unpack = some o.swap := by
    rw [unpacked_compare_swap x.toModel.unpack, ho, Option.map_some]
  refine ⟨o, ?_, ?_, ?_, ?_, ?_⟩
  · rw [double_lt_iff, ho, Option.some.injEq]
  · rw [double_beq_iff, ho, Option.some.injEq]
  · rw [double_lt_iff, hswap]
    cases o <;> decide
  · rw [double_le_iff, ho]
    cases o <;> decide
  · rw [double_le_iff, hswap]
    cases o <;> decide

/-! ## Doubles nearest to integers -/

/-- Bits spell a number unless all bits of the exponent and some bit of the mantissa are set. -/
theorem isNaN_unpack {spec : Format} {bits : BitVec spec.numBits}
    (h : unpackExponent bits = -.ofNat spec.exponentBits 1 →
      unpackMantissa bits = .ofNat spec.mantissaBitsWithoutImplicit 0) :
    (UnpackedFloat.unpack spec bits).isNaN = false := by
  unfold UnpackedFloat.unpack
  by_cases hones : unpackExponent bits = -.ofNat spec.exponentBits 1
  · rw [if_pos hones, if_pos (h hones)]
    rfl
  · rw [if_neg hones]
    by_cases hsmall : unpackExponent bits = .ofNat spec.exponentBits 0
    · rw [if_pos hsmall]
      by_cases hzero : unpackMantissa bits = .ofNat spec.mantissaBitsWithoutImplicit 0
      · rw [dif_pos hzero]
        rfl
      · rw [dif_neg hzero]
        rfl
    · rw [if_neg hsmall]
      rfl

theorem isNaN_unpack_packComponents (s : Sign) (e : BitVec 11) (m : BitVec 52)
    (h : e = -1#11 → m = 0#52) :
    (UnpackedFloat.unpack Format.binary64 (packComponents Format.binary64 s e m)).isNaN
      = false := by
  apply isNaN_unpack
  rw [unpackExponent_packComponents, unpackMantissa_packComponents]
  exact h

/-- What is a number before it is packed into 64 bits is one afterwards. -/
theorem isNaN_unpack_pack {u : UnpackedFloat} (h : u.isNaN = false) :
    (Float.Model.pack u).unpack.isNaN = false := by
  show (UnpackedFloat.unpack _ (UnpackedFloat.pack Format.binary64 u)).isNaN = false
  cases u with
  | notANumber => cases h
  | infinity | zero => exact isNaN_unpack_packComponents _ _ _ fun _ => rfl
  | finite s m e hm =>
    unfold UnpackedFloat.pack
    dsimp only
    split
    · exact isNaN_unpack_packComponents _ _ _ fun _ => rfl
    · split
      · -- The exponent is too small for all its bits to be set.
        rename_i hsmall _
        refine isNaN_unpack_packComponents _ _ _ fun hones => ?_
        have hbits := congrArg BitVec.toNat hones
        simp at hbits hsmall
        omega
      · exact isNaN_unpack_packComponents _ _ _ fun hones => absurd hones (by decide)

theorem isNaN_round (spec : Format) (s : Sign) (m : Nat) (e : Int) :
    (UnpackedFloat.round spec s m e).isNaN = false := by
  unfold UnpackedFloat.round roundWithAccuracy
  dsimp only
  rw [apply_dite UnpackedFloat.isNaN]
  exact ite_self false

theorem isNaN_nearestDouble (i : Int64) : (nearestDouble i).isNaN = false := by
  refine isNaN_unpack_pack (u := UnpackedFloat.ofInt Format.binary64 i.toInt) ?_
  unfold UnpackedFloat.ofInt UnpackedFloat.normalize
  split
  · exact isNaN_round ..
  · rfl
  · exact isNaN_round ..

end QueryChain
