/-!
# Integers of 64 bits

Constants and numerals hold integers of 64 bits with a sign. Arithmetic is done on unbounded
integers, and its result kept if it fits. Beside a double, an integer is rounded to a double.
-/

namespace QueryChain

/-- The integers that fit in 64 bits with a sign. -/
def InRange (i : Int) : Prop :=
  -9223372036854775808 ≤ i ∧ i ≤ 9223372036854775807

instance (i : Int) : Decidable (InRange i) :=
  inferInstanceAs (Decidable (_ ∧ _))

/-- An integer in 64 bits, if it fits. -/
def int64? (i : Int) : Option Int64 :=
  if InRange i then some (.ofInt i) else none

/-- The double nearest to an integer. Of two that are equally near, it is the one whose last bit
is zero. -/
def nearestDouble (i : Int64) : Float :=
  .ofModel (.ofInt64 i)

end QueryChain
