import QueryChain.Decimal.Shortest
import QueryChain.Integer
import QueryChain.Json.Basic

/-!
# JSON numbers

Integers are written and read exactly. A double is written as its shortest decimal. It is read from
the leading digits of the numeral, as many as fit in 64 bits, followed by one multiplication or
division by a power of ten; the result may be off in the last place.
-/

namespace QueryChain

/-- The value of a digit. -/
def digitValue (c : Char) : Nat :=
  c.toNat - '0'.toNat

/-- The number that digits spell. -/
def digitsValue (digits : List Char) : Nat :=
  digits.foldl (fun n c => 10 * n + digitValue c) 0

namespace Numeral

/-! ## Writing -/

/-- The numeral of an integer. -/
def ofInt (i : Int) : Numeral :=
  { negative := i < 0, whole := Nat.toDigits 10 i.natAbs, fraction := none, exponent := none }

/-- The numeral of a positive decimal: written out between `0.00001` and `10000000000000000`, and
with an exponent outside. A numeral that is written out has a fraction. -/
def ofDecimal (negative : Bool) (d : Decimal) : Numeral :=
  let digits := d.digits
  let point : Int := digits.length + d.exponent
  if 0 ≤ d.exponent ∧ point ≤ 16 then
    { negative, whole := digits ++ List.replicate d.exponent.toNat '0', fraction := some ['0'],
      exponent := none }
  else if 0 < point ∧ point ≤ 16 then
    { negative, whole := digits.take point.toNat, fraction := some (digits.drop point.toNat),
      exponent := none }
  else if -5 < point ∧ point ≤ 0 then
    { negative, whole := ['0'], fraction := some (List.replicate (-point).toNat '0' ++ digits),
      exponent := none }
  else
    { negative, whole := digits.take 1,
      fraction := if digits.length = 1 then none else some (digits.drop 1),
      exponent := some (point - 1 < 0, Nat.toDigits 10 (point - 1).natAbs) }

/-- The numeral of a double that is a number and finite. -/
def ofFloat? (x : Float) : Option Numeral :=
  match FloatShape.ofFloat x with
  | .notANumber => none
  | .infinite _ => none
  | .zero negative =>
    some { negative, whole := ['0'], fraction := some ['0'], exponent := none }
  | .finite negative magnitude => some (ofDecimal negative (magnitude.shortest .toEven))

/-- The characters of a numeral. An exponent is written with its sign, be it plus or minus. -/
def chars (n : Numeral) : List Char :=
  (if n.negative then ['-'] else []) ++ n.whole
    ++ (match n.fraction with
      | some digits => '.' :: digits
      | none => [])
    ++ (match n.exponent with
      | some (negative, digits) => 'e' :: (if negative then '-' else '+') :: digits
      | none => [])

/-! ## Reading -/

/-- The integer that a numeral spells, if it is in range. A negative zero is no integer. -/
def int? (n : Numeral) : Option Int64 :=
  match n.fraction, n.exponent with
  | none, none =>
    let magnitude := digitsValue n.whole
    if n.negative ∧ magnitude = 0 then none
    else int64? (if n.negative then -magnitude else magnitude)
  | _, _ => none

/-- Leading digits and the power of ten that scales them. -/
structure Significant where
  digits : Nat
  scale : Int
deriving DecidableEq, Repr, Inhabited

/-- Takes up whole digits while they fit in 64 bits; each digit left out is a factor of ten. -/
def takeWhole : Nat → List Char → Significant
  | taken, [] => { digits := taken, scale := 0 }
  | taken, c :: cs =>
    let next := 10 * taken + digitValue c
    if next < UInt64.size then takeWhole next cs
    else { digits := taken, scale := cs.length + 1 }

/-- Takes up digits of the fraction while they fit in 64 bits, and leaves out the others. -/
def takeFraction : Significant → List Char → Significant
  | s, [] => s
  | s, c :: cs =>
    let next := 10 * s.digits + digitValue c
    if next < UInt64.size then takeFraction { digits := next, scale := s.scale - 1 } cs
    else s

/-- The greatest power of ten that is a double. -/
def topPower : Nat := 308

/-- The double nearest to `10 ^ n`. -/
def powerOfTen (n : Nat) : Float :=
  Float.ofScientific 1 false n

/-- Scales down by `10 ^ (-scale)`, by the greatest power first as long as it takes several. -/
def scaleDown : Nat → Float → Nat → Float
  | 0, x, _ => x
  | steps + 1, x, n =>
    if n ≤ topPower then x / powerOfTen n
    else if x == 0.0 then x
    else scaleDown steps (x / powerOfTen topPower) (n - topPower)

/-- The double that leading digits and their scale stand for. There is none beyond the finite
doubles. -/
def Significant.float? (s : Significant) : Option Float :=
  let x := (UInt64.ofNat s.digits).toFloat
  if s.scale < 0 then
    some (scaleDown (s.scale.natAbs / topPower + 1) x s.scale.natAbs)
  else if s.scale ≤ topPower then
    let y := x * powerOfTen s.scale.natAbs
    if y.isInf then none else some y
  else if x == 0.0 then some x
  else none

/-- The nearest integer of 32 bits with a sign. -/
def saturate (i : Int) : Int :=
  if i < -2147483648 then -2147483648
  else if 2147483647 < i then 2147483647
  else i

/-- The magnitude of the double that a numeral spells. -/
def magnitude? (n : Numeral) : Option Float :=
  let s := takeFraction (takeWhole 0 n.whole) (n.fraction.getD [])
  match n.exponent with
  | none => s.float?
  | some (negative, digits) =>
    let exponent := digitsValue digits
    if 2147483647 < exponent then
      if s.digits ≠ 0 ∧ !negative then none else some 0.0
    else
      let scale := if negative then s.scale - exponent else s.scale + exponent
      { s with scale := saturate scale : Significant }.float?

/-- The double that a numeral spells. -/
def float? (n : Numeral) : Option Float :=
  n.magnitude?.map fun x => if n.negative then -x else x

end Numeral

end QueryChain
