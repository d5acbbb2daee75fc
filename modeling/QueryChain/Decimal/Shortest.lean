/-!
# Shortest decimals

A finite double is `mantissa * 2 ^ exponent`. The decimals that read back as it fill an interval,
and the shortest of them lie on the coarsest grid of powers of ten that has a point in the interval.
Of two such points the nearer one is taken. All arithmetic is exact.
-/

namespace QueryChain

/-- The number `significand * 10 ^ exponent`. -/
structure Decimal where
  significand : Nat
  exponent : Int
deriving DecidableEq, Repr, Inhabited

/-- The way to go when two decimals are equally near. -/
inductive Tie where
  | up
  | toEven
deriving DecidableEq, Repr, Inhabited

namespace Decimal

/-- A positive finite double: `mantissa * 2 ^ exponent`, and whether the double below it is only
half as far away as the one above it. -/
structure Binary where
  mantissa : Nat
  exponent : Int
  closeBelow : Bool
deriving DecidableEq, Repr, Inhabited

namespace Binary

/-- The number of binary places of the fraction of a double. -/
def fractionPlaces : Nat := 52

/-- Splits the bits of a finite double, without its sign, into mantissa and exponent. -/
def ofBits (bits : Nat) : Binary :=
  let field := bits / Nat.pow 2 fractionPlaces % 2048
  let fraction := bits % Nat.pow 2 fractionPlaces
  if field = 0 then
    { mantissa := fraction, exponent := -1074, closeBelow := false }
  else
    { mantissa := Nat.pow 2 fractionPlaces + fraction
      exponent := (field : Int) - 1075
      closeBelow := fraction = 0 ∧ 1 < field }

/-- The ends of the interval that reads back as a double and the double itself, on the grid
`10 ^ place`: as numerators over one denominator. -/
structure Interval where
  low : Nat
  value : Nat
  high : Nat
  denominator : Nat
  /-- Whether the ends belong to the interval. -/
  closed : Bool
deriving DecidableEq, Repr, Inhabited

/-- The interval of a double, measured in units of `10 ^ place`. -/
def interval (b : Binary) (place : Int) : Interval :=
  let scale := Nat.pow 2 (b.exponent - 2).toNat * Nat.pow 10 (-place).toNat
  { low := (4 * b.mantissa - if b.closeBelow then 1 else 2) * scale
    value := 4 * b.mantissa * scale
    high := (4 * b.mantissa + 2) * scale
    denominator := Nat.pow 2 (2 - b.exponent).toNat * Nat.pow 10 place.toNat
    closed := b.mantissa % 2 = 0 }

/-- Whether a whole number of units lies in an interval. -/
def Interval.holds (i : Interval) (units : Nat) : Bool :=
  let n := units * i.denominator
  if i.closed then i.low ≤ n ∧ n ≤ i.high else i.low < n ∧ n < i.high

/-- The whole number of units in the interval that is nearest to the double, if there is one. -/
def Interval.nearest? (i : Interval) (tie : Tie) : Option Nat :=
  let below := i.value / i.denominator
  let above := below + 1
  let twice := 2 * (i.value % i.denominator)
  match i.holds below, i.holds above with
  | false, false => none
  | true, false => some below
  | false, true => some above
  | true, true =>
    if twice < i.denominator then some below
    else if i.denominator < twice then some above
    else match tie with
      | .up => some above
      | .toEven => some (if below % 2 = 0 then below else above)

/-- No point of a grid above this place is as small as the double. -/
def topPlace (b : Binary) : Int :=
  let bits := (Nat.log2 b.mantissa : Int) + b.exponent + 2
  (if 0 ≤ bits then bits / 3 else bits / 4) + 1

/-- Walks down from `place`, `steps` grids at most, to the first grid with a point in the
interval. -/
def search (b : Binary) (tie : Tie) : Nat → Int → Decimal
  | 0, place => { significand := (b.interval place).value / (b.interval place).denominator,
                  exponent := place }
  | steps + 1, place =>
    match (b.interval place).nearest? tie with
    | some significand => { significand, exponent := place }
    | none => search b tie steps (place - 1)

/-- The shortest decimal that reads back as the double. At most 17 digits are needed, so the walk
ends long before its steps do. -/
def shortest (b : Binary) (tie : Tie) : Decimal :=
  b.search tie 128 b.topPlace

end Binary

/-- The digits of the significand. -/
def digits (d : Decimal) : List Char :=
  Nat.toDigits 10 d.significand

/-- Writes the digits out, without an exponent and without needless zeros. -/
def positional (d : Decimal) : String :=
  let cs := d.digits
  let places := (-d.exponent).toNat
  if places = 0 then
    String.ofList (cs ++ List.replicate d.exponent.toNat '0')
  else if places < cs.length then
    String.ofList (cs.take (cs.length - places) ++ '.' :: cs.drop (cs.length - places))
  else
    String.ofList ('0' :: '.' :: List.replicate (places - cs.length) '0' ++ cs)

end Decimal

/-- What a double is: not a number, or a sign with an infinite, zero or other magnitude. -/
inductive FloatShape where
  | notANumber
  | infinite (negative : Bool)
  | zero (negative : Bool)
  | finite (negative : Bool) (magnitude : Decimal.Binary)
deriving DecidableEq, Repr, Inhabited

/-- The value of the bit of a double's sign. -/
def signBit : Nat := 0x8000000000000000

/-- The bits of positive infinity. -/
def infinityBits : Nat := 0x7ff0000000000000

/-- Reads a double off its bits. -/
def FloatShape.ofBits (bits : Nat) : FloatShape :=
  let negative := signBit ≤ bits
  let magnitude := bits % signBit
  if infinityBits < magnitude then .notANumber
  else if magnitude = infinityBits then .infinite negative
  else if magnitude = 0 then .zero negative
  else .finite negative (.ofBits magnitude)

/-- What a double is. -/
def FloatShape.ofFloat (x : Float) : FloatShape :=
  .ofBits x.toBits.toNat

/-- Puts a minus sign before the text of a negative number. -/
def signed (negative : Bool) (text : String) : String :=
  if negative then "-" ++ text else text

/-- The text of a double: its shortest decimal, never with an exponent. -/
def floatText (x : Float) : String :=
  match FloatShape.ofFloat x with
  | .notANumber => "NaN"
  | .infinite negative => signed negative "inf"
  | .zero negative => signed negative "0"
  | .finite negative magnitude => signed negative (magnitude.shortest .up).positional

end QueryChain
