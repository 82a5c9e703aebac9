import CilCodec.Number.Binary

/-!
# CilCodec.Number.Shortest

The shortest decimal that reads back as a given binary value.

The reals that round to a binary value form an interval around it. `Neighbourhood` is that interval
over a common denominator, `Neighbourhood.nearest?` looks for a decimal of a given number of digits
in it, and `Neighbourhood.shortest` takes the least number of digits with a hit. All arithmetic is
exact.
-/

namespace CilCodec

/-- The positive number `digits * 10 ^ exponent`. -/
structure Decimal where
  digits : Nat
  exponent : Int
deriving DecidableEq, Repr

namespace Decimal

/-- The decimal digits of the coefficient. -/
def figures (d : Decimal) : List Char := Nat.toDigits 10 d.digits

/-- Exponent of the leading digit. -/
def magnitude (d : Decimal) : Int := d.exponent + (d.figures.length - 1 : Nat)

/-- The same number without zeros at the end of the coefficient. At most `places` are dropped. -/
def dropZeros : Nat → Decimal → Decimal
  | 0, d => d
  | places + 1, d =>
    if d.digits % 10 = 0 then dropZeros places ⟨d.digits / 10, d.exponent + 1⟩ else d

end Decimal

/-- Exponent of the leading decimal digit of `num / den`, for positive `num` and `den`. -/
def leadingExponent (num den : Nat) : Int :=
  if den ≤ num then
    ((Nat.toDigits 10 (num / den)).length - 1 : Nat)
  else
    let places := (Nat.toDigits 10 (den / num)).length
    if den ≤ num * Nat.pow 10 (places - 1) then -((places - 1 : Nat) : Int) else -(places : Int)

/-- The reals that round to the value `value / den`: those between `low / den` and `high / den`,
the ends among them if `closed`. -/
structure Neighbourhood where
  low : Nat
  value : Nat
  high : Nat
  den : Nat
  closed : Bool
deriving DecidableEq, Repr

namespace Neighbourhood

/-- The neighbourhood of `significand * 2 ^ exponent`: half way to the values beside it. Half way
cases round to even significands. -/
def ofBinary (significand : Nat) (exponent : Int) (lowest : Bool) : Neighbourhood :=
  let scale := 1 <<< (exponent - 2).toNat
  { low := (4 * significand - if lowest then 1 else 2) * scale
    value := 4 * significand * scale
    high := (4 * significand + 2) * scale
    den := 1 <<< (2 - exponent).toNat
    closed := significand % 2 == 0 }

/-- Whether `num / den` rounds to the value, `den` being the neighbourhood's own. -/
def holds (n : Neighbourhood) (num : Nat) : Bool :=
  if n.closed then n.low ≤ num && num ≤ n.high else n.low < num && num < n.high

/-- The neighbourhood in units of `10 ^ place`. -/
def inUnits (n : Neighbourhood) (place : Int) : Neighbourhood :=
  let up := Nat.pow 10 (-place).toNat
  { n with
    low := n.low * up
    value := n.value * up
    high := n.high * up
    den := n.den * Nat.pow 10 place.toNat }

/-- The multiple of `10 ^ place` nearest to the value among those that round to it, if there is one.
Of two equally near the larger is taken. -/
def nearest? (n : Neighbourhood) (place : Int) : Option Decimal :=
  let u := n.inUnits place
  let below := u.value / u.den
  let left := u.value % u.den
  match u.holds (below * u.den), u.holds ((below + 1) * u.den) with
  | false, false => none
  | true, false => some ⟨below, place⟩
  | false, true => some ⟨below + 1, place⟩
  | true, true => some ⟨if 2 * left < u.den then below else below + 1, place⟩

/-- The decimal with the fewest digits that rounds to the value, the nearest of those. `limit`
digits have to be enough. -/
def shortest (n : Neighbourhood) (limit : Nat) : Decimal :=
  let lead := leadingExponent n.value n.den
  let place (count : Nat) : Int := lead - count
  let found := (List.range limit).findSome? fun count => n.nearest? (place count)
  let last := n.inUnits (place limit)
  (found.getD ⟨last.value / last.den, place limit⟩).dropZeros (limit + 1)

end Neighbourhood

/-- The shortest decimal that reads back as `significand * 2 ^ exponent` in format `f`. -/
def shortestDecimal (f : BinaryFormat) (significand : Nat) (exponent : Int) (lowest : Bool) :
    Decimal :=
  (Neighbourhood.ofBinary significand exponent lowest).shortest f.maxDigits

end CilCodec
