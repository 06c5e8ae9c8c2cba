/-! The shortest decimal that reads back as a binary number. -/
namespace Asyncify

/-- A finite number of 64 bits without its sign: m · 2^q. -/
structure Binary where
  m : Nat
  q : Int
  /-- The number below is half as far away as the number above. -/
  narrowBelow : Bool
  deriving DecidableEq, Repr

/-- The number `digits` · 10^`exponent`. -/
structure Decimal where
  digits : Nat
  exponent : Int
  deriving DecidableEq, Repr

namespace Binary

/-- The magnitude in the bits of a finite number. -/
def ofBits (bits : UInt64) : Binary :=
  let e : Nat := bits.toNat / Nat.pow 2 52 % Nat.pow 2 11
  let f : Nat := bits.toNat % Nat.pow 2 52
  if e = 0 then ⟨f, -1074, false⟩ else ⟨Nat.pow 2 52 + f, (e : Int) - 1075, f = 0 && 1 < e⟩

variable (x : Binary)

def numerator : Nat := x.m * Nat.pow 2 x.q.toNat

def denominator : Nat := Nat.pow 2 (-x.q).toNat

/-- Compares a decimal with `n` quarters of the last place of the number. -/
def compareQuarters (d : Decimal) (n : Nat) : Ordering :=
  compare (d.digits * Nat.pow 10 d.exponent.toNat * 4 * Nat.pow 2 (-x.q).toNat)
    (n * Nat.pow 2 x.q.toNat * Nat.pow 10 (-d.exponent).toNat)

/-- The decimal lies among those that round to this number: no further than halfway to the next
number on either side. Halfway itself belongs to the even one. -/
def readsBack (d : Decimal) : Bool :=
  let low := x.compareQuarters d (if x.narrowBelow then 4 * x.m - 1 else 4 * x.m - 2)
  let high := x.compareQuarters d (4 * x.m + 2)
  let even := x.m % 2 = 0
  (low = .gt || low = .eq && even) && (high = .lt || high = .eq && even)

/-- The greatest multiple of 10^`exponent` that is not above the number. -/
def floorAt (exponent : Int) : Decimal :=
  ⟨x.numerator * Nat.pow 10 (-exponent).toNat / (x.denominator * Nat.pow 10 exponent.toNat),
    exponent⟩

/-- Of two neighbours on a grid the closer one, and the even one if the number is halfway
between. -/
def closer (low : Decimal) : Decimal :=
  let up : Decimal := ⟨low.digits + 1, low.exponent⟩
  match x.compareQuarters ⟨2 * low.digits + 1, low.exponent⟩ (8 * x.m) with
  | .gt => low
  | .lt => up
  | .eq => if low.digits % 2 = 0 then low else up

/-- The best multiple of 10^`exponent` that reads back. -/
def onGrid? (exponent : Int) : Option Decimal :=
  let low := x.floorAt exponent
  let up : Decimal := ⟨low.digits + 1, exponent⟩
  if x.readsBack low then some (if x.readsBack up then x.closer low else low)
  else if x.readsBack up then some up
  else none

/-- The number of digits before the point; none of them is left if the number is small, and it is
then not above zero. No number but zero has more than 340 zeros behind its point. -/
def places : Int := (Nat.toDigits 10 (x.numerator * Nat.pow 10 340 / x.denominator)).length - 340

/-- All digits of the number. -/
def exactDecimal : Decimal :=
  ⟨x.m * Nat.pow 2 x.q.toNat * Nat.pow 5 (-x.q).toNat, -(-x.q).toNat⟩

/-- The shortest decimal that reads back. Seventeen digits are always enough. -/
def shortest : Decimal :=
  ((List.range 17).findSome? fun (n : Nat) => x.onGrid? (x.places - (n + 1))).getD x.exactDecimal

end Binary

namespace Decimal

/-- The digits without zeros at the end, and the place of the point: the number is 0.d₁d₂… · 10ᵖ. -/
def placed (d : Decimal) : List Char × Int :=
  let ds := Nat.toDigits 10 d.digits
  ((ds.reverse.dropWhile (· = '0')).reverse, ds.length + d.exponent)

/-- At least two digits of an exponent, with its sign. -/
def exponentText (e : Int) : List Char :=
  let ds := Nat.toDigits 10 e.natAbs
  (if e < 0 then '-' else '+') :: (if ds.length < 2 then '0' :: ds else ds)

/-- Numbers from 10⁻⁴ up to 10¹⁶ are written with a point, all others with an exponent. -/
def isPositional (p : Int) : Bool := -4 < p && p ≤ 16

def text (d : Decimal) : List Char :=
  let (ds, p) := d.placed
  if ds.isEmpty then "0.0".toList
  else if isPositional p then
    if p ≤ 0 then "0.".toList ++ List.replicate p.natAbs '0' ++ ds
    else if ds.length ≤ p.toNat then ds ++ List.replicate (p.toNat - ds.length) '0' ++ ".0".toList
    else ds.take p.toNat ++ '.' :: ds.drop p.toNat
  else ds.take 1 ++ (if ds.length = 1 then [] else '.' :: ds.drop 1) ++ 'e' :: exponentText (p - 1)

end Decimal
end Asyncify
