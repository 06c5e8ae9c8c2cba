import Asyncify.Decimal

/-! Places on the number line, on which numbers of all sorts are compared without rounding. -/
namespace Asyncify

/-- A fraction, or one of the ends of the line. -/
inductive Point where
  | below
  | fraction (num : Int) (den : Nat)
  | above
  deriving DecidableEq, Repr

namespace Point

def ofInt (n : Int) : Point := fraction n 1

/-- The sign in the bits of a number; zero has one too. -/
def isNegative (x : Float) : Bool := Nat.pow 2 63 ≤ x.toBits.toNat

def ofFinite (x : Float) : Point :=
  let b := Binary.ofBits x.toBits
  fraction (if isNegative x then -b.numerator else b.numerator) b.denominator

/-- What is not a number lies nowhere. -/
def ofFloat? (x : Float) : Option Point :=
  if x.isNaN then none
  else if x.isInf then some (if isNegative x then below else above)
  else some (ofFinite x)

def same : Point → Point → Bool
  | fraction m j, fraction n k => m * k = n * j
  | p, q => p = q

def le : Point → Point → Bool
  | below, _ | _, above => true
  | fraction m j, fraction n k => m * k ≤ n * j
  | _, _ => false

end Point
end Asyncify
