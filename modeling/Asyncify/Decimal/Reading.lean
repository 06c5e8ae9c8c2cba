/-! Reading a decimal as a number of 64 bits. -/
namespace Asyncify.Decimal

def digitsValue (ds : List Char) : Nat := ds.foldl (fun n d => 10 * n + (d.toNat - 48)) 0

/-- A sign and digits. -/
def int? (cs : List Char) : Option Int :=
  let digits? (ds : List Char) : Option Nat :=
    if !ds.isEmpty && ds.all Char.isDigit then some (digitsValue ds) else none
  match cs with
  | '-' :: ds => (digits? ds).map fun n => -n
  | '+' :: ds => (digits? ds).map fun n => n
  | ds => (digits? ds).map fun n => n

def exponent? : List Char → Option Int
  | [] => some 0
  | 'e' :: cs | 'E' :: cs => int? cs
  | _ => none

/-- Digits, perhaps with a point and an exponent. The nearest number of 64 bits is taken. -/
def magnitude? (cs : List Char) : Option Float :=
  let whole := cs.takeWhile Char.isDigit
  let (fraction, rest) := match cs.drop whole.length with
    | '.' :: r => (r.takeWhile Char.isDigit, r.dropWhile Char.isDigit)
    | r => ([], r)
  if whole.isEmpty then none
  else do
    let e := (← exponent? rest) - fraction.length
    return Float.ofScientific (digitsValue (whole ++ fraction)) (e < 0) e.natAbs

/-- Reads a number with its sign, or a word for what is no finite number. -/
def float? (s : String) : Option Float :=
  match s with
  | "NaN" => some (0 / 0)
  | "Infinity" => some (1 / 0)
  | "-Infinity" => some (-1 / 0)
  | _ =>
    match s.toList with
    | '-' :: cs => (magnitude? cs).map fun x => -x
    | cs => magnitude? cs

end Asyncify.Decimal
