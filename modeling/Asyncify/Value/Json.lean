import Asyncify.Fault
import Asyncify.Value.Display

/-! Values as JSON text, in ASCII and with two blanks of indentation. -/
namespace Asyncify.Json

/-- A code unit of UTF-16, escaped. -/
def unit (n : Nat) : List Char := '\\' :: 'u' :: Text.hexDigits 4 n

def escaped (c : Char) : List Char :=
  let n := c.toNat
  if c = '\x22' || c = '\\' then ['\\', c]
  else if c = '\n' then ['\\', 'n']
  else if c = '\r' then ['\\', 'r']
  else if c = '\t' then ['\\', 't']
  else if n = 8 then ['\\', 'b']
  else if n = 12 then ['\\', 'f']
  else if 32 ≤ n && n < 127 then [c]
  else if n < 0x10000 then unit n
  else unit (0xd800 + (n - 0x10000) / 0x400) ++ unit (0xdc00 + (n - 0x10000) % 0x400)

def string (s : String) : String :=
  String.ofList ('\x22' :: s.toList.flatMap escaped ++ ['\x22'])

/-- Numbers that are not finite have words of their own. -/
def number (x : Float) : String :=
  if x.isNaN then "NaN"
  else if x.isInf then (if Point.isNegative x then "-Infinity" else "Infinity")
  else Key.floatText x

/-- A value without members. Days, moments and bytes have no form. -/
def scalar? : Key → Option String
  | .null => some "null"
  | .bool b => some (if b then "true" else "false")
  | .int n => some (toString n)
  | .float x => some (number x)
  | .text s => some (string s)
  | .day _ | .moment _ | .bytes _ => none

def scalar (k : Key) : Except Fault String :=
  match scalar? k with
  | some s => .ok s
  | none => .error (.notJson (.ofKey k))

/-- Every key is written as a string. -/
def key : Key → Except Fault String
  | .text s => .ok (string s)
  | k =>
    match scalar? k with
    | some s => .ok (string s)
    | none => .error (.notJsonKey (.ofKey k))

def line (depth : Nat) : String := "\n" ++ String.ofList (List.replicate (2 * depth) ' ')

/-- Members on lines of their own, between two brackets. -/
def enclose (depth : Nat) (opening closing : String) (members : List String) : String :=
  if members.isEmpty then opening ++ closing
  else
    opening ++ ",".intercalate (members.map (line (depth + 1) ++ ·)) ++ line depth ++ closing

mutual

def write (depth : Nat) : Value → Except Fault String
  | .scalar k => scalar k
  | .list vs => (items (depth + 1) vs).map (enclose depth "[" "]")
  | .set _ => .error (.notJson .set)
  | .map es => do
    let members ← (entries (depth + 1) es).mapM fun e => do
      return (← key e.1) ++ ": " ++ (← e.2)
    return enclose depth "\x7b" "\x7d" members

def items (depth : Nat) : List Value → Except Fault (List String)
  | [] => .ok []
  | v :: vs => do return (← write depth v) :: (← items depth vs)

def entries (depth : Nat) : Entries Value → List (Key × Except Fault String)
  | ⟨ks, value⟩ => Entries.row ks.toList fun i => write depth (value i)

end

def ofValue (v : Value) : Except Fault String := write 0 v

end Asyncify.Json
