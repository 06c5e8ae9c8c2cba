import Asyncify.Entries

/-! Values of configuration files and rule options. -/
namespace Asyncify

/-- A configuration value. The members of a set stand in the order in which they are gone
through. -/
inductive Value where
  | scalar (k : Key)
  | list (items : List Value)
  | set (members : Keys)
  | map (entries : Entries Value)

namespace Value

@[match_pattern] abbrev null : Value := scalar .null

@[match_pattern] abbrev bool (b : Bool) : Value := scalar (.bool b)

@[match_pattern] abbrev int (n : Int) : Value := scalar (.int n)

@[match_pattern] abbrev float (x : Float) : Value := scalar (.float x)

@[match_pattern] abbrev text (s : String) : Value := scalar (.text s)

@[match_pattern] abbrev bytes (bs : List UInt8) : Value := scalar (.bytes bs)

instance : Inhabited Value := ⟨.null⟩

/-- What a value is made of. -/
inductive Shape where
  | null | bool | int | float | text | day | moment | bytes | list | set | map
  deriving DecidableEq, Repr

namespace Shape

/-- The word for a shape in messages. -/
def name : Shape → String
  | null => "NoneType"
  | bool => "bool"
  | int => "int"
  | float => "float"
  | text => "str"
  | day => "datetime.date"
  | moment => "datetime.datetime"
  | bytes => "bytes"
  | list => "list"
  | set => "set"
  | map => "dict"

/-- The last part of the word. -/
def lastName : Shape → String
  | day => "date"
  | moment => "datetime"
  | s => s.name

def ofKey : Key → Shape
  | .null => null
  | .bool _ => bool
  | .int _ => int
  | .float _ => float
  | .text _ => text
  | .day _ => day
  | .moment _ => moment
  | .bytes _ => bytes

end Shape

def shape : Value → Shape
  | scalar k => .ofKey k
  | list _ => .list
  | set _ => .set
  | map _ => .map

def empty : Value := .map .empty

/-- A value counts as set unless it is null, false, zero or empty. -/
def isSet : Value → Bool
  | null => false
  | bool b => b
  | int n => n ≠ 0
  | float x => x != 0
  | text s => s ≠ ""
  | bytes bs => !bs.isEmpty
  | scalar _ => true
  | list vs => !vs.isEmpty
  | set ks => !ks.toList.isEmpty
  | map es => !es.keys.toList.isEmpty

end Value
end Asyncify
