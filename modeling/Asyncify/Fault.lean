import Asyncify.Text.Quoted
import Asyncify.Value

/-! Why a rule, or the reading of an option, can fail. -/
namespace Asyncify

/-- The kinds of failure that handlers tell apart. -/
inductive FailureKind where
  /-- A file cannot be reached. -/
  | system
  /-- A text is no document. -/
  | markup
  | type | value | attribute | key | index | recursion | runtime
  deriving DecidableEq, Repr

/-- A cause of failure. -/
inductive Fault where
  /-- A value stands where a sequence of values is needed. -/
  | notSequence (shape : Value.Shape)
  /-- A value with members stands where a key is needed. -/
  | notKey (shape : Value.Shape)
  /-- A value stands where a text to append is needed. -/
  | notText (shape : Value.Shape)
  /-- An element of a list of entries is no sequence. -/
  | notPair (index : Nat)
  /-- An element of a list of entries has not two members. -/
  | pairLength (index length : Nat)
  /-- A value stands where a map is needed; `use` is what was wanted of it. -/
  | notMap (shape : Value.Shape) (use : String)
  /-- A value stands where a wildcard pattern is needed. -/
  | notPattern (shape : Value.Shape)
  /-- Two keys have no order. -/
  | unordered (left right : Value.Shape)
  /-- A value that cannot take an entry. -/
  | notWritable (shape : Value.Shape)
  /-- A tree has no node in a role that the edit needs. -/
  | missingNode
  /-- An `else` without a statement. -/
  | emptyElse
  /-- A replacement that needs its own text. -/
  | endless
  /-- The edited text does not parse. -/
  | brokenOutput
  /-- A configuration document that is no map. -/
  | notDocument
  /-- A value stands where the name of a package is needed. -/
  | notName (shape : Value.Shape)
  | emptyName
  | relativeName (name : String)
  /-- A value stands where a rule is needed. -/
  | notRule (shape : Value.Shape)
  /-- The code of a package failed while it was loaded. -/
  | crashed (message : String)
  /-- A path with a null character. -/
  | nullPath
  /-- A value that has no form in JSON. -/
  | notJson (shape : Value.Shape)
  /-- A key that has no form in JSON. -/
  | notJsonKey (shape : Value.Shape)
  /-- A configuration file cannot be read as a document. -/
  | unread (kind : FailureKind) (message : String)
  deriving DecidableEq, Repr

namespace Fault

def message : Fault → String
  | notSequence s => "'" ++ s.name ++ "' object is not iterable"
  | notKey s => "unhashable type: '" ++ s.name ++ "'"
  | notText s => "can only concatenate str (not \"" ++ s.name ++ "\") to str"
  | notPair i =>
    "cannot convert dictionary update sequence element #" ++ toString i ++ " to a sequence"
  | pairLength i n =>
    "dictionary update sequence element #" ++ toString i ++ " has length " ++ toString n ++
      "; 2 is required"
  | notMap s use => "'" ++ s.name ++ "' object has no attribute '" ++ use ++ "'"
  | notPattern s => "a value of type '" ++ s.name ++ "' is no pattern"
  | unordered a b => "values of types '" ++ a.name ++ "' and '" ++ b.name ++ "' have no order"
  | notWritable s => "a value of type '" ++ s.name ++ "' takes no entries"
  | missingNode => "'NoneType' object has no attribute 'id'"
  | emptyElse => "list index out of range"
  | endless => "a replacement needs its own text"
  | brokenOutput => "rewrite produced code that does not parse"
  | notDocument => "top level must be a mapping"
  | notName s => "a value of type '" ++ s.name ++ "' is no package name"
  | emptyName => "empty package name"
  | relativeName n => "the package name " ++ Text.quoted n ++ " has no beginning"
  | notRule s => "'" ++ s.name ++ "' object has no attribute 'meta'"
  | crashed m => m
  | nullPath => "a path with a null character"
  | notJson s => "Object of type " ++ s.lastName ++ " is not JSON serializable"
  | notJsonKey s => "keys must be str, int, float, bool or None, not " ++ s.lastName
  | unread _ m => m

def kind : Fault → FailureKind
  | notSequence _ | notKey _ | notText _ | notPair _ | notPattern _ | unordered _ _ | notWritable _
  | relativeName _ | notJson _ | notJsonKey _ => .type
  | pairLength _ _ | brokenOutput | notDocument | emptyName | nullPath => .value
  | notMap _ _ | missingNode | notName _ | notRule _ => .attribute
  | emptyElse => .index
  | endless => .recursion
  | crashed _ => .runtime
  | unread k _ => k

end Fault
end Asyncify
