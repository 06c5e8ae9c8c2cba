import Asyncify.Rule
import Asyncify.Text.Wildcard
import Asyncify.Value.Reading

/-! The rules at hand, in the order they run. -/
namespace Asyncify

/-- Rules in the order they run, and an index of them by their ids. -/
structure Registry where
  rules : List Rule := []
  index : List (String × Rule) := []

namespace Registry

variable (r : Registry)

def ids : List String := r.index.map (·.1)

def get? (id : String) : Option Rule := r.index.lookup id

def contains (id : String) : Bool := (r.index.lookup id).isSome

def size : Nat := r.rules.length

/-- Adds a rule at the end. The first rule of an id stays; a later one is only noted. -/
def register (rule : Rule) : Traced Registry := do
  if r.contains rule.info.id then
    Traced.debug ("Rule " ++ rule.info.id ++ " already registered")
    return r
  return { rules := r.rules ++ [rule], index := r.index ++ [(rule.info.id, rule)] }

def registerAll (r : Registry) : List Rule → Traced Registry
  | [] => return r
  | x :: xs => do registerAll (← r.register x) xs

/-- The id fits one of the patterns. They are tried in order, up to the first that fits. -/
def matchesAny (id : String) : List Value → Except Fault Bool
  | [] => .ok false
  | .text p :: ps => if Wildcard.isMatch p id then .ok true else matchesAny id ps
  | v :: _ => .error (.notPattern v.shape)

/-- The rule is selected: not switched off, and its id fits a pattern. -/
def selects (patterns : Value) (disabled : List Key) (id : String) : Except Fault Bool :=
  if disabled.any fun d => d.same (.text id) then .ok false
  else do matchesAny id (← patterns.members)

def filterRules (keep : String → Except Fault Bool) : List Rule → Except Fault (List Rule)
  | [] => .ok []
  | x :: xs => do
    let kept ← keep x.info.id
    let rest ← filterRules keep xs
    return if kept then x :: rest else rest

/-- The rules selected by some pattern and not switched off, in the order they run. Without
patterns, what is switched off is not looked at. -/
def enabled (patterns disabled : Value) : Except Fault (List Rule) :=
  if !patterns.isSet then .ok []
  else do
    let off ← (← disabled.members).mapM Value.key
    filterRules (selects patterns off) r.rules

end Registry
end Asyncify
