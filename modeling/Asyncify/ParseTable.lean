import Asyncify.Pipeline

/-! Parses that are known beforehand. A run that meets an unknown text names it, so that its parse
can be fetched and the run repeated. -/
namespace Asyncify

/-- Known parses by grammar and text. -/
abbrev ParseTable := List ((Grammar × String) × Node)

namespace ParseTable

variable {α : Type}

/-- Looks a parse up. What stands for an unknown one does not matter. -/
def parse (t : ParseTable) : Parse := fun g s => (t.lookup (g, s)).getD default

/-- The first text that a run wanted parsed and the table does not know. -/
def missing? (t : ParseTable) (events : List Event) : Option (Grammar × String) :=
  events.findSome? fun
    | .parsed g s => if (t.lookup (g, s)).isSome then none else some (g, s)
    | .log _ => none

/-- Repeats a run with parses given in the order in which they are first wanted. -/
def runWith (f : Parse → Traced α) (t : ParseTable) : List Node → Traced α
  | [] => f t.parse
  | n :: ns =>
    match t.missing? (f t.parse).events with
    | some key => runWith f (t ++ [(key, n)]) ns
    | none => f t.parse

end ParseTable
end Asyncify
