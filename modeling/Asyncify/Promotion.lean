import Asyncify.Await

/-! Functions that have to become async. They are queued while a pass runs and changed at its end,
so that each gets the keyword once, however many calls in it are awaited. -/
namespace Asyncify

/-- Functions waiting for `async`, in the order of their arrival, each once. -/
abbrev Queue := List Place

namespace Queue

def contains (q : Queue) (p : Place) : Bool := q.any fun x => x.id = p.id

def add (q : Queue) (p : Place) : Queue := if q.contains p then q else q ++ [p]

def addAll (q : Queue) (ps : List Place) : Queue := ps.foldl add q

end Queue

namespace Place

/-- The function around a place, if it still has to become async. -/
def promotion? (p : Place) : Option Place := p.enclosingFunction?.filter fun f => !f.isAsync

end Place

/-- What a pass does at one place. -/
structure Step where
  edits : List Edit := []
  promoted : List Place := []

namespace Step

def append (a b : Step) : Step := ⟨a.edits ++ b.edits, a.promoted ++ b.promoted⟩

instance : Append Step := ⟨append⟩

/-- Awaits a call that is not awaited yet, and asks for the function around it. -/
def ofAwait (doc : Document) (p : Place) : Step :=
  if p.isAwaited then {} else ⟨[doc.awaitEdit p], p.promotion?.toList⟩

end Step

namespace Document

variable (doc : Document)

/-- The edit that makes a function async. None if it is already, or if it is a getter or setter. -/
def asyncEdit (f : Place) : Run Fault (Option Edit) := do
  if f.isAsync then return none
  let refused := f.asyncTarget?.filter fun t => t.kind = .method && t.isAccessor
  match refused with
  | some t =>
    Traced.warn ("Cannot make accessor " ++ doc.functionLabel t ++ " async (line " ++
      toString (doc.position t.node).line ++ ")")
    return none
  | none =>
    match f.asyncAnchor? with
    | some a => return some ⟨a, .insert "async ", "Made " ++ doc.functionLabel f ++ " async"⟩
    | none => throw .missingNode

end Document

namespace Draft

/-- Makes the queued functions async, one after the other. Gives the new draft and the number of
functions whose change is reported. -/
def promoteAll (d : Draft) : List Place → Run Fault (Draft × Nat)
  | [] => return (d, 0)
  | f :: fs => do
    match ← d.doc.asyncEdit f with
    | none => promoteAll d fs
    | some e =>
      let (d', n) ← promoteAll (d.record e) fs
      return (d', if d.isDetached f then n else n + 1)

end Draft
end Asyncify
