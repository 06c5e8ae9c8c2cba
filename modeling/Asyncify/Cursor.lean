import Asyncify.Call
import Asyncify.Draft
import Asyncify.Text.Word
import Asyncify.Trace
import Asyncify.Value.Display

/-! Identifiers that hold database cursors. Names count for the whole file, without scopes. -/
namespace Asyncify

/-- The methods that return a cursor, and the identifiers bound to such a call. -/
structure Cursors where
  queryMethods : List String
  names : List String := []

namespace Cursors

def defaultQueryMethods : List String := ["find", "findOne"]

/-- A call of a query method on any receiver. -/
def isQuery (c : Cursors) (doc : Document) (p : Place) : Bool :=
  match doc.methodName? p with
  | some m => c.queryMethods.contains m
  | none => false

/-- The target and the value of a declaration or an assignment. -/
def binding? (p : Place) : Option (Place × Place) :=
  match p.kind with
  | .variableDeclarator => do return (← p.child? .name, ← p.child? .value)
  | .assignment => do return (← p.child? .left, ← p.child? .right)
  | _ => none

/-- The identifier that a place binds to a query call. -/
def boundName? (c : Cursors) (doc : Document) (p : Place) : Option String :=
  match binding? p with
  | some (target, value) =>
    if target.kind = .identifier && c.isQuery doc value then some (doc.textOf target.node) else none
  | none => none

/-- All identifiers that the document binds to query calls, in order and without repetition. -/
def boundNames (c : Cursors) (doc : Document) : List String :=
  ((doc.places.filterMap (c.boundName? doc)).eraseDups).mergeSort fun a b => a ≤ b

/-- Looks up the cursors of a document, with a note of them. -/
def collect (queryMethods : List String) (doc : Document) : Traced Cursors := do
  let c : Cursors := { queryMethods }
  let names := c.boundNames doc
  unless names.isEmpty do
    Traced.debug ("Cursor variables: " ++ (Value.list (names.map .text)).quoted)
  return { c with names }

/-- A cursor method on this receiver may be renamed: it is a query call, or a known identifier. -/
def permits (c : Cursors) (doc : Document) (receiver : Place) : Bool :=
  c.isQuery doc receiver ||
    receiver.kind = .identifier && c.names.contains (doc.textOf receiver.node)

end Cursors

/-- The body of the function, as the draft stands, awaits something or calls an `Async` function. -/
def Draft.waits (d : Draft) (callback : Place) : Except Fault Bool :=
  match callback.child? .body with
  | none => .ok false
  | some body => (d.render body.node).map Text.waits

end Asyncify
