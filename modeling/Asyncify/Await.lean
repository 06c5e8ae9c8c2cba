import Asyncify.Call
import Asyncify.Draft
import Asyncify.Trace

/-! Where `await` may stand, and what it asks of the function around it. -/
namespace Asyncify

namespace Place

variable (p : Place)

/-- Functions, methods, and object properties whose value is a function. -/
def isFunctionLike : Bool :=
  p.kind.isFunction ||
    p.kind = .property && ((p.child? .value).map isFunctionLiteral).getD false

/-- The operand of an `await`, through any number of parentheses. -/
def awaitedBy : List Node → Bool
  | [] => false
  | n :: ns =>
    if n.kind = .parenthesized then awaitedBy ns else n.kind = .awaited

def isAwaited : Bool := awaitedBy p.above

def enclosingFunction? : Option Place := p.ancestors.find? isFunctionLike

/-- The node that carries the `async` keyword: the value of an object property, else the
function. -/
def asyncTarget? : Option Place := if p.kind = .property then p.child? .value else some p

def isAsync : Bool :=
  match p.asyncTarget? with
  | some t => t.node.children.any fun c => c.symbol = "async"
  | none => false

def isAccessor : Bool := p.node.children.any fun c => c.symbol = "get" || c.symbol = "set"

/-- The place before which `async` goes: in a method behind the modifiers, before `*` and the
name. -/
def asyncAnchor? : Option Place :=
  match p.asyncTarget? with
  | some t =>
    if t.kind = .method then (t.children.find? fun c => c.node.symbol = "*") <|> t.child? .name
    else some t
  | none => none

end Place

/-- A surrounding in which `await` is an error. -/
inductive Barrier where
  | classField
  | parameterList
  | accessor (method : Place)

namespace Place

/-- An ancestor decides whether `await` may stand below it, or leaves that to the next one. -/
inductive Verdict where
  | allowed
  | refused (barrier : Barrier)
  | undecided

def verdict (p : Place) : Verdict :=
  if p.kind = .field then .refused .classField
  else if p.kind = .parameters then .refused .parameterList
  else if p.isFunctionLike then
    match p.asyncTarget? with
    | some t => if t.kind = .method && t.isAccessor then .refused (.accessor t) else .allowed
    | none => .allowed
  else .undecided

def firstBarrier? : List Place → Option Barrier
  | [] => none
  | p :: ps =>
    match p.verdict with
    | .allowed => none
    | .refused b => some b
    | .undecided => firstBarrier? ps

/-- What keeps `await` from standing at a place, if anything does. -/
def barrier? (p : Place) : Option Barrier := firstBarrier? p.ancestors

end Place

namespace Document

variable (doc : Document)

def barrierWarning (p : Place) (b : Barrier) : String :=
  "Cannot await " ++ doc.textOf p.node ++
    (match b with
      | .classField => " in a class field"
      | .parameterList => " in a parameter list"
      | .accessor m => " in accessor " ++ doc.functionLabel m) ++
    " (line " ++ toString (doc.position p.node).line ++ ")"

/-- Says whether `await` may stand at a place, with a warning if not. -/
def awaitAllowed (p : Place) : Traced Bool :=
  match p.barrier? with
  | none => return true
  | some b => do
    Traced.warn (doc.barrierWarning p b)
    return false

/-- `await a().b` would wait for `a().b`, so the call needs parentheses there. So does the base of
`**`, which cannot be a unary expression. -/
def needsParentheses (p : Place) : Bool :=
  match p.parent? with
  | none => false
  | some q =>
    let holds (f : Field) : Bool := (q.child? f).map (·.id) = some p.id
    if q.kind = .member || q.kind = .subscript then holds .object
    else if q.kind = .binary && doc.textOf? (q.child? .operator) = "**" then holds .left
    else if q.kind = .call then holds .function
    else false

/-- The edit that puts `await` before a call. -/
def awaitEdit (p : Place) : Edit :=
  if doc.needsParentheses p then ⟨p, .wrap "(await " ")", "Added await"⟩
  else ⟨p, .insert "await ", "Added await"⟩

end Document
end Asyncify
