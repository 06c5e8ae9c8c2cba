import Asyncify.Document

/-! The shape of calls and functions: receivers, methods, arguments and parameters. -/
namespace Asyncify

namespace Place

variable (p : Place)

/-- The receiver and the property name of `receiver.name(...)`. Computed access `a[b]()` has
none. -/
def memberCall? : Option (Place × Place) :=
  if p.kind = .call then
    match p.child? .function with
    | some callee =>
      if callee.kind = .member then
        match callee.child? .object, callee.child? .property with
        | some receiver, some name =>
          if name.kind = .propertyName then some (receiver, name) else none
        | _, _ => none
      else none
    | none => none
  else none

def callArguments : List Place :=
  match p.child? .arguments with
  | some args => args.parts
  | none => []

def isFunctionLiteral : Bool := p.kind.isFunctionLiteral

/-- The parameters of a function; an arrow function may have one without parentheses. -/
def functionParameters : List Place :=
  match p.child? .parameter with
  | some single => [single]
  | none =>
    match p.child? .parameters with
    | some ps => ps.parts
    | none => []

/-- The first function among the arguments of a call. -/
def firstFunction? (args : List Place) : Option Place := args.find? isFunctionLiteral

end Place

namespace Document

variable (doc : Document)

/-- The method that a member call invokes. -/
def methodName? (p : Place) : Option String := p.memberCall?.map fun c => doc.textOf c.2.node

/-- The identifier that a method is invoked on. -/
def receiverName? (p : Place) : Option String :=
  match p.memberCall? with
  | some (receiver, _) =>
    if receiver.kind = .identifier then some (doc.textOf receiver.node) else none
  | none => none

/-- The name of a plain parameter. Patterns, defaults and rest parameters have none; a type
annotation does not matter. -/
def parameterName? (p : Place) : Option String :=
  if p.kind = .identifier then some (doc.textOf p.node)
  else if p.node.symbol = "required_parameter" ∧ (p.child? .value).isNone then
    match p.child? .pattern with
    | some q => if q.kind = .identifier then some (doc.textOf q.node) else none
    | none => none
  else none

/-- A short name for a function. -/
def functionLabel (p : Place) : String :=
  match p.child? .name <|> p.child? .key with
  | some n => doc.textOf n.node
  | none => "anonymous function"

end Document
end Asyncify
