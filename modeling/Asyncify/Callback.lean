import Asyncify.Await

/-! Error-first callbacks, and their folding into a `try` statement around the awaited call. -/
namespace Asyncify

/-- A callback with parameters for an error and a result. -/
structure Callback where
  function : Place
  errorName : String
  resultName : String

namespace Callback

/-- Letters without regard to case. The long s counts as an s. -/
def foldCase (s : String) : String :=
  String.ofList (s.toList.map fun c => if c = 'ſ' then 's' else c.toLower)

-- A line feed at the end is not looked for: a name is the text of an identifier, and has none.
def isErrorName (s : String) : Bool := ["err", "error"].contains (foldCase s)

def isResultName (s : String) : Bool := ["result", "data", "res"].contains (foldCase s)

/-- The last argument of a call, if it is a function of exactly `(error, result)`. -/
def of? (doc : Document) (call : Place) : Option Callback :=
  match call.callArguments.getLast? with
  | none => none
  | some function =>
    if function.isFunctionLiteral then
      match function.functionParameters with
      | [e, r] =>
        match doc.parameterName? e, doc.parameterName? r with
        | some errorName, some resultName =>
          if isErrorName errorName && isResultName resultName then
            some ⟨function, errorName, resultName⟩
          else none
        | _, _ => none
      | _ => none
    else none

end Callback

/-- The statement whose whole expression is the call. -/
def Place.statement? (call : Place) : Option Place :=
  call.parent?.filter fun q => q.kind = .expressionStatement

namespace Document

variable (doc : Document)

/-- A test of the error parameter alone: `if (error) ...`. -/
def isErrorCheck (errorName : String) (p : Place) : Bool :=
  p.kind = .ifStatement &&
    match p.child? .condition with
    | some c =>
      c.kind = .parenthesized &&
        match c.parts with
        | [x] => x.kind = .identifier && doc.textOf x.node = errorName
        | _ => false
    | none => false

def moved (branch : Branch) (p : Place) : Moved :=
  { branch, node := .ok p.node, width := (doc.lineIndent p.node).length }

def lost (branch : Branch) (fault : Fault) : Moved := { branch, node := .error fault, width := 0 }

/-- The statements of one arm of an `if`: those of a block, or the one statement. -/
def armStatements (branch : Branch) : Option Place → List Moved
  | none => [lost branch .missingNode]
  | some p =>
    let statements (q : Place) :=
      if q.kind = .block then q.namedChildren.map (doc.moved branch) else [doc.moved branch q]
    if p.kind = .elseClause then
      match p.parts.getLast? with
      | some q => statements q
      | none => [lost branch .emptyElse]
    else statements p

/-- A test of the error sends its first arm to the recovery and the other to the attempt. Every
other statement belongs to the attempt. -/
def sortStatement (errorName : String) (p : Place) : List Moved :=
  if doc.isErrorCheck errorName p then
    doc.armStatements .recover (p.child? .consequence) ++
      match p.child? .alternative with
      | some q => doc.armStatements .attempt (some q)
      | none => []
  else [doc.moved .attempt p]

/-- The statements of a callback's body. An arrow function may have one expression instead. -/
def callbackBody (errorName : String) : Option Place → List Moved
  | none => [lost .attempt .missingNode]
  | some body =>
    if body.kind = .block then body.namedChildren.flatMap (doc.sortStatement errorName)
    else [{ doc.moved .attempt body with ending := ";" }]

/-- The `try` statement for a call statement with an error-first callback. -/
def fold (statement call : Place) (cb : Callback) (indent : Except Fault String) : Fold :=
  let base := doc.lineIndent statement.node
  { base
    inner := indent.map (base ++ ·)
    errorName := cb.errorName
    resultName := cb.resultName
    callee := match call.child? .function with
      | some c => .ok c.node
      | none => .error .missingNode
    args := call.callArguments.dropLast.map (·.node)
    body := doc.callbackBody cb.errorName (cb.function.child? .body) }

/-- The edit that folds a call with its callback. Only a call that is a statement of its own is
folded. -/
def foldEdit (call : Place) (cb : Callback) (indent : Except Fault String) : Traced (Option Edit) :=
  match call.statement? with
  | some s =>
    return some ⟨s, .replace (.folded (doc.fold s call cb indent)),
      "Converted (" ++ cb.errorName ++ ", " ++ cb.resultName ++ ") callback to try/catch"⟩
  | none => do
    Traced.debug ("Callback at line " ++ toString (doc.position call.node).line ++
      " is not a bare statement; keeping it")
    return none

end Document

/-- The indentation unit given by an option. -/
def Value.indentUnit : Value → Except Fault String
  | .text s => .ok s
  | v => .error (.notText v.shape)

end Asyncify
