import Asyncify.Callback
import Asyncify.Cursor
import Asyncify.Promotion

/-! What the rules see in a document: its calls and its functions. -/
namespace Asyncify

/-- A call as the rules see it. -/
structure CallView where
  place : Place
  position : Position
  method : Option String
  receiver : Option String
  args : List Place
  awaited : Bool
  allowed : Bool
  enclosing : Option Place
  query : Bool
  permits : Bool
  callback : Option Callback

/-- A function as the rules see it. -/
structure FunctionView where
  place : Place
  label : String
  async : Bool
  params : List (Option String)
  waits : Bool

structure Survey where
  cursors : Cursors
  calls : List CallView
  functions : List FunctionView

namespace Survey

def viewCall (doc : Document) (c : Cursors) (p : Place) : Traced CallView := do
  let allowed ← doc.awaitAllowed p
  return {
    place := p
    position := doc.position p.node
    method := doc.methodName? p
    receiver := doc.receiverName? p
    args := p.callArguments
    awaited := p.isAwaited
    allowed
    enclosing := p.enclosingFunction?
    query := c.isQuery doc p
    permits := (p.memberCall?.map fun m => c.permits doc m.1).getD false
    callback := Callback.of? doc p }

def viewFunction (doc : Document) (p : Place) : Except Fault FunctionView := do
  let waits ← Draft.waits { doc } p
  return {
    place := p
    label := doc.functionLabel p
    async := p.isAsync
    params := p.functionParameters.map doc.parameterName?
    waits }

/-- All calls and functions of a document, in document order. -/
def ofDocument (doc : Document) (queryMethods : List String) : Run Fault Survey := do
  let cursors ← Cursors.collect queryMethods doc
  let calls ← (doc.places.filter fun p => p.kind = .call).mapM fun p => viewCall doc cursors p
  let functions ← (doc.places.filter Place.isFunctionLike).mapM fun p => viewFunction doc p
  return { cursors, calls, functions }

end Survey
end Asyncify
