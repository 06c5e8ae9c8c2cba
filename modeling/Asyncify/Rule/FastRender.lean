import Asyncify.Rule

/-! Route handlers that render ahead. -/
namespace Asyncify.Rule

def isSubscribe (doc : Document) (p : Place) : Bool :=
  match p.memberCall? with
  | some (receiver, name) => receiver.kind = .thisObject && doc.textOf name.node = "subscribe"
  | none => false

def isOnFastRender (doc : Document) (p : Place) : Bool := doc.receiverName? p = some "FastRender"

def isOnAllRoutes (doc : Document) (p : Place) : Bool :=
  isOnFastRender doc p && doc.methodName? p = some "onAllRoutes"

/-- The handler of all routes becomes async even if it waits for nothing yet. A subscription inside
any call on `FastRender` is awaited. -/
def fastRenderStep (doc : Document) (p : Place) : Traced Step := do
  if isOnAllRoutes doc p then
    return { promoted := (p.callArguments.head?.filter fun f => f.isFunctionLiteral &&
      !f.isAsync).toList }
  else if isSubscribe doc p && p.ancestors.any (isOnFastRender doc) then
    if ← doc.awaitAllowed p then return Step.ofAwait doc p
  return {}

def fastRenderAsync : Sweep where
  info := {
    id := "fastrender-async"
    description :=
      "Await this.subscribe() inside FastRender handlers and make onAllRoutes handlers async"
    category := "fastrender" }
  prepare pass := return { step := fun p => fastRenderStep pass.doc p }

end Asyncify.Rule
