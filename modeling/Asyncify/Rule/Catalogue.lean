import Asyncify.Callback
import Asyncify.Rule.Collections
import Asyncify.Rule.CursorMethods
import Asyncify.Rule.FastRender
import Asyncify.Rule.MethodCalls
import Asyncify.Rule.Roles

/-! The report of callbacks that are left, and the catalogue of all rules. -/
namespace Asyncify.Rule

def callbackWarning (path : String) (doc : Document) (p : Place) : String :=
  let pos := doc.position p.node
  path ++ ":" ++ toString pos.line ++ ":" ++ toString pos.column ++ ": " ++
    doc.textOf? (p.child? .function) ++
    "() still takes an error-first callback; convert it to await by hand"

/-- Edits nothing: every call that still takes an error-first callback is reported. -/
def callbackReport : Sweep where
  info := {
    id := "callback-to-await"
    description := "Report remaining (err, result) callbacks that need manual conversion to await"
    category := "callbacks" }
  prepare pass := return {
    step := fun p => do
      if p.kind = .call && (Callback.of? pass.doc p).isSome then
        Traced.warn (callbackWarning pass.path pass.doc p)
      return {} }

/-- The built-in rules in the order they run: collections and cursors first, so that the others see
their awaits, and the report last. -/
def sweeps : List Sweep :=
  [asyncApi, cursorAsync, callAsync, userAsync, indexAsync, fastRenderAsync, rolesMigration,
    callbackReport]

def catalogue : List Rule := sweeps.map Sweep.rule

end Asyncify.Rule
