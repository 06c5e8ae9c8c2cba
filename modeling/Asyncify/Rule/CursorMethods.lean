import Asyncify.Cursor
import Asyncify.Rule.Rename

/-! Cursor methods. The same names on other receivers, such as arrays, stay. -/
namespace Asyncify.Rule

/-- Methods that call back for every document. -/
def iteratingMethods : List String := ["map", "forEach"]

/-- The callback of a renamed iterating call, if its body already waits for something. -/
def waitingCallback? (r : Renaming) (d : Draft) (p : Place) : Except Fault (Option Place) := do
  match ← r.candidate? p with
  | none => return none
  | some (name, _) =>
    if d.isReplaced name.node && iteratingMethods.contains (d.doc.textOf name.node) then
      match Place.firstFunction? p.callArguments with
      | none => return none
      | some callback =>
        if callback.isAsync then return none
        return if ← d.waits callback then some callback else none
    else return none

def cursorAsync : Sweep where
  info := {
    id := "cursor-async"
    description := "Convert cursor count/fetch/forEach/map calls to awaited *Async calls"
    category := "cursors" }
  prepare pass := do
    let methods ← (pass.option "query_methods"
      (.list (Cursors.defaultQueryMethods.map .text))).names
    let cursors ← Cursors.collect methods pass.doc
    let r : Renaming := {
      doc := pass.doc
      table := pass.methods (.ofNames ["count", "fetch", "forEach", "map"])
      accepts := cursors.permits pass.doc }
    return {
      step := r.step
      late := fun d => (d.doc.places.mapM (waitingCallback? r d)).map fun cs => cs.filterMap (·) }

end Asyncify.Rule
