import Asyncify.Callback
import Asyncify.Rule.Rename

/-! Calls of server methods. -/
namespace Asyncify.Rule

/-- Renames a call. An error-first callback is folded into a `try` statement; any other call is
awaited with its callback. -/
def methodCallStep (r : Renaming) (folds : Bool) (indent : Value) (p : Place) : Run Fault Step := do
  match ← r.rename? p with
  | none => return {}
  | some e =>
    let callback := if folds then Callback.of? r.doc p else none
    let fold ← match callback with
      | some cb => r.doc.foldEdit p cb indent.indentUnit
      | none => pure none
    return ⟨[e], []⟩ ++
      match fold with
      | some f => ⟨[f], p.promotion?.toList⟩
      | none => Step.ofAwait r.doc p

def callAsync : Sweep where
  info := {
    id := "meteor-call-async"
    description :=
      "Convert Meteor.call() to await Meteor.callAsync(), unfolding error-first callbacks"
    category := "meteor" }
  prepare pass := do
    let r : Renaming := {
      doc := pass.doc
      table := pass.methods (.ofNames ["call"])
      accepts := pass.doc.isIdentifier "Meteor" }
    let folds := (pass.option "decompose_callbacks" (.bool true)).isSet
    return { step := methodCallStep r folds (pass.option "indent" (.text "  ")) }

end Asyncify.Rule
