import Asyncify.Rule
import Asyncify.Value.Reading

/-! Renaming a method to its asynchronous form and awaiting the call. -/
namespace Asyncify

def asyncName (name : String) : String := name ++ "Async"

/-- A table from method names to their new names. -/
abbrev MethodTable := Entries Value

namespace MethodTable

def ofList (methods : List (String × String)) : MethodTable :=
  Entries.ofList (methods.map fun m => (.text m.1, .text m.2))

def ofNames (names : List String) : MethodTable := ofList (names.map fun n => (n, asyncName n))

/-- A sequence of names stands for entries with their `Async` form. -/
def namedEntries (extra : Value) : Except Fault (List (Key × Value)) := do
  (← extra.members).mapM fun n => do return (← n.key, .text (asyncName n.display))

/-- Adds the configured methods to a table: a map as it is, a sequence of names by their `Async`
form. -/
def extend (table : MethodTable) (extra : Value) : Except Fault MethodTable :=
  if !extra.isSet then .ok table
  else
    match extra with
    | .map es => .ok (Entries.putAll table es.toList)
    | _ => (namedEntries extra).map (Entries.putAll table)

/-- The entries in the order of their names. -/
def sorted (table : MethodTable) : Except Fault (List (Key × Value)) := do
  let keys ← Key.sort table.keys.toList
  return keys.filterMap fun k => (Entries.get? table k).map (k, ·)

end MethodTable

/-- Calls to rename: their methods, and the receivers they are made on. -/
structure Renaming where
  doc : Document
  table : Except Fault MethodTable
  accepts : Place → Bool := fun _ => true

namespace Renaming

variable (r : Renaming)

/-- The property of a call to one of the methods on an accepted receiver, with the new name. A table
that cannot be read fails at the first member call. -/
def candidate? (p : Place) : Except Fault (Option (Place × Value)) :=
  match p.memberCall? with
  | none => .ok none
  | some (receiver, name) => do
    let table ← r.table
    return if r.accepts receiver then (table.get? (.text (r.doc.textOf name.node))).map (name, ·)
      else none

def renameEdit (name : Place) (new : Value) : Edit :=
  ⟨name, .replace (.literal new), "Renamed " ++ r.doc.textOf name.node ++ " to " ++ new.display⟩

/-- The edit that renames the call, where `await` may stand. Elsewhere the call stays as it is. -/
def rename? (p : Place) : Run Fault (Option Edit) := do
  match ← r.candidate? p with
  | none => return none
  | some (name, new) =>
    if ← r.doc.awaitAllowed p then return some (r.renameEdit name new) else return none

/-- Renames a call and awaits it. -/
def step (p : Place) : Run Fault Step := do
  match ← r.rename? p with
  | none => return {}
  | some e => return ⟨[e], []⟩ ++ Step.ofAwait r.doc p

end Renaming

namespace Document

/-- The receiver is the identifier of that name. -/
def isIdentifier (doc : Document) (name : String) (p : Place) : Bool :=
  p.kind = .identifier && doc.textOf p.node = name

end Document

/-- The methods of a rule: its own, and those its options add. -/
def Pass.methods (pass : Pass) (table : MethodTable) : Except Fault MethodTable :=
  table.extend (pass.option "methods" .null)

/-- A rule that renames and awaits calls on any receiver. -/
def Sweep.renaming (info : RuleInfo) (table : MethodTable) : Sweep where
  info
  prepare pass :=
    return { step := Renaming.step { doc := pass.doc, table := pass.methods table } }

/-- A rule that renames and awaits calls on the identifier of that name. -/
def Sweep.renamingOn (info : RuleInfo) (table : MethodTable) (receiver : String) : Sweep where
  info
  prepare pass := return {
    step := Renaming.step {
      doc := pass.doc
      table := pass.methods table
      accepts := pass.doc.isIdentifier receiver } }

end Asyncify
