import Asyncify.Draft.Change
import Asyncify.Promotion

/-! Rules, and the traversal that all built-in rules share. -/
namespace Asyncify

structure RuleInfo where
  id : String
  description : String
  category : String := "async"
  languages : List String := ["javascript", "typescript"]
  deriving DecidableEq, Repr

/-- What a rule is given: one file, parsed, and the options set for the rule. -/
structure Pass where
  path : String
  doc : Document
  options : Entries Value

/-- What a rule gives back: the new text if anything was edited, and the report of its edits. -/
structure Outcome where
  output : Option String
  changes : Except Fault (List Change)

structure Rule where
  info : RuleInfo
  visit : Pass → Run Fault Outcome

/-- The option of that name, or the given value if it is not set. -/
def Pass.option (pass : Pass) (name : String) (unset : Value) : Value :=
  (pass.options.get? (.text name)).getD unset

/-- One way through a document: what to do at each place, and which functions to promote besides
once all other edits are known. -/
structure Traversal where
  step : Place → Run Fault Step
  late : Draft → Except Fault (List Place) := fun _ => .ok []

namespace Traversal

/-- The draft after a traversal and the number of functions made async. -/
def run (t : Traversal) (doc : Document) : Run Fault (Draft × Nat) := do
  let steps ← doc.places.mapM t.step
  let draft : Draft := { doc, edits := steps.flatMap (·.edits) }
  let late ← t.late draft
  draft.promoteAll (Queue.addAll [] (steps.flatMap (·.promoted) ++ late))

end Traversal

def Rule.outcome (d : Draft) : Run Fault Outcome := do
  if d.edits.isEmpty then return ⟨none, d.changes⟩
  return ⟨some (← d.source), d.changes⟩

/-- A rule that makes one way through the document, which it gets ready for each pass. -/
structure Sweep where
  info : RuleInfo
  prepare : Pass → Run Fault Traversal

namespace Sweep

/-- The draft that a pass leaves and the number of functions it made async. -/
def draft (s : Sweep) (pass : Pass) : Run Fault (Draft × Nat) := do
  let t ← s.prepare pass
  t.run pass.doc

def rule (s : Sweep) : Rule where
  info := s.info
  visit pass := do
    Traced.debug (s.info.id ++ ": visiting " ++ pass.path ++ " (" ++
      (Grammar.ofPath pass.path).name ++ ")")
    let (draft, promoted) ← s.draft pass
    if 0 < promoted then
      Traced.debug (s.info.id ++ ": made " ++ toString promoted ++ " functions async in " ++
        pass.path)
    Rule.outcome draft

end Sweep

/-- A rule that leaves every document as it is. -/
def Rule.idle (info : RuleInfo) : Rule :=
  Sweep.rule { info, prepare := fun _ => return { step := fun _ => return {} } }

end Asyncify
