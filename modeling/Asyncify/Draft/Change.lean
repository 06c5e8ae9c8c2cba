import Asyncify.Draft

/-! The report of a draft's edits. -/
namespace Asyncify

inductive ChangeKind where
  | add | modify
  deriving DecidableEq, Repr

def ChangeKind.name : ChangeKind → String
  | add => "add"
  | modify => "modify"

/-- One reported edit. An addition has no old code; the new code of a replacement by an option's
value is that value. -/
structure Change where
  kind : ChangeKind
  description : String
  position : Position
  oldCode : Option String
  newCode : Value

namespace Draft

variable (d : Draft)

def newCode (e : Edit) : Except Fault Value :=
  match e.action with
  | .replace (.literal v) => .ok v
  | .replace r => (r.write d.render d.doc.newline).map .text
  | .insert text => .ok (.text (Text.strip text))
  | .wrap before after => .ok (.text (Text.strip before ++ Text.strip after))

def change (e : Edit) : Except Fault Change := do
  let code ← d.newCode e
  return {
    kind := if e.replacement?.isSome then .modify else .add
    description := e.description
    position := d.doc.position e.node
    oldCode := if e.replacement?.isSome then some (d.doc.textOf e.node) else none
    newCode := code }

/-- The edits that show in the text: those not inside a replaced node. -/
def surviving : List Edit := d.edits.filter fun e => !d.isDetached e.place

def changes : Except Fault (List Change) := d.surviving.mapM d.change

end Draft
end Asyncify
