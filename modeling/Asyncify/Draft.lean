import Asyncify.Document
import Asyncify.Draft.Replacement
import Asyncify.Text.Blank

/-! A document with the edits recorded against its nodes. The text itself never changes; writing the
draft out copies every byte that no edit touches. -/
namespace Asyncify

inductive Action where
  | replace (new : Replacement)
  | insert (text : String)
  | wrap (before after : String)

structure Edit where
  place : Place
  action : Action
  description : String

/-- A document and its edits, oldest first. -/
structure Draft where
  doc : Document
  edits : List Edit := []

namespace Edit

def node (e : Edit) : Node := e.place.node

def replacement? (e : Edit) : Option Replacement :=
  match e.action with
  | .replace r => some r
  | _ => none

def before (e : Edit) : String :=
  match e.action with
  | .replace _ => ""
  | .insert text => text
  | .wrap before _ => before

def after (e : Edit) : String :=
  match e.action with
  | .wrap _ after => after
  | _ => ""

end Edit

namespace Draft

variable (d : Draft)

def record (e : Edit) : Draft := { d with edits := d.edits ++ [e] }

def recordAll (es : List Edit) : Draft := { d with edits := d.edits ++ es }

def editsOf (id : Nat) : List Edit := d.edits.filter fun e => e.node.id = id

/-- The last replacement of a node counts. -/
def replacement? (id : Nat) : Option Replacement :=
  ((d.editsOf id).filterMap Edit.replacement?).getLast?

def isReplaced (n : Node) : Bool := (d.replacement? n.id).isSome

/-- Some node around the place has been replaced as a whole. -/
def isDetached (p : Place) : Bool := p.above.any d.isReplaced

/-- What stands before a node, in the order of recording. -/
def before (id : Nat) : String := "".intercalate ((d.editsOf id).map Edit.before)

/-- What stands behind a node, the last recorded first. -/
def after (id : Nat) : String := "".intercalate ((d.editsOf id).map Edit.after).reverse

/-- Some edited node lies within the span of this one. -/
def isTouched (n : Node) : Bool :=
  d.edits.any fun e => n.start ≤ e.node.start && e.node.stop ≤ n.stop

/-- Writes the children of a node with the source text between them. -/
def weave (render : Node → Except Fault String) (cursor : Nat) (children : List Node) (stop : Nat) :
    Except Fault String :=
  match children with
  | [] => .ok (d.doc.slice cursor stop)
  | c :: cs => do
    let text ← render c
    let rest ← weave render c.stop cs stop
    return d.doc.slice cursor c.start ++ text ++ rest

/-- Writes a node with all edits. Nodes are entered one inside the other at most `fuel` deep. -/
def renderWithin : Nat → Node → Except Fault String
  | 0, _ => .error .endless
  | fuel + 1, n => do
    let body ←
      match d.replacement? n.id with
      | some r => r.write (renderWithin fuel) d.doc.newline
      | none =>
        if d.isTouched n then d.weave (renderWithin fuel) n.start n.children n.stop
        else .ok (d.doc.textOf n)
    return d.before n.id ++ body ++ d.after n.id

/-- Writes a node with all edits. A chain of nodes longer than the tree has met some node twice and
would go on for ever. -/
def render (n : Node) : Except Fault String := d.renderWithin d.doc.root.size n

/-- The whole text with all edits. -/
def source : Except Fault String :=
  if d.edits.isEmpty then .ok d.doc.text
  else do
    let body ← d.render d.doc.root
    return d.doc.slice 0 d.doc.root.start ++ body ++
      d.doc.slice d.doc.root.stop (Text.byteLength d.doc.chars)

end Draft
end Asyncify
