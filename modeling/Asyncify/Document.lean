import Asyncify.Text.Lines
import Asyncify.Text.Position
import Asyncify.Tree.Place

/-! A source text with its parse tree. -/
namespace Asyncify

/-- How the columns of reported positions are counted. -/
inductive Columns where
  | characters | bytes
  deriving DecidableEq, Repr

structure Document where
  chars : List Char
  root : Node
  columns : Columns := .characters

namespace Document

/-- A document whose nodes are numbered in document order. -/
def ofParse (text : String) (root : Node) : Document :=
  { chars := text.toList, root := root.number }

variable (doc : Document)

def text : String := String.ofList doc.chars

def slice (start stop : Nat) : String := String.ofList (Text.slice doc.chars start stop)

/-- The source text of a node, without any edit. -/
def textOf (n : Node) : String := doc.slice n.start n.stop

/-- The text of a place, if there is one. -/
def textOf? (p : Option Place) : String :=
  match p with
  | some q => doc.textOf q.node
  | none => ""

/-- The places of the document, in document order. -/
def places : List Place := (Place.ofRoot doc.root).walk

/-- The line ending of the document: CRLF if it has one anywhere. -/
def newline : String := if Text.hasCRLF doc.chars then "\r\n" else "\n"

/-- The indentation of the line that a node starts on. -/
def lineIndent (n : Node) : String :=
  String.ofList (Text.indentation (Text.lastLine (Text.slice doc.chars 0 n.start)))

def position (n : Node) : Position :=
  match doc.columns with
  | .characters => .ofOffset doc.chars n.start
  | .bytes => .ofOffsetBytes doc.chars n.start

end Document
end Asyncify
