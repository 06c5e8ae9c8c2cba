import Asyncify.Tree.Kind

/-! Nodes of a parsed source text. -/
namespace Asyncify

/-- What a node says about itself. `start` and `stop` are byte offsets in the source;
`fields` are the roles under which the parent finds the node. -/
structure NodeInfo where
  id : Nat := 0
  symbol : String
  named : Bool
  missing : Bool
  hasError : Bool
  fields : List Field
  start : Nat
  stop : Nat
  deriving DecidableEq, Repr, Inhabited

/-- A node with all of its children, named ones and plain tokens, in source order. -/
inductive Node where
  | mk (info : NodeInfo) (children : List Node)
  deriving Inhabited

namespace Node

def info : Node → NodeInfo
  | mk i _ => i

def children : Node → List Node
  | mk _ cs => cs

def id (n : Node) : Nat := n.info.id
def symbol (n : Node) : String := n.info.symbol
def start (n : Node) : Nat := n.info.start
def stop (n : Node) : Nat := n.info.stop
def kind (n : Node) : Kind := .ofSymbol n.symbol

/-- The first child in the given role. -/
def child? (n : Node) (f : Field) : Option Node :=
  n.children.find? fun c => c.info.fields.contains f

mutual

/-- Number of nodes in the subtree. -/
def size : Node → Nat
  | mk _ cs => sizes cs + 1

def sizes : List Node → Nat
  | [] => 0
  | n :: ns => size n + sizes ns

end

mutual

/-- Numbers the subtree in document order from `next`; gives the first number left over. -/
def numberFrom (next : Nat) : Node → Node × Nat
  | mk i cs =>
    let (ds, after) := numberAll (next + 1) cs
    (mk { i with id := next } ds, after)

def numberAll (next : Nat) : List Node → List Node × Nat
  | [] => ([], next)
  | n :: ns =>
    let (m, after) := numberFrom next n
    let (ms, last) := numberAll after ns
    (m :: ms, last)

end

/-- Gives every node its number in document order, so that no two share one. -/
def number (n : Node) : Node := (numberFrom 0 n).1

@[simp] theorem info_mk (i : NodeInfo) (cs : List Node) : (mk i cs).info = i := rfl

@[simp] theorem children_mk (i : NodeInfo) (cs : List Node) : (mk i cs).children = cs := rfl

@[simp] theorem id_mk (i : NodeInfo) (cs : List Node) : (mk i cs).id = i.id := rfl

@[simp] theorem symbol_mk (i : NodeInfo) (cs : List Node) : (mk i cs).symbol = i.symbol := rfl

@[simp] theorem start_mk (i : NodeInfo) (cs : List Node) : (mk i cs).start = i.start := rfl

@[simp] theorem stop_mk (i : NodeInfo) (cs : List Node) : (mk i cs).stop = i.stop := rfl

theorem sizes_append (ms ns : List Node) : sizes (ms ++ ns) = sizes ms + sizes ns := by
  induction ms with
  | nil => simp [sizes]
  | cons m ms ih => simp [sizes, ih, Nat.add_assoc]

theorem size_eq (n : Node) : n.size = sizes n.children + 1 := by
  cases n
  simp [size]

end Node
end Asyncify
