import Asyncify.Tree.Node

/-! Places: a node together with the nodes around it. -/
namespace Asyncify

/-- A node and its ancestors, the nearest first. -/
structure Place where
  node : Node
  above : List Node

namespace Place

def id (p : Place) : Nat := p.node.id
def kind (p : Place) : Kind := p.node.kind

def ofRoot (root : Node) : Place := ⟨root, []⟩

def below (p : Place) (n : Node) : Place := ⟨n, p.node :: p.above⟩

def children (p : Place) : List Place := p.node.children.map p.below

def namedChildren (p : Place) : List Place := p.children.filter fun c => c.node.info.named

/-- Named children that are not comments. -/
def parts (p : Place) : List Place := p.namedChildren.filter fun c => c.kind ≠ .comment

def child? (p : Place) (f : Field) : Option Place := (p.node.child? f).map p.below

def parent? (p : Place) : Option Place :=
  match p.above with
  | [] => none
  | n :: ns => some ⟨n, ns⟩

/-- The places of a chain of ancestors. -/
def chain : List Node → List Place
  | [] => []
  | n :: ns => ⟨n, ns⟩ :: chain ns

/-- The ancestors of a place, the nearest first and the root last. -/
def ancestors (p : Place) : List Place := chain p.above

/-- Total size of the subtrees on a stack. -/
def load (stack : List Place) : Nat := Node.sizes (stack.map node)

theorem load_children (p : Place) : load p.children + 1 = p.node.size := by
  rw [Node.size_eq]
  simp [load, children, below, Function.comp_def]

/-- Visits the places on the stack and all below them; the children of a visited place go on top. -/
def walkFrom : List Place → List Place
  | [] => []
  | p :: rest => p :: walkFrom (p.children ++ rest)
termination_by stack => load stack
decreasing_by
  have h := load_children p
  simp only [load, List.map_append, Node.sizes_append, List.map_cons, Node.sizes] at *
  omega

/-- The place and everything below it, in document order. -/
def walk (p : Place) : List Place := walkFrom [p]

end Place
end Asyncify
