import Asyncify.Tree.Node

/-! The first defect of a parse: a node that holds text the grammar refuses, or one it had to
supply. -/
namespace Asyncify.Node

def isDefect (n : Node) : Bool := n.symbol == "ERROR" || n.info.missing

/-- The first defect at or below the nodes on a stack. The children of a node go on top of the
stack, but only if the node is marked as faulty. -/
def searchDefect : List Node → Option Node
  | [] => none
  | n :: rest =>
    if n.isDefect then some n
    else if n.info.hasError then searchDefect (n.children ++ rest)
    else searchDefect rest
termination_by stack => sizes stack
decreasing_by
  · rw [sizes_append, sizes, size_eq n]
    omega
  · rw [sizes, size_eq n]
    omega

/-- The first defect of a parse, or the root if the mark has no visible cause. -/
def firstDefect? (root : Node) : Option Node :=
  if root.info.hasError then some ((searchDefect [root]).getD root) else none

theorem firstDefect?_isSome (root : Node) : root.firstDefect?.isSome = root.info.hasError := by
  unfold firstDefect?
  split <;> simp_all

end Asyncify.Node
