import Asyncify.Text.Reindent
import Asyncify.Tree.Node
import Asyncify.Value.Display
import Asyncify.Fault

/-! What stands in place of a replaced node. -/
namespace Asyncify

/-- The two halves of a `try` statement. -/
inductive Branch where
  | attempt | recover
  deriving DecidableEq, Repr

/-- A statement that moves into a `try` statement. `width` is the indentation it loses. -/
structure Moved where
  branch : Branch
  node : Except Fault Node
  width : Nat
  ending : String := ""

/-- A call with an error-first callback, folded into a `try` statement that awaits the call. The
statements of the callback stay in source order, each with the branch it belongs to. -/
structure Fold where
  /-- Indentation of the folded statement. -/
  base : String
  /-- Indentation of the statements inside. -/
  inner : Except Fault String
  errorName : String
  resultName : String
  callee : Except Fault Node
  args : List Node
  body : List Moved

/-- A piece of a replacement: fixed text, or a node as it stands after all edits. -/
inductive Piece where
  | text (s : String)
  | node (n : Node)

/-- A replacement is written out only when the document is, so it shows every edit of the nodes in
it, whether recorded before or after it. -/
inductive Replacement where
  | literal (v : Value)
  | joined (pieces : List Piece)
  | folded (fold : Fold)

namespace Fold

def linesOf (branch : Branch) (ms : List (Branch × String)) : List String :=
  (ms.filter fun m => m.1 = branch).map (·.2)

/-- The folded statement, given how nodes are written. -/
def write (render : Node → Except Fault String) (newline : String) (f : Fold) :
    Except Fault String := do
  let inner ← f.inner
  let callee ← render (← f.callee)
  let args ← f.args.mapM render
  let moved ← f.body.mapM fun m => do
    let text ← render (← m.node)
    return (m.branch, Text.reindent text m.width inner newline ++ m.ending)
  return newline.intercalate
    (["try \x7b", inner ++ "const " ++ f.resultName ++ " = await " ++ callee ++ "(" ++
        ", ".intercalate args ++ ");"] ++
      linesOf .attempt moved ++ [f.base ++ "\x7d catch (" ++ f.errorName ++ ") \x7b"] ++
      linesOf .recover moved ++ [f.base ++ "\x7d"])

end Fold

namespace Replacement

def write (render : Node → Except Fault String) (newline : String) :
    Replacement → Except Fault String
  | literal v => .ok v.display
  | joined pieces => do
    let texts ← pieces.mapM fun
      | .text s => .ok s
      | .node n => render n
    return "".intercalate texts
  | folded f => f.write render newline

end Replacement
end Asyncify
