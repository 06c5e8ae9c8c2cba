import Asyncify.Text.Blank
import Asyncify.Text.Lines
import Asyncify.Text.Span

/-! Moving a statement to another indentation. -/
namespace Asyncify.Text

/-- Drops `n` characters; a negative `n` keeps the last `-n`. -/
def dropOrKeepLast (n : Int) (cs : List Char) : List Char :=
  if 0 ≤ n then cs.drop n.toNat else cs.drop (cs.length - n.natAbs)

/-- A continuation line loses at most `width` characters of its indentation. A blank one becomes
empty. -/
def reindentLine (width : Int) (indent line : List Char) : List Char :=
  if line.all isBlank then []
  else indent ++ dropOrKeepLast (min (indentation line).length width) line

def reindentLines (width : Int) (indent : List Char) : List (List Char) → List (List Char)
  | [] => []
  | first :: rest => (indent ++ first) :: rest.map (reindentLine width indent)

/-- Puts a statement, whose own line was indented by `width`, at `indent`. The first line starts
with the statement itself. -/
def reindent (text : String) (width : Int) (indent newline : String) : String :=
  String.ofList (joinWith newline.toList
    (reindentLines width indent.toList (splitOn newline.toList text.toList)))

end Asyncify.Text
