/-! Lines of a text. -/
namespace Asyncify.Text

/-- Puts a character in front of the first piece. -/
def prepend (c : Char) : List (List Char) → List (List Char)
  | [] => [[c]]
  | l :: ls => (c :: l) :: ls

/-- Cuts a text at every occurrence of a separator. `skip` counts the characters of a separator
still to pass over. -/
def splitFrom (sep : List Char) (skip : Nat) : List Char → List (List Char)
  | [] => [[]]
  | c :: rest =>
    if 0 < skip then splitFrom sep (skip - 1) rest
    else if sep.isPrefixOf (c :: rest) then [] :: splitFrom sep (sep.length - 1) rest
    else prepend c (splitFrom sep 0 rest)

def splitOn (sep cs : List Char) : List (List Char) := splitFrom sep 0 cs

/-- Pieces with a separator between any two. -/
def joinWith (sep : List Char) : List (List Char) → List Char
  | [] => []
  | [l] => l
  | l :: ls => l ++ sep ++ joinWith sep ls

/-- Characters that end a line besides the pair CR LF. -/
def isLineEnd (c : Char) : Bool :=
  c = '\n' || c = '\r' || c = '\x0b' || c = '\x0c' || c = '\x1c' || c = '\x1d' || c = '\x1e' ||
    c = '\u0085' || c = '\u2028' || c = '\u2029'

/-- The lines of a text with their ends. -/
def linesOf : List Char → List (List Char)
  | [] => []
  | '\r' :: '\n' :: rest => ['\r', '\n'] :: linesOf rest
  | c :: rest => if isLineEnd c then [c] :: linesOf rest else prepend c (linesOf rest)

def lines (s : String) : List String := (linesOf s.toList).map String.ofList

/-- The text has a CR LF somewhere. -/
def hasCRLF : List Char → Bool
  | [] => false
  | '\r' :: '\n' :: _ => true
  | _ :: rest => hasCRLF rest

/-- Reads CR LF and a lone CR as LF. -/
def unifyNewlines : List Char → List Char
  | [] => []
  | '\r' :: '\n' :: rest => '\n' :: unifyNewlines rest
  | c :: rest => (if c = '\r' then '\n' else c) :: unifyNewlines rest

theorem flatten_prepend (c : Char) (ls : List (List Char)) :
    (prepend c ls).flatten = c :: ls.flatten := by
  cases ls <;> simp [prepend]

theorem flatten_linesOf (cs : List Char) : (linesOf cs).flatten = cs := by
  fun_induction linesOf cs with
  | case1 => rfl
  | case2 rest ih => simp [ih]
  | case3 c rest _ h ih => simp [ih]
  | case4 c rest _ h ih => simp [flatten_prepend, ih]

end Asyncify.Text
