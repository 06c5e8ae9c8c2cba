import Asyncify.Text.Blank
import Asyncify.Text.WordRanges

/-! Words of a source text, and the marks of code that already waits for something. -/
namespace Asyncify.Text

/-- Letters and numbers of every script, and the underscore. -/
def isWord (c : Char) : Bool :=
  if c.toNat < 128 then c.isAlphanum || c = '_'
  else wordRanges.any fun r => r.1 ≤ c.toNat && c.toNat ≤ r.2

/-- A word ending in `Async` with something before it. The last character comes first. -/
def isAsyncName (word : List Char) : Bool :=
  "Async".toList.reverse.isPrefixOf word && 5 < word.length

def isAwait (word : List Char) : Bool := word = "await".toList.reverse

/-- The text goes on with an opening parenthesis, blanks aside. -/
def opensCall (rest : List Char) : Bool := (stripStart rest).head? = some '('

/-- Reads the text word by word; `word` holds what has been read of the current word, the last
character first. -/
def waitsFrom (word : List Char) : List Char → Bool
  | [] => isAwait word
  | c :: rest =>
    if isWord c then waitsFrom (c :: word) rest
    else isAwait word || isAsyncName word && opensCall (c :: rest) || waitsFrom [] rest

/-- The text holds the word `await`, or the call of a function whose name ends in `Async`. -/
def waits (s : String) : Bool := waitsFrom [] s.toList

end Asyncify.Text
