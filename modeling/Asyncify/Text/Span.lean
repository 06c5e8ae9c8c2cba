/-! Byte spans of a text. Offsets count UTF-8 bytes; a span holds the characters wholly inside
it. -/
namespace Asyncify.Text

def byteLength (cs : List Char) : Nat := cs.foldr (fun c n => c.utf8Size + n) 0

/-- Characters inside the bytes `start` to `stop`, for a text whose first byte is number `base`.
A character that a bound cuts in two lies outside. -/
def sliceFrom (base : Nat) (cs : List Char) (start stop : Nat) : List Char :=
  match cs with
  | [] => []
  | c :: rest =>
    if base < start then sliceFrom (base + c.utf8Size) rest start stop
    else if base + c.utf8Size ≤ stop then c :: sliceFrom (base + c.utf8Size) rest start stop
    else []

def slice (cs : List Char) (start stop : Nat) : List Char := sliceFrom 0 cs start stop

/-- A bound counted back from the end when it is negative, as far as the first byte. -/
def clampBound (length : Nat) (bound : Int) : Nat :=
  if bound < 0 then (length + bound).toNat else bound.toNat

/-- Slice by bounds that may be negative. -/
def sliceBounds (cs : List Char) (start stop : Int) : List Char :=
  slice cs (clampBound (byteLength cs) start) (clampBound (byteLength cs) stop)

/-- The part of a text after its last line feed. -/
def lastLine (cs : List Char) : List Char :=
  (cs.reverse.takeWhile (· ≠ '\n')).reverse

/-- The leading run of spaces and tabs. -/
def indentation (cs : List Char) : List Char := cs.takeWhile fun c => c = ' ' ∨ c = '\t'

end Asyncify.Text
