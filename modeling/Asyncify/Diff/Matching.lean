/-! Common blocks of two lists of lines. The longest block is found first, then the blocks before
and behind it. -/
namespace Asyncify.Diff

/-- A common block: where it starts in the old and in the new lines, and its length. -/
structure Block where
  old : Nat
  new : Nat
  size : Nat
  deriving DecidableEq, Repr

variable (popular : String → Bool)

/-- For each new line, how many lines up to it agree with the lines up to the old line `x`. `last`
holds these numbers for the old line before, moved by one. -/
def agreeing (x : String) : List Nat → List String → List Nat
  | k :: ks, y :: ys => (if x = y && !popular y then k + 1 else 0) :: agreeing x ks ys
  | _, _ => []

/-- Takes the first of the longest matches that end at an old line. -/
def better (i : Nat) (best : Block) : Nat → List Nat → Block
  | _, [] => best
  | j, k :: ks =>
    better i (if best.size < k then ⟨i + 1 - k, j + 1 - k, k⟩ else best) (j + 1) ks

def longestFrom (ys : List String) (i : Nat) (last : List Nat) (best : Block) : List String → Block
  | [] => best
  | x :: xs =>
    let row := agreeing popular x (0 :: last) ys
    longestFrom ys (i + 1) row (better i best 0 row) xs

def commonPrefix : List String → List String → Nat
  | x :: xs, y :: ys => if x = y then commonPrefix xs ys + 1 else 0
  | _, _ => 0

/-- Lengthens a block at both ends, over popular lines too. -/
def grow (xs ys : List String) (b : Block) : Block :=
  let back := commonPrefix (xs.take b.old).reverse (ys.take b.new).reverse
  let on := commonPrefix (xs.drop (b.old + b.size)) (ys.drop (b.new + b.size))
  ⟨b.old - back, b.new - back, back + b.size + on⟩

def longest (xs ys : List String) : Block :=
  grow xs ys (longestFrom popular ys 0 (ys.map fun _ => 0) ⟨0, 0, 0⟩ xs)

/-- The common blocks of two lists in order, found at most `depth` cuts deep. -/
def blocksWithin : Nat → Nat → Nat → List String → List String → List Block
  | 0, _, _, _, _ => []
  | depth + 1, i, j, xs, ys =>
    let b := longest popular xs ys
    if b.size = 0 then []
    else
      blocksWithin depth i j (xs.take b.old) (ys.take b.new) ++
        ⟨i + b.old, j + b.new, b.size⟩ ::
          blocksWithin depth (i + b.old + b.size) (j + b.new + b.size)
            (xs.drop (b.old + b.size)) (ys.drop (b.new + b.size))

/-- From two hundred lines on, a line that makes up more than one in a hundred is popular: no match
starts from it. -/
def isPopular (ys : List String) (y : String) : Bool :=
  200 ≤ ys.length && ys.length / 100 + 1 < ys.count y

/-- Goes on from a block, which takes in its neighbours. -/
def joinFrom (a : Block) : List Block → List Block
  | [] => [a]
  | b :: rest =>
    if a.old + a.size = b.old ∧ a.new + a.size = b.new then
      joinFrom ⟨a.old, a.new, a.size + b.size⟩ rest
    else a :: joinFrom b rest

/-- Neighbouring blocks become one. -/
def joinBlocks : List Block → List Block
  | [] => []
  | a :: rest => joinFrom a rest

/-- The common blocks of two lists of lines. Every cut takes away a line of the old ones. -/
def blocks (xs ys : List String) : List Block :=
  let popular := ys.eraseDups.filter (isPopular ys)
  joinBlocks (blocksWithin popular.contains (xs.length + 1) 0 0 xs ys)

end Asyncify.Diff
