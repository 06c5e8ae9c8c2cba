import Asyncify.Diff.Matching
import Asyncify.Text.Lines

/-! Unified diffs. -/
namespace Asyncify.Diff

inductive Tag where
  | equal | replace | delete | insert
  deriving DecidableEq, Repr

/-- A region of the old lines, from `i1` up to `i2`, and what it is in the new ones. -/
structure Region where
  tag : Tag
  i1 : Nat
  i2 : Nat
  j1 : Nat
  j2 : Nat
  deriving DecidableEq, Repr

/-- What lies between two common blocks. -/
def gap (i1 i2 j1 j2 : Nat) : List Region :=
  if i1 < i2 ∧ j1 < j2 then [⟨.replace, i1, i2, j1, j2⟩]
  else if i1 < i2 then [⟨.delete, i1, i2, j1, j2⟩]
  else if j1 < j2 then [⟨.insert, i1, i2, j1, j2⟩]
  else []

/-- The regions from lines `i` and `j` on, up to lines `m` and `n`. -/
def regionsFrom (m n : Nat) (i j : Nat) : List Block → List Region
  | [] => gap i m j n
  | b :: bs =>
    gap i b.old j b.new ++ ⟨.equal, b.old, b.old + b.size, b.new, b.new + b.size⟩ ::
      regionsFrom m n (b.old + b.size) (b.new + b.size) bs

def regions (xs ys : List String) : List Region :=
  regionsFrom xs.length ys.length 0 0 (blocks xs ys)

/-- Lines of context around a change. -/
def context : Nat := 3

/-- The last lines of a common region. -/
def tailOf (r : Region) : Region :=
  { r with i1 := max r.i1 (r.i2 - context), j1 := max r.j1 (r.j2 - context) }

/-- The first lines of a common region. -/
def headOf (r : Region) : Region :=
  { r with i2 := min r.i2 (r.i1 + context), j2 := min r.j2 (r.j1 + context) }

def trimHead : List Region → List Region
  | r :: rs => (if r.tag = .equal then tailOf r else r) :: rs
  | [] => []

def trimLast : List Region → List Region
  | [] => []
  | [r] => [if r.tag = .equal then headOf r else r]
  | r :: rs => r :: trimLast rs

/-- Cuts the regions into hunks at common regions too long to be shown whole. -/
def hunksFrom (hunk : List Region) : List Region → List (List Region)
  | [] => [hunk]
  | r :: rs =>
    if r.tag = .equal && context + context < r.i2 - r.i1 then
      (hunk ++ [headOf r]) :: hunksFrom [tailOf r] rs
    else hunksFrom (hunk ++ [r]) rs

/-- The hunks of a diff: changes with their context. -/
def hunks (xs ys : List String) : List (List Region) :=
  (hunksFrom [] (trimLast (trimHead (regions xs ys)))).filter fun h => h.any fun r => r.tag ≠ .equal

/-- A range of lines in the header of a hunk. An empty one names the line before it. -/
def range (start stop : Nat) : String :=
  if stop - start = 1 then toString (start + 1)
  else if stop - start = 0 then toString start ++ ",0"
  else toString (start + 1) ++ "," ++ toString (stop - start)

def linesBetween (xs : List String) (start stop : Nat) : List String :=
  (xs.drop start).take (stop - start)

def regionLines (xs ys : List String) (r : Region) : List String :=
  let old (mark : String) := (linesBetween xs r.i1 r.i2).map (mark ++ ·)
  let new := (linesBetween ys r.j1 r.j2).map ("+" ++ ·)
  match r.tag with
  | .equal => old " "
  | .replace => old "-" ++ new
  | .delete => old "-"
  | .insert => new

def hunkLines (xs ys : List String) (h : List Region) : List String :=
  match h.head?, h.getLast? with
  | some first, some last =>
    ("@@ -" ++ range first.i1 last.i2 ++ " +" ++ range first.j1 last.j2 ++ " @@\n") ::
      h.flatMap (regionLines xs ys)
  | _, _ => []

/-- The unified diff from an old to a new text of a file; empty if they are equal. -/
def unified (path old new : String) : String :=
  let xs := Text.lines old
  let ys := Text.lines new
  match hunks xs ys with
  | [] => ""
  | hs =>
    "--- a/" ++ path ++ "\n" ++ "+++ b/" ++ path ++ "\n" ++
      "".intercalate (hs.flatMap (hunkLines xs ys))

end Asyncify.Diff
