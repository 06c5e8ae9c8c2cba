/-! Wildcard patterns: `*` for any text, `?` for any character, `[...]` for a set of characters. -/
namespace Asyncify.Wildcard

/-- A set of characters: single ones and ranges, or all others. -/
structure CharSet where
  negated : Bool
  chars : List Char
  ranges : List (Char × Char)
  deriving DecidableEq, Repr

def CharSet.accepts (s : CharSet) (c : Char) : Bool :=
  s.negated != (s.chars.contains c || s.ranges.any fun r => r.1 ≤ c && c ≤ r.2)

inductive Token where
  | star
  | any
  | char (c : Char)
  | set (s : CharSet)
  deriving DecidableEq, Repr

/-- Cuts the inside of a bracket at the hyphens that make ranges. A hyphen does so if a character
stands before it, and two characters lie between it and the last one that did. `chunk` holds what
has been read since, and `guarded` counts the characters that cannot be such a hyphen. -/
def chunksFrom (chunk : List Char) (guarded : Nat) : List Char → List (List Char)
  | [] => [chunk]
  | c :: rest =>
    if guarded = 0 && c = '-' then chunk :: chunksFrom [] 2 rest
    else chunksFrom (chunk ++ [c]) (guarded - 1) rest

/-- The chunks of a bracket. A hyphen at its end stands for itself. -/
def chunks (inside : List Char) : List (List Char) :=
  let all := chunksFrom [] (if inside.head? = some '!' then 2 else 1) inside
  match all.reverse with
  | [] :: last :: before => (before.reverse ++ [last ++ ['-']])
  | _ => all

/-- Joins two chunks whose range would be empty; the ends of the range go. -/
def dropEmptyRanges : List (List Char) → List (List Char)
  | [] => []
  | chunk :: rest =>
    match dropEmptyRanges rest with
    | [] => [chunk]
    | next :: later =>
      match chunk.getLast?, next.head? with
      | some a, some b =>
        if b < a then (chunk.dropLast ++ next.drop 1) :: later else chunk :: next :: later
      | _, _ => chunk :: next :: later

/-- The ranges between neighbouring chunks. -/
def rangesOf : List (List Char) → List (Char × Char)
  | a :: b :: rest =>
    match a.getLast?, b.head? with
    | some x, some y => (x, y) :: rangesOf (b :: rest)
    | _, _ => rangesOf (b :: rest)
  | _ => []

/-- A bracket, given its chunks. A leading `!` stands for all other characters; a hyphen right
behind it stands for itself. -/
def bracket (cs : List (List Char)) : CharSet :=
  match cs with
  | ['!'] :: next :: rest => ⟨true, '-' :: (next :: rest).flatten, rangesOf (next :: rest)⟩
  | ('!' :: first) :: rest => ⟨true, (first :: rest).flatten, rangesOf (first :: rest)⟩
  | _ => ⟨false, cs.flatten, rangesOf cs⟩

/-- The inside of a bracket and what follows it. A closing bracket in front, or behind a leading
`!`, belongs to the inside. -/
def closeBracket (cs : List Char) : Option (List Char × List Char) :=
  let head := match cs with
    | '!' :: ']' :: _ => 2
    | '!' :: _ => 1
    | ']' :: _ => 1
    | _ => 0
  let inside := cs.take head ++ (cs.drop head).takeWhile (· ≠ ']')
  match cs.drop inside.length with
  | ']' :: rest => some (inside, rest)
  | _ => none

theorem length_closeBracket {cs inside rest : List Char}
    (h : closeBracket cs = some (inside, rest)) :
    rest.length < cs.length := by
  unfold closeBracket at h
  simp only at h
  split at h
  · next heq =>
    have := congrArg List.length heq
    simp_all only [List.length_drop, List.length_cons, Option.some.injEq, Prod.mk.injEq]
    obtain ⟨-, rfl⟩ := h
    omega
  · simp at h

/-- Reads a pattern. A bracket that is never closed stands for itself. -/
def parse : List Char → List Token
  | [] => []
  | '*' :: rest => .star :: parse rest
  | '?' :: rest => .any :: parse rest
  | '[' :: rest =>
    match _h : closeBracket rest with
    | some (inside, later) => .set (bracket (dropEmptyRanges (chunks inside))) :: parse later
    | none => .char '[' :: parse rest
  | c :: rest => .char c :: parse rest
termination_by cs => cs.length
decreasing_by
  · simp
  · simp
  · have := length_closeBracket _h
    simp only [List.length_cons]
    omega
  · simp
  · simp

def Token.accepts : Token → Char → Bool
  | star, _ => false
  | any, _ => true
  | char d, c => c = d
  | set s, c => s.accepts c

/-- What it means that the tokens take up the whole text. -/
def matchesTokens : List Token → List Char → Bool
  | [], cs => cs.isEmpty
  | .star :: ts, [] => matchesTokens ts []
  | .star :: ts, c :: cs => matchesTokens ts (c :: cs) || matchesTokens (.star :: ts) cs
  | _ :: _, [] => false
  | t :: ts, c :: cs => t.accepts c && matchesTokens ts cs
termination_by ts cs => (ts.length, cs.length)

/-- At each entry, whether it or one behind it holds. -/
def anyFrom : List Bool → List Bool
  | [] => []
  | b :: bs =>
    match anyFrom bs with
    | [] => [b]
    | c :: cs => (b || c) :: c :: cs

/-- At each character, whether the token takes it and the entry behind holds; no token takes the
end. -/
def takeOne (t : Token) : List Char → List Bool → List Bool
  | c :: cs, _ :: b :: bs => (t.accepts c && b) :: takeOne t cs (b :: bs)
  | _, _ => [false]

/-- For the text and each of its ends, whether the tokens fit it. A row of answers for the later
tokens gives the row for one token more, so no part of the text is tried twice. -/
def fits (cs : List Char) : List Token → List Bool
  | [] => cs.map (fun _ => false) ++ [true]
  | .star :: ts => anyFrom (fits cs ts)
  | t :: ts => takeOne t cs (fits cs ts)

theorem fits_nil (ts : List Token) : fits [] ts = [matchesTokens ts []] := by
  induction ts with
  | nil => simp [fits, matchesTokens]
  | cons t ts ih => cases t <;> simp [fits, matchesTokens, anyFrom, takeOne, ih]

/-- The row of a text is its own answer before the row of its tail. -/
theorem fits_cons (c : Char) (cs : List Char) (ts : List Token) :
    fits (c :: cs) ts = matchesTokens ts (c :: cs) :: fits cs ts := by
  induction ts generalizing c cs with
  | nil => simp [fits, matchesTokens]
  | cons t ts ih =>
    cases t with
    | star =>
      induction cs generalizing c with
      | nil => simp [fits, matchesTokens, anyFrom, ih, fits_nil]
      | cons d ds later =>
        have row : anyFrom (fits (d :: ds) ts) =
            matchesTokens (.star :: ts) (d :: ds) :: fits ds (.star :: ts) := later d
        simp only [fits, ih c, anyFrom, row, matchesTokens]
    | any | char _ | set _ =>
      cases cs with
      | nil => simp [fits, matchesTokens, takeOne, ih, fits_nil]
      | cons d ds => simp [fits, matchesTokens, takeOne, ih]

/-- The whole text fits the pattern. -/
def isMatch (pattern text : String) : Bool :=
  (fits text.toList (parse pattern.toList)).headD false

theorem isMatch_eq (pattern text : String) :
    isMatch pattern text = matchesTokens (parse pattern.toList) text.toList := by
  unfold isMatch
  cases text.toList <;> simp [fits_nil, fits_cons]

end Asyncify.Wildcard
