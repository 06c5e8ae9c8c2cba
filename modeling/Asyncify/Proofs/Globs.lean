import Asyncify.Text.Wildcard

/-! Which texts a wildcard pattern fits, read off the characters of the pattern. The tokens that a
pattern is parsed to, and the rows of answers that they are matched by, give just these texts. -/
namespace Asyncify.Wildcard

/-- A member of a bracket: one character, or all from the first to the last. -/
inductive Member where
  | one (c : Char)
  | range (first last : Char)
  deriving DecidableEq, Repr

namespace Member

def Holds : Member → Char → Prop
  | one d, c => c = d
  | range first last, c => first ≤ c ∧ c ≤ last

/-- A range whose ends are in the wrong order holds nothing. -/
def isVoid : Member → Bool
  | one _ => false
  | range first last => last < first

@[simp] theorem holds_one {c d : Char} : (one d).Holds c ↔ c = d := Iff.rfl

@[simp] theorem holds_range {c first last : Char} :
    (range first last).Holds c ↔ first ≤ c ∧ c ≤ last := Iff.rfl

theorem exists_holds_map_one {c : Char} {cs : List Char} :
    (∃ m ∈ cs.map one, m.Holds c) ↔ c ∈ cs := by
  constructor
  · rintro ⟨m, hm, hc⟩
    obtain ⟨d, hd, rfl⟩ := List.mem_map.1 hm
    exact holds_one.1 hc ▸ hd
  · intro hc
    exact ⟨one c, List.mem_map_of_mem hc, rfl⟩

theorem filter_map_one (cs : List Char) : ((cs.map one).filter fun m => !m.isVoid) = cs.map one :=
  List.filter_eq_self.2 (by simp [isVoid])

end Member

/-- The members of a bracket, read from the left. A hyphen between two characters makes a range of
them. -/
def members : List Char → List Member
  | x :: '-' :: y :: rest => .range x y :: members rest
  | x :: rest => .one x :: members rest
  | [] => []

/-- A `!` in front begins no range. -/
def allMembers : List Char → List Member
  | '!' :: rest => .one '!' :: members rest
  | inside => members inside

/-- The members of a bracket that hold something. -/
def listed (inside : List Char) : List Member := (allMembers inside).filter fun m => !m.isVoid

/-- A bracket of these members takes the character. With a `!` in front it takes all that the others
do not hold; a range that begins with it counts as the hyphen and its end. -/
def Takes : List Member → Char → Prop
  | .one '!' :: ms, c => ∀ m ∈ ms, ¬ m.Holds c
  | .range '!' last :: ms, c => c ≠ '-' ∧ c ≠ last ∧ ∀ m ∈ ms, ¬ m.Holds c
  | ms, c => ∃ m ∈ ms, m.Holds c

/-- What can stand in brackets: behind a `!` that may lead, at least one character, of which only
the first may be a closing bracket. -/
def IsInside : List Char → Prop
  | '!' :: _ :: rest => ']' ∉ rest
  | first :: rest => first ≠ '!' ∧ ']' ∉ rest
  | [] => False

/-- The text fits the pattern. -/
inductive Fits : List Char → List Char → Prop
  | nil : Fits [] []
  | star {p s : List Char} (t : List Char) (h : Fits p s) : Fits ('*' :: p) (t ++ s)
  | any {p s : List Char} (c : Char) (h : Fits p s) : Fits ('?' :: p) (c :: s)
  | bracket {inside p s : List Char} {c : Char} (hi : IsInside inside)
      (hc : Takes (listed inside) c) (h : Fits p s) : Fits ('[' :: (inside ++ ']' :: p)) (c :: s)
  /-- A bracket that is never closed stands for itself. -/
  | unclosed {p s : List Char} (hn : ∀ inside rest, IsInside inside → p ≠ inside ++ ']' :: rest)
      (h : Fits p s) : Fits ('[' :: p) ('[' :: s)
  | char {p s : List Char} {c : Char} (hc : c ∉ ['*', '?', '[']) (h : Fits p s) :
      Fits (c :: p) (c :: s)

section Chunks

variable {cs : List (List Char)} {ms : List Member} {chunk tail inside : List Char} {c x y : Char}

/-- The chunks stand for the members: between two chunks a hyphen makes a range of the last
character before it and the first one behind it. -/
inductive Cut : List (List Char) → List Member → Prop
  | last (chunk : List Char) : Cut [chunk] (chunk.map .one)
  | join {tail : List Char} {rest : List (List Char)} {ms : List Member} (pre : List Char)
      (x y : Char) (h : Cut (tail :: rest) ms) :
      Cut ((pre ++ [x]) :: (y :: tail) :: rest) (pre.map .one ++ .range x y :: ms)

theorem Cut.modifyHead (h : Cut cs ms) (pre : List Char) :
    Cut (cs.modifyHead (pre ++ ·)) (pre.map .one ++ ms) := by
  cases h with
  | last chunk => simpa using Cut.last (pre ++ chunk)
  | join front x y h => simpa using h.join (pre ++ front) x y

theorem Cut.cons (h : Cut cs ms) (x y : Char) :
    Cut ([x] :: cs.modifyHead ([y] ++ ·)) (.range x y :: ms) := by
  cases h with
  | last chunk => exact (Cut.last chunk).join [] x y
  | join front a b h => exact (h.join front a b).join [] x y

/-- Only the last chunk can be empty. -/
theorem Cut.ne_nil (h : Cut (chunk :: cs) ms) (hc : cs ≠ []) : chunk ≠ [] := by
  cases h with
  | last => exact absurd rfl hc
  | join => simp

/-- A hyphen at the end of a bracket leaves an empty chunk, which goes to the one before. -/
def closeHyphen (all : List (List Char)) : List (List Char) :=
  match all.reverse with
  | [] :: last :: before => before.reverse ++ [last ++ ['-']]
  | _ => all

theorem closeHyphen_cons (chunk : List Char) (hc : cs ≠ []) (hn : cs ≠ [[]]) :
    closeHyphen (chunk :: cs) = chunk :: closeHyphen cs := by
  obtain rfl | ⟨before, last, rfl⟩ := cs.eq_nil_or_concat
  · exact absurd rfl hc
  · cases last with
    | cons a last => simp [closeHyphen]
    | nil =>
      obtain rfl | ⟨front, next, rfl⟩ := before.eq_nil_or_concat
      · exact absurd rfl hn
      · simp [closeHyphen]

theorem closeHyphen_modifyHead (cs : List (List Char)) (pre : List Char) :
    closeHyphen (cs.modifyHead (pre ++ ·)) = (closeHyphen cs).modifyHead (pre ++ ·) := by
  cases cs with
  | nil => rfl
  | cons chunk cs =>
    by_cases hc : cs = []
    · subst hc
      simp [closeHyphen]
    · by_cases he : cs = [[]]
      · subst he
        simp [closeHyphen]
      · rw [List.modifyHead_cons, closeHyphen_cons _ hc he, closeHyphen_cons _ hc he,
          List.modifyHead_cons]

/-- The characters that a chunk has already stay in front of it. -/
theorem chunksFrom_append (pre chunk : List Char) (guarded : Nat) (rest : List Char) :
    chunksFrom (pre ++ chunk) guarded rest =
      (chunksFrom chunk guarded rest).modifyHead (pre ++ ·) := by
  induction rest generalizing chunk guarded with
  | nil => rfl
  | cons c rest ih =>
    rw [chunksFrom, chunksFrom]
    split
    · rfl
    · rw [List.append_assoc]
      exact ih _ _

theorem chunksFrom_ne (x : Char) (chunk : List Char) (guarded : Nat) (rest : List Char) :
    chunksFrom (x :: chunk) guarded rest ≠ [] ∧ chunksFrom (x :: chunk) guarded rest ≠ [[]] := by
  induction rest generalizing chunk guarded with
  | nil => simp [chunksFrom]
  | cons c rest ih =>
    rw [chunksFrom]
    split
    · simp
    · exact ih _ _

/-- What is cut at the hyphens stands for the members as they are read from the left. -/
theorem cut_chunksFrom {l rest : List Char} (hl : l = x :: rest) :
    Cut (closeHyphen (chunksFrom [x] 0 rest)) (members l) := by
  induction l using members.induct generalizing x rest with
  | case1 x y later ih =>
    cases hl
    cases later with
    | nil => exact (Cut.last []).join [] x y
    | cons z later =>
      -- behind a range, the next character begins a chunk as the first one does
      have hrest : chunksFrom [x] 0 ('-' :: y :: z :: later) = [x] :: chunksFrom [y, z] 0 later :=
        rfl
      have hnext : chunksFrom [y, z] 0 later = (chunksFrom [z] 0 later).modifyHead ([y] ++ ·) :=
        chunksFrom_append [y] [z] 0 later
      obtain ⟨hnil, hempty⟩ := chunksFrom_ne y [z] 0 later
      rw [hrest, closeHyphen_cons _ hnil hempty, hnext, closeHyphen_modifyHead, members]
      exact (ih rfl).cons x y
  | case2 x later hn ih =>
    cases hl
    cases later with
    | nil => exact Cut.last [x]
    | cons c later =>
      by_cases hc : c = '-'
      · subst hc
        cases later with
        | nil => exact Cut.last [x, '-']
        | cons y later => exact (hn y later rfl).elim
      · have hrest : chunksFrom [x] 0 (c :: later) = chunksFrom ([x] ++ [c]) 0 later := by
          simp [chunksFrom, hc]
        rw [hrest, chunksFrom_append, closeHyphen_modifyHead, members]
        · exact (ih rfl).modifyHead [x]
        · exact hn
  | case3 => cases hl

theorem cut_chunks (inside : List Char) : Cut (chunks inside) (allMembers inside) := by
  have hclose : chunks inside =
      closeHyphen (chunksFrom [] (if inside.head? = some '!' then 2 else 1) inside) := rfl
  rw [hclose]
  cases inside with
  | nil => exact Cut.last []
  | cons x rest =>
    by_cases hx : x = '!'
    · subst hx
      cases rest with
      | nil => exact Cut.last ['!']
      | cons x rest =>
        have hrest : chunksFrom ['!', x] 0 rest = (chunksFrom [x] 0 rest).modifyHead (['!'] ++ ·) :=
          chunksFrom_append ['!'] [x] 0 rest
        show Cut (closeHyphen (chunksFrom ['!', x] 0 rest)) _
        rw [hrest, closeHyphen_modifyHead]
        exact (cut_chunksFrom rfl).modifyHead ['!']
    · have hrest : chunksFrom [] (if (x :: rest).head? = some '!' then 2 else 1) (x :: rest) =
          chunksFrom [x] 0 rest := by
        simp [chunksFrom, hx]
      have hall : allMembers (x :: rest) = members (x :: rest) := by
        rw [allMembers]
        simpa using hx
      rw [hrest, hall]
      exact cut_chunksFrom rfl

/-- One range at a time: its ends go if they are in the wrong order. -/
theorem dropEmptyRanges_step {next : List Char} {later : List (List Char)} (pre : List Char)
    (x : Char) (h : dropEmptyRanges cs = (y :: next) :: later) :
    dropEmptyRanges ((pre ++ [x]) :: cs) =
      if y < x then (pre ++ next) :: later else (pre ++ [x]) :: (y :: next) :: later := by
  rw [dropEmptyRanges, h]
  simp

/-- Without the void ranges the chunks stand for the members that hold something. What stands in
front of the first chunk does not matter for that. -/
theorem Cut.dropEmptyRanges (h : Cut cs ms) :
    ∃ head later, dropEmptyRanges cs = head :: later ∧
      Cut (head :: later) (ms.filter fun m => !m.isVoid) ∧
      ∀ pre, Wildcard.dropEmptyRanges (cs.modifyHead (pre ++ ·)) = (pre ++ head) :: later := by
  induction h with
  | last chunk =>
    rw [Member.filter_map_one]
    exact ⟨chunk, [], rfl, Cut.last chunk, fun pre => rfl⟩
  | join front x y h ih =>
    obtain ⟨head, later, -, hcut, hpre⟩ := ih
    have hstep (pre : List Char) := dropEmptyRanges_step pre x (hpre [y])
    rw [List.filter_append, Member.filter_map_one]
    by_cases hxy : y < x
    · simp only [if_pos hxy] at hstep
      refine ⟨front ++ head, later, hstep front, ?_, fun pre => ?_⟩
      · simpa [Member.isVoid, hxy] using hcut.modifyHead front
      · simpa using hstep (pre ++ front)
    · simp only [if_neg hxy] at hstep
      refine ⟨front ++ [x], (y :: head) :: later, hstep front, ?_, fun pre => ?_⟩
      · simpa [Member.isVoid, hxy] using hcut.join front x y
      · simpa using hstep (pre ++ front)

theorem Cut.rangesOf_modifyHead (h : Cut cs ms) (pre : List Char) :
    rangesOf (cs.modifyHead (pre ++ ·)) = rangesOf cs := by
  cases h with
  | last chunk => rfl
  | join front x y h => simp [rangesOf]

theorem Cut.exists_holds_iff (h : Cut cs ms) (hv : ∀ m ∈ ms, m.isVoid = false) :
    (∃ m ∈ ms, m.Holds c) ↔ c ∈ cs.flatten ∨ ∃ r ∈ rangesOf cs, r.1 ≤ c ∧ c ≤ r.2 := by
  induction h with
  | last chunk =>
    rw [Member.exists_holds_map_one]
    simp [rangesOf]
  | @join tail rest ms front x y h ih =>
    have hranges : rangesOf ((front ++ [x]) :: (y :: tail) :: rest) =
        (x, y) :: rangesOf (tail :: rest) := by
      rw [← h.rangesOf_modifyHead [y]]
      simp [rangesOf]
    have hflat : c ∈ ((front ++ [x]) :: (y :: tail) :: rest).flatten ↔
        c ∈ front ∨ (c = x ∨ c = y) ∨ c ∈ (tail :: rest).flatten := by
      simp [or_assoc]
    have hxy : x ≤ y := by simpa [Member.isVoid] using hv (.range x y) (by simp)
    -- the ends of a range are in it, so they may count as characters as well
    have hends : c = x ∨ c = y → x ≤ c ∧ c ≤ y := by
      rintro (rfl | rfl)
      · exact ⟨Char.le_refl _, hxy⟩
      · exact ⟨hxy, Char.le_refl _⟩
    have hlater := ih fun m hm => hv m (by simp [hm])
    simp only [List.mem_append, List.mem_cons, or_and_right, exists_or, exists_eq_left,
      Member.exists_holds_map_one, Member.holds_range, hlater, hranges, hflat]
    constructor
    · rintro (hc | hc | hc | hc)
      · exact Or.inl (Or.inl hc)
      · exact Or.inr (Or.inl hc)
      · exact Or.inl (Or.inr (Or.inr hc))
      · exact Or.inr (Or.inr hc)
    · rintro ((hc | hc | hc) | hc | hc)
      · exact Or.inl hc
      · exact Or.inr (Or.inl (hends hc))
      · exact Or.inr (Or.inr (Or.inl hc))
      · exact Or.inr (Or.inl hc)
      · exact Or.inr (Or.inr (Or.inr hc))

theorem CharSet.accepts_iff (s : CharSet) :
    s.accepts c ↔ (s.negated = false ↔ c ∈ s.chars ∨ ∃ r ∈ s.ranges, r.1 ≤ c ∧ c ≤ r.2) := by
  have hany : (s.chars.contains c || s.ranges.any fun r => r.1 ≤ c && c ≤ r.2) ↔
      c ∈ s.chars ∨ ∃ r ∈ s.ranges, r.1 ≤ c ∧ c ≤ r.2 := by
    simp
  rw [accepts, ← hany]
  cases s.negated <;> simp

theorem accepts_bang {first : List Char} (h : Cut (first :: cs) ms)
    (hv : ∀ m ∈ ms, m.isVoid = false) :
    (bracket (('!' :: first) :: cs)).accepts c ↔ ∀ m ∈ ms, ¬ m.Holds c := by
  have hset : bracket (('!' :: first) :: cs) = ⟨true, (first :: cs).flatten,
      rangesOf (first :: cs)⟩ := by
    rw [bracket]
    rintro next rest rfl rfl
    exact h.ne_nil (by simp) rfl
  rw [hset, CharSet.accepts_iff, ← h.exists_holds_iff hv]
  simp

/-- A range that begins with the `!` has lost it, so the hyphen and the end of the range are
left. -/
theorem accepts_bang_range {tail : List Char} (h : Cut (tail :: cs) ms)
    (hv : ∀ m ∈ ms, m.isVoid = false) :
    (bracket (['!'] :: (y :: tail) :: cs)).accepts c ↔ c ≠ '-' ∧ c ≠ y ∧ ∀ m ∈ ms, ¬ m.Holds c := by
  have hcut : Cut ((y :: tail) :: cs) (.one y :: ms) := h.modifyHead [y]
  have hv' : ∀ m ∈ Member.one y :: ms, m.isVoid = false := by simpa [Member.isVoid] using hv
  have hset : bracket (['!'] :: (y :: tail) :: cs) =
      ⟨true, '-' :: ((y :: tail) :: cs).flatten, rangesOf ((y :: tail) :: cs)⟩ := rfl
  rw [hset, CharSet.accepts_iff]
  simp only [List.mem_cons, or_assoc, ← hcut.exists_holds_iff hv']
  simp

theorem accepts_plain {a : Char} {first : List Char} (ha : a ≠ '!')
    (h : Cut ((a :: first) :: cs) ms) (hv : ∀ m ∈ ms, m.isVoid = false) :
    (bracket ((a :: first) :: cs)).accepts c ↔ ∃ m ∈ ms, m.Holds c := by
  have hset : bracket ((a :: first) :: cs) =
      ⟨false, ((a :: first) :: cs).flatten, rangesOf ((a :: first) :: cs)⟩ := by
    rw [bracket] <;> simp_all
  rw [hset, CharSet.accepts_iff, ← h.exists_holds_iff hv]
  simp

/-- The set that a bracket is read as takes what its members say. -/
theorem Cut.accepts_iff (h : Cut cs ms) (hv : ∀ m ∈ ms, m.isVoid = false) :
    (bracket cs).accepts c ↔ Takes ms c := by
  cases h with
  | last chunk =>
    cases chunk with
    | nil => simp [bracket, CharSet.accepts, rangesOf, Takes]
    | cons a first =>
      by_cases ha : a = '!'
      · subst ha
        exact accepts_bang (Cut.last first) fun m hm => hv m (List.mem_cons_of_mem _ hm)
      · refine (accepts_plain ha (Cut.last _) hv).trans ?_
        simp [Takes, ha]
  | @join tail rest ms front x y h =>
    have hcut := h.join front x y
    cases front with
    | nil =>
      by_cases hx : x = '!'
      · subst hx
        exact accepts_bang_range h fun m hm => hv m (List.mem_cons_of_mem _ hm)
      · refine (accepts_plain hx hcut hv).trans ?_
        simp [Takes, hx]
    | cons a front =>
      by_cases ha : a = '!'
      · subst ha
        exact accepts_bang (h.join front x y) fun m hm => hv m (List.mem_cons_of_mem _ hm)
      · refine (accepts_plain ha hcut hv).trans ?_
        simp [Takes, ha]

theorem accepts_bracket_iff (inside : List Char) :
    (bracket (dropEmptyRanges (chunks inside))).accepts c ↔ Takes (listed inside) c := by
  obtain ⟨head, later, hdrop, hcut, -⟩ := (cut_chunks inside).dropEmptyRanges
  rw [hdrop]
  exact hcut.accepts_iff fun m hm => by simpa using (List.mem_filter.1 hm).2

/-- Once the void range is gone, the `!` behind it leads. -/
example : listed ['b', '-', 'a', '!', 'x'] = [.one '!', .one 'x'] := by decide

end Chunks

section Brackets

variable {cs inside rest : List Char}

/-- How many characters in front cannot close the bracket. -/
def lead : List Char → Nat
  | '!' :: ']' :: _ => 2
  | '!' :: _ => 1
  | ']' :: _ => 1
  | _ => 0

/-- The characters in front and all up to the next closing bracket. -/
def inner (cs : List Char) : List Char :=
  cs.take (lead cs) ++ (cs.drop (lead cs)).takeWhile (· ≠ ']')

theorem closeBracket_eq_some_iff_inner : closeBracket cs = some (inside, rest) ↔
    inside = inner cs ∧ cs.drop (inner cs).length = ']' :: rest := by
  constructor
  · intro h
    unfold closeBracket at h
    dsimp only at h
    split at h
    · next later hlater =>
      cases h
      exact ⟨rfl, hlater⟩
    · cases h
  · rintro ⟨rfl, hdrop⟩
    unfold closeBracket
    dsimp only
    split
    · next later hlater =>
      obtain ⟨-, rfl⟩ := List.cons.inj (hlater.symm.trans hdrop)
      rfl
    · next hnone => exact (hnone rest hdrop).elim

theorem closeBracket_eq_some_iff_lead : closeBracket cs = some (inside, rest) ↔
    ∃ w, inside = cs.take (lead cs) ++ w ∧ ']' ∉ w ∧ cs.drop (lead cs) = w ++ ']' :: rest := by
  have hdrop : cs.drop (inner cs).length = (cs.drop (lead cs)).dropWhile (· ≠ ']') := by
    have hsplit : cs = inner cs ++ (cs.drop (lead cs)).dropWhile (· ≠ ']') := by
      rw [inner, List.append_assoc, List.takeWhile_append_dropWhile, List.take_append_drop]
    calc cs.drop (inner cs).length
        = (inner cs ++ (cs.drop (lead cs)).dropWhile (· ≠ ']')).drop (inner cs).length := by
          rw [← hsplit]
      _ = (cs.drop (lead cs)).dropWhile (· ≠ ']') := List.drop_left
  rw [closeBracket_eq_some_iff_inner, hdrop, inner]
  generalize cs.drop (lead cs) = l
  constructor
  · rintro ⟨rfl, hrest⟩
    refine ⟨l.takeWhile (· ≠ ']'), rfl, fun hm => ?_, ?_⟩
    · simpa using List.all_eq_true.1 List.all_takeWhile ']' hm
    · rw [← hrest, List.takeWhile_append_dropWhile]
  · rintro ⟨w, rfl, hw, rfl⟩
    have hall : ∀ a ∈ w, decide (a ≠ ']') = true := by
      intro a ha
      simpa using ne_of_mem_of_not_mem ha hw
    rw [List.takeWhile_append_of_pos hall, List.dropWhile_append_of_pos hall]
    simp

theorem isInside_plain {x : Char} {w : List Char} (hx : x ≠ '!') : IsInside (x :: w) ↔ ']' ∉ w := by
  rw [IsInside]
  · simp [hx]
  · simp [hx]

/-- A bracket is closed where its inside ends, and there is only one such place. -/
theorem closeBracket_eq_some :
    closeBracket cs = some (inside, rest) ↔ IsInside inside ∧ cs = inside ++ ']' :: rest := by
  rw [closeBracket_eq_some_iff_lead]
  constructor
  · rintro ⟨w, rfl, hw, hrest⟩
    refine ⟨?_, by rw [List.append_assoc, ← hrest, List.take_append_drop]⟩
    revert hrest
    fun_cases lead cs with
    | case1 tail => exact fun _ => hw
    | case2 tail hn =>
      intro hrest
      cases w with
      | nil => exact (hn rest hrest).elim
      | cons x w => exact fun hm => hw (List.mem_cons_of_mem _ hm)
    | case3 tail => exact fun _ => (isInside_plain (by decide)).2 hw
    | case4 l h1 h2 h3 =>
      intro hrest
      cases w with
      | nil => exact (h3 rest hrest).elim
      | cons x w =>
        have hx : x ≠ '!' := by
          rintro rfl
          exact h2 (w ++ ']' :: rest) hrest
        exact (isInside_plain hx).2 fun hm => hw (List.mem_cons_of_mem _ hm)
  · rintro ⟨hi, rfl⟩
    revert hi
    fun_cases IsInside inside with
    | case1 first w =>
      intro hw
      by_cases hf : first = ']'
      · subst hf
        exact ⟨w, rfl, hw, rfl⟩
      · have hlead : lead ('!' :: first :: w ++ ']' :: rest) = 1 := by simp [lead, hf]
        rw [hlead]
        exact ⟨first :: w, rfl, by simpa [Ne.symm hf] using hw, rfl⟩
    | case2 first w hn =>
      rintro ⟨hx, hw⟩
      by_cases hf : first = ']'
      · subst hf
        exact ⟨w, rfl, hw, rfl⟩
      · have hlead : lead (first :: w ++ ']' :: rest) = 0 := by simp [lead, hx, hf]
        rw [hlead]
        exact ⟨first :: w, rfl, by simpa [Ne.symm hf] using hw, rfl⟩
    | case3 => exact False.elim

end Brackets

section Matching

variable {p s inside rest : List Char} {ts : List Token} {c : Char}

theorem parse_bracket (h : closeBracket p = some (inside, rest)) :
    parse ('[' :: p) = .set (bracket (dropEmptyRanges (chunks inside))) :: parse rest := by
  rw [parse]
  split
  · next h' =>
    rw [h] at h'
    cases h'
    rfl
  · next h' =>
    rw [h] at h'
    cases h'

theorem parse_unclosed (h : closeBracket p = none) : parse ('[' :: p) = .char '[' :: parse p := by
  rw [parse]
  split
  · next h' =>
    rw [h] at h'
    cases h'
  · rfl

theorem parse_char (h : c ∉ ['*', '?', '[']) : parse (c :: p) = .char c :: parse p := by
  rw [parse] <;> simp_all

theorem matchesTokens_star_iff :
    matchesTokens (.star :: ts) s ↔ ∃ t s', s = t ++ s' ∧ matchesTokens ts s' := by
  induction s with
  | nil =>
    rw [matchesTokens]
    constructor
    · intro h
      exact ⟨[], [], rfl, h⟩
    · rintro ⟨t, s', hs, h⟩
      obtain ⟨-, rfl⟩ := List.append_eq_nil_iff.1 hs.symm
      exact h
  | cons c s ih =>
    rw [matchesTokens, Bool.or_eq_true, ih]
    constructor
    · rintro (h | ⟨t, s', rfl, h⟩)
      · exact ⟨[], c :: s, rfl, h⟩
      · exact ⟨c :: t, s', rfl, h⟩
    · rintro ⟨t, s', hs, h⟩
      cases t with
      | nil => exact Or.inl (hs ▸ h)
      | cons d t =>
        obtain ⟨-, rfl⟩ := List.cons.inj hs
        exact Or.inr ⟨t, s', rfl, h⟩

theorem matchesTokens_of_fits (h : Fits p s) : matchesTokens (parse p) s := by
  induction h with
  | nil => simp [parse, matchesTokens]
  | star t h ih =>
    rw [parse]
    exact matchesTokens_star_iff.2 ⟨t, _, rfl, ih⟩
  | any c h ih =>
    rw [parse]
    simpa [matchesTokens, Token.accepts] using ih
  | bracket hi hc h ih =>
    rw [parse_bracket (closeBracket_eq_some.2 ⟨hi, rfl⟩)]
    simpa [matchesTokens, Token.accepts, (accepts_bracket_iff _).2 hc] using ih
  | unclosed hn h ih =>
    have hnone : closeBracket _ = none :=
      Option.eq_none_iff_forall_ne_some.2 fun x hx => by
        obtain ⟨hi, hp⟩ := closeBracket_eq_some.1 hx
        exact hn x.1 x.2 hi hp
    rw [parse_unclosed hnone]
    simpa [matchesTokens, Token.accepts] using ih
  | char hc h ih =>
    rw [parse_char hc]
    simpa [matchesTokens, Token.accepts] using ih

/-- Every token but the star takes one character. -/
theorem matchesTokens_cons_iff {t : Token} (ht : t ≠ .star) :
    matchesTokens (t :: ts) s ↔ ∃ c s', s = c :: s' ∧ t.accepts c ∧ matchesTokens ts s' := by
  cases s with
  | nil => cases t <;> simp_all [matchesTokens]
  | cons c s =>
    have hcons : matchesTokens (t :: ts) (c :: s) ↔ t.accepts c ∧ matchesTokens ts s := by
      cases t <;> simp_all [matchesTokens]
    rw [hcons]
    constructor
    · rintro ⟨hc, h⟩
      exact ⟨c, s, rfl, hc, h⟩
    · rintro ⟨d, s', hs, hc, h⟩
      cases hs
      exact ⟨hc, h⟩

theorem fits_of_matchesTokens (h : matchesTokens (parse p) s) : Fits p s := by
  fun_induction parse p generalizing s with
  | case1 =>
    cases s with
    | nil => exact .nil
    | cons c s => simp [matchesTokens] at h
  | case2 rest ih =>
    obtain ⟨t, s', rfl, hrest⟩ := matchesTokens_star_iff.1 h
    exact .star t (ih hrest)
  | case3 rest ih =>
    obtain ⟨c, s', rfl, -, hrest⟩ := (matchesTokens_cons_iff (by simp)).1 h
    exact .any c (ih hrest)
  | case4 rest inside later hclose ih =>
    obtain ⟨c, s', rfl, hc, hrest⟩ := (matchesTokens_cons_iff (by simp)).1 h
    obtain ⟨hi, rfl⟩ := closeBracket_eq_some.1 hclose
    exact .bracket hi ((accepts_bracket_iff inside).1 hc) (ih hrest)
  | case5 rest hclose ih =>
    obtain ⟨c, s', rfl, hc, hrest⟩ := (matchesTokens_cons_iff (by simp)).1 h
    obtain rfl : c = '[' := by simpa [Token.accepts] using hc
    refine .unclosed (fun inside later hi hp => ?_) (ih hrest)
    rw [closeBracket_eq_some.2 ⟨hi, hp⟩] at hclose
    cases hclose
  | case6 d rest h1 h2 h3 ih =>
    obtain ⟨c, s', rfl, hc, hrest⟩ := (matchesTokens_cons_iff (by simp)).1 h
    obtain rfl : c = d := by simpa [Token.accepts] using hc
    exact .char (by simpa using ⟨h1, h2, h3⟩) (ih hrest)

end Matching

/-- The answer for a pattern is what the characters of the pattern say. -/
theorem isMatch_iff (pattern text : String) :
    isMatch pattern text ↔ Fits pattern.toList text.toList := by
  rw [isMatch_eq]
  exact ⟨fits_of_matchesTokens, matchesTokens_of_fits⟩

theorem Fits.star_self (s : List Char) : Fits ['*'] s := by
  simpa using Fits.star s .nil

/-- A pattern without wildcards fits itself alone. -/
theorem fits_iff_eq {p s : List Char} (hp : ∀ c ∈ p, c ∉ ['*', '?', '[']) : Fits p s ↔ s = p := by
  constructor
  · intro h
    induction h with
    | nil => rfl
    | star t h ih => exact absurd (hp '*' List.mem_cons_self) (by simp)
    | any c h ih => exact absurd (hp '?' List.mem_cons_self) (by simp)
    | bracket hi hc h ih => exact absurd (hp '[' List.mem_cons_self) (by simp)
    | unclosed hn h ih => exact absurd (hp '[' List.mem_cons_self) (by simp)
    | char hc h ih => rw [ih fun c hm => hp c (List.mem_cons_of_mem _ hm)]
  · rintro rfl
    induction s with
    | nil => exact .nil
    | cons c s ih =>
      exact .char (hp c List.mem_cons_self)
        (ih fun d hd => hp d (List.mem_cons_of_mem _ hd))

end Asyncify.Wildcard
