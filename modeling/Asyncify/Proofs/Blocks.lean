import Asyncify.Diff
import Mathlib.Data.List.Infix

/-! Common blocks of two lists of lines: they are common, they follow one another, and a list
compared with itself is one block. -/
namespace Asyncify.Diff

section Lines

variable {xs : List String} {i j k : Nat}

@[simp] theorem length_linesBetween :
    (linesBetween xs i j).length = min (j - i) (xs.length - i) := by
  simp [linesBetween]

theorem linesBetween_self (xs : List String) (i : Nat) : linesBetween xs i i = [] := by
  simp [linesBetween]

theorem linesBetween_end (xs : List String) (i : Nat) :
    linesBetween xs i xs.length = xs.drop i := by
  simp [linesBetween]

theorem linesBetween_append (hij : i ≤ j) (hjk : j ≤ k) :
    linesBetween xs i j ++ linesBetween xs j k = linesBetween xs i k := by
  have hj : xs.drop j = (xs.drop i).drop (j - i) := by rw [List.drop_drop]; congr 1; omega
  have hk : k - i = (j - i) + (k - j) := by omega
  rw [linesBetween, linesBetween, linesBetween, hj, hk, List.take_add]

theorem linesBetween_append_drop (h : i ≤ k) : linesBetween xs i k ++ xs.drop k = xs.drop i := by
  have hk : xs.drop k = (xs.drop i).drop (k - i) := by rw [List.drop_drop]; congr 1; omega
  rw [linesBetween, hk, List.take_append_drop]

theorem linesBetween_linesBetween {a c : Nat} (h : i + c ≤ j) :
    linesBetween (linesBetween xs i j) a c = linesBetween xs (i + a) (i + c) := by
  rw [linesBetween, linesBetween, linesBetween, List.drop_take, List.take_take, List.drop_drop]
  congr 1
  omega

/-- The last lines of a list, read off its reverse. -/
theorem linesBetween_reverse {as : List String} (h : k ≤ as.length) :
    linesBetween (as.reverse ++ xs) (as.length - k) as.length = (as.take k).reverse := by
  have hk : as.length - (as.length - k) = k := by omega
  rw [linesBetween, List.drop_append_of_le_length (by simp), List.drop_reverse, hk]
  exact List.take_left' (by simp [h])

end Lines

/-- From lines `i` and `j` up to lines `i'` and `j'`, the old and the new lines are the same. -/
structure Level (xs ys : List String) (i j i' j' : Nat) : Prop where
  old_le : i ≤ i'
  new_le : j ≤ j'
  old_end : i' ≤ xs.length
  new_end : j' ≤ ys.length
  lines : linesBetween xs i i' = linesBetween ys j j'

namespace Level

variable {xs ys : List String} {i j i' j' i'' j'' : Nat}

theorem refl (hi : i ≤ xs.length) (hj : j ≤ ys.length) : Level xs ys i j i j :=
  ⟨Nat.le_refl i, Nat.le_refl j, hi, hj, by rw [linesBetween_self, linesBetween_self]⟩

theorem trans (h : Level xs ys i j i' j') (h' : Level xs ys i' j' i'' j'') :
    Level xs ys i j i'' j'' := by
  refine ⟨h.old_le.trans h'.old_le, h.new_le.trans h'.new_le, h'.old_end, h'.new_end, ?_⟩
  rw [← linesBetween_append h.old_le h'.old_le, ← linesBetween_append h.new_le h'.new_le, h.lines,
    h'.lines]

theorem length_eq (h : Level xs ys i j i' j') : i' - i = j' - j := by
  have hlen := congrArg List.length h.lines
  have hi := h.old_end
  have hj := h.new_end
  rw [length_linesBetween, length_linesBetween] at hlen
  omega

/-- Lists that agree at the front, reversed. -/
theorem of_take {as bs : List String} {k : Nat} (ha : k ≤ as.length) (hb : k ≤ bs.length)
    (h : as.take k = bs.take k) (xs ys : List String) :
    Level (as.reverse ++ xs) (bs.reverse ++ ys) (as.length - k)
      (bs.length - k) as.length bs.length := by
  refine ⟨by omega, by omega, by simp, by simp, ?_⟩
  rw [linesBetween_reverse ha, linesBetween_reverse hb, h]

end Level

section Run

variable (popular : String → Bool)

/-- How many lines agree at the front of two lists, up to a popular one. -/
def run : List String → List String → Nat
  | x :: xs, y :: ys => if x = y && !popular y then run xs ys + 1 else 0
  | _, _ => 0

variable {popular} {xs ys : List String}

theorem run_comm (xs ys : List String) : run popular xs ys = run popular ys xs := by
  induction xs generalizing ys with
  | nil => cases ys <;> rfl
  | cons x xs ih =>
    cases ys with
    | nil => rfl
    | cons y ys =>
      rw [run, run, ih]
      by_cases hxy : x = y
      · rw [hxy]
      · simp [hxy, Ne.symm hxy]

theorem run_le_length (xs ys : List String) : run popular xs ys ≤ xs.length := by
  induction xs generalizing ys with
  | nil => cases ys <;> simp [run]
  | cons x xs ih =>
    cases ys with
    | nil => simp [run]
    | cons y ys =>
      rw [run, List.length_cons]
      split
      · exact Nat.succ_le_succ (ih ys)
      · exact Nat.zero_le _

theorem take_run (xs ys : List String) :
    xs.take (run popular xs ys) = ys.take (run popular xs ys) := by
  induction xs generalizing ys with
  | nil => cases ys <;> simp [run]
  | cons x xs ih =>
    cases ys with
    | nil => simp [run]
    | cons y ys =>
      rw [run]
      by_cases h : x = y && !popular y
      · obtain ⟨rfl, -⟩ : x = y ∧ popular y = false := by simpa using h
        rw [if_pos h, List.take_succ_cons, List.take_succ_cons, ih ys]
      · rw [if_neg h]
        rfl

/-- A list agrees with none further than with itself. -/
theorem run_le_self (xs ys : List String) : run popular xs ys ≤ run popular xs xs := by
  induction xs generalizing ys with
  | nil => cases ys <;> simp [run]
  | cons x xs ih =>
    cases ys with
    | nil => simp [run]
    | cons y ys =>
      rw [run, run]
      by_cases h : x = y && !popular y
      · obtain ⟨rfl, hp⟩ : x = y ∧ popular y = false := by simpa using h
        simpa [hp] using ih ys
      · rw [if_neg h]
        exact Nat.zero_le _

theorem commonPrefix_eq_run (xs ys : List String) :
    commonPrefix xs ys = run (fun _ => false) xs ys := by
  induction xs generalizing ys with
  | nil => cases ys <;> rfl
  | cons x xs ih =>
    cases ys with
    | nil => rfl
    | cons y ys => simp [commonPrefix, run, ih]

theorem commonPrefix_le_left (xs ys : List String) : commonPrefix xs ys ≤ xs.length := by
  rw [commonPrefix_eq_run]
  exact run_le_length xs ys

theorem commonPrefix_le_right (xs ys : List String) : commonPrefix xs ys ≤ ys.length := by
  rw [commonPrefix_eq_run, run_comm]
  exact run_le_length ys xs

theorem take_commonPrefix (xs ys : List String) :
    xs.take (commonPrefix xs ys) = ys.take (commonPrefix xs ys) := by
  rw [commonPrefix_eq_run]
  exact take_run xs ys

theorem commonPrefix_self (xs : List String) : commonPrefix xs xs = xs.length := by
  induction xs with
  | nil => rfl
  | cons x xs ih => simp [commonPrefix, ih]

variable (popular) in
/-- The runs back from the end of old lines, for each of the new lines. `bs` are the new lines
before these, reversed like the old ones. -/
def runs (as bs : List String) : List String → List Nat
  | [] => []
  | y :: ys => run popular as (y :: bs) :: runs as (y :: bs) ys

theorem runs_nil (bs ys : List String) : runs popular [] bs ys = ys.map fun _ => 0 := by
  induction ys generalizing bs with
  | nil => rfl
  | cons y ys ih => simp [runs, run, ih]

/-- One more old line makes a row out of the row before it. -/
theorem agreeing_runs (x : String) (as bs ys : List String) :
    agreeing popular x (run popular as bs :: runs popular as bs ys) ys =
      runs popular (x :: as) bs ys := by
  induction ys generalizing bs with
  | nil => rfl
  | cons y ys ih => rw [runs, agreeing, ih, runs, run]

/-- The first new line has none before it. -/
theorem agreeing_row (x : String) (as ys : List String) :
    agreeing popular x (0 :: runs popular as [] ys) ys = runs popular (x :: as) [] ys := by
  have hzero : run popular as [] = 0 := by cases as <;> rfl
  rw [← hzero, agreeing_runs]

end Run

/-- The lines of the block are the same on both sides. -/
def Block.IsCommon (xs ys : List String) (b : Block) : Prop :=
  Level xs ys b.old b.new (b.old + b.size) (b.new + b.size)

section Longest

variable {popular : String → Bool} {X Y : List String} {best : Block} {i : Nat}

/-- A match found in a row is common: the row counts the agreeing lines that end there. -/
theorem isCommon_better {as xs : List String} (ys bs : List String) (hi : as.length = i + 1)
    (hX : as.reverse ++ xs = X) (hY : bs.reverse ++ ys = Y) (hbest : best.IsCommon X Y) :
    (better i best bs.length (runs popular as bs ys)).IsCommon X Y := by
  induction ys generalizing bs best with
  | nil => exact hbest
  | cons y ys ih =>
    rw [runs, better]
    have hY' : (y :: bs).reverse ++ ys = Y := by simpa using hY
    refine ih (y :: bs) hY' ?_
    split
    · have ha : run popular as (y :: bs) ≤ as.length := run_le_length _ _
      have hb : run popular as (y :: bs) ≤ (y :: bs).length := by
        rw [run_comm]
        exact run_le_length _ _
      have hlevel := Level.of_take ha hb (take_run _ _) xs ys
      rw [hX, hY', hi, List.length_cons] at hlevel
      rw [hi] at ha
      rw [List.length_cons] at hb
      simpa only [Block.IsCommon, Nat.sub_add_cancel ha, Nat.sub_add_cancel hb] using hlevel
    · exact hbest

theorem isCommon_longestFrom (xs as : List String) (hi : as.length = i) (hX : as.reverse ++ xs = X)
    (hbest : best.IsCommon X Y) :
    (longestFrom popular Y i (runs popular as [] Y) best xs).IsCommon X Y := by
  induction xs generalizing as i best with
  | nil => exact hbest
  | cons x xs ih =>
    have hi' : (x :: as).length = i + 1 := by rw [List.length_cons, hi]
    have hX' : (x :: as).reverse ++ xs = X := by simpa using hX
    rw [longestFrom, agreeing_row]
    exact ih (x :: as) hi' hX' (isCommon_better Y [] hi' hX' rfl hbest)

theorem level_commonPrefix_before {j : Nat} (hi : i ≤ X.length) (hj : j ≤ Y.length) :
    Level X Y (i - commonPrefix (X.take i).reverse (Y.take j).reverse)
      (j - commonPrefix (X.take i).reverse (Y.take j).reverse) i j := by
  have hlevel := Level.of_take (commonPrefix_le_left _ _) (commonPrefix_le_right _ _)
    (take_commonPrefix (X.take i).reverse (Y.take j).reverse) (X.drop i) (Y.drop j)
  simpa [hi, hj] using hlevel

theorem level_commonPrefix_behind {j : Nat} (hi : i ≤ X.length) (hj : j ≤ Y.length) :
    Level X Y i j (i + commonPrefix (X.drop i) (Y.drop j)) (j + commonPrefix (X.drop i)
      (Y.drop j)) := by
  have hold := commonPrefix_le_left (X.drop i) (Y.drop j)
  have hnew := commonPrefix_le_right (X.drop i) (Y.drop j)
  rw [List.length_drop] at hold hnew
  refine ⟨by omega, by omega, by omega, by omega, ?_⟩
  rw [linesBetween, linesBetween, Nat.add_sub_cancel_left, Nat.add_sub_cancel_left]
  exact take_commonPrefix _ _

theorem isCommon_grow (hbest : best.IsCommon X Y) : (grow X Y best).IsCommon X Y := by
  have hbefore := level_commonPrefix_before (hbest.old_le.trans hbest.old_end)
    (hbest.new_le.trans hbest.new_end)
  have hbehind := level_commonPrefix_behind hbest.old_end hbest.new_end
  have hold := commonPrefix_le_left (X.take best.old).reverse (Y.take best.new).reverse
  have hnew := commonPrefix_le_right (X.take best.old).reverse (Y.take best.new).reverse
  rw [List.length_reverse, List.length_take] at hold hnew
  have hlevel := (hbefore.trans hbest).trans hbehind
  rw [Block.IsCommon, grow]
  dsimp only
  convert hlevel using 1 <;> omega

theorem isCommon_longest (popular : String → Bool) (xs ys : List String) :
    (longest popular xs ys).IsCommon xs ys := by
  have hnone : Block.IsCommon xs ys ⟨0, 0, 0⟩ := Level.refl (Nat.zero_le _) (Nat.zero_le _)
  rw [longest, ← runs_nil []]
  exact isCommon_grow (isCommon_longestFrom xs [] rfl rfl hnone)

end Longest

/-- Common blocks in order, from lines `i` and `j` up to lines `m` and `n`. -/
inductive Chain (xs ys : List String) (m n : Nat) : Nat → Nat → List Block → Prop where
  | nil {i j : Nat} : i ≤ m → j ≤ n → Chain xs ys m n i j []
  | cons {i j : Nat} {b : Block} {bs : List Block} :
      i ≤ b.old → j ≤ b.new → b.IsCommon xs ys →
      Chain xs ys m n (b.old + b.size) (b.new + b.size) bs →
      Chain xs ys m n i j (b :: bs)

namespace Chain

variable {X Y : List String} {m n p q i j : Nat} {as bs : List Block}

theorem mono (h : Chain X Y m n p q bs) (hi : i ≤ p) (hj : j ≤ q) : Chain X Y m n i j bs := by
  cases h with
  | nil hm hn => exact .nil (hi.trans hm) (hj.trans hn)
  | cons hold hnew hb hbs => exact .cons (hi.trans hold) (hj.trans hnew) hb hbs

theorem append (ha : Chain X Y p q i j as) (hb : Chain X Y m n p q bs) :
    Chain X Y m n i j (as ++ bs) := by
  induction ha with
  | nil hm hn => exact hb.mono hm hn
  | cons hold hnew h _ ih => exact .cons hold hnew h ih

theorem joinFrom {a : Block} (h : Chain X Y m n i j (a :: bs)) :
    Chain X Y m n i j (joinFrom a bs) := by
  induction bs generalizing a i j with
  | nil => exact h
  | cons b bs ih =>
    cases h with
    | cons hold hnew ha hrest =>
      rw [Diff.joinFrom]
      split
      case isTrue hmeet =>
        cases hrest with
        | cons _ _ hb hbs =>
          obtain ⟨hmi, hmj⟩ := hmeet
          rw [Block.IsCommon, ← hmi, ← hmj] at hb
          rw [← hmi, ← hmj] at hbs
          refine ih (.cons hold hnew ?_ ?_)
          · simpa only [Block.IsCommon, Nat.add_assoc] using ha.trans hb
          · simpa only [Nat.add_assoc] using hbs
      case isFalse => exact .cons hold hnew ha (ih hrest)

theorem joinBlocks (h : Chain X Y m n i j bs) : Chain X Y m n i j (joinBlocks bs) := by
  cases bs with
  | nil => exact h
  | cons b bs => exact h.joinFrom

end Chain

/-- The lines `xs` are those of `X` from line `i` on. -/
structure Stretch (X : List String) (i : Nat) (xs : List String) : Prop where
  bound : i + xs.length ≤ X.length
  lines : linesBetween X i (i + xs.length) = xs

namespace Stretch

variable {X xs : List String} {i k : Nat}

theorem whole (X : List String) : Stretch X 0 X := by
  refine ⟨by omega, ?_⟩
  rw [Nat.zero_add, linesBetween_end, List.drop_zero]

theorem between (h : Stretch X i xs) {a c : Nat} (hc : c ≤ xs.length) :
    linesBetween xs a c = linesBetween X (i + a) (i + c) := by
  have hbetween : linesBetween (linesBetween X i (i + xs.length)) a c =
      linesBetween X (i + a) (i + c) :=
    linesBetween_linesBetween (by omega)
  rwa [h.lines] at hbetween

theorem take (h : Stretch X i xs) (hk : k ≤ xs.length) : Stretch X i (xs.take k) := by
  have hlen : (xs.take k).length = k := by simp [hk]
  have hbound := h.bound
  refine ⟨by omega, ?_⟩
  have hlines := h.between (a := 0) hk
  rw [hlen]
  simpa [linesBetween] using hlines.symm

theorem drop (h : Stretch X i xs) (hk : k ≤ xs.length) : Stretch X (i + k) (xs.drop k) := by
  have hbound := h.bound
  have hend : i + k + (xs.drop k).length = i + xs.length := by
    rw [List.length_drop]
    omega
  refine ⟨by omega, ?_⟩
  rw [hend, ← h.between (Nat.le_refl _), linesBetween_end]

end Stretch

section Within

variable {X Y xs ys : List String} {i j : Nat} {b : Block}

/-- A common block of two stretches is one of the whole lists. -/
theorem Block.IsCommon.within (h : b.IsCommon xs ys) (hx : Stretch X i xs) (hy : Stretch Y j ys) :
    Block.IsCommon X Y ⟨i + b.old, j + b.new, b.size⟩ := by
  have hold := h.old_end
  have hnew := h.new_end
  have hlines := h.lines
  rw [hx.between hold, hy.between hnew] at hlines
  have hbx := hx.bound
  have hby := hy.bound
  refine ⟨Nat.le_add_right _ _, Nat.le_add_right _ _, ?_, ?_, ?_⟩
  · show i + b.old + b.size ≤ X.length
    omega
  · show j + b.new + b.size ≤ Y.length
    omega
  · simpa only [Nat.add_assoc] using hlines

theorem chain_blocksWithin (popular : String → Bool) (depth : Nat) (hx : Stretch X i xs)
    (hy : Stretch Y j ys) :
    Chain X Y (i + xs.length) (j + ys.length) i j (blocksWithin popular depth i j xs ys) := by
  induction depth generalizing i j xs ys with
  | zero => exact .nil (Nat.le_add_right _ _) (Nat.le_add_right _ _)
  | succ depth ih =>
    rw [blocksWithin]
    have hb := isCommon_longest popular xs ys
    generalize longest popular xs ys = b at hb
    split
    · exact .nil (Nat.le_add_right _ _) (Nat.le_add_right _ _)
    · have hold := hb.old_end
      have hnew := hb.new_end
      have hbefore := ih (hx.take (k := b.old) (by omega)) (hy.take (k := b.new) (by omega))
      have hbehind := ih (hx.drop hold) (hy.drop hnew)
      have hxb : min b.old xs.length = b.old := by omega
      have hyb : min b.new ys.length = b.new := by omega
      have hxe : i + (b.old + b.size) + (xs.length - (b.old + b.size)) = i + xs.length := by omega
      have hye : j + (b.new + b.size) + (ys.length - (b.new + b.size)) = j + ys.length := by omega
      rw [List.length_take, List.length_take, hxb, hyb] at hbefore
      rw [List.length_drop, List.length_drop, hxe, hye, ← Nat.add_assoc, ← Nat.add_assoc] at hbehind
      exact hbefore.append (.cons (Nat.le_refl _) (Nat.le_refl _) (hb.within hx hy) hbehind)

/-- The blocks of two lists of lines are common and follow one another. -/
theorem chain_blocks (xs ys : List String) :
    Chain xs ys xs.length ys.length 0 0 (blocks xs ys) := by
  have hchain := chain_blocksWithin (ys.eraseDups.filter (isPopular ys)).contains (xs.length + 1)
    (Stretch.whole xs) (Stretch.whole ys)
  rw [Nat.zero_add, Nat.zero_add] at hchain
  exact hchain.joinBlocks

end Within

section Diagonal

variable {popular : String → Bool} {Z as bs : List String} {best : Block} {i : Nat}

/-- One match of a list with itself. `as` are its lines up to the old line and `y :: bs` those up to
the new one, reversed like the whole list `Z`. A longer match than all before is on the diagonal:
left of it the rows before have seen the match, and right of it the diagonal has. -/
theorem candidate_diagonal {y : String} (hi : as.length = i + 1) (has : as <:+ Z)
    (hy : y :: bs <:+ Z)
    (hleft : ∀ b, b <:+ Z → b.length < as.length → run popular as b ≤ best.size)
    (hseen : ∀ b, b <:+ bs → run popular as b ≤ best.size)
    (hk : best.size < run popular as (y :: bs)) : i = bs.length := by
  have hge : as.length ≤ (y :: bs).length := by
    by_contra hlt
    have := hleft _ hy (by omega)
    omega
  rw [List.length_cons] at hge
  by_contra hne
  have hsuffix : as <:+ bs :=
    List.suffix_of_suffix_length_le has ((List.suffix_cons y bs).trans hy) (by omega)
  have hself : run popular as (y :: bs) ≤ run popular as as := run_le_self as (y :: bs)
  have := hseen as hsuffix
  omega

theorem better_diagonal (ys : List String) (hi : as.length = i + 1) (has : as <:+ Z)
    (hZ : ys.reverse ++ bs = Z) (hsame : best.old = best.new)
    (hleft : ∀ b, b <:+ Z → b.length < as.length → run popular as b ≤ best.size)
    (hseen : ∀ b, b <:+ bs → run popular as b ≤ best.size) :
    let best' := better i best bs.length (runs popular as bs ys)
    best'.old = best'.new ∧ best.size ≤ best'.size ∧ ∀ b, b <:+ Z →
      run popular as b ≤ best'.size := by
  induction ys generalizing bs best with
  | nil =>
    obtain rfl : bs = Z := hZ
    exact ⟨hsame, Nat.le_refl _, hseen⟩
  | cons y ys ih =>
    have hZ' : ys.reverse ++ y :: bs = Z := by simpa using hZ
    have hy : y :: bs <:+ Z := ⟨ys.reverse, hZ'⟩
    have hdiag := candidate_diagonal hi has hy hleft hseen
    rw [runs, better]
    generalize hnext : (if best.size < run popular as (y :: bs) then _ else best) = next
    have hnew : next.old = next.new ∧ best.size ≤ next.size ∧
        run popular as (y :: bs) ≤ next.size := by
      subst hnext
      split
      · rename_i hk
        exact ⟨by rw [hdiag hk], Nat.le_of_lt hk, Nat.le_refl _⟩
      · rename_i hk
        exact ⟨hsame, Nat.le_refl _, Nat.le_of_not_lt hk⟩
    obtain ⟨hsame', hmore, hrun⟩ := hnew
    have hleft' : ∀ b, b <:+ Z → b.length < as.length → run popular as b ≤ next.size :=
      fun b hb hlt => (hleft b hb hlt).trans hmore
    have hseen' : ∀ b, b <:+ y :: bs → run popular as b ≤ next.size := by
      intro b hb
      obtain rfl | hb := List.suffix_cons_iff.1 hb
      · exact hrun
      · exact (hseen b hb).trans hmore
    obtain ⟨hlast, hsize, hall⟩ := ih hZ' hsame' hleft' hseen'
    exact ⟨hlast, hmore.trans hsize, hall⟩

/-- The longest match of a list with itself is on the diagonal. -/
theorem longestFrom_diagonal {X : List String} (xs : List String) (hi : as.length = i)
    (hX : as.reverse ++ xs = X) (hsame : best.old = best.new)
    (hseen : ∀ a, a <:+ as → ∀ b, b <:+ X.reverse → run popular a b ≤ best.size) :
    let best' := longestFrom popular X i (runs popular as [] X) best xs
    best'.old = best'.new := by
  induction xs generalizing as i best with
  | nil => exact hsame
  | cons x xs ih =>
    have hi' : (x :: as).length = i + 1 := by rw [List.length_cons, hi]
    have hX' : (x :: as).reverse ++ xs = X := by simpa using hX
    have has : x :: as <:+ X.reverse := ⟨xs.reverse, by rw [← hX']; simp⟩
    -- a shorter stretch is one of the old ones before, and matching is symmetric
    have hleft : ∀ b, b <:+ X.reverse → b.length < (x :: as).length →
        run popular (x :: as) b ≤ best.size := by
      intro b hb hlt
      have hsuffix : b <:+ as :=
        List.suffix_of_suffix_length_le hb ((List.suffix_cons x as).trans has)
          (Nat.le_of_lt_succ hlt)
      rw [run_comm]
      exact hseen b hsuffix _ has
    have hnone : ∀ b, b <:+ [] → run popular (x :: as) b ≤ best.size := by
      intro b hb
      rw [List.suffix_nil.1 hb]
      exact Nat.zero_le _
    obtain ⟨hsame', hmore, hall⟩ :=
      better_diagonal X hi' has (by simp) hsame hleft hnone
    rw [longestFrom, agreeing_row]
    refine ih hi' hX' hsame' ?_
    intro a ha b hb
    obtain rfl | ha := List.suffix_cons_iff.1 ha
    · exact hall b hb
    · exact (hseen a ha b hb).trans hmore

theorem longest_self (popular : String → Bool) (xs : List String) :
    longest popular xs xs = ⟨0, 0, xs.length⟩ := by
  have hnone : Block.IsCommon xs xs ⟨0, 0, 0⟩ := Level.refl (Nat.zero_le _) (Nat.zero_le _)
  have hseen : ∀ a, a <:+ [] → ∀ b, b <:+ xs.reverse → run popular a b ≤ 0 := by
    intro a ha b _
    rw [List.suffix_nil.1 ha]
    cases b <;> exact Nat.le_refl _
  obtain ⟨b, hb⟩ : ∃ b, longestFrom popular xs 0 (runs popular [] [] xs) ⟨0, 0, 0⟩ xs = b :=
    ⟨_, rfl⟩
  have hcommon : b.IsCommon xs xs := hb ▸ isCommon_longestFrom xs [] rfl rfl hnone
  have hsame : b.old = b.new := hb ▸ longestFrom_diagonal xs rfl rfl rfl hseen
  rw [longest, ← runs_nil [] xs, hb]
  have hend := hcommon.old_end
  have hmin : min b.new xs.length = b.new := by omega
  rw [grow, hsame, commonPrefix_self, commonPrefix_self, List.length_reverse, List.length_take,
    List.length_drop, hmin]
  congr 1 <;> omega

theorem blocks_self {xs : List String} (h : xs ≠ []) : blocks xs xs = [⟨0, 0, xs.length⟩] := by
  have hpos := List.length_pos_iff.2 h
  have hempty : ∀ popular depth i j, blocksWithin popular depth i j [] [] = [] := by
    intro popular depth i j
    cases depth with
    | zero => rfl
    | succ depth => rw [blocksWithin, longest_self]; rfl
  rw [blocks, blocksWithin, longest_self]
  dsimp only
  rw [if_neg (by omega)]
  simp [hempty, joinBlocks, joinFrom]

end Diagonal
end Asyncify.Diff
