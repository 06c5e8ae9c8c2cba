import Asyncify.Proofs.Awaits

/-! Texts that move to another indentation, seen from a piece inside that begins and ends with
characters that are not blank: the piece moves as if it stood alone, and it keeps its text just if
every line that begins in it does. -/
namespace Asyncify

open Asyncify.Lists

namespace Text

/-- The two ways to end a line. -/
def IsBreak (newline : List Char) : Prop := newline = ['\n'] ∨ newline = ['\r', '\n']

/-- A text that neither begins nor ends with a blank. -/
structure IsFirm (cs : List Char) : Prop where
  head : ∃ x rest, cs = x :: rest ∧ isBlank x = false
  last : ∃ rest z, cs = rest ++ [z] ∧ isBlank z = false

end Text

/-- A move of a statement: how many characters of indentation its lines lose at most, and what they
get instead. -/
structure Shift where
  width : Nat
  indent : String

namespace Shift

def line (s : Shift) (l : List Char) : List Char := Text.reindentLine s.width s.indent.toList l

/-- A text after the move, without what its first line gets. -/
def apply (newline : List Char) (cs : List Char) (s : Shift) : List Char :=
  Text.joinWith newline (Lists.onTail s.line (Text.splitOn newline cs))

/-- A text after several moves, the first one first. -/
def applyAll (newline : List Char) (ss : List Shift) (cs : List Char) : List Char :=
  ss.foldl (apply newline) cs

/-- A line after several moves. -/
def lines (ss : List Shift) (l : List Char) : List Char := ss.foldl (fun l s => s.line l) l

end Shift

namespace Text

variable {sep : List Char}

theorem splitFrom_ne_nil (sep : List Char) (skip : Nat) (cs : List Char) :
    splitFrom sep skip cs ≠ [] := by
  fun_induction splitFrom sep skip cs with
  | case1 => simp
  | case2 skip c rest _ ih => exact ih
  | case3 => simp
  | case4 skip c rest _ _ ih =>
    obtain ⟨l, ls, hl⟩ := List.exists_cons_of_ne_nil ih
    simp [hl, prepend]

theorem exists_splitOn (sep cs : List Char) : ∃ first rest, splitOn sep cs = first :: rest :=
  List.exists_cons_of_ne_nil (splitFrom_ne_nil sep 0 cs)

theorem joinWith_cons (l : List Char) (ls : List (List Char)) :
    joinWith sep (l :: ls) = l ++ if ls = [] then [] else sep ++ joinWith sep ls := by
  cases ls <;> simp [joinWith]

theorem joinWith_glue {ls ms : List (List Char)} (hl : ls ≠ []) (hm : ms ≠ []) :
    joinWith sep (glue ls ms) = joinWith sep ls ++ joinWith sep ms := by
  obtain ⟨m, ms, rfl⟩ := List.exists_cons_of_ne_nil hm
  induction ls with
  | nil => exact absurd rfl hl
  | cons l ls ih =>
    rw [glue_cons]
    split
    · next h =>
      subst h
      simp [joinWith_cons]
    · next h =>
      rw [joinWith_cons, if_neg (glue_ne_nil h), ih h, joinWith_cons l, if_neg h]
      simp

/-- No separator lies across the place where a character begins that is in none. -/
theorem splitFrom_append {x : Char} (hx : x ∉ sep) (a t : List Char) {skip : Nat}
    (hs : skip ≤ a.length) :
    splitFrom sep skip (a ++ x :: t) = glue (splitFrom sep skip a) (splitFrom sep 0 (x :: t)) := by
  obtain ⟨m, ms, hm⟩ := List.exists_cons_of_ne_nil (splitFrom_ne_nil sep 0 (x :: t))
  rw [hm]
  induction a generalizing skip with
  | nil =>
    obtain rfl : skip = 0 := by simpa using hs
    simpa [splitFrom, glue] using hm
  | cons c a ih =>
    rw [List.cons_append, splitFrom, splitFrom]
    split
    · exact ih (by simp at hs; omega)
    · have hpre : sep.isPrefixOf (c :: (a ++ x :: t)) = sep.isPrefixOf (c :: a) := by
        rw [Bool.eq_iff_iff, List.isPrefixOf_iff_prefix, List.isPrefixOf_iff_prefix,
          ← List.cons_append]
        exact append_cons_starts_iff hx (c :: a) t
      rw [hpre]
      split
      · next hp =>
        have hlen := (List.isPrefixOf_iff_prefix.1 hp).length_le
        rw [ih (by simp at hlen; omega), glue_cons, if_neg (splitFrom_ne_nil _ _ _)]
      · rw [ih (Nat.zero_le _)]
        obtain ⟨k, ks, hk⟩ := List.exists_cons_of_ne_nil (splitFrom_ne_nil sep 0 a)
        rw [hk, prepend, glue_cons, glue_cons]
        split <;> rfl

theorem splitOn_append {x : Char} (hx : x ∉ sep) (a t : List Char) :
    splitOn sep (a ++ x :: t) = glue (splitOn sep a) (splitOn sep (x :: t)) :=
  splitFrom_append hx a t (Nat.zero_le _)

theorem splitOn_cons_of_not {c : Char} {cs : List Char} (h : ¬ sep <+: c :: cs) :
    splitOn sep (c :: cs) = prepend c (splitOn sep cs) := by
  rw [← List.isPrefixOf_iff_prefix] at h
  rw [splitOn, splitFrom, if_neg (Nat.lt_irrefl 0), if_neg h]
  rfl

theorem splitOn_cons {x : Char} (hx : x ∉ sep) (hs : sep ≠ []) (t : List Char) :
    splitOn sep (x :: t) = prepend x (splitOn sep t) := by
  refine splitOn_cons_of_not fun h => ?_
  obtain ⟨y, ys, rfl⟩ := List.exists_cons_of_ne_nil hs
  exact hx (by simp [(List.cons_prefix_cons.1 h).1])

theorem glue_glue_singleton (ls : List (List Char)) (hl : ls ≠ []) (z : Char)
    {ms : List (List Char)} (hm : ms ≠ []) : glue (glue ls [[z]]) ms = glue ls (prepend z ms) := by
  obtain ⟨m, ms, rfl⟩ := List.exists_cons_of_ne_nil hm
  induction ls with
  | nil => exact absurd rfl hl
  | cons l ls ih =>
    rw [prepend, glue_cons, glue_cons]
    split
    · simp [glue_cons]
    · next h =>
      rw [glue_cons, if_neg (glue_ne_nil h), ih h, prepend]

/-- Nor does one lie across the place where a character ends that is in none. -/
theorem splitOn_concat_append {z : Char} (hz : z ∉ sep) (hs : sep ≠ []) (a b : List Char) :
    splitOn sep (a ++ [z] ++ b) = glue (splitOn sep (a ++ [z])) (splitOn sep b) := by
  have hb : splitOn sep b ≠ [] := splitFrom_ne_nil sep 0 b
  have ha : splitOn sep a ≠ [] := splitFrom_ne_nil sep 0 a
  have hz1 : splitOn sep [z] = [[z]] := by
    rw [splitOn_cons hz hs]
    rfl
  rw [List.append_assoc, List.singleton_append, splitOn_append hz, splitOn_append hz a [], hz1,
    glue_glue_singleton _ ha z hb, splitOn_cons hz hs]

/-- The first line of a text begins as the text does. -/
theorem exists_splitOn_cons {x : Char} (hx : x ∉ sep) (hs : sep ≠ []) (t : List Char) :
    ∃ l rest, splitOn sep (x :: t) = (x :: l) :: rest := by
  obtain ⟨l, ls, hl⟩ := exists_splitOn sep t
  exact ⟨l, ls, by rw [splitOn_cons hx hs, hl, prepend]⟩

/-- The last line of a text ends as the text does. -/
theorem exists_splitOn_concat {z : Char} (hz : z ∉ sep) (hs : sep ≠ []) (a : List Char) :
    ∃ lines l, splitOn sep (a ++ [z]) = lines ++ [l ++ [z]] := by
  have hz1 : splitOn sep [z] = [[z]] := by
    rw [splitOn_cons hz hs]
    rfl
  have hglue (ls : List (List Char)) (hl : ls ≠ []) : ∃ lines l, glue ls [[z]] =
      lines ++ [l ++ [z]] := by
    induction ls with
    | nil => exact absurd rfl hl
    | cons l ls ih =>
      rw [glue_cons]
      split
      · exact ⟨[], l, rfl⟩
      · next h =>
        obtain ⟨lines, k, hk⟩ := ih h
        exact ⟨l :: lines, k, by rw [hk]; rfl⟩
  rw [splitOn_append hz a [], hz1]
  exact hglue _ (splitFrom_ne_nil sep 0 a)

section Lines

variable {width : Nat} {indent : List Char}

theorem reindentLine_eq (width : Nat) (indent : List Char) {l : List Char}
    (h : l.all isBlank = false) :
    reindentLine width indent l = indent ++ l.drop (min (indentation l).length width) := by
  have hmin : min ((indentation l).length : Int) width =
      (min (indentation l).length width : Nat) := by omega
  rw [reindentLine, if_neg (by simp [h]), hmin, dropOrKeepLast, if_pos (by omega),
    Int.toNat_natCast]

theorem not_indent_of_not_blank {x : Char} (hx : isBlank x = false) : ¬ (x = ' ' ∨ x = '\t') := by
  rintro (rfl | rfl) <;> exact absurd hx (by decide)

/-- What stands before a character that is not blank changes; the rest of its line stays. -/
theorem exists_reindentLine_append {x : Char} (hx : isBlank x = false) (l t : List Char) :
    ∃ l', reindentLine width indent (l ++ x :: t) = l' ++ x :: t := by
  have hall : (l ++ x :: t).all isBlank = false := by simp [hx]
  have hlen : (indentation (l ++ x :: t)).length ≤ l.length := by
    rw [indentation, List.takeWhile_append]
    split
    · simp [not_indent_of_not_blank hx]
    · exact (List.takeWhile_prefix _).length_le
  refine ⟨indent ++ l.drop (min (indentation (l ++ x :: t)).length width), ?_⟩
  rw [reindentLine_eq width indent hall,
    List.drop_append_of_le_length ((Nat.min_le_left ..).trans hlen), List.append_assoc]

/-- What stands behind a character that is not blank stays. -/
theorem reindentLine_concat_append {z : Char} (hz : isBlank z = false) (l t : List Char) :
    reindentLine width indent (l ++ [z] ++ t) = reindentLine width indent (l ++ [z]) ++ t := by
  have hall : (l ++ [z]).all isBlank = false := by simp [hz]
  have hall' : (l ++ [z] ++ t).all isBlank = false := by simp [hz]
  have hind : indentation (l ++ [z] ++ t) = indentation (l ++ [z]) := by
    have hz' := not_indent_of_not_blank hz
    simp only [indentation, List.append_assoc, List.singleton_append]
    rw [List.takeWhile_append, List.takeWhile_append]
    simp [hz']
  have hlen : min (indentation (l ++ [z])).length width ≤ (l ++ [z]).length :=
    (Nat.min_le_left ..).trans (List.takeWhile_prefix _).length_le
  rw [reindentLine_eq width indent hall', reindentLine_eq width indent hall, hind,
    List.drop_append_of_le_length hlen, List.append_assoc]

end Lines

namespace IsBreak

variable {newline : List Char} {x : Char}

theorem ne_nil (h : IsBreak newline) : newline ≠ [] := by
  rcases h with rfl | rfl <;> simp

theorem not_mem (h : IsBreak newline) (hx : isBlank x = false) : x ∉ newline := by
  have hall : newline.all isBlank := by
    rcases h with rfl | rfl <;> decide
  intro hmem
  rw [List.all_eq_true.1 hall x hmem] at hx
  cases hx

end IsBreak

theorem joinWith_prepend (c : Char) (ls : List (List Char)) :
    joinWith sep (prepend c ls) = c :: joinWith sep ls := by
  cases ls with
  | nil => simp [prepend, joinWith]
  | cons l ls => simp [prepend, joinWith_cons]

theorem joinWith_splitFrom (hs : sep ≠ []) (skip : Nat) (cs : List Char) :
    joinWith sep (splitFrom sep skip cs) = cs.drop skip := by
  fun_induction splitFrom sep skip cs with
  | case1 => simp [joinWith]
  | case2 skip c rest hpos ih =>
    obtain ⟨k, rfl⟩ : ∃ k, skip = k + 1 := ⟨skip - 1, by omega⟩
    simpa using ih
  | case3 skip c rest hzero hpre ih =>
    obtain rfl : skip = 0 := by omega
    obtain ⟨tail, htail⟩ := List.isPrefixOf_iff_prefix.1 hpre
    obtain ⟨x, xs, rfl⟩ := List.exists_cons_of_ne_nil hs
    obtain ⟨rfl, rfl⟩ := List.cons.inj htail
    rw [joinWith_cons, if_neg (splitFrom_ne_nil _ _ _), ih]
    simp
  | case4 skip c rest hzero hpre ih =>
    obtain rfl : skip = 0 := by omega
    rw [joinWith_prepend, ih]
    simp

theorem joinWith_splitOn (hs : sep ≠ []) (cs : List Char) : joinWith sep (splitOn sep cs) = cs := by
  rw [splitOn, joinWith_splitFrom hs, List.drop_zero]

theorem head_splitFrom_starts (sep cs : List Char) :
    ∀ l ∈ (splitFrom sep 0 cs).head?, l <+: cs := by
  induction cs with
  | nil => simp [splitFrom]
  | cons c cs ih =>
    intro l hl
    rw [splitFrom, if_neg (Nat.lt_irrefl 0)] at hl
    split at hl
    · obtain rfl : [] = l := by simpa using hl
      exact List.nil_prefix
    · obtain ⟨k, ks, hk⟩ := List.exists_cons_of_ne_nil (splitFrom_ne_nil sep 0 cs)
      rw [hk, prepend] at hl
      obtain rfl : c :: k = l := by simpa using hl
      exact List.cons_prefix_cons.2 ⟨rfl, ih k (by simp [hk])⟩

/-- No piece of a text holds the separator it was cut at. -/
theorem not_infix_of_mem_splitFrom (hs : sep ≠ []) {skip : Nat} {cs l : List Char}
    (hl : l ∈ splitFrom sep skip cs) : ¬ sep <:+: l := by
  fun_induction splitFrom sep skip cs generalizing l with
  | case1 =>
    rw [List.mem_singleton.1 hl, List.infix_nil]
    exact hs
  | case2 skip c rest _ ih => exact ih hl
  | case3 skip c rest _ _ ih =>
    obtain rfl | hl := List.mem_cons.1 hl
    · rw [List.infix_nil]
      exact hs
    · exact ih hl
  | case4 skip c rest _ hpre ih =>
    obtain ⟨k, ks, hk⟩ := List.exists_cons_of_ne_nil (splitFrom_ne_nil sep 0 rest)
    rw [hk, prepend] at hl
    obtain rfl | hl := List.mem_cons.1 hl
    · intro hin
      obtain hpre' | hin := List.infix_cons_iff.1 hin
      · have hstart := head_splitFrom_starts sep rest k (by simp [hk])
        exact hpre (List.isPrefixOf_iff_prefix.2
          (hpre'.trans (List.cons_prefix_cons.2 ⟨rfl, hstart⟩)))
      · exact ih (by simp [hk]) hin
    · exact ih (by simp [hk, hl])

/-- A line in front of a line end is cut off there. -/
theorem IsBreak.splitOn_append (h : IsBreak sep) {l : List Char} (hl : ¬ sep <:+: l)
    (t : List Char) :
    splitOn sep (l ++ sep ++ t) = l :: splitOn sep t := by
  induction l with
  | nil =>
    rcases h with rfl | rfl <;> simp [splitOn, splitFrom, List.isPrefixOf]
  | cons c l ih =>
    have hpre : ¬ sep <+: c :: (l ++ sep ++ t) := by
      intro hp
      refine hl (List.IsPrefix.isInfix ?_)
      rcases h with rfl | rfl
      · simpa [List.cons_prefix_cons] using hp
      · cases l with
        | nil => simp [List.cons_prefix_cons] at hp
        | cons k l => simpa [List.cons_prefix_cons] using hp
    rw [List.cons_append, List.cons_append, splitOn_cons_of_not hpre,
      ih fun hin => hl (List.infix_cons hin)]
    rfl

theorem splitOn_line {l : List Char} (hl : ¬ sep <:+: l) : splitOn sep l = [l] := by
  induction l with
  | nil => rfl
  | cons c l ih =>
    rw [splitOn_cons_of_not fun hp => hl hp.isInfix, ih fun hin => hl (List.infix_cons hin)]
    rfl

/-- A text is cut into lines, one at least, that no line end is in. -/
theorem IsBreak.exists_lines (h : IsBreak sep) (cs : List Char) :
    ∃ first rest, splitOn sep cs = first :: rest ∧ ∀ l ∈ first :: rest, ¬ sep <:+: l := by
  obtain ⟨first, rest, hsplit⟩ := exists_splitOn sep cs
  refine ⟨first, rest, hsplit, fun l hl => ?_⟩
  rw [← hsplit] at hl
  exact not_infix_of_mem_splitFrom h.ne_nil hl

/-- Lines that are joined can be told apart again. -/
theorem IsBreak.splitOn_joinWith (h : IsBreak sep) {ls : List (List Char)} (hne : ls ≠ [])
    (hl : ∀ l ∈ ls, ¬ sep <:+: l) : splitOn sep (joinWith sep ls) = ls := by
  induction ls with
  | nil => exact absurd rfl hne
  | cons l ls ih =>
    have hfirst := hl l List.mem_cons_self
    rw [joinWith_cons]
    split
    · next hnil =>
      rw [List.append_nil, splitOn_line hfirst, hnil]
    · next hnil =>
      rw [← List.append_assoc, h.splitOn_append hfirst, ih hnil fun k hk =>
        hl k (List.mem_cons_of_mem _ hk)]

end Text

namespace Shift

open Text

variable {newline : List Char} {s : Shift} {x z : Char} {t : List Char}

theorem exists_apply_append (h : IsBreak newline) (s : Shift) (hx : isBlank x = false)
    (a t : List Char) :
    ∃ a', s.apply newline (a ++ x :: t) = a' ++ s.apply newline (x :: t) := by
  obtain ⟨l, ys, hl⟩ := exists_splitOn_cons (h.not_mem hx) h.ne_nil t
  have ha : splitOn newline a ≠ [] := splitFrom_ne_nil newline 0 a
  obtain ⟨ls', hne, heq⟩ := exists_onTail_glue (f := s.line) (y := x :: l) ys
    (fun k => exists_reindentLine_append hx k l) ha
  refine ⟨joinWith newline ls', ?_⟩
  rw [apply, splitOn_append (h.not_mem hx), hl, heq, apply, hl,
    joinWith_glue hne (by simp [onTail])]

theorem exists_apply_concat_append (h : IsBreak newline) (s : Shift) (hz : isBlank z = false)
    (a b : List Char) :
    ∃ b', s.apply newline (a ++ [z] ++ b) = s.apply newline (a ++ [z]) ++ b' := by
  obtain ⟨lines, l, hl⟩ := exists_splitOn_concat (h.not_mem hz) h.ne_nil a
  obtain ⟨y, ys, hy⟩ := exists_splitOn newline b
  have hf : s.line (l ++ [z] ++ y) = s.line (l ++ [z]) ++ y := reindentLine_concat_append hz l y
  refine ⟨joinWith newline (y :: ys.map s.line), ?_⟩
  have hne : onTail s.line (lines ++ [l ++ [z]]) ≠ [] := by cases lines <;> simp [onTail]
  rw [apply, splitOn_concat_append (h.not_mem hz) h.ne_nil, hl, hy, onTail_glue_concat hf,
    joinWith_glue hne (by simp), apply, hl]

/-- A firm piece of a text moves with the text as it would alone. -/
theorem apply_infix (h : IsBreak newline) (s : Shift) {cs : List Char} (ht : IsFirm t)
    (hi : t <:+: cs) :
    s.apply newline t <:+: s.apply newline cs := by
  obtain ⟨a, b, rfl⟩ := hi
  obtain ⟨x, u, hxu, hx⟩ := ht.head
  obtain ⟨v, z, hvz, hz⟩ := ht.last
  obtain ⟨a', ha⟩ := exists_apply_append h s hx a (u ++ b)
  obtain ⟨b', hb⟩ := exists_apply_concat_append h s hz v b
  refine ⟨a', b', ?_⟩
  rw [List.append_assoc, List.append_assoc, hvz, ← hb, ← hvz, hxu, List.cons_append, ← ha]

theorem isFirm_apply (h : IsBreak newline) (s : Shift) (ht : IsFirm t) :
    IsFirm (s.apply newline t) := by
  have hone {c : Char} (hc : isBlank c = false) : s.apply newline [c] = [c] := by
    rw [apply, splitOn_cons (h.not_mem hc) h.ne_nil]
    rfl
  constructor
  · obtain ⟨x, u, rfl, hx⟩ := ht.head
    obtain ⟨b, hb⟩ := exists_apply_concat_append h s hx [] u
    rw [List.nil_append, hone hx] at hb
    exact ⟨x, b, hb, hx⟩
  · obtain ⟨v, z, rfl, hz⟩ := ht.last
    obtain ⟨a, ha⟩ := exists_apply_append h s hz v []
    rw [hone hz] at ha
    exact ⟨a, z, ha, hz⟩

theorem toList_reindent (s : Shift) (text newline : String) :
    (Text.reindent text s.width s.indent newline).toList =
      s.indent.toList ++ s.apply newline.toList text.toList := by
  obtain ⟨first, rest, hl⟩ := exists_splitOn newline.toList text.toList
  rw [Text.reindent, String.toList_ofList, apply, hl, reindentLines, onTail, joinWith_cons,
    joinWith_cons, List.append_assoc]
  rfl

/-- No line breaks come in with the move. -/
def IsPlain (s : Shift) : Prop := '\r' ∉ s.indent.toList ∧ '\n' ∉ s.indent.toList

/-- A line stays one. -/
theorem not_infix_line (h : IsBreak newline) (hs : s.IsPlain) {l : List Char}
    (hl : ¬ newline <:+: l) :
    ¬ newline <:+: s.line l := by
  cases hb : l.all isBlank with
  | true =>
    rw [line, reindentLine, if_pos hb, List.infix_nil]
    exact h.ne_nil
  | false =>
    rw [line, reindentLine_eq _ _ hb]
    refine not_infix_append ?_ h.ne_nil fun hin => hl (hin.trans (List.drop_suffix _ _).isInfix)
    obtain ⟨hr, hn⟩ := hs
    rcases h with rfl | rfl
    · simpa using hn
    · simpa using hr

theorem not_infix_lines (h : IsBreak newline) {ss : List Shift} (hs : ∀ s ∈ ss, s.IsPlain)
    {l : List Char} (hl : ¬ newline <:+: l) : ¬ newline <:+: lines ss l := by
  induction ss generalizing l with
  | nil => exact hl
  | cons s ss ih =>
    exact ih (fun s hs' => hs s (List.mem_cons_of_mem _ hs'))
      (not_infix_line h (hs s List.mem_cons_self) hl)

/-- A text of lines moves line by line. -/
theorem apply_joinWith (h : IsBreak newline) (s : Shift) {ls : List (List Char)} (hne : ls ≠ [])
    (hl : ∀ l ∈ ls, ¬ newline <:+: l) :
    s.apply newline (joinWith newline ls) = joinWith newline (onTail s.line ls) := by
  rw [apply, h.splitOn_joinWith hne hl]

theorem applyAll_joinWith (h : IsBreak newline) {ss : List Shift} (hs : ∀ s ∈ ss, s.IsPlain)
    {first : List Char} {rest : List (List Char)} (hl : ∀ l ∈ first :: rest, ¬ newline <:+: l) :
    applyAll newline ss (joinWith newline (first :: rest)) =
      joinWith newline (first :: rest.map (lines ss)) := by
  induction ss generalizing rest with
  | nil =>
    rw [show lines [] = id from rfl, List.map_id]
    rfl
  | cons s ss ih =>
    have hnext : ∀ l ∈ first :: rest.map s.line, ¬ newline <:+: l := by
      intro l hmem
      obtain rfl | hmem := List.mem_cons.1 hmem
      · exact hl l List.mem_cons_self
      · obtain ⟨k, hk, rfl⟩ := List.mem_map.1 hmem
        exact not_infix_line h (hs s List.mem_cons_self) (hl k (List.mem_cons_of_mem _ hk))
    have hstep := ih (fun s hs' => hs s (List.mem_cons_of_mem _ hs')) hnext
    rw [applyAll, List.foldl_cons, apply_joinWith h s (by simp) hl, onTail]
    rw [applyAll] at hstep
    rw [hstep, List.map_map]
    rfl

/-- A text keeps its characters just if each of its lines but the first keeps them. -/
theorem applyAll_eq_self_iff (h : IsBreak newline) {ss : List Shift} (hs : ∀ s ∈ ss, s.IsPlain)
    (t : List Char) :
    applyAll newline ss t = t ↔ ∀ l ∈ (splitOn newline t).tail, lines ss l = l := by
  obtain ⟨first, rest, hsplit, hl⟩ := h.exists_lines t
  have hjoin : joinWith newline (first :: rest) = t := by rw [← hsplit, joinWith_splitOn h.ne_nil]
  rw [hsplit, List.tail_cons, ← hjoin, applyAll_joinWith h hs hl]
  have hmoved : ∀ l ∈ first :: rest.map (lines ss), ¬ newline <:+: l := by
    intro l hmem
    obtain rfl | hmem := List.mem_cons.1 hmem
    · exact hl l List.mem_cons_self
    · obtain ⟨k, hk, rfl⟩ := List.mem_map.1 hmem
      exact not_infix_lines h hs (hl k (List.mem_cons_of_mem _ hk))
  constructor
  · intro heq l hmem
    have hcut := congrArg (splitOn newline) heq
    rw [h.splitOn_joinWith (by simp) hmoved, h.splitOn_joinWith (by simp) hl,
      List.cons.injEq] at hcut
    have hmap : rest.map (lines ss) = rest.map id := by rw [hcut.2, List.map_id]
    exact List.map_inj_left.1 hmap l hmem
  · intro hall
    have hmap : rest.map (lines ss) = rest.map id := List.map_inj_left.2 hall
    rw [hmap, List.map_id]

/-- A line keeps its characters just if it is empty, or if it is not blank and the indentation that
it loses is what it gets. -/
theorem line_eq_self_iff {l : List Char} :
    s.line l = l ↔ l = [] ∨ l.all isBlank = false ∧
      l.take (min (indentation l).length s.width) = s.indent.toList := by
  rw [line]
  cases hb : l.all isBlank with
  | true =>
    rw [reindentLine, if_pos hb]
    simp [eq_comm]
  | false =>
    have hne : l ≠ [] := by
      rintro rfl
      simp at hb
    rw [reindentLine_eq _ _ hb]
    constructor
    · intro h
      have hcut := h.trans (List.take_append_drop (min (indentation l).length s.width) l).symm
      exact Or.inr ⟨rfl, (List.append_cancel_right hcut).symm⟩
    · rintro (h | ⟨-, h⟩)
      · exact absurd h hne
      · rw [← h, List.take_append_drop]

end Shift
end Asyncify
