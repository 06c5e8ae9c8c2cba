import Asyncify.Proofs.Shifts
import Mathlib.Data.List.TakeWhile

/-! Moving a text to another indentation, line by line. Only what a line begins with changes, and a
second move forgets the first: a statement that is moved out of several callbacks, one after the
other, ends up as if it had been moved once. -/
namespace Asyncify.Text

/-- A text of spaces and tabs. -/
def IsIndent (cs : List Char) : Prop := ∀ c ∈ cs, c = ' ' ∨ c = '\t'

/-- What a line holds behind its indentation. -/
def content (l : List Char) : List Char := l.dropWhile fun c => c = ' ' ∨ c = '\t'

/-- The lines of a text whose lines end in the given way. -/
def linesBy (newline text : String) : List (List Char) := splitOn newline.toList text.toList

/-- Lines after a move by the given width, against the lines before it. All lines but the first are
continuation lines. -/
structure KeepsLayout (width : Nat) (old new : List (List Char)) : Prop where
  length : new.length = old.length
  content : ∀ (k : Nat) l l', old[k]? = some l → new[k]? = some l' → l.all isBlank = false →
    content l' = content l
  blank : ∀ (k : Nat) l l', 0 < k → old[k]? = some l → new[k]? = some l' → l.all isBlank → l' = []
  steps : ∀ (k m : Nat) l₁ l₂ l₁' l₂', 0 < k → 0 < m → old[k]? = some l₁ → old[m]? = some l₂ →
    new[k]? = some l₁' → new[m]? = some l₂' → l₁.all isBlank = false → l₂.all isBlank = false →
    width ≤ (indentation l₁).length → width ≤ (indentation l₂).length →
    ((indentation l₁').length : Int) - (indentation l₂').length =
      (indentation l₁).length - (indentation l₂).length

variable {i j l : List Char} {width : Nat}

theorem indentation_append_content (l : List Char) : indentation l ++ content l = l :=
  List.takeWhile_append_dropWhile

theorem isIndent_indentation (l : List Char) : IsIndent (indentation l) := by
  intro c hc
  rw [indentation] at hc
  exact of_decide_eq_true (List.mem_takeWhile_imp (p := fun c => c = ' ' ∨ c = '\t') hc)

namespace IsIndent

theorem append (hi : IsIndent i) (hj : IsIndent j) : IsIndent (i ++ j) :=
  List.forall_mem_append.2 ⟨hi, hj⟩

theorem drop (hi : IsIndent i) (n : Nat) : IsIndent (i.drop n) :=
  fun c hc => hi c (List.mem_of_mem_drop hc)

theorem not_mem (hi : IsIndent i) {c : Char} (hc : ¬ (c = ' ' ∨ c = '\t')) : c ∉ i :=
  fun h => hc (hi c h)

theorem all_isBlank (hi : IsIndent i) : i.all isBlank := by
  rw [List.all_eq_true]
  intro c hc
  obtain rfl | rfl := hi c hc <;> decide

theorem indentation_append (hi : IsIndent i) (l : List Char) :
    indentation (i ++ l) = i ++ indentation l :=
  List.takeWhile_append_of_pos fun c hc => decide_eq_true (hi c hc)

theorem content_append (hi : IsIndent i) (l : List Char) : content (i ++ l) = content l :=
  List.dropWhile_append_of_pos fun c hc => decide_eq_true (hi c hc)

end IsIndent

/-- What is behind the indentation does not begin with any. -/
theorem indentation_content (l : List Char) : indentation (content l) = [] :=
  List.takeWhile_eq_nil_iff.2 fun hl => List.dropWhile_get_zero_not _ l hl

theorem content_content (l : List Char) : content (content l) = content l := by
  have h := indentation_append_content (content l)
  rwa [indentation_content, List.nil_append] at h

theorem all_isBlank_content (l : List Char) : (content l).all isBlank = l.all isBlank := by
  conv_rhs => rw [← indentation_append_content l, List.all_append,
    (isIndent_indentation l).all_isBlank]
  rfl

/-- A line that is not blank gets the new indentation in front of what is left of its own. -/
theorem reindentLine_eq_content (width : Nat) (i : List Char) (h : l.all isBlank = false) :
    reindentLine width i l = i ++ (indentation l).drop width ++ content l := by
  have hdrop :
      l.drop (min (indentation l).length width) = (indentation l).drop width ++ content l :=
    calc l.drop (min (indentation l).length width)
      _ = (indentation l ++ content l).drop (min (indentation l).length width) := by
        rw [indentation_append_content]
      _ = (indentation l).drop (min (indentation l).length width) ++ content l :=
        List.drop_append_of_le_length (Nat.min_le_left ..)
      _ = (indentation l).drop width ++ content l :=
        congrArg (· ++ content l) (List.drop_eq_drop_iff.2 (by omega))
  rw [reindentLine_eq width i h, hdrop, List.append_assoc]

theorem reindentLine_of_blank (width : Int) (i : List Char) (h : l.all isBlank) :
    reindentLine width i l = [] :=
  if_pos h

theorem indentation_reindentLine (hi : IsIndent i) (h : l.all isBlank = false) :
    indentation (reindentLine width i l) = i ++ (indentation l).drop width := by
  have hind : IsIndent (i ++ (indentation l).drop width) :=
    hi.append ((isIndent_indentation l).drop width)
  rw [reindentLine_eq_content width i h, hind.indentation_append, indentation_content,
    List.append_nil]

theorem content_reindentLine (hi : IsIndent i) (h : l.all isBlank = false) :
    content (reindentLine width i l) = content l := by
  have hind : IsIndent (i ++ (indentation l).drop width) :=
    hi.append ((isIndent_indentation l).drop width)
  rw [reindentLine_eq_content width i h, hind.content_append, content_content]

/-- A second move takes away just what the first one gave. -/
theorem reindentLine_reindentLine (hi : IsIndent i) (width : Nat) (j l : List Char) :
    reindentLine i.length j (reindentLine width i l) = reindentLine width j l := by
  cases h : l.all isBlank with
  | true =>
    rw [reindentLine_of_blank width i h, reindentLine_of_blank width j h]
    rfl
  | false =>
    have hmoved : (reindentLine width i l).all isBlank = false := by
      rw [← all_isBlank_content, content_reindentLine hi h, all_isBlank_content, h]
    rw [reindentLine_eq_content i.length j hmoved, indentation_reindentLine hi h,
      content_reindentLine hi h, List.drop_left, reindentLine_eq_content width j h]

/-- Every line but the first is moved by itself. -/
theorem getElem?_reindentLines {ls : List (List Char)} {k : Nat} (hk : 0 < k) :
    (reindentLines width i ls)[k]? = ls[k]?.map (reindentLine width i) := by
  obtain ⟨k, rfl⟩ : ∃ n, k = n + 1 := ⟨k - 1, by omega⟩
  cases ls with
  | nil => rfl
  | cons first rest => simp [reindentLines]

theorem keepsLayout_reindentLines (hi : IsIndent i) (width : Nat) (ls : List (List Char)) :
    KeepsLayout width ls (reindentLines width i ls) := by
  have hmoved {k : Nat} {l l' : List Char} (hk : 0 < k) (hl : ls[k]? = some l)
      (hl' : (reindentLines width i ls)[k]? = some l') : l' = reindentLine width i l := by
    rw [getElem?_reindentLines hk, hl] at hl'
    exact (Option.some.inj hl').symm
  constructor
  case length => cases ls <;> simp [reindentLines]
  case content =>
    intro k l l' hl hl' hb
    cases k with
    | succ k =>
      rw [hmoved (Nat.succ_pos k) hl hl']
      exact content_reindentLine hi hb
    | zero =>
      cases ls with
      | nil => cases hl
      | cons first rest =>
        obtain rfl : first = l := Option.some.inj hl
        obtain rfl : i ++ first = l' := Option.some.inj hl'
        exact hi.content_append first
  case blank =>
    intro k l l' hk hl hl' hb
    rw [hmoved hk hl hl']
    exact reindentLine_of_blank width i hb
  case steps =>
    intro k m l₁ l₂ l₁' l₂' hk hm hl₁ hl₂ hl₁' hl₂' hb₁ hb₂ hw₁ hw₂
    rw [hmoved hk hl₁ hl₁', hmoved hm hl₂ hl₂', indentation_reindentLine hi hb₁,
      indentation_reindentLine hi hb₂]
    simp only [List.length_append, List.length_drop]
    omega

section Texts

variable {text newline i j : String}

theorem IsIndent.isPlain (hi : IsIndent i.toList) (width : Nat) : (Shift.mk width i).IsPlain :=
  ⟨hi.not_mem (by decide), hi.not_mem (by decide)⟩

/-- The lines of a moved text are the moved lines. -/
theorem linesBy_reindent (hn : IsBreak newline.toList) (hi : IsIndent i.toList) (text : String)
    (width : Nat) :
    linesBy newline (reindent text width i newline) =
      reindentLines width i.toList (linesBy newline text) := by
  obtain ⟨first, rest, hlines, hwhole⟩ := hn.exists_lines text.toList
  obtain ⟨hfirst, hrest⟩ := List.forall_mem_cons.1 hwhole
  have hplain := hi.isPlain width
  have hstart : ∀ x ∈ newline.toList.head?, x ∉ i.toList := by
    rcases hn with hn | hn <;> rw [hn]
    · simpa using hplain.2
    · simpa using hplain.1
  rw [linesBy, reindent, String.toList_ofList, linesBy, hlines]
  refine hn.splitOn_joinWith (by simp [reindentLines]) (List.forall_mem_cons.2 ⟨?_, ?_⟩)
  · exact Lists.not_infix_append hstart hn.ne_nil hfirst
  · intro l hl
    obtain ⟨k, hk, rfl⟩ := List.mem_map.1 hl
    exact Shift.not_infix_line hn hplain (hrest k hk)

/-- Every line but the first forgets the first move. -/
theorem apply_apply (hn : IsBreak newline.toList) (hi : IsIndent i.toList) (hj : IsIndent j.toList)
    (cs : List Char) (width : Nat) :
    (Shift.mk i.length j).apply newline.toList ((Shift.mk width i).apply newline.toList cs) =
      (Shift.mk width j).apply newline.toList cs := by
  obtain ⟨first, rest, hlines, hwhole⟩ := hn.exists_lines cs
  have hline : Shift.lines [⟨width, i⟩, ⟨i.length, j⟩] = Shift.lines [⟨width, j⟩] := by
    funext l
    exact reindentLine_reindentLine hi width j.toList l
  have hall {ss : List Shift} (hs : ∀ s ∈ ss, s.IsPlain) :
      Shift.applyAll newline.toList ss cs =
        joinWith newline.toList (first :: rest.map (Shift.lines ss)) := by
    rw [← Shift.applyAll_joinWith hn hs hwhole, ← hlines, joinWith_splitOn hn.ne_nil]
  calc Shift.applyAll newline.toList [⟨width, i⟩, ⟨i.length, j⟩] cs
    _ = joinWith newline.toList (first :: rest.map (Shift.lines [⟨width, j⟩])) := by
      rw [hall (by simp [hi.isPlain, hj.isPlain]), hline]
    _ = Shift.applyAll newline.toList [⟨width, j⟩] cs := (hall (by simp [hj.isPlain])).symm

/-- A text is moved by its own lines, so two moves are one. -/
theorem reindent_of_reindent (hn : IsBreak newline.toList) (hi : IsIndent i.toList)
    (hj : IsIndent j.toList) {rest : String} (h : reindent text width i newline = i ++ rest) :
    reindent rest i.length j newline = reindent text width j newline := by
  have hrest : rest.toList = (Shift.mk width i).apply newline.toList text.toList := by
    have hmoved := Shift.toList_reindent ⟨width, i⟩ text newline
    rw [h, String.toList_append] at hmoved
    exact List.append_cancel_left hmoved
  have hone := Shift.toList_reindent ⟨i.length, j⟩ rest newline
  rw [hrest, apply_apply hn hi hj] at hone
  exact String.toList_inj.1 (hone.trans (Shift.toList_reindent ⟨width, j⟩ text newline).symm)

theorem exists_reindent_append (text : String) (width : Nat) (i newline : String) :
    ∃ rest, reindent text width i newline = i ++ rest := by
  refine ⟨String.ofList ((Shift.mk width i).apply newline.toList text.toList),
    String.toList_inj.1 ?_⟩
  rw [String.toList_append, String.toList_ofList]
  exact Shift.toList_reindent ⟨width, i⟩ text newline

end Texts

/-- Moves compose: a text that is put at one indentation and then, without what its first line got,
at another one, is the text put there at once. The number of lines stays, and of a line that is not
blank what stands behind the indentation. A blank line that is not the first becomes empty, and
lines that are indented by the width at least keep their indentation against one another. A width is
the length of an indentation. -/
theorem reindent_composes (text : String) (width : Nat) {newline i j : String}
    (hn : IsBreak newline.toList) (hi : IsIndent i.toList) (hj : IsIndent j.toList) :
    (∃ rest, reindent text width i newline = i ++ rest ∧
        reindent rest i.length j newline = reindent text width j newline) ∧
      KeepsLayout width (linesBy newline text)
        (linesBy newline (reindent text width i newline)) := by
  constructor
  · obtain ⟨rest, hrest⟩ := exists_reindent_append text width i newline
    exact ⟨rest, hrest, reindent_of_reindent hn hi hj hrest⟩
  · rw [linesBy_reindent hn hi]
    exact keepsLayout_reindentLines hi width _

/-- Lines indented by more and by less than four, a blank one, and a line feed alone in a text with
CR LF. -/
def ragged : String := "f(\r\n      a,\r\n  \t\r\n b\n c\r\n    );"

theorem reindent_composes_ragged :
    IsBreak "\r\n".toList ∧ IsIndent "\t ".toList ∧ IsIndent "   ".toList ∧
      (∃ rest, reindent ragged 4 "\t " "\r\n" = "\t " ++ rest ∧
        reindent rest 2 "   " "\r\n" = "   f(\r\n     a,\r\n\r\n   b\n c\r\n   );") ∧
      (linesBy "\r\n" (reindent ragged 4 "\t " "\r\n")).length = 5 := by
  have hn : IsBreak "\r\n".toList := Or.inr (by decide)
  have hi : IsIndent "\t ".toList := by simp [IsIndent]
  have hj : IsIndent "   ".toList := by simp [IsIndent]
  obtain ⟨⟨rest, hrest, hmoved⟩, hlayout⟩ := reindent_composes ragged 4 hn hi hj
  refine ⟨hn, hi, hj, ⟨rest, hrest, hmoved.trans ?_⟩, hlayout.length.trans ?_⟩
  · decide +kernel
  · decide +kernel

end Asyncify.Text
