import Asyncify.Proofs.Records
import Asyncify.Proofs.Spans

/-! Unified diffs are patches: empty exactly for equal texts, and otherwise good for making the new
text of the old one as long as their lines end in line feeds. -/
namespace Asyncify.Diff

open Patch (Mark Closed rows)

section Unified

variable {path old new : String}

/-- The lines of the diff of two texts below its first two. -/
def shown (old new : String) : List String :=
  (hunks (Text.lines old) (Text.lines new)).flatMap (hunkLines (Text.lines old) (Text.lines new))

/-- The line ends in a line feed. -/
def isClosed (l : String) : Bool := l.toList.getLast? = some '\n'

theorem map_toList_lines (s : String) :
    (Text.lines s).map String.toList = Text.linesOf s.toList := by
  simp [Text.lines, Function.comp_def]

theorem flatMap_toList_lines (s : String) : (Text.lines s).flatMap String.toList = s.toList := by
  rw [List.flatMap_def, map_toList_lines, Text.flatten_linesOf]

theorem shape_of_mem_lines {s l : String} (h : l ∈ Text.lines s) :
    Closed l.toList ∨ '\n' ∉ l.toList := by
  obtain ⟨cs, hcs, rfl⟩ := List.mem_map.1 h
  rw [String.toList_ofList]
  exact shape_of_mem_linesOf hcs

theorem ne_nil_of_mem_hunks {xs ys : List String} : ∀ rs ∈ hunks xs ys, rs ≠ [] := by
  rintro rs hrs rfl
  obtain ⟨r, hr, -⟩ := exists_change_of_mem_hunks hrs
  cases hr

theorem unified_of_hunks_eq_nil (h : hunks (Text.lines old) (Text.lines new) = []) :
    unified path old new = "" := by
  rw [unified, h]

theorem toList_unified (path : String) (h : hunks (Text.lines old) (Text.lines new) ≠ []) :
    (unified path old new).toList = ("--- a/" ++ path ++ "\n").toList ++
      (("+++ b/" ++ path ++ "\n").toList ++ ((shown old new).map String.toList).flatten) := by
  obtain ⟨rs, hs, hhs⟩ := List.exists_cons_of_ne_nil h
  rw [unified, shown, hhs]
  simp only [String.toList_append, Text.toList_intercalate_empty, List.append_assoc]
  rw [List.flatMap_def (f := String.toList)]

/-- The diff is empty exactly if the texts are equal. -/
theorem unified_eq_empty_iff : unified path old new = "" ↔ old = new := by
  constructor
  · intro h
    by_cases hhs : hunks (Text.lines old) (Text.lines new) = []
    · have hlines := hunks_eq_nil_iff.1 hhs
      rw [← String.toList_inj, ← flatMap_toList_lines old, hlines, flatMap_toList_lines]
    · have htext := toList_unified path hhs
      simp [h] at htext
  · rintro rfl
    exact unified_of_hunks_eq_nil (hunks_self _)

theorem closed_fileHeader {mark : String} (hmark : '\n' ∉ mark.toList)
    (hpath : '\n' ∉ path.toList) :
    Closed (mark ++ path ++ "\n").toList := by
  refine ⟨(mark ++ path).toList, ?_, ?_⟩
  · simp [hmark, hpath]
  · simp

/-- A diff is read by its rows, if its last one is closed. -/
theorem read?_unified (hpath : '\n' ∉ path.toList)
    (h : hunks (Text.lines old) (Text.lines new) ≠ []) :
    Patch.read? (unified path old new).toList =
      if ((shown old new).map String.toList).flatten.getLast? = some '\n' then
        Patch.readHunks? (rows ((shown old new).map String.toList).flatten)
      else none := by
  have hfirst : Closed ("--- a/" ++ path ++ "\n").toList := closed_fileHeader (by decide) hpath
  have hsecond : Closed ("+++ b/" ++ path ++ "\n").toList := closed_fileHeader (by decide) hpath
  have hne : ((shown old new).map String.toList).flatten ≠ [] :=
    (script_hunks (Text.lines old) (Text.lines new)).flatten_ne_nil ne_nil_of_mem_hunks h
  rw [toList_unified path h, Patch.read?_append hfirst hsecond (by simp) (by simp) hne]

/-- What holds of the headers and, whatever their marks, of the lines of both texts holds of the
lines of their diff. -/
theorem forall_shown {P : List Char → Prop} (hheader : ∀ p m q n, P (header p m q n).toList)
    (hold : ∀ l ∈ Text.lines old, ∀ mark : Mark, P (mark.sign :: l.toList))
    (hnew : ∀ l ∈ Text.lines new, ∀ mark : Mark, P (mark.sign :: l.toList)) :
    ∀ l ∈ (shown old new).map String.toList, P l := by
  intro cs hcs
  obtain ⟨l, hl, rfl⟩ := List.mem_map.1 hcs
  obtain ⟨rs, hrs, hl⟩ := List.mem_flatMap.1 hl
  obtain ⟨p, q, m, n, hpath⟩ := (script_hunks (Text.lines old) (Text.lines new)).exists_path hrs
  exact hpath.forall_hunkLines (ne_nil_of_mem_hunks rs hrs) (hheader p m q n)
    (fun l hl => hold l (mem_of_mem_linesBetween hl))
      (fun l hl => hnew l (mem_of_mem_linesBetween hl))
    _ (List.mem_map_of_mem hl)

theorem closed_shown_iff {l : String} (h : l ∈ shown old new) : isClosed l ↔ Closed l.toList := by
  have hshape : Closed l.toList ∨ '\n' ∉ l.toList :=
    forall_shown (P := fun l => Closed l ∨ '\n' ∉ l) (fun p m q n => Or.inl (closed_header p m q n))
      (fun l hl mark => shape_record mark (shape_of_mem_lines hl))
      (fun l hl mark => shape_record mark (shape_of_mem_lines hl)) _ (List.mem_map_of_mem h)
  rw [isClosed, decide_eq_true_iff]
  constructor
  · intro hlast
    exact hshape.resolve_right fun hnot => hnot (List.mem_of_getLast? hlast)
  · exact Closed.getLast?_eq

/-- A diff of closed lines is read as its hunks. -/
theorem read?_unified_of_closed (hpath : '\n' ∉ path.toList)
    (hclosed : ∀ l ∈ shown old new, isClosed l) :
    Patch.read? (unified path old new).toList =
      some ((hunks (Text.lines old) (Text.lines new)).map (asPatch (Text.lines old)
        (Text.lines new))) := by
  by_cases h : hunks (Text.lines old) (Text.lines new) = []
  · rw [unified_of_hunks_eq_nil h, h]
    rfl
  · have hscript := script_hunks (Text.lines old) (Text.lines new)
    have hall : ∀ l ∈ (shown old new).map String.toList, Closed l := by
      intro cs hcs
      obtain ⟨l, hl, rfl⟩ := List.mem_map.1 hcs
      exact (closed_shown_iff hl).1 (hclosed l hl)
    have hrows : Patch.readRows? ((shown old new).map String.toList) = _ :=
      hscript.readRows?_eq ne_nil_of_mem_hunks
    rw [read?_unified hpath h,
      if_pos (Patch.getLast?_flatten hall (hscript.flatten_ne_nil ne_nil_of_mem_hunks h)),
      Patch.rows_flatten hall, Patch.readHunks?, hrows]

/-- A diff of closed lines makes the new text of the old one, if the rows of the old text are its
lines as far as the hunks reach. -/
theorem patched?_unified_of_closed (hpath : '\n' ∉ path.toList) {k : Nat}
    (hrows : (rows old.toList).take k = (Text.linesOf old.toList).take k)
    (hk : ∀ rs ∈ hunks (Text.lines old) (Text.lines new), ∀ r ∈ rs, r.i2 ≤ k)
    (hclosed : ∀ l ∈ shown old new, isClosed l) :
    Patch.patched? (unified path old new) old = some new := by
  have hfront : (linesBetween (Text.lines old) 0 k).map String.toList =
      (rows old.toList).take k := by
    rw [linesBetween, List.drop_zero, Nat.sub_zero, List.map_take, map_toList_lines, hrows]
  -- both ways of cutting go on from the same place
  have hbehind : ((rows old.toList).drop k).flatten =
      ((Text.lines old).drop k).flatMap String.toList := by
    have hflat : ((rows old.toList).take k).flatten ++ ((rows old.toList).drop k).flatten =
        ((Text.linesOf old.toList).take k).flatten ++
          ((Text.linesOf old.toList).drop k).flatten := by
      rw [← List.flatten_append, ← List.flatten_append, List.take_append_drop,
        List.take_append_drop, Patch.flatten_rows, Text.flatten_linesOf]
    rw [hrows] at hflat
    rw [List.append_cancel_left hflat, List.flatMap_def, List.map_drop, map_toList_lines]
  obtain ⟨out, happly, hout⟩ := (script_hunks (Text.lines old) (Text.lines new)).patchedFrom?_eq
    ne_nil_of_mem_hunks hk (Nat.zero_le k) hbehind
  rw [hfront, List.take_append_drop] at happly
  rw [Patch.patched?, read?_unified_of_closed hpath hclosed, Option.bind_some, happly,
    Option.map_some, hout, List.drop_zero, flatMap_toList_lines, String.ofList_toList]

/-- The text is cut into lines at line feeds only. -/
def IsPlain (s : String) : Prop := rows s.toList = Text.linesOf s.toList
  deriving Decidable

theorem IsPlain.closed_of_mem_dropLast {s l : String} (h : IsPlain s)
    (hl : l ∈ (Text.lines s).dropLast) :
    Closed l.toList := by
  have hmem : l.toList ∈ (Text.linesOf s.toList).dropLast := by
    rw [← map_toList_lines, ← List.map_dropLast]
    exact List.mem_map_of_mem hl
  rw [← h] at hmem
  exact Patch.closed_of_mem_dropLast_rows hmem

/-- A diff with a line that is not closed cannot be read. -/
theorem patched?_unified_of_open (hpath : '\n' ∉ path.toList) (hold : IsPlain old)
    (hnew : IsPlain new) (hopen : ∃ l ∈ shown old new, ¬ isClosed l) :
    Patch.patched? (unified path old new) old = none := by
  obtain ⟨l, hl, hnot⟩ := hopen
  have hne : hunks (Text.lines old) (Text.lines new) ≠ [] := by
    intro hnil
    rw [shown, hnil] at hl
    cases hl
  have hnone (hend : ((shown old new).map String.toList).flatten.getLast? = some '\n') :
      Patch.readRows? (rows ((shown old new).map String.toList).flatten) = none :=
    (script_hunks (Text.lines old) (Text.lines new)).readRows?_eq_none ne_nil_of_mem_hunks
      (fun _ => shape_of_mem_lines) (fun _ => shape_of_mem_lines)
      (fun _ => hold.closed_of_mem_dropLast) (fun _ => hnew.closed_of_mem_dropLast)
      ⟨l.toList, List.mem_map_of_mem hl, fun hc => hnot ((closed_shown_iff hl).2 hc)⟩ hend
  rw [Patch.patched?, read?_unified hpath hne]
  split
  · rename_i hend
    rw [Patch.readHunks?, hnone hend]
    rfl
  · rfl

theorem patched?_unified_of_plain (hpath : '\n' ∉ path.toList) (hold : IsPlain old)
    (hclosed : ∀ l ∈ shown old new, isClosed l) :
    Patch.patched? (unified path old new) old = some new := by
  have hrows : (rows old.toList).take (Text.lines old).length =
      (Text.linesOf old.toList).take (Text.lines old).length := by rw [hold]
  refine patched?_unified_of_closed hpath hrows ?_ hclosed
  intro rs hrs r hr
  obtain ⟨p, q, m, n, h⟩ := (script_hunks (Text.lines old) (Text.lines new)).exists_path hrs
  exact (h.fits hr).old_end

/-- All lines of the text end in line feeds. -/
def IsTerminated (s : String) : Prop := ∀ l ∈ Text.lines s, isClosed l

theorem IsTerminated.closed {s l : String} (h : IsTerminated s) (hl : l ∈ Text.lines s) :
    Closed l.toList := by
  have hlast : l.toList.getLast? = some '\n' := by simpa [isClosed] using h l hl
  exact (shape_of_mem_lines hl).resolve_right fun hnot => hnot (List.mem_of_getLast? hlast)

theorem IsTerminated.isPlain {s : String} (h : IsTerminated s) : IsPlain s := by
  have hall : ∀ cs ∈ Text.linesOf s.toList, Closed cs := by
    rw [← map_toList_lines]
    intro cs hcs
    obtain ⟨l, hl, rfl⟩ := List.mem_map.1 hcs
    exact h.closed hl
  have hrows := Patch.rows_flatten hall
  rwa [Text.flatten_linesOf] at hrows

theorem IsTerminated.shown (hold : IsTerminated old) (hnew : IsTerminated new) :
    ∀ l ∈ shown old new, isClosed l := by
  intro l hl
  have hall := forall_shown (P := Closed) closed_header
    (fun l hl mark => closed_record mark (hold.closed hl))
    (fun l hl mark => closed_record mark (hnew.closed hl))
  exact (closed_shown_iff hl).2 (hall _ (List.mem_map_of_mem hl))

/-- A unified diff as a patch. It is empty exactly if the texts are equal. It applies to the old
text and makes the new one of it, if all lines of both end in line feeds. If line feeds are all that
ends their lines but the last one of each may have none, it does so exactly if it shows no line
without; otherwise it cannot even be read, since such a line has the next one in its row. Other ends
of lines do no harm behind the last hunk. -/
theorem unified_applies (path old new : String) :
    (unified path old new = "" ↔ old = new) ∧
      ('\n' ∉ path.toList →
        (IsTerminated old → IsTerminated new →
          Patch.patched? (unified path old new) old = some new) ∧
        (IsPlain old → IsPlain new →
          Patch.patched? (unified path old new) old =
            if ∀ l ∈ shown old new, isClosed l then some new else none) ∧
        ∀ k, (rows old.toList).take k = (Text.linesOf old.toList).take k →
          (∀ rs ∈ hunks (Text.lines old) (Text.lines new), ∀ r ∈ rs, r.i2 ≤ k) →
          (∀ l ∈ shown old new, isClosed l) →
          Patch.patched? (unified path old new) old = some new) := by
  refine ⟨unified_eq_empty_iff, fun hpath => ⟨?_, ?_, ?_⟩⟩
  · intro hold hnew
    exact patched?_unified_of_plain hpath hold.isPlain (hold.shown hnew)
  · intro hold hnew
    split
    · rename_i hclosed
      exact patched?_unified_of_plain hpath hold hclosed
    · rename_i hopen
      exact patched?_unified_of_open hpath hold hnew (by simpa using hopen)
  · intro k hrows hk hclosed
    exact patched?_unified_of_closed hpath hrows hk hclosed

/-- A change far enough from an unterminated last line. -/
theorem unified_applies_unterminated :
    IsPlain "1\n2\n3\n4\n5\n6" ∧ IsPlain "0\n2\n3\n4\n5\n6" ∧
      (∀ l ∈ shown "1\n2\n3\n4\n5\n6" "0\n2\n3\n4\n5\n6", isClosed l) ∧
      Patch.patched? (unified "a.js" "1\n2\n3\n4\n5\n6" "0\n2\n3\n4\n5\n6") "1\n2\n3\n4\n5\n6" =
        some "0\n2\n3\n4\n5\n6" := by
  have hold : IsPlain "1\n2\n3\n4\n5\n6" := by decide +kernel
  have hnew : IsPlain "0\n2\n3\n4\n5\n6" := by decide +kernel
  have hclosed : ∀ l ∈ shown "1\n2\n3\n4\n5\n6" "0\n2\n3\n4\n5\n6", isClosed l := by decide +kernel
  refine ⟨hold, hnew, hclosed, ?_⟩
  rw [((unified_applies "a.js" _ _).2 (by decide)).2.1 hold hnew, if_pos hclosed]

/-- Records are joined as they are. Without a line feed at its end, a line has the next record in
its row, be it the last line of the text or one that ends in a form feed. -/
theorem unified_not_readable :
    unified "a.js" "a" "b" = "--- a/a.js\n+++ b/a.js\n@@ -1 +1 @@\n-a+b" ∧
      Patch.patched? (unified "a.js" "a" "b") "a" = none ∧
      unified "a.js" "a\x0cb\n" "a\x0cc\n" =
        "--- a/a.js\n+++ b/a.js\n@@ -1,2 +1,2 @@\n a\x0c-b\n+c\n" ∧
      Patch.patched? (unified "a.js" "a\x0cb\n" "a\x0cc\n") "a\x0cb\n" = none := by
  decide +kernel

end Unified
end Asyncify.Diff
