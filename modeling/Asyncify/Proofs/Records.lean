import Asyncify.Proofs.Hunks
import Asyncify.Proofs.Patch

/-! Records of a diff: the lines of its hunks as the rows of a patch. Hunks are read back and
applied, if their records are closed; a record that is not closed takes the next one into its row,
and the hunk cannot be read. -/
namespace Asyncify.Diff

open Patch (Mark Closed rows oldSide newSide)

section Marked

variable {xs ys : List String} {r : Region} {rs : List Region} {m n p q : Nat}

/-- The lines of a region with what a patch does with them. -/
def marked (xs ys : List String) (r : Region) : List (Mark × List Char) :=
  let old (mark : Mark) := (linesBetween xs r.i1 r.i2).map fun l => (mark, l.toList)
  let new := (linesBetween ys r.j1 r.j2).map fun l => (Mark.add, l.toList)
  match r.tag with
  | .equal => old .keep
  | .replace => old .drop ++ new
  | .delete => old .drop
  | .insert => new

theorem toList_regionLines (xs ys : List String) (r : Region) :
    (regionLines xs ys r).map String.toList = (marked xs ys r).map fun e => e.1.sign :: e.2 := by
  cases ht : r.tag <;> simp [regionLines, marked, ht, Mark.sign, Function.comp_def]

theorem oldSide_marked (h : r.Fits xs ys) :
    oldSide (marked xs ys r) = (linesBetween xs r.i1 r.i2).map String.toList := by
  cases ht : r.tag with
  | equal => simp [marked, ht, Patch.oldSide_map]
  | replace => simp [marked, ht, Patch.oldSide_map]
  | delete => simp [marked, ht, Patch.oldSide_map]
  | insert =>
    rw [h.insert ht, linesBetween_self]
    simp [marked, ht, Patch.oldSide_map]

theorem newSide_marked (h : r.Fits xs ys) :
    newSide (marked xs ys r) = (linesBetween ys r.j1 r.j2).map String.toList := by
  cases ht : r.tag with
  | equal =>
    rw [← h.equal ht]
    simp [marked, ht, Patch.newSide_map]
  | replace => simp [marked, ht, Patch.newSide_map]
  | delete =>
    rw [h.delete ht, linesBetween_self]
    simp [marked, ht, Patch.newSide_map]
  | insert => simp [marked, ht, Patch.newSide_map]

theorem Path.le (h : Path xs ys m n p q rs) : p ≤ m ∧ q ≤ n := by
  induction h with
  | nil hp hq => exact ⟨by omega, by omega⟩
  | cons hi hj hr _ ih =>
    have hold := hr.old_le
    have hnew := hr.new_le
    exact ⟨by omega, by omega⟩

/-- The two sides of a hunk are the lines that it leads over. -/
theorem Path.sides (h : Path xs ys m n p q rs) :
    oldSide (rs.flatMap (marked xs ys)) = (linesBetween xs p m).map String.toList ∧
      newSide (rs.flatMap (marked xs ys)) = (linesBetween ys q n).map String.toList := by
  induction h with
  | nil hp hq =>
    subst hp hq
    simp [linesBetween_self, oldSide, newSide]
  | cons hi hj hr hrest ih =>
    subst hi hj
    obtain ⟨hm, hn⟩ := hrest.le
    rw [List.flatMap_cons, Patch.oldSide_append, Patch.newSide_append, ih.1, ih.2,
      oldSide_marked hr, newSide_marked hr, ← List.map_append, ← List.map_append,
      linesBetween_append hr.old_le hm, linesBetween_append hr.new_le hn]
    exact ⟨rfl, rfl⟩

/-- A line of a hunk is one of the old or of the new lines that it leads over. -/
theorem Path.mem_sides (h : Path xs ys m n p q rs) {e : Mark × List Char}
    (he : e ∈ rs.flatMap (marked xs ys)) :
    e.2 ∈ (linesBetween xs p m).map String.toList ∨
    e.2 ∈ (linesBetween ys q n).map String.toList := by
  rw [← h.sides.1, ← h.sides.2]
  by_cases hadd : e.1 = .add
  · exact Or.inr (List.mem_map.2 ⟨e, List.mem_filter.2 ⟨he, by simp [hadd]⟩, rfl⟩)
  · exact Or.inl (List.mem_map.2 ⟨e, List.mem_filter.2 ⟨he, by simpa using hadd⟩, rfl⟩)

end Marked

section Headers

variable {xs ys : List String} {rs : List Region} {m n p q : Nat}

/-- The header of a hunk that leads from lines `p` and `q` to lines `m` and `n`. -/
def header (p m q n : Nat) : String := "@@ -" ++ range p m ++ " +" ++ range q n ++ " @@\n"

theorem Path.ends (h : Path xs ys m n p q rs) (hne : rs ≠ []) :
    ∃ first last, rs.head? = some first ∧ rs.getLast? = some last ∧ first.i1 = p ∧ first.j1 = q ∧
      last.i2 = m ∧ last.j2 = n := by
  induction h with
  | nil => exact absurd rfl hne
  | @cons p q r rs hi hj _ hrest ih =>
    cases hrest with
    | nil hm hn => exact ⟨r, r, rfl, rfl, hi, hj, hm, hn⟩
    | cons =>
      obtain ⟨_, last, -, hlast, -, -, hm, hn⟩ := ih (List.cons_ne_nil _ _)
      exact ⟨r, last, rfl, hlast, hi, hj, hm, hn⟩

theorem Path.hunkLines_eq (h : Path xs ys m n p q rs) (hne : rs ≠ []) :
    (hunkLines xs ys rs).map String.toList = (header p m q n).toList ::
      (rs.flatMap (marked xs ys)).map fun e => e.1.sign :: e.2 := by
  obtain ⟨first, last, hfirst, hlast, rfl, rfl, rfl, rfl⟩ := h.ends hne
  rw [hunkLines, hfirst, hlast]
  dsimp only
  rw [List.map_cons, List.map_flatMap, List.map_flatMap]
  simp only [toList_regionLines]
  rfl

theorem readRange?_range (i k : Nat) {c : Char} (hdigit : c.isDigit = false) (hcomma : c ≠ ',')
    (rest : List Char) :
    Patch.readRange? ((range i k).toList ++ c :: rest) = some (i, k - i, c :: rest) := by
  have hnumber (n : Nat) : Patch.readNumber? ((toString n).toList ++ c :: rest) =
      some (n, c :: rest) :=
    Patch.readNumber?_repr n (by simpa using hdigit)
  have hstart (n : Nat) (cs : List Char) :
      Patch.readNumber? ((toString n).toList ++ ',' :: cs) = some (n, ',' :: cs) :=
    Patch.readNumber?_repr n (by simp)
  rw [range]
  split
  · rename_i hone
    rw [Patch.readRange?, hnumber]
    simp [hcomma, hone]
  · split
    · rename_i hzero
      have happend : (toString i ++ ",0").toList ++ c :: rest =
          (toString i).toList ++ ',' :: ((toString 0).toList ++ c :: rest) := by simp
      rw [happend, Patch.readRange?, hstart]
      simp only [Option.bind_eq_bind, Option.bind_some, hnumber, hzero, if_true]
    · rename_i hzero
      have happend : (toString (i + 1) ++ "," ++ toString (k - i)).toList ++ c :: rest =
          (toString (i + 1)).toList ++ ',' :: ((toString (k - i)).toList ++ c :: rest) := by simp
      rw [happend, Patch.readRange?, hstart]
      simp only [Option.bind_eq_bind, Option.bind_some, hnumber, if_neg hzero, Nat.add_sub_cancel]

/-- A header is read back, if its sizes are those of the rows below it. -/
theorem readHunk?_header (p m q n : Nat) (body : List (Mark × List Char)) :
    Patch.readHunk? (header p m q n).toList body =
      if Patch.Hunk.isSound ⟨p, m - p, q, n - q, body⟩ then some ⟨p, m - p, q, n - q, body⟩
      else none := by
  obtain ⟨behind, hbehind⟩ : ∃ cs, (range q n).toList ++ ' ' :: "@@\n".toList = cs := ⟨_, rfl⟩
  have happend : (header p m q n).toList = "@@ -".toList ++
      ((range p m).toList ++ ' ' :: '+' :: behind) := by
    simp [header, ← hbehind]
  have hfront :
      ("@@ -".toList ++ ((range p m).toList ++ ' ' :: '+' :: behind)).dropPrefix? "@@ -".toList =
        some ((range p m).toList ++ ' ' :: '+' :: behind) :=
    List.dropPrefix?_append_of_beq _ (beq_self_eq_true _)
  have hplus : (' ' :: '+' :: behind).dropPrefix? " +".toList = some behind :=
    List.dropPrefix?_append_of_beq _ (beq_self_eq_true " +".toList)
  have hold := readRange?_range p m (c := ' ') (by decide) (by decide) ('+' :: behind)
  have hnew := readRange?_range q n (c := ' ') (by decide) (by decide) "@@\n".toList
  rw [hbehind] at hnew
  rw [Patch.readHunk?, happend, hfront]
  simp only [Option.bind_eq_bind, Option.bind_some, hold, hplus, hnew]
  simp

theorem readRows?_header (p m q n : Nat) {rest : List (List Char)} {body : List (Mark × List Char)}
    {hunks : List Patch.Hunk} (h : Patch.readRows? rest = some (body, hunks)) :
    Patch.readRows? ((header p m q n).toList :: rest) =
      if Patch.Hunk.isSound ⟨p, m - p, q, n - q, body⟩ then
        some ([], ⟨p, m - p, q, n - q, body⟩ :: hunks)
      else none := by
  have hheader : (header p m q n).toList = '@' :: (header p m q n).toList.tail := by simp [header]
  rw [hheader, Patch.readRows?, h, ← hheader]
  simp only [Option.bind_eq_bind, Option.bind_some, if_true, readHunk?_header]
  split <;> rfl

/-- What a patch reader takes a hunk for. -/
def asPatch (xs ys : List String) (rs : List Region) : Patch.Hunk :=
  match rs.head?, rs.getLast? with
  | some first, some last =>
    ⟨first.i1, last.i2 - first.i1, first.j1, last.j2 - first.j1, rs.flatMap (marked xs ys)⟩
  | _, _ => ⟨0, 0, 0, 0, []⟩

theorem Path.asPatch_eq (h : Path xs ys m n p q rs) (hne : rs ≠ []) :
    asPatch xs ys rs = ⟨p, m - p, q, n - q, rs.flatMap (marked xs ys)⟩ := by
  obtain ⟨first, last, hfirst, hlast, rfl, rfl, rfl, rfl⟩ := h.ends hne
  rw [asPatch, hfirst, hlast]

theorem Path.isSound (h : Path xs ys m n p q rs) (hm : m ≤ xs.length) (hn : n ≤ ys.length) :
    Patch.Hunk.isSound ⟨p, m - p, q, n - q, rs.flatMap (marked xs ys)⟩ := by
  have hlen : min (m - p) (xs.length - p) = m - p := by omega
  have hlen' : min (n - q) (ys.length - q) = n - q := by omega
  simp [Patch.Hunk.isSound, h.sides.1, h.sides.2, hlen, hlen']

theorem Script.readRows?_eq {hs : List (List Region)} {i j : Nat} (h : Script xs ys i j hs)
    (hne : ∀ rs ∈ hs, rs ≠ []) :
    Patch.readRows? ((hs.flatMap (hunkLines xs ys)).map String.toList) =
      some ([], hs.map (asPatch xs ys)) := by
  induction h with
  | nil => rfl
  | @cons i j p q m n rs hs _ hpath hm hn _ _ ih =>
    obtain ⟨hrs, hne'⟩ := List.forall_mem_cons.1 hne
    have hbody := Patch.readRows?_marked (rs.flatMap (marked xs ys)) (ih hne')
    rw [List.append_nil] at hbody
    rw [List.flatMap_cons, List.map_append, hpath.hunkLines_eq hrs, List.cons_append,
      readRows?_header p m q n hbody, if_pos (hpath.isSound hm hn), List.map_cons,
      hpath.asPatch_eq hrs]

end Headers

section Applying

variable {xs ys : List String} {rs : List Region} {i j k m n p q : Nat}

/-- One hunk is applied to the lines of the old text up to line `k` and the rows behind them. -/
theorem patchedFrom?_hunk (hl : Level xs ys i j p q) (h : Path xs ys m n p q rs) (hk : m ≤ k)
    (hs : List Patch.Hunk) (behind : List (List Char)) :
    Patch.patchedFrom? i j (⟨p, m - p, q, n - q, rs.flatMap (marked xs ys)⟩ :: hs)
        ((linesBetween xs i k).map String.toList ++ behind) =
      (Patch.patchedFrom? m n hs ((linesBetween xs m k).map String.toList ++ behind)).map fun out =>
        (linesBetween xs i p).map String.toList ++ (linesBetween ys q n).map String.toList ++
          out := by
  obtain ⟨hpm, hqn⟩ := h.le
  have hi := hl.old_le
  have hj := hl.new_le
  have hend := hl.old_end
  have hlen := hl.length_eq
  have hskip : ((linesBetween xs i p).map String.toList).length = p - i := by
    rw [List.length_map, length_linesBetween]
    omega
  have hsplit : (linesBetween xs i k).map String.toList ++ behind =
      (linesBetween xs i p).map String.toList ++ ((linesBetween xs p m).map String.toList ++
        ((linesBetween xs m k).map String.toList ++ behind)) := by
    rw [← linesBetween_append (hi.trans hpm) hk, ← linesBetween_append hi hpm]
    simp
  rw [hsplit, ← h.sides.1, Patch.patchedFrom?_append _ (by dsimp only; omega)
    (by dsimp only; omega), h.sides.2]
  dsimp only
  rw [Nat.add_sub_of_le hpm, Nat.add_sub_of_le hqn]

/-- The hunks make the new lines of the old ones, if none of them ends behind line `k`. What is
behind it may be cut into rows in any way. -/
theorem Script.patchedFrom?_eq {hs : List (List Region)} (h : Script xs ys i j hs)
    (hne : ∀ rs ∈ hs, rs ≠ [])
    (hk : ∀ rs ∈ hs, ∀ r ∈ rs, r.i2 ≤ k) (hi : i ≤ k) {behind : List (List Char)}
    (hbehind : behind.flatten = (xs.drop k).flatMap String.toList) :
    ∃ out, Patch.patchedFrom? i j (hs.map (asPatch xs ys))
      ((linesBetween xs i k).map String.toList ++ behind) =
        some out ∧ out.flatten = (ys.drop j).flatMap String.toList := by
  induction h with
  | @nil i j hlevel =>
    refine ⟨_, rfl, ?_⟩
    have hlines := hlevel.lines
    rw [linesBetween_end, linesBetween_end] at hlines
    rw [← hlines, ← linesBetween_append_drop hi, List.flatten_append, hbehind, List.flatMap_append,
      ← List.flatMap_def]
  | @cons i j p q m n rs hs hlevel hpath _ _ _ _ ih =>
    obtain ⟨hrs, hne'⟩ := List.forall_mem_cons.1 hne
    obtain ⟨hends, hk'⟩ := List.forall_mem_cons.1 hk
    obtain ⟨-, last, -, hlast, -, -, rfl, -⟩ := hpath.ends hrs
    have hm := hends last (List.mem_of_getLast? hlast)
    obtain ⟨out, happly, hout⟩ := ih hne' hk' hm
    rw [List.map_cons, hpath.asPatch_eq hrs, patchedFrom?_hunk hlevel hpath hm, happly]
    refine ⟨_, rfl, ?_⟩
    obtain ⟨-, hqn⟩ := hpath.le
    have hnew : ys.drop j = linesBetween ys j q ++ linesBetween ys q n ++ ys.drop n := by
      rw [linesBetween_append hlevel.new_le hqn, linesBetween_append_drop (hlevel.new_le.trans hqn)]
    rw [hnew, ← hlevel.lines]
    simp [hout, List.flatMap_def]

end Applying

section Shapes

/-- A line feed is only at the end of a line. -/
theorem shape_of_mem_linesOf {cs l : List Char} (h : l ∈ Text.linesOf cs) :
    Closed l ∨ '\n' ∉ l := by
  fun_induction Text.linesOf cs generalizing l with
  | case1 => cases h
  | case2 rest ih =>
    rcases List.mem_cons.1 h with rfl | h
    · exact Or.inl ⟨['\r'], by decide, rfl⟩
    · exact ih h
  | case3 c rest _ _ ih =>
    rcases List.mem_cons.1 h with rfl | h
    · by_cases hc : c = '\n'
      · exact Or.inl ⟨[], List.not_mem_nil, by rw [hc]; rfl⟩
      · exact Or.inr (by simpa using Ne.symm hc)
    · exact ih h
  | case4 c rest _ hend ih =>
    have hc : c ≠ '\n' := by
      rintro rfl
      exact hend (by decide)
    cases hrest : Text.linesOf rest with
    | nil =>
      rw [hrest, Text.prepend, List.mem_singleton] at h
      exact Or.inr (by simpa [h] using Ne.symm hc)
    | cons l' ls =>
      rw [hrest, Text.prepend] at h
      rw [hrest] at ih
      rcases List.mem_cons.1 h with rfl | h
      · rcases ih List.mem_cons_self with hl | hl
        · exact Or.inl (hl.cons hc)
        · exact Or.inr (by simp [Ne.symm hc, hl])
      · exact ih (List.mem_cons_of_mem _ h)

theorem notMem_toDigits (n : Nat) : '\n' ∉ Nat.toDigits 10 n := by
  intro h
  have hdigit : '\n'.isDigit = true := Nat.isDigit_of_mem_toDigits (by decide) (by decide) h
  exact absurd hdigit (by decide)

theorem notMem_range (i k : Nat) : '\n' ∉ (range i k).toList := by
  rw [range]
  split
  · simp [notMem_toDigits]
  · split <;> simp [notMem_toDigits]

theorem closed_header (p m q n : Nat) : Closed (header p m q n).toList := by
  refine ⟨("@@ -" ++ range p m ++ " +" ++ range q n ++ " @@").toList, ?_, ?_⟩
  · simp [notMem_range]
  · simp [header]

variable {xs ys : List String} {rs : List Region} {m n p q : Nat}

theorem mem_of_mem_linesBetween {l : String} (h : l ∈ linesBetween xs p m) : l ∈ xs :=
  List.mem_of_mem_drop (List.mem_of_mem_take h)

theorem mem_dropLast_of_mem_linesBetween {l : String} (h : l ∈ linesBetween xs p m)
    (hm : m < xs.length) :
    l ∈ xs.dropLast := by
  rw [List.dropLast_eq_take]
  have hstretch : linesBetween (xs.take (xs.length - 1)) p m = linesBetween xs p m := by
    rw [linesBetween, linesBetween, List.drop_take, List.take_take]
    congr 1
    omega
  exact mem_of_mem_linesBetween (hstretch ▸ h)

theorem sign_ne_lineFeed (mark : Mark) : mark.sign ≠ '\n' := by cases mark <;> decide

theorem closed_record (mark : Mark) {l : List Char} (h : Closed l) : Closed (mark.sign :: l) :=
  h.cons (sign_ne_lineFeed mark)

theorem shape_record (mark : Mark) {l : List Char} (h : Closed l ∨ '\n' ∉ l) :
    Closed (mark.sign :: l) ∨ '\n' ∉ mark.sign :: l := by
  rcases h with h | h
  · exact Or.inl (closed_record mark h)
  · exact Or.inr (by simp [Ne.symm (sign_ne_lineFeed mark), h])

/-- What holds of the old and the new lines that a hunk leads over, whatever their marks, holds of
its records. -/
theorem Path.forall_record {P : List Char → Prop} (h : Path xs ys m n p q rs)
    (hold : ∀ l ∈ linesBetween xs p m, ∀ mark : Mark, P (mark.sign :: l.toList))
    (hnew : ∀ l ∈ linesBetween ys q n, ∀ mark : Mark, P (mark.sign :: l.toList)) :
    ∀ l ∈ (rs.flatMap (marked xs ys)).map fun e => e.1.sign :: e.2, P l := by
  intro cs hcs
  obtain ⟨e, he, rfl⟩ := List.mem_map.1 hcs
  rcases h.mem_sides he with hl | hl
  · obtain ⟨l, hl, he⟩ := List.mem_map.1 hl
    exact he ▸ hold l hl e.1
  · obtain ⟨l, hl, he⟩ := List.mem_map.1 hl
    exact he ▸ hnew l hl e.1

/-- The same of all lines of the hunk, if it holds of the header too. -/
theorem Path.forall_hunkLines {P : List Char → Prop} (h : Path xs ys m n p q rs) (hne : rs ≠ [])
    (hheader : P (header p m q n).toList)
    (hold : ∀ l ∈ linesBetween xs p m, ∀ mark : Mark, P (mark.sign :: l.toList))
    (hnew : ∀ l ∈ linesBetween ys q n, ∀ mark : Mark, P (mark.sign :: l.toList)) :
    ∀ l ∈ (hunkLines xs ys rs).map String.toList, P l := by
  rw [h.hunkLines_eq hne]
  intro l hl
  rcases List.mem_cons.1 hl with rfl | hl
  · exact hheader
  · exact h.forall_record hold hnew l hl

end Shapes

section Open

variable {xs ys : List String} {rs : List Region} {i j m n p q : Nat}

/-- Rows that weigh less than a header says do not make a hunk of it. -/
theorem readRows?_header_eq_none (p m q n : Nat) {rest : List (List Char)}
    (hrest : ∀ r ∈ rest, r.head? ≠ some '@') (hload : Patch.load rest < (m - p) + (n - q)) :
    Patch.readRows? ((header p m q n).toList :: rest) = none := by
  cases hread : Patch.readRows? rest with
  | none => exact Patch.readRows?_append_of_none [_] hread
  | some x =>
    obtain ⟨body, hunks⟩ := x
    have hunsound : Patch.Hunk.isSound ⟨p, m - p, q, n - q, body⟩ = false := by
      rw [Patch.eq_marked_of_readRows? hrest hread, Patch.load_marked] at hload
      by_contra hsound
      obtain ⟨hold, hnew⟩ : (oldSide body).length = m - p ∧ (newSide body).length = n - q := by
        simpa [Patch.Hunk.isSound] using hsound
      omega
    rw [readRows?_header p m q n hread, if_neg (by simp [hunsound])]

/-- A hunk with a record that is not closed has fewer rows than its header says. -/
theorem Path.readRows?_eq_none (h : Path xs ys m n p q rs) (hne : rs ≠ []) (hm : m ≤ xs.length)
    (hn : n ≤ ys.length) (hxs : ∀ l ∈ xs, Closed l.toList ∨ '\n' ∉ l.toList)
    (hys : ∀ l ∈ ys, Closed l.toList ∨ '\n' ∉ l.toList)
    (hopen : ∃ l ∈ (hunkLines xs ys rs).map String.toList, ¬ Closed l)
    (hend : ((hunkLines xs ys rs).map String.toList).flatten.getLast? = some '\n') :
    Patch.readRows? (rows ((hunkLines xs ys rs).map String.toList).flatten) = none := by
  have hload := Patch.load_marked (rs.flatMap (marked xs ys))
  have hrshape := h.forall_record (P := fun l => Closed l ∨ '\n' ∉ l)
    (fun l hl mark => shape_record mark (hxs l (mem_of_mem_linesBetween hl)))
    (fun l hl mark => shape_record mark (hys l (mem_of_mem_linesBetween hl)))
  rw [h.hunkLines_eq hne, List.flatten_cons] at hend ⊢
  rw [h.hunkLines_eq hne] at hopen
  generalize hrecords : (rs.flatMap (marked xs ys)).map (fun e => e.1.sign :: e.2) = records at *
  have hrne : ∀ r ∈ records, r ≠ [] := by
    intro r hr
    obtain ⟨e, -, rfl⟩ := List.mem_map.1 (hrecords ▸ hr)
    exact List.cons_ne_nil _ _
  obtain ⟨l, hl, hnot⟩ := hopen
  have hl : l ∈ records := by
    rcases List.mem_cons.1 hl with rfl | hl
    · exact absurd (closed_header p m q n) hnot
    · exact hl
  have hflat : records.flatten ≠ [] := fun he => hrne l hl (List.flatten_eq_nil_iff.1 he l hl)
  rw [List.getLast?_append_of_ne_nil _ hflat] at hend
  have hlt := Patch.load_rows_lt hrne hrshape ⟨l, hl, hnot⟩ hend
  have hsizes : Patch.load records = (m - p) + (n - q) := by
    rw [hload, h.sides.1, h.sides.2, List.length_map, List.length_map, length_linesBetween,
      length_linesBetween]
    omega
  rw [Patch.rows_append_of_closed (closed_header p m q n)]
  refine readRows?_header_eq_none p m q n ?_ (by omega)
  intro row hrow
  obtain ⟨r, hr, hhead⟩ := Patch.head?_of_mem_rows_flatten hrne hrshape hrow
  obtain ⟨e, -, rfl⟩ := List.mem_map.1 (hrecords ▸ hr)
  rw [hhead, List.head?_cons]
  cases e.1 <;> decide

theorem Script.flatten_ne_nil {hs : List (List Region)} (h : Script xs ys i j hs)
    (hne : ∀ rs ∈ hs, rs ≠ [])
    (hhs : hs ≠ []) : ((hs.flatMap (hunkLines xs ys)).map String.toList).flatten ≠ [] := by
  cases h with
  | nil => exact absurd rfl hhs
  | cons _ hpath =>
    rw [List.flatMap_cons, List.map_append, hpath.hunkLines_eq (hne _ List.mem_cons_self)]
    simp [header]

/-- Of lines that are all closed but for the last ones, only the last hunk can show one that is
not. -/
theorem Script.readRows?_eq_none {hs : List (List Region)} (h : Script xs ys i j hs)
    (hne : ∀ rs ∈ hs, rs ≠ []) (hxs : ∀ l ∈ xs, Closed l.toList ∨ '\n' ∉ l.toList)
    (hys : ∀ l ∈ ys, Closed l.toList ∨ '\n' ∉ l.toList)
    (hxl : ∀ l ∈ xs.dropLast, Closed l.toList) (hyl : ∀ l ∈ ys.dropLast, Closed l.toList)
    (hopen : ∃ l ∈ (hs.flatMap (hunkLines xs ys)).map String.toList, ¬ Closed l)
    (hend : ((hs.flatMap (hunkLines xs ys)).map String.toList).flatten.getLast? = some '\n') :
    Patch.readRows? (rows ((hs.flatMap (hunkLines xs ys)).map String.toList).flatten) = none := by
  induction h with
  | nil =>
    obtain ⟨l, hl, -⟩ := hopen
    cases hl
  | @cons i j p q m n rs hs _ hpath hm hn hlast hrest ih =>
    obtain ⟨hrs, hne'⟩ := List.forall_mem_cons.1 hne
    by_cases hhs : hs = []
    · subst hhs
      rw [List.flatMap_cons, List.flatMap_nil, List.append_nil] at hopen hend ⊢
      exact hpath.readRows?_eq_none hrs hm hn hxs hys hopen hend
    · obtain ⟨hmx, hny⟩ := hlast hhs
      have hclosed : ∀ l ∈ (hunkLines xs ys rs).map String.toList, Closed l :=
        hpath.forall_hunkLines hrs (closed_header p m q n)
          (fun l hl mark => closed_record mark (hxl l (mem_dropLast_of_mem_linesBetween hl hmx)))
          (fun l hl mark => closed_record mark (hyl l (mem_dropLast_of_mem_linesBetween hl hny)))
      rw [List.flatMap_cons, List.map_append] at hopen hend ⊢
      obtain ⟨l, hl, hnot⟩ := hopen
      have hl : l ∈ (hs.flatMap (hunkLines xs ys)).map String.toList := by
        rcases List.mem_append.1 hl with hl | hl
        · exact absurd (hclosed l hl) hnot
        · exact hl
      rw [List.flatten_append] at hend ⊢
      rw [List.getLast?_append_of_ne_nil _ (hrest.flatten_ne_nil hne' hhs)] at hend
      rw [Patch.rows_flatten_append hclosed]
      exact Patch.readRows?_append_of_none _ (ih hne' ⟨l, hl, hnot⟩ hend)

end Open

end Asyncify.Diff
