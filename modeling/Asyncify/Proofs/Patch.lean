import Asyncify.Text.Lines
import Mathlib.Data.List.Infix

/-! Patches: how a unified diff is read and applied. Its rows end in line feeds and begin with
`---`, `+++`, `@@`, a blank, `-` or `+`. -/
namespace Asyncify.Patch

/-- The rows of a text, cut behind every line feed. -/
def rows : List Char → List (List Char)
  | [] => []
  | c :: cs => if c = '\n' then [c] :: rows cs else Text.prepend c (rows cs)

/-- What a patch does with a row of the text: keeps it, drops it or adds it. -/
inductive Mark where
  | keep | drop | add
  deriving DecidableEq, Repr

namespace Mark

def sign : Mark → Char
  | keep => ' '
  | drop => '-'
  | add => '+'

def ofSign? (c : Char) : Option Mark :=
  if c = ' ' then some keep else if c = '-' then some drop else if c = '+' then some add else none

theorem ofSign?_sign (m : Mark) : ofSign? m.sign = some m := by cases m <;> rfl

theorem sign_of_ofSign? {c : Char} {m : Mark} (h : ofSign? c = some m) : m.sign = c := by
  unfold ofSign? at h
  grind [sign]

end Mark

/-- The rows that a patch expects. -/
def oldSide (body : List (Mark × List Char)) : List (List Char) :=
  (body.filter (·.1 ≠ .add)).map (·.2)

/-- The rows that a patch leaves. -/
def newSide (body : List (Mark × List Char)) : List (List Char) :=
  (body.filter (·.1 ≠ .drop)).map (·.2)

@[simp] theorem oldSide_append (a b : List (Mark × List Char)) :
    oldSide (a ++ b) = oldSide a ++ oldSide b := by
  simp [oldSide]

@[simp] theorem newSide_append (a b : List (Mark × List Char)) :
    newSide (a ++ b) = newSide a ++ newSide b := by
  simp [newSide]

theorem oldSide_map {α : Type} (f : α → List Char) (mark : Mark) (ls : List α) :
    oldSide (ls.map fun a => (mark, f a)) = if mark = .add then [] else ls.map f := by
  cases mark <;> simp [oldSide, List.filter_map, Function.comp_def]

theorem newSide_map {α : Type} (f : α → List Char) (mark : Mark) (ls : List α) :
    newSide (ls.map fun a => (mark, f a)) = if mark = .drop then [] else ls.map f := by
  cases mark <;> simp [newSide, List.filter_map, Function.comp_def]

/-- A part of a patch. It starts behind `oldStart` rows of the old text and `newStart` rows of the
new one. -/
structure Hunk where
  oldStart : Nat
  oldSize : Nat
  newStart : Nat
  newSize : Nat
  body : List (Mark × List Char)
  deriving DecidableEq, Repr

/-- The sizes are those of the rows. -/
def Hunk.isSound (h : Hunk) : Bool :=
  (oldSide h.body).length = h.oldSize && (newSide h.body).length = h.newSize

/-- A number, and what follows it. -/
def readNumber? (cs : List Char) : Option (Nat × List Char) :=
  let digits := cs.takeWhile Char.isDigit
  if digits.isEmpty then none else some (Nat.ofDigitChars 10 digits 0, cs.drop digits.length)

/-- A range of rows, and what follows it: how many rows are before it, and its size. One row is
meant if no size is given; an empty range names the row before it. -/
def readRange? (cs : List Char) : Option (Nat × Nat × List Char) := do
  let (n, rest) ← readNumber? cs
  match rest with
  | ',' :: rest =>
    let (size, rest) ← readNumber? rest
    some (if size = 0 then n else n - 1, size, rest)
  | rest => some (n - 1, 1, rest)

/-- The hunk of a header and the rows below it. -/
def readHunk? (row : List Char) (body : List (Mark × List Char)) : Option Hunk := do
  let cs ← row.dropPrefix? "@@ -".toList
  let (oldStart, oldSize, cs) ← readRange? cs
  let cs ← cs.dropPrefix? " +".toList
  let (newStart, newSize, cs) ← readRange? cs
  let h : Hunk := ⟨oldStart, oldSize, newStart, newSize, body⟩
  if cs = " @@\n".toList && h.isSound then some h else none

/-- The hunks in the rows of a patch, and the rows in front of the first of them. -/
def readRows? : List (List Char) → Option (List (Mark × List Char) × List Hunk)
  | [] => some ([], [])
  | [] :: _ => none
  | (c :: line) :: rest => do
    let (body, hunks) ← readRows? rest
    if c = '@' then
      let h ← readHunk? (c :: line) body
      some ([], h :: hunks)
    else
      let m ← Mark.ofSign? c
      some ((m, line) :: body, hunks)

/-- The hunks in rows of which the first is a header. -/
def readHunks? (rs : List (List Char)) : Option (List Hunk) :=
  match readRows? rs with
  | some ([], hunks) => some hunks
  | _ => none

/-- The hunks of a patch. An empty text is a patch without any. -/
def read? (text : List Char) : Option (List Hunk) :=
  if text.isEmpty then some []
  else if text.getLast? ≠ some '\n' then none
  else
    match rows text with
    | first :: second :: rest =>
      if "--- ".toList.isPrefixOf first && "+++ ".toList.isPrefixOf second then readHunks? rest
      else none
    | _ => none

/-- Applies hunks to the rows of a text, of which `i` are done and have become `j`. -/
def patchedFrom? (i j : Nat) : List Hunk → List (List Char) → Option (List (List Char))
  | [], rest => some rest
  | h :: hs, rest =>
    let skip := h.oldStart - i
    if i ≤ h.oldStart && h.newStart = j + skip && skip ≤ rest.length then
      ((rest.drop skip).dropPrefix? (oldSide h.body)).bind fun behind =>
        (patchedFrom? (h.oldStart + h.oldSize) (h.newStart + h.newSize) hs behind).map fun out =>
          rest.take skip ++ newSide h.body ++ out
    else none

/-- What a patch makes of a text, if it is a patch for it. -/
def patched? (patch text : String) : Option String :=
  (read? patch.toList).bind fun hs =>
    (patchedFrom? 0 0 hs (rows text.toList)).map fun out => String.ofList out.flatten

/-- The row ends in its only line feed. -/
def Closed (l : List Char) : Prop := ∃ body, '\n' ∉ body ∧ l = body ++ ['\n']

theorem Closed.cons {c : Char} {l : List Char} (hc : c ≠ '\n') (h : Closed l) :
    Closed (c :: l) := by
  obtain ⟨body, hbody, rfl⟩ := h
  refine ⟨c :: body, ?_, rfl⟩
  simp [Ne.symm hc, hbody]

theorem Closed.getLast?_eq {l : List Char} (h : Closed l) : l.getLast? = some '\n' := by
  obtain ⟨body, -, rfl⟩ := h
  simp

section Rows

theorem flatten_rows (cs : List Char) : (rows cs).flatten = cs := by
  fun_induction rows cs with
  | case1 => rfl
  | case2 cs ih => simp [ih]
  | case3 c cs _ ih => rw [Text.flatten_prepend, ih]

theorem foldr_prepend_cons (body l : List Char) (ls : List (List Char)) :
    body.foldr Text.prepend (l :: ls) = (body ++ l) :: ls := by
  induction body with
  | nil => rfl
  | cons c body ih => rw [List.foldr_cons, ih, Text.prepend, List.cons_append]

theorem foldr_prepend_nil {body : List Char} (h : body ≠ []) :
    body.foldr Text.prepend [] = [body] := by
  obtain ⟨c, cs, rfl⟩ := List.exists_cons_of_ne_nil h
  induction cs generalizing c with
  | nil => rfl
  | cons d cs ih => rw [List.foldr_cons, ih d (List.cons_ne_nil _ _), Text.prepend]

/-- Characters other than a line feed come in front of the first row. -/
theorem rows_append_of_notMem {body : List Char} (h : '\n' ∉ body) (cs : List Char) :
    rows (body ++ cs) = body.foldr Text.prepend (rows cs) := by
  induction body with
  | nil => rfl
  | cons c body ih =>
    have hc : c ≠ '\n' := Ne.symm (List.ne_of_not_mem_cons h)
    rw [List.cons_append, rows, if_neg hc, ih (List.not_mem_of_not_mem_cons h), List.foldr_cons]

theorem rows_append_of_closed {l : List Char} (h : Closed l) (cs : List Char) :
    rows (l ++ cs) = l :: rows cs := by
  obtain ⟨body, hbody, rfl⟩ := h
  rw [List.append_assoc, rows_append_of_notMem hbody, List.singleton_append, rows, if_pos rfl,
    foldr_prepend_cons]

theorem rows_flatten_append {ls : List (List Char)} (h : ∀ l ∈ ls, Closed l) (cs : List Char) :
    rows (ls.flatten ++ cs) = ls ++ rows cs := by
  induction ls with
  | nil => rfl
  | cons l ls ih =>
    obtain ⟨hl, hls⟩ := List.forall_mem_cons.1 h
    rw [List.flatten_cons, List.append_assoc, rows_append_of_closed hl, ih hls, List.cons_append]

theorem rows_flatten {ls : List (List Char)} (h : ∀ l ∈ ls, Closed l) : rows ls.flatten = ls := by
  have hrows := rows_flatten_append h []
  rwa [List.append_nil, rows, List.append_nil] at hrows

theorem getLast?_flatten {ls : List (List Char)} (h : ∀ l ∈ ls, Closed l) (hne : ls.flatten ≠ []) :
    ls.flatten.getLast? = some '\n' := by
  induction ls with
  | nil => exact absurd rfl hne
  | cons l ls ih =>
    obtain ⟨hl, hls⟩ := List.forall_mem_cons.1 h
    rw [List.flatten_cons] at hne ⊢
    by_cases hnil : ls.flatten = []
    · rw [hnil, List.append_nil]
      exact hl.getLast?_eq
    · rw [List.getLast?_append_of_ne_nil _ hnil]
      exact ih hls hnil

theorem closed_of_mem_dropLast_rows {cs l : List Char} (h : l ∈ (rows cs).dropLast) : Closed l := by
  induction cs generalizing l with
  | nil => cases h
  | cons c cs ih =>
    rw [rows] at h
    split at h
    · rename_i hc
      subst hc
      cases hrows : rows cs with
      | nil => simp [hrows] at h
      | cons r rs =>
        rw [hrows, List.dropLast_cons_of_ne_nil (List.cons_ne_nil _ _)] at h
        rcases List.mem_cons.1 h with rfl | h
        · exact ⟨[], List.not_mem_nil, rfl⟩
        · exact ih (hrows ▸ h)
    · rename_i hc
      cases hrows : rows cs with
      | nil => simp [hrows, Text.prepend] at h
      | cons r rs =>
        rw [hrows, Text.prepend] at h
        cases rs with
        | nil => simp at h
        | cons r' rs =>
          rw [List.dropLast_cons_of_ne_nil (List.cons_ne_nil _ _)] at h
          have hdrop : (rows cs).dropLast = r :: (r' :: rs).dropLast := by
            rw [hrows, List.dropLast_cons_of_ne_nil (List.cons_ne_nil _ _)]
          rcases List.mem_cons.1 h with rfl | h
          · exact (ih (hdrop ▸ List.mem_cons_self)).cons hc
          · exact ih (hdrop ▸ List.mem_cons_of_mem _ h)

end Rows

section Reading

theorem readNumber?_repr (n : Nat) {rest : List Char} (h : ∀ c ∈ rest.head?, c.isDigit = false) :
    readNumber? ((toString n).toList ++ rest) = some (n, rest) := by
  have hdigits : ((toString n).toList ++ rest).takeWhile Char.isDigit = Nat.toDigits 10 n := by
    rw [Nat.toString_eq_ofList_toDigits, String.toList_ofList, List.takeWhile_append_of_pos]
    · cases rest with
      | nil => simp
      | cons c rest =>
        have hc := h c rfl
        simp [hc]
    · exact fun c hc => Nat.isDigit_of_mem_toDigits (by decide) (by decide) hc
  have hlength : (toString n).toList.length = (Nat.toDigits 10 n).length := by
    rw [Nat.toString_eq_ofList_toDigits, String.toList_ofList]
  rw [readNumber?, hdigits, Nat.ofDigitChars_ten_toDigits, ← hlength, List.drop_left,
    if_neg (by simp [Nat.toDigits_ne_nil])]

/-- What is in front of rows that cannot be read cannot be read with them. -/
theorem readRows?_append_of_none (ls : List (List Char)) {rs : List (List Char)}
    (h : readRows? rs = none) :
    readRows? (ls ++ rs) = none := by
  induction ls with
  | nil => exact h
  | cons l ls ih =>
    cases l with
    | nil => rfl
    | cons c line => rw [List.cons_append, readRows?, ih]; rfl

/-- Marked rows are read as they are. -/
theorem readRows?_marked (body : List (Mark × List Char)) {rs : List (List Char)}
    {front : List (Mark × List Char)} {hunks : List Hunk} (h : readRows? rs = some (front, hunks)) :
    readRows? (body.map (fun e => e.1.sign :: e.2) ++ rs) = some (body ++ front, hunks) := by
  induction body with
  | nil => exact h
  | cons e body ih =>
    obtain ⟨m, line⟩ := e
    have hsign : m.sign ≠ '@' := by cases m <;> decide
    rw [List.map_cons, List.cons_append, readRows?, ih]
    simp [hsign, Mark.ofSign?_sign]

/-- The two rows in front of the hunks. -/
theorem read?_append {first second : List Char} (hfirst : Closed first) (hsecond : Closed second)
    (hold : "--- ".toList.isPrefixOf first) (hnew : "+++ ".toList.isPrefixOf second)
    {text : List Char} (hne : text ≠ []) :
    read? (first ++ (second ++ text)) =
      if text.getLast? = some '\n' then readHunks? (rows text) else none := by
  have hrows : rows (first ++ (second ++ text)) = first :: second :: rows text := by
    rw [rows_append_of_closed hfirst, rows_append_of_closed hsecond]
  have hlast : (first ++ (second ++ text)).getLast? = text.getLast? := by
    rw [List.getLast?_append_of_ne_nil _ (List.append_ne_nil_of_right_ne_nil _ hne),
      List.getLast?_append_of_ne_nil _ hne]
  have hsome : (first ++ (second ++ text)).isEmpty = false := by simp [hne]
  rw [read?, hsome, hlast, hrows, if_neg Bool.false_ne_true]
  by_cases hend : text.getLast? = some '\n'
  · rw [if_neg (not_not_intro hend), if_pos hend]
    dsimp only
    rw [hold, hnew, Bool.and_self, if_pos rfl]
  · rw [if_pos hend, if_neg hend]

/-- Rows without a header are all marked. -/
theorem eq_marked_of_readRows? {rs : List (List Char)} {body : List (Mark × List Char)}
    {hunks : List Hunk}
    (hrs : ∀ r ∈ rs, r.head? ≠ some '@') (h : readRows? rs = some (body, hunks)) :
    rs = body.map fun e => e.1.sign :: e.2 := by
  induction rs generalizing body with
  | nil =>
    obtain ⟨rfl, -⟩ : body = [] ∧ hunks = [] := by simpa [readRows?, eq_comm] using h
    rfl
  | cons r rs ih =>
    cases r with
    | nil => simp [readRows?] at h
    | cons c line =>
      obtain ⟨hhead, hrest'⟩ := List.forall_mem_cons.1 hrs
      have hc : c ≠ '@' := by simpa using hhead
      rw [readRows?] at h
      cases hrest : readRows? rs with
      | none => simp [hrest] at h
      | some x =>
        obtain ⟨front, hunks'⟩ := x
        cases hm : Mark.ofSign? c with
        | none => simp [hrest, hc, hm] at h
        | some m =>
          obtain ⟨rfl, rfl⟩ : (m, line) :: front = body ∧ hunks' = hunks := by
            simpa [hrest, hc, hm] using h
          rw [List.map_cons, Mark.sign_of_ofSign? hm, ← ih hrest' hrest]

end Reading

/-- A hunk is applied behind the rows that it leaves alone. -/
theorem patchedFrom?_append {i j : Nat} {h : Hunk} (before : List (List Char))
    (hold : h.oldStart = i + before.length) (hnew : h.newStart = j + before.length) (hs : List Hunk)
    (behind : List (List Char)) :
    patchedFrom? i j (h :: hs) (before ++ (oldSide h.body ++ behind)) =
      (patchedFrom? (h.oldStart + h.oldSize) (h.newStart + h.newSize) hs behind).map fun out =>
        before ++ newSide h.body ++ out := by
  have hskip : h.oldStart - i = before.length := by omega
  have hcond : (i ≤ h.oldStart && h.newStart = j + before.length &&
      before.length ≤ (before ++ (oldSide h.body ++ behind)).length) = true := by
    simp [hnew, hold]
  rw [patchedFrom?, hskip, if_pos hcond, List.drop_left, List.take_left,
    List.dropPrefix?_append_of_beq _ (beq_self_eq_true _), Option.bind_some]

section Load

/-- On how many sides of a patch a row counts. -/
def weight (r : List Char) : Nat := if r.head? = some ' ' then 2 else 1

/-- The length of both sides together. -/
def load : List (List Char) → Nat
  | [] => 0
  | r :: rs => weight r + load rs

theorem weight_pos (r : List Char) : 0 < weight r := by
  rw [weight]
  split <;> omega

/-- The load of marked rows is the length of both sides. -/
theorem load_marked (body : List (Mark × List Char)) :
    load (body.map fun e => e.1.sign :: e.2) = (oldSide body).length + (newSide body).length := by
  induction body with
  | nil => rfl
  | cons e body ih =>
    obtain ⟨m, line⟩ := e
    rw [List.map_cons, load, ih]
    cases m <;> simp [weight, Mark.sign, oldSide, newSide] <;> omega

theorem weight_append {r : List Char} (h : r ≠ []) (l : List Char) :
    weight (r ++ l) = weight r := by
  rw [weight, weight, List.head?_append_of_ne_nil _ h]

section Records

variable {rs : List (List Char)}

theorem load_rows_le (hne : ∀ r ∈ rs, r ≠ []) (hrs : ∀ r ∈ rs, Closed r ∨ '\n' ∉ r) :
    load (rows rs.flatten) ≤ load rs := by
  induction rs with
  | nil => exact Nat.le_refl _
  | cons r rs ih =>
    obtain ⟨hr, hne'⟩ := List.forall_mem_cons.1 hne
    obtain ⟨hshape, hrs'⟩ := List.forall_mem_cons.1 hrs
    have hle := ih hne' hrs'
    rw [List.flatten_cons, load]
    rcases hshape with hclosed | hopen
    · rw [rows_append_of_closed hclosed, load]
      omega
    · rw [rows_append_of_notMem hopen]
      cases hrows : rows rs.flatten with
      | nil =>
        rw [foldr_prepend_nil hr, load, load]
        exact Nat.add_le_add_left (Nat.zero_le _) _
      | cons l ls =>
        rw [hrows, load] at hle
        rw [foldr_prepend_cons, load, weight_append hr]
        omega

/-- Records become rows. One that is not closed takes the next record into its row. -/
theorem load_rows_lt (hne : ∀ r ∈ rs, r ≠ []) (hrs : ∀ r ∈ rs, Closed r ∨ '\n' ∉ r)
    (hopen : ∃ r ∈ rs, ¬ Closed r) (hend : rs.flatten.getLast? = some '\n') :
    load (rows rs.flatten) < load rs := by
  induction rs with
  | nil =>
    obtain ⟨r, hr, -⟩ := hopen
    cases hr
  | cons r rs ih =>
    obtain ⟨hr, hne'⟩ := List.forall_mem_cons.1 hne
    obtain ⟨hshape, hrs'⟩ := List.forall_mem_cons.1 hrs
    rw [List.flatten_cons] at hend
    rw [List.flatten_cons, load]
    by_cases hclosed : Closed r
    · -- the open record is further on, so the text goes on to the line feed at its end
      obtain ⟨r', hr', hopen'⟩ := hopen
      obtain rfl | hmem := List.mem_cons.1 hr'
      · exact absurd hclosed hopen'
      · have hrest : rs.flatten ≠ [] :=
          fun he => hne' r' hmem (List.flatten_eq_nil_iff.1 he r' hmem)
        rw [List.getLast?_append_of_ne_nil _ hrest] at hend
        have hlt := ih hne' hrs' ⟨r', hmem, hopen'⟩ hend
        rw [rows_append_of_closed hclosed, load]
        omega
    · have hnot : '\n' ∉ r := hshape.resolve_left hclosed
      have hle := load_rows_le hne' hrs'
      rw [rows_append_of_notMem hnot]
      cases hrows : rows rs.flatten with
      | nil =>
        have hnil : rs.flatten = [] := by rw [← flatten_rows rs.flatten, hrows, List.flatten_nil]
        rw [hnil, List.append_nil] at hend
        exact absurd (List.mem_of_getLast? hend) hnot
      | cons l ls =>
        have hl := weight_pos l
        rw [hrows, load] at hle
        rw [foldr_prepend_cons, load, weight_append hr]
        omega

theorem head?_of_mem_rows_flatten (hne : ∀ r ∈ rs, r ≠ []) (hrs : ∀ r ∈ rs, Closed r ∨ '\n' ∉ r)
    {row : List Char} (h : row ∈ rows rs.flatten) : ∃ r ∈ rs, row.head? = r.head? := by
  induction rs generalizing row with
  | nil => cases h
  | cons r rs ih =>
    obtain ⟨hr, hne'⟩ := List.forall_mem_cons.1 hne
    obtain ⟨hshape, hrs'⟩ := List.forall_mem_cons.1 hrs
    have hrest : ∀ row ∈ rows rs.flatten, ∃ r' ∈ r :: rs, row.head? = r'.head? := by
      intro row hrow
      obtain ⟨r', hr', he⟩ := ih hne' hrs' hrow
      exact ⟨r', List.mem_cons_of_mem _ hr', he⟩
    rw [List.flatten_cons] at h
    rcases hshape with hclosed | hopen
    · rw [rows_append_of_closed hclosed] at h
      rcases List.mem_cons.1 h with rfl | h
      · exact ⟨row, List.mem_cons_self, rfl⟩
      · exact hrest row h
    · rw [rows_append_of_notMem hopen] at h
      cases hrows : rows rs.flatten with
      | nil =>
        rw [hrows, foldr_prepend_nil hr] at h
        exact ⟨r, List.mem_cons_self, by rw [List.mem_singleton.1 h]⟩
      | cons l ls =>
        rw [hrows, foldr_prepend_cons] at h
        rcases List.mem_cons.1 h with rfl | h
        · exact ⟨r, List.mem_cons_self, List.head?_append_of_ne_nil _ hr⟩
        · exact hrest row (hrows ▸ List.mem_cons_of_mem _ h)

end Records
end Load
end Asyncify.Patch
