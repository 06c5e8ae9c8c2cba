import Asyncify.Draft.Change
import Asyncify.Proofs.Depiction
import Asyncify.Proofs.Runs
import Mathlib.Data.List.Induction

/-! Where reported positions lie. A reader who goes to the line and counts off the columns stands at
the first byte of the node, and no other byte between characters has this position. -/
namespace Asyncify

namespace Text

variable {line : List Char}

/-- What follows the first `n` line feeds. -/
def skipLines : Nat → List Char → Option (List Char)
  | 0, cs => some cs
  | _ + 1, [] => none
  | n + 1, c :: cs => if c = '\n' then skipLines n cs else skipLines (n + 1) cs

/-- What follows the next `n` characters of a line. -/
def skipChars : Nat → List Char → Option (List Char)
  | 0, cs => some cs
  | _ + 1, [] => none
  | n + 1, c :: cs => if c = '\n' then none else skipChars n cs

theorem skipLines_append (head ys : List Char) :
    skipLines (head.count '\n' + 1) (head ++ '\n' :: ys) = some ys := by
  induction head with
  | nil => simp [skipLines]
  | cons c head ih =>
    by_cases hc : c = '\n'
    · simpa [skipLines, hc] using ih
    · simpa [skipLines, hc] using ih

theorem skipChars_append (h : '\n' ∉ line) (ys : List Char) :
    skipChars line.length (line ++ ys) = some ys := by
  induction line with
  | nil => simp [skipChars]
  | cons c line ih =>
    obtain ⟨hc, hline⟩ : '\n' ≠ c ∧ '\n' ∉ line := by simpa using h
    simpa [skipChars, Ne.symm hc] using ih hline

theorem lastLine_append_singleton (xs : List Char) (c : Char) :
    lastLine (xs ++ [c]) = if c = '\n' then [] else lastLine xs ++ [c] := by
  rw [lastLine, List.reverse_append, List.reverse_singleton, List.singleton_append,
    List.takeWhile_cons]
  by_cases hc : c = '\n'
  · simp [hc]
  · simp [hc, lastLine]

/-- The last line feed of a text that has one. -/
theorem exists_last_line {xs : List Char} (h : '\n' ∈ xs) :
    ∃ head line, xs = head ++ '\n' :: line ∧ '\n' ∉ line := by
  obtain ⟨as, bs, hxs, hnot⟩ := List.eq_append_cons_of_mem (List.mem_reverse.2 h)
  refine ⟨bs.reverse, as.reverse, ?_, by simpa using hnot⟩
  rw [← List.reverse_reverse xs, hxs]
  simp

end Text

namespace Position

open Text

variable {p : Position} {cs xs ys line : List Char} {a b : Nat}

/-- The order of reading: by lines, and by columns in a line. -/
def Precedes (p q : Position) : Prop := p.line < q.line ∨ p.line = q.line ∧ p.column < q.column

/-- The text from a position on, if there is such a line and it is long enough. -/
def rest? (cs : List Char) (p : Position) : Option (List Char) :=
  (skipLines (p.line - 1) cs).bind (skipChars (p.column - 1))

/-- The position behind a character. -/
def next (p : Position) (c : Char) : Position :=
  if c = '\n' then ⟨p.line + 1, 1⟩ else ⟨p.line, p.column + 1⟩

/-- The position behind a text. -/
def after (xs : List Char) : Position := xs.foldl next ⟨1, 1⟩

theorem precedes_next (p : Position) (c : Char) : p.Precedes (p.next c) := by
  rw [next]
  split
  · exact Or.inl (Nat.lt_succ_self _)
  · exact Or.inr ⟨rfl, Nat.lt_succ_self _⟩

theorem Precedes.trans {q r : Position} (h : p.Precedes q) (h' : q.Precedes r) : p.Precedes r := by
  unfold Precedes at *
  omega

theorem Precedes.ne {q : Position} (h : p.Precedes q) : p ≠ q := by
  rintro rfl
  unfold Precedes at h
  omega

theorem precedes_foldl (h : xs ≠ []) (p : Position) : p.Precedes (xs.foldl next p) := by
  induction xs generalizing p with
  | nil => exact (h rfl).elim
  | cons c xs ih =>
    by_cases hxs : xs = []
    · rw [hxs]
      exact precedes_next p c
    · exact (precedes_next p c).trans (ih hxs (p.next c))

theorem line_foldl (xs : List Char) (p : Position) :
    (xs.foldl next p).line = p.line + xs.count '\n' := by
  induction xs generalizing p with
  | nil => rfl
  | cons c xs ih =>
    rw [List.foldl_cons, ih, List.count_cons, next]
    by_cases hc : c = '\n' <;> simp [hc]
    omega

theorem foldl_of_not_mem (h : '\n' ∉ line) (p : Position) :
    line.foldl next p = ⟨p.line, p.column + line.length⟩ := by
  induction line generalizing p with
  | nil => rfl
  | cons c line ih =>
    obtain ⟨hc, hline⟩ : '\n' ≠ c ∧ '\n' ∉ line := by simpa using h
    rw [List.foldl_cons, ih hline, next, if_neg hc.symm, List.length_cons, Nat.add_assoc,
      Nat.add_comm 1]

/-- Line by line and column by column, the position behind a text leads to what follows it. -/
theorem rest?_after (xs ys : List Char) : (after xs).rest? (xs ++ ys) = some ys := by
  by_cases h : '\n' ∈ xs
  · obtain ⟨head, line, rfl, hline⟩ := exists_last_line h
    have hafter : after (head ++ '\n' :: line) = ⟨head.count '\n' + 2, line.length + 1⟩ := by
      rw [after, List.foldl_append, List.foldl_cons, foldl_of_not_mem hline, next, if_pos rfl,
        line_foldl]
      simp only [Position.mk.injEq]
      omega
    rw [hafter, rest?, List.append_assoc, List.cons_append]
    show (skipLines (head.count '\n' + 1) _).bind (skipChars line.length) = _
    rw [skipLines_append, Option.bind_some, skipChars_append hline]
  · rw [after, foldl_of_not_mem h, rest?]
    show (skipLines 0 _).bind (skipChars (1 + xs.length - 1)) = _
    rw [skipLines, Option.bind_some, Nat.add_sub_cancel_left, skipChars_append h]

theorem after_eq (xs : List Char) : after xs = ⟨xs.count '\n' + 1, (lastLine xs).length + 1⟩ := by
  induction xs using List.reverseRecOn with
  | nil => rfl
  | append_singleton xs c ih =>
    rw [after, List.foldl_append, List.foldl_cons, List.foldl_nil, ← after, ih, next,
      lastLine_append_singleton]
    by_cases hc : c = '\n' <;> simp [hc]

theorem ofOffset_append (xs ys : List Char) : ofOffset (xs ++ ys) (byteLength xs) = after xs := by
  have hslice : slice (xs ++ ys) 0 (byteLength xs) = xs := by simpa using slice_append [] xs ys
  rw [ofOffset, hslice, after_eq]

theorem precedes_of_lt (ha : isBoundary cs a) (hb : isBoundary cs b) (hab : a < b) :
    (ofOffset cs a).Precedes (ofOffset cs b) := by
  obtain ⟨xs, ys, zs, rfl, rfl, rfl⟩ := exists_split ha hb (Nat.le_of_lt hab)
  have hys : ys ≠ [] := by
    rintro rfl
    simp at hab
  rw [ofOffset_append, List.append_assoc, ofOffset_append, after, after, List.foldl_append]
  exact precedes_foldl hys _

theorem lt_iff_precedes (ha : isBoundary cs a) (hb : isBoundary cs b) :
    a < b ↔ (ofOffset cs a).Precedes (ofOffset cs b) := by
  refine ⟨precedes_of_lt ha hb, fun h => ?_⟩
  obtain hab | rfl | hba := Nat.lt_trichotomy a b
  · exact hab
  · exact (h.ne rfl).elim
  · exact ((h.trans (precedes_of_lt hb ha hba)).ne rfl).elim

theorem ofOffset_inj (ha : isBoundary cs a) (hb : isBoundary cs b)
    (h : ofOffset cs a = ofOffset cs b) : a = b := by
  obtain hab | hab | hba := Nat.lt_trichotomy a b
  · exact ((precedes_of_lt ha hb hab).ne h).elim
  · exact hab
  · exact ((precedes_of_lt hb ha hba).ne h.symm).elim

end Position

/-- The position of the change leads to the first byte of the node, and its old code stands
there. -/
def Change.Locates (c : Change) (doc : Document) (n : Node) : Prop :=
  ∃ before rest, doc.chars = before ++ rest ∧ Text.byteLength before = n.start ∧
    c.position.rest? doc.chars = some rest ∧ ∀ old, c.oldCode = some old → old.toList <+: rest

namespace Document.WellFormed

variable {doc : Document} {m n : Node}

theorem rest?_position (hw : doc.WellFormed) (hc : doc.columns = .characters) (hn : n ∈ doc.nodes) :
    ∃ before rest, doc.chars = before ++ rest ∧ Text.byteLength before = n.start ∧
      (doc.position n).rest? doc.chars = some rest ∧ (doc.textOf n).toList <+: rest := by
  obtain ⟨hstart, hstop⟩ := hw.bounds n hn
  obtain ⟨xs, ys, zs, hchars, hx, hy⟩ := Text.exists_split hstart hstop (hw.start_le_stop hn)
  refine ⟨xs, ys ++ zs, by rw [hchars, List.append_assoc], hx, ?_, ?_⟩
  · rw [position, hc, hchars, ← hx, List.append_assoc]
    dsimp only
    rw [Position.ofOffset_append, Position.rest?_after]
  · rw [textOf, slice, hchars, ← hx, ← hy, Text.slice_append, String.toList_ofList]
    exact List.prefix_append ys zs

theorem start_eq_of_position_eq (hw : doc.WellFormed) (hc : doc.columns = .characters)
    (hm : m ∈ doc.nodes)
    (hn : n ∈ doc.nodes) (h : doc.position m = doc.position n) : m.start = n.start := by
  rw [position, position, hc] at h
  exact Position.ofOffset_inj (hw.bounds m hm).1 (hw.bounds n hn).1 h

end Document.WellFormed

namespace Draft

variable {d : Draft} {e : Edit} {c : Change}

theorem locates_of_change (hw : d.doc.WellFormed) (hc : d.doc.columns = .characters)
    (he : e.place ∈ d.doc.places) (h : d.change e = .ok c) : c.Locates d.doc e.node := by
  obtain ⟨before, rest, hchars, hstart, hrest, htext⟩ :=
    hw.rest?_position hc (Document.node_mem_nodes he)
  obtain ⟨code, -, hchange⟩ := Except.bind_eq_ok.1 h
  cases hchange
  refine ⟨before, rest, hchars, hstart, hrest, fun old hold => ?_⟩
  dsimp only at hold
  split at hold
  · cases hold
    exact htext
  · cases hold

/-- Each reported change stands at the first byte of its edited node, and the old code of a replaced
node follows there. In any text, positions grow strictly with the offsets between characters, so two
nodes share a position only if they begin at the same byte. -/
theorem changes_locate (hw : d.doc.WellFormed) (hc : d.doc.columns = .characters)
    (hes : ∀ e ∈ d.edits, e.place ∈ d.doc.places) :
    (∀ cs, d.changes = .ok cs → List.Forall₂ (fun e c => c.Locates d.doc e.node ∧
        (c.kind = .modify ↔ e.replacement?.isSome) ∧
        (c.kind = .modify → c.oldCode = some (d.doc.textOf e.node))) d.surviving cs) ∧
      (∀ text a b, Text.isBoundary text a → Text.isBoundary text b →
        (a < b ↔ (Position.ofOffset text a).Precedes (.ofOffset text b))) ∧
      ∀ m ∈ d.doc.nodes, ∀ n ∈ d.doc.nodes, d.doc.position m = d.doc.position n →
        m.start = n.start := by
  refine ⟨fun cs h => ?_, fun text a b => Position.lt_iff_precedes,
    fun m hm n hn => hw.start_eq_of_position_eq hc hm hn⟩
  refine Except.forall₂_of_mapM h fun e he c hchange => ?_
  refine ⟨locates_of_change hw hc (hes e (List.mem_of_mem_filter he)) hchange, ?_⟩
  obtain ⟨code, -, hc⟩ := Except.bind_eq_ok.1 hchange
  cases hc
  cases e.replacement?.isSome <;> simp

end Draft

namespace Accents

open Sketch

/-- The line before ends in CR LF, a tab and a character of two bytes stand before the name. -/
def doc : Document :=
  program
    [leaf "comment" [] "// é", gap "\r\n\t",
      statement [] (callOn [] "ö" "find" [])]

def name : Place := doc.placeAt 7

def rename : Edit := ⟨name, .replace (.literal (.text "findAsync")), ""⟩

def draft : Draft := { doc, edits := [rename] }

theorem name_mem_places : name ∈ doc.places := by decide +kernel

theorem surviving_draft : draft.surviving = [rename] := by
  have hshows : draft.isDetached name = false := by decide +kernel
  refine List.filter_eq_self.2 fun e he => ?_
  obtain rfl := List.mem_singleton.1 he
  exact congrArg not hshows

theorem changes_draft :
    ∃ c, draft.changes = .ok [c] ∧ c.position = ⟨2, 4⟩ ∧ c.oldCode = some "find" := by
  refine ⟨⟨.modify, "", doc.position name.node, some (doc.textOf name.node), .text "findAsync"⟩,
    ?_, ?_⟩
  · rw [Draft.changes, surviving_draft]
    rfl
  · decide +kernel

end Accents

/-- The name begins at the fifth byte of its line and at the fourth column. -/
theorem Draft.changes_locate_accents :
    Accents.doc.WellFormed ∧ Accents.doc.columns = .characters ∧
      (∀ e ∈ Accents.draft.edits, e.place ∈ Accents.doc.places) ∧
      ∃ c, Accents.draft.changes = .ok [c] ∧ c.position = ⟨2, 4⟩ ∧ c.oldCode = some "find" ∧
        c.Locates Accents.doc Accents.name.node := by
  have hw : Accents.doc.WellFormed := Sketch.wellFormed_program _
  have hes : ∀ e ∈ Accents.draft.edits, e.place ∈ Accents.doc.places := by
    intro e he
    obtain rfl := List.mem_singleton.1 he
    exact Accents.name_mem_places
  obtain ⟨c, hchanges, hposition, hold⟩ := Accents.changes_draft
  have hall := (changes_locate (d := Accents.draft) hw rfl hes).1 _ hchanges
  rw [Accents.surviving_draft, List.forall₂_cons] at hall
  exact ⟨hw, rfl, hes, c, hchanges, hposition, hold, hall.1.1⟩

end Asyncify
