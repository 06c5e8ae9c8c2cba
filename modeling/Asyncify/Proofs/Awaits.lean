import Asyncify.Await
import Asyncify.Proofs.Occurrence

/-! Reading a print: where an `await` stands directly before a node, and that statements which move
to another indentation lose and gain nothing but blanks. -/
namespace Asyncify

namespace Text

/-- The text ends in the keyword and a space. -/
def endsAwait (s : String) : Bool := "await ".toList.isSuffixOf s.toList

theorem endsAwait_append (s : String) {t : String} (h : endsAwait t) : endsAwait (s ++ t) := by
  rw [endsAwait, List.isSuffixOf_iff_suffix] at h ⊢
  rw [String.toList_append]
  exact h.trans (List.suffix_append _ _)

/-- A text without its blanks. -/
def solid (cs : List Char) : List Char := cs.filter fun c => !isBlank c

theorem solid_append (cs ds : List Char) : solid (cs ++ ds) = solid cs ++ solid ds :=
  List.filter_append ..

theorem solid_eq_nil_iff {cs : List Char} : solid cs = [] ↔ ∀ c ∈ cs, isBlank c := by
  simp [solid, List.filter_eq_nil_iff]

theorem solid_joinWith {sep : List Char} (hs : solid sep = []) (ls : List (List Char)) :
    solid (joinWith sep ls) = ls.flatMap solid := by
  fun_induction joinWith sep ls with
  | case1 => rfl
  | case2 l => simp
  | case3 l ls _ ih => simp [solid_append, hs, ih]

/-- Cutting at blanks loses blanks only. -/
theorem solid_splitFrom {sep : List Char} (hs : solid sep = []) (hne : sep ≠ []) (skip : Nat)
    (cs : List Char) (hk : solid (cs.take skip) = []) :
    (splitFrom sep skip cs).flatMap solid = solid cs := by
  have hcons (c : Char) (cs : List Char) : solid (c :: cs) = solid [c] ++ solid cs :=
    solid_append [c] cs
  fun_induction splitFrom sep skip cs with
  | case1 => rfl
  | case2 skip c rest hpos ih =>
    obtain ⟨k, rfl⟩ : ∃ k, skip = k + 1 := ⟨skip - 1, by omega⟩
    rw [List.take_succ_cons, hcons, List.append_eq_nil_iff] at hk
    rw [hcons, hk.1, ih hk.2, List.nil_append]
  | case3 skip c rest hzero hpre ih =>
    obtain ⟨tail, htail⟩ := List.isPrefixOf_iff_prefix.1 hpre
    obtain ⟨x, xs, rfl⟩ := List.exists_cons_of_ne_nil hne
    obtain ⟨rfl, rfl⟩ := List.cons.inj htail
    rw [hcons, List.append_eq_nil_iff] at hs
    have hskip : solid ((xs ++ tail).take ((x :: xs).length - 1)) = [] := by simpa using hs.2
    rw [List.flatMap_cons, ih hskip, hcons x, hs.1]
    rfl
  | case4 skip c rest hzero hpre ih =>
    have hprepend (ls : List (List Char)) : (prepend c ls).flatMap solid =
        solid [c] ++ ls.flatMap solid := by
      cases ls with
      | nil => simp [prepend]
      | cons l ls => simp [prepend, hcons c l]
    rw [hprepend, ih rfl, ← hcons]

theorem isBlank_of_mem_indentation (cs : List Char) {c : Char} (h : c ∈ indentation cs) :
    isBlank c := by
  have hc := List.all_eq_true.1 List.all_takeWhile c h
  simp only [decide_eq_true_eq] at hc
  rcases hc with rfl | rfl <;> decide

/-- A line loses blanks only. -/
theorem solid_reindentLine {indent : List Char} (hi : solid indent = []) (width : Nat)
    (line : List Char) :
    solid (reindentLine width indent line) = solid line := by
  rw [reindentLine]
  split
  · next hall => exact (solid_eq_nil_iff.2 (by simpa using hall)).symm
  · obtain ⟨k, hk, hmin⟩ : ∃ k : Nat, k ≤ (indentation line).length ∧
        min ((indentation line).length : Int) width = k :=
      ⟨min (indentation line).length width, Nat.min_le_left .., by omega⟩
    have hlost : solid (line.take k) = [] := by
      refine solid_eq_nil_iff.2 fun c hc => isBlank_of_mem_indentation line ?_
      obtain ⟨rest, hrest⟩ : indentation line <+: line := List.takeWhile_prefix _
      rw [← hrest, List.take_append_of_le_length hk] at hc
      exact List.mem_of_mem_take hc
    rw [hmin, dropOrKeepLast, if_pos (by omega), Int.toNat_natCast, solid_append, hi,
      List.nil_append]
    calc
      solid (line.drop k) = solid (line.take k) ++ solid (line.drop k) := by
        rw [hlost, List.nil_append]
      _ = solid line := by rw [← solid_append, List.take_append_drop]

/-- A statement that moves to another indentation loses and gains blanks only. -/
theorem solid_reindent {indent newline : String} (hi : solid indent.toList = [])
    (hn : solid newline.toList = []) (hne : newline.toList ≠ []) (text : String) (width : Nat) :
    solid (reindent text width indent newline).toList = solid text.toList := by
  rw [reindent, String.toList_ofList, solid_joinWith hn,
    ← solid_splitFrom hn hne 0 text.toList rfl, ← splitOn]
  cases splitOn newline.toList text.toList with
  | nil => rfl
  | cons first rest =>
    rw [reindentLines, List.flatMap_cons, List.flatMap_cons, solid_append, hi, List.nil_append,
      List.flatMap_map]
    congr 2
    funext line
    exact solid_reindentLine hi width line

end Text

/-- The `await` that a place is the operand of, through any number of parentheses. -/
def Place.awaiter? (p : Place) : Option Node :=
  (p.above.dropWhile fun n => n.kind = .parenthesized).head?.filter fun n => n.kind = .awaited

namespace Print

def endsAwait : Print → Bool
  | added s => Text.endsAwait s
  | _ => false

def node? : Print → Option Node
  | node n _ => some n
  | _ => none

/-- Somewhere in the row, an `await` that came in stands directly before the print of the node. -/
def awaitsNext (id : Nat) : List Print → Bool
  | [] => false
  | p :: ps => (p.endsAwait && ps.head?.any (isOf id)) || awaitsNext id ps

/-- The print of the node starts with an `await` that came in. -/
def opensAwait (id : Nat) : Print → Bool
  | node n parts => n.id == id && parts.head?.any endsAwait
  | _ => false

def added? : Print → Option String
  | added s => some s
  | _ => none

/-- What came in before all else that is written of the node. -/
def opening? : Print → Option String
  | node _ parts => parts.head?.bind added?
  | _ => none

/-- What came in behind all else that is written of the node. -/
def closing? : Print → Option String
  | node _ parts => parts.getLast?.bind added?
  | _ => none

/-- What came in directly before the print of the node in a row. -/
def leadIn? (id : Nat) : List Print → Option String
  | [] => none
  | p :: ps => if ps.head?.any (isOf id) then p.added? else leadIn? id ps

/-- What the print puts directly before the node. -/
def lead? (id : Nat) : Print → Option String
  | node _ parts => leadIn? id parts
  | _ => none

/-- The print puts an `await` that came in directly before the node. -/
def leadsAwait (id : Nat) : Print → Bool
  | node _ parts => awaitsNext id parts
  | _ => false

/-- The print is that of `a` with all its children, and the node is written in it once. -/
def keepsAwait (a : Node) (id : Nat) : Print → Bool
  | node n parts =>
    n.id == a.id && (parts.filterMap node?).map Node.id == a.children.map Node.id &&
      (node n parts).times id == 1
  | _ => false

/-- How many times an `await` stands directly before a call: at the start of its own print, before
it or what it calls in the print of another node, or as the `await` that the call had. -/
def awaits (p : Print) (c : Place) : Nat :=
  p.nodes.countP (opensAwait c.id) + p.nodes.countP (leadsAwait c.id) +
    ((c.child? .function).map fun q => p.nodes.countP (leadsAwait q.id)).getD 0 +
    (c.awaiter?.map fun a => p.nodes.countP (keepsAwait a c.id)).getD 0

variable {id : Nat} {ps qs : List Print}

theorem isOf_of_opensAwait {x : Print} (h : x.opensAwait id) : x.isOf id := by
  cases x with
  | node n parts =>
    rw [opensAwait, Bool.and_eq_true] at h
    exact h.1
  | _ => cases h

theorem isOf_of_keepsAwait {x : Print} {a : Node} (h : x.keepsAwait a id) : x.isOf a.id := by
  cases x with
  | node n parts =>
    rw [keepsAwait, Bool.and_eq_true, Bool.and_eq_true] at h
    exact h.1.1
  | _ => cases h

theorem awaitsNext_eq_false (h : ∀ p ∈ ps, p.endsAwait = false) : awaitsNext id ps = false := by
  induction ps with
  | nil => rfl
  | cons p ps ih =>
    rw [awaitsNext, h p List.mem_cons_self, ih fun q hq => h q (List.mem_cons_of_mem _ hq)]
    rfl

theorem awaitsNext_eq_false_of_isOf (h : ∀ p ∈ ps, p.isOf id = false) :
    awaitsNext id ps = false := by
  induction ps with
  | nil => rfl
  | cons p ps ih =>
    rw [awaitsNext, ih fun q hq => h q (List.mem_cons_of_mem _ hq)]
    cases hps : ps.head? with
    | none => simp
    | some q => simp [h q (List.mem_cons_of_mem _ (List.mem_of_head? hps))]

theorem awaitsNext_append (h : qs.head?.any (isOf id) = false) :
    awaitsNext id (ps ++ qs) = (awaitsNext id ps || awaitsNext id qs) := by
  induction ps with
  | nil => rfl
  | cons p ps ih =>
    rw [List.cons_append, awaitsNext, awaitsNext, ih, Bool.or_assoc]
    cases ps with
    | nil => simp [h]
    | cons q ps => rfl

end Print

theorem Place.awaitedBy_eq (ns : List Node) : awaitedBy ns =
    ((ns.dropWhile fun n => n.kind = .parenthesized).head?.filter fun n =>
      n.kind = .awaited).isSome := by
  induction ns with
  | nil => rfl
  | cons n ns ih =>
    rw [awaitedBy]
    by_cases hk : n.kind = .parenthesized
    · simp [hk, ih]
    · by_cases ha : n.kind = .awaited <;> simp [hk, ha]

theorem Place.isAwaited_eq (p : Place) : p.isAwaited = p.awaiter?.isSome := awaitedBy_eq p.above

/-- The `await` of a place is one of the nodes around it. -/
theorem Place.awaiter?_eq_some {p : Place} {a : Node} (h : p.awaiter? = some a) :
    a ∈ p.above ∧ a.kind = .awaited := by
  obtain ⟨hh, hk⟩ := Option.filter_eq_some_iff.1 h
  exact ⟨(List.dropWhile_sublist _).subset (List.mem_of_head? hh), of_decide_eq_true hk⟩

namespace Print

mutual

/-- The texts in a print without their blanks. -/
def solid : Print → List Char
  | copied s => Text.solid s.toList
  | added s => Text.solid s.toList
  | node _ parts => solids parts
  | moved part _ _ _ ending => solid part ++ Text.solid ending.toList

def solids : List Print → List Char
  | [] => []
  | p :: ps => solid p ++ solids ps

end

end Print

/-- If the slot moves a statement, then to blanks and with line ends of blanks. -/
def Slot.IsEven : Slot → Prop
  | moved _ _ indent newline _ =>
    Text.solid indent.toList = [] ∧ Text.solid newline.toList = [] ∧ newline.toList ≠ []
  | _ => True

theorem Slot.solid_texts {write : Node → Print}
    (hw : ∀ n, Text.solid (write n).text.toList = (write n).solid)
    {slots : List Slot} (hs : ∀ s ∈ slots, s.IsEven) :
    Text.solid (Print.texts (slots.map (print write))).toList =
      Print.solids (slots.map (print write)) := by
  induction slots with
  | nil => rfl
  | cons s slots ih =>
    rw [List.map_cons, Print.texts, Print.solids, String.toList_append, Text.solid_append,
      ih fun x hx => hs x (List.mem_cons_of_mem _ hx)]
    congr 1
    cases s with
    | copied s => rfl
    | added s => rfl
    | node n => exact hw n
    | moved n width indent newline ending =>
      obtain ⟨hi, hn, hne⟩ := hs _ List.mem_cons_self
      rw [print, Print.text, String.toList_append, Text.solid_append,
        Text.solid_reindent hi hn hne, hw n, Print.solid]

theorem Slot.isEven_listed (ns : List Node) : ∀ s ∈ listed ns, s.IsEven := by
  intro s hs
  fun_induction listed ns with
  | case1 => cases hs
  | case2 n =>
    obtain rfl := List.mem_singleton.1 hs
    trivial
  | case3 n ns _ ih =>
    obtain rfl | hs := List.mem_cons.1 hs
    · trivial
    · obtain rfl | hs := List.mem_cons.1 hs
      · trivial
      · exact ih hs

/-- A fold whose indentation is blank moves its statements to blanks. -/
theorem Fold.isEven_slots {f : Fold} {inner newline : String} (hf : f.inner = .ok inner)
    (hi : Text.solid inner.toList = []) (hn : Text.solid newline.toList = [])
    (hne : newline.toList ≠ []) :
    ∀ s ∈ f.slots newline, s.IsEven := by
  have harm {branch : Branch} {s : Slot} (hs : s ∈ f.armSlots inner newline branch) : s.IsEven := by
    obtain ⟨m, -, hs⟩ := List.mem_flatMap.1 hs
    split at hs
    · rcases List.mem_cons.1 hs with rfl | hs
      · trivial
      · obtain rfl := List.mem_singleton.1 hs
        exact ⟨hi, hn, hne⟩
    · cases hs
  intro s hs
  rw [slots, hf] at hs
  split at hs
  · next heq _ =>
    cases heq
    simp only [List.mem_append, List.mem_cons, List.not_mem_nil, or_false] at hs
    rcases hs with (((((((rfl | rfl | rfl) | hs) | rfl) | hs) | rfl) | hs) | rfl)
    · trivial
    · trivial
    · trivial
    · exact Slot.isEven_listed _ s hs
    · trivial
    · exact harm hs
    · trivial
    · exact harm hs
    · trivial
  · cases hs

namespace Draft

variable {d : Draft} {n a t : Node} {id fuel : Nat}

theorem isEven_rowSlots (cursor : Nat) (cs : List Node) (stop : Nat) :
    ∀ s ∈ d.rowSlots cursor cs stop, s.IsEven := by
  intro s hs
  induction cs generalizing cursor with
  | nil =>
    obtain rfl := List.mem_singleton.1 hs
    trivial
  | cons c cs ih =>
    simp only [rowSlots, List.mem_cons] at hs
    rcases hs with rfl | rfl | hs
    · trivial
    · trivial
    · exact ih _ hs

/-- The text of a print shows the texts in it, in their order and up to blanks. -/
theorem solid_printWithin (h : ∀ n, ∀ s ∈ d.layout n, s.IsEven) (fuel : Nat) (n : Node) :
    Text.solid (d.printWithin fuel n).text.toList = (d.printWithin fuel n).solid := by
  induction fuel generalizing n with
  | zero => rfl
  | succ fuel ih =>
    rw [printWithin, Print.text, Print.solid]
    exact Slot.solid_texts ih (h n)

@[simp] theorem endsAwait_printWithin : (d.printWithin fuel n).endsAwait = false := by
  cases fuel <;> rfl

@[simp] theorem node?_printWithin : (d.printWithin fuel n).node? = some n := by
  cases fuel <;> rfl

theorem opensAwait_printWithin : (d.printWithin (fuel + 1) n).opensAwait id =
    (n.id == id && Text.endsAwait (d.before n.id)) := rfl

theorem opening?_printWithin : (d.printWithin (fuel + 1) n).opening? = some (d.before n.id) := rfl

theorem closing?_printWithin : (d.printWithin (fuel + 1) n).closing? = some (d.after n.id) := by
  rw [printWithin, Print.closing?, layout, ← List.cons_append, List.map_append, List.map_singleton,
    List.getLast?_concat]
  rfl

theorem leadsAwait_printWithin : (d.printWithin (fuel + 1) n).leadsAwait id =
    Print.awaitsNext id ((d.layout n).map (Slot.print (d.printWithin fuel))) := rfl

/-- In a row of children no `await` comes in between two of them. -/
theorem awaitsNext_rowSlots (cursor : Nat) (cs : List Node) (stop : Nat) :
    Print.awaitsNext id ((d.rowSlots cursor cs stop).map (Slot.print (d.printWithin fuel))) =
      false := by
  refine Print.awaitsNext_eq_false fun p hp => ?_
  induction cs generalizing cursor with
  | nil =>
    obtain rfl := List.mem_singleton.1 hp
    rfl
  | cons c cs ih =>
    simp only [rowSlots, List.map_cons, List.mem_cons] at hp
    obtain rfl | rfl | hp := hp
    · rfl
    · exact endsAwait_printWithin
    · exact ih _ hp

/-- Only a fold puts an `await` before a node that is written for another. -/
theorem leadsAwait_of_plain (h : d.replacement? n.id = none ∨
    ∃ v, d.replacement? n.id = some (.literal v)) :
    (d.printWithin (fuel + 1) n).leadsAwait id = false := by
  -- a body of one text has no node in it
  have htext (x y z : Slot) (hx : ∀ s ∈ [x, y, z], (s.print (d.printWithin fuel)).isOf id = false) :
      Print.awaitsNext id ([x, y, z].map (Slot.print (d.printWithin fuel))) = false := by
    refine Print.awaitsNext_eq_false_of_isOf fun p hp => ?_
    obtain ⟨s, hs, rfl⟩ := List.mem_map.1 hp
    exact hx s hs
  rw [leadsAwait_printWithin, layout, bodySlots]
  obtain h | ⟨v, h⟩ := h
  · rw [h]
    dsimp only
    split
    · have hhead : (((d.rowSlots n.start n.children n.stop ++ [Slot.added (d.after n.id)]).map
          (Slot.print (d.printWithin fuel))).head?.any (Print.isOf id)) = false := by
        cases n.children <;> rfl
      rw [List.map_cons, Print.awaitsNext, hhead, List.map_append, Print.awaitsNext_append rfl,
        awaitsNext_rowSlots]
      simp [Slot.print, Print.awaitsNext]
    · exact htext _ _ _ (by simp [Slot.print, Print.isOf])
  · rw [h]
    exact htext _ _ _ (by simp [Slot.print, Print.isOf])

theorem awaitsNext_listed (ns : List Node) :
    Print.awaitsNext id ((Slot.listed ns).map (Slot.print (d.printWithin fuel))) = false := by
  refine Print.awaitsNext_eq_false fun p hp => ?_
  obtain ⟨s, hs, rfl⟩ := List.mem_map.1 hp
  fun_induction Slot.listed ns with
  | case1 => cases hs
  | case2 n =>
    obtain rfl := List.mem_singleton.1 hs
    exact endsAwait_printWithin
  | case3 n ns _ ih =>
    obtain rfl | hs := List.mem_cons.1 hs
    · exact endsAwait_printWithin
    · obtain rfl | hs := List.mem_cons.1 hs
      · rfl
      · exact ih hs (List.mem_map_of_mem hs)

theorem isOf_armSlots {f : Fold} {inner newline : String} {branch : Branch} {s : Slot}
    (hs : s ∈ f.armSlots inner newline branch) :
    (s.print (d.printWithin fuel)).isOf id = false := by
  obtain ⟨m, -, hs⟩ := List.mem_flatMap.1 hs
  split at hs
  · rcases List.mem_cons.1 hs with rfl | hs
    · rfl
    · obtain rfl := List.mem_singleton.1 hs
      rfl
  · cases hs

/-- A folded statement is what it calls behind an `await`, the arguments, and statements that are
moved. -/
theorem layout_of_folded (id fuel : Nat) {f : Fold} {inner : String} {callee : Node}
    (hr : d.replacement? n.id = some (.folded f)) (hi : f.inner = .ok inner)
    (hc : f.callee = .ok callee) :
    ∃ tail, d.layout n = .added (d.before n.id) ::
        .added ("try \x7b" ++ d.doc.newline ++ inner ++ "const " ++ f.resultName ++ " = await ") ::
        .node callee :: .added "(" :: (Slot.listed f.args ++ tail) ∧
      ∀ s ∈ tail, (s.print (d.printWithin fuel)).isOf id = false := by
  refine ⟨[.added ");"] ++ f.armSlots inner d.doc.newline .attempt ++
      [.added (d.doc.newline ++ f.base ++ "\x7d catch (" ++ f.errorName ++ ") \x7b")] ++
      f.armSlots inner d.doc.newline .recover ++ [.added (d.doc.newline ++ f.base ++ "\x7d")] ++
      [.added (d.after n.id)], ?_, ?_⟩
  · rw [layout, bodySlots, hr]
    dsimp only
    rw [Fold.slots, hi, hc]
    simp only [List.append_assoc, List.cons_append, List.nil_append]
  · intro s hs
    simp only [List.mem_append, List.mem_singleton] at hs
    rcases hs with ((((rfl | hs) | rfl) | hs) | rfl) | rfl
    · rfl
    · exact isOf_armSlots hs
    · rfl
    · exact isOf_armSlots hs
    · rfl
    · rfl

/-- A fold puts an `await` directly before what it calls, and before nothing else. -/
theorem leadsAwait_of_folded {f : Fold} {inner : String} {callee : Node}
    (hr : d.replacement? n.id = some (.folded f)) (hi : f.inner = .ok inner)
    (hc : f.callee = .ok callee) :
    (d.printWithin (fuel + 1) n).leadsAwait id = (callee.id == id) := by
  obtain ⟨tail, hl, htail⟩ := layout_of_folded id fuel hr hi hc
  have hend : Text.endsAwait ("try \x7b" ++ d.doc.newline ++ inner ++ "const " ++ f.resultName ++
      " = await ") :=
    Text.endsAwait_append _ (by decide)
  have hmoved : ∀ p ∈ tail.map (Slot.print (d.printWithin fuel)), p.isOf id = false := by
    intro p hp
    obtain ⟨s, hs, rfl⟩ := List.mem_map.1 hp
    exact htail s hs
  have hhead : (tail.map (Slot.print (d.printWithin fuel))).head?.any (Print.isOf id) = false := by
    cases hh : (tail.map (Slot.print (d.printWithin fuel))).head? with
    | none => rfl
    | some p => exact hmoved p (List.mem_of_head? hh)
  have hargs : Print.awaitsNext id
      ((Slot.listed f.args ++ tail).map (Slot.print (d.printWithin fuel))) =
      false := by
    rw [List.map_append, Print.awaitsNext_append hhead, awaitsNext_listed,
      Print.awaitsNext_eq_false_of_isOf hmoved, Bool.or_false]
  have hopen : Text.endsAwait "(" = false := by decide
  have hhidden (s : String) : (Print.added s).isOf id = false := rfl
  rw [leadsAwait_printWithin, hl]
  simp only [List.map_cons, Print.awaitsNext, hargs, Slot.print, Print.endsAwait, List.head?_cons,
    Option.any_some, hhidden, isOf_printWithin, hopen, hend, Bool.and_false,
    Bool.false_and, Bool.true_and, Bool.or_false, Bool.false_or]

/-- That `await` is the one of the constant with the result. -/
theorem lead?_of_folded {f : Fold} {inner : String} {callee : Node}
    (hr : d.replacement? n.id = some (.folded f)) (hi : f.inner = .ok inner)
    (hc : f.callee = .ok callee) :
    (d.printWithin (fuel + 1) n).lead? callee.id =
      some ("try \x7b" ++ d.doc.newline ++ inner ++ "const " ++ f.resultName ++ " = await ") := by
  obtain ⟨tail, hl, -⟩ := layout_of_folded callee.id fuel hr hi hc
  have hself : (d.printWithin fuel callee).isOf callee.id := by simp
  have hhidden (s : String) : (Print.added s).isOf callee.id = false := rfl
  rw [printWithin, Print.lead?, hl]
  simp [Slot.print, Print.leadIn?, hhidden, hself, Print.added?]

/-- A node that an edit lies in and that is not replaced is written with all its children. -/
theorem keepsAwait_of_touched (h : d.IsLaid) (hw : d.doc.WellFormed) (ha : a ∈ d.doc.nodes)
    (hr : d.replacement? a.id = none) (ht : d.isTouched a) (hreach : d.Reaches a t)
    (hf : a.size ≤ fuel + 1) : (d.printWithin (fuel + 1) a).keepsAwait a t.id := by
  have hrow (cursor : Nat) (cs : List Node) (stop : Nat) :
      ((d.rowSlots cursor cs stop).map (Slot.print (d.printWithin fuel))).filterMap Print.node? =
        cs := by
    induction cs generalizing cursor with
    | nil => rfl
    | cons c cs ih =>
      rw [rowSlots, List.map_cons, List.map_cons, List.filterMap_cons_none rfl, Slot.print,
        List.filterMap_cons_some node?_printWithin, ih]
  have hparts : (((d.layout a).map (Slot.print (d.printWithin fuel))).filterMap Print.node?) =
      a.children := by
    rw [layout, bodySlots, hr]
    simp only [ht, if_true]
    rw [List.map_cons, List.filterMap_cons_none rfl, List.map_append, List.filterMap_append, hrow]
    exact List.append_nil _
  have htimes := times_eq_one h hw hreach ha hf
  rw [printWithin] at htimes ⊢
  simp [Print.keepsAwait, hparts, htimes]

end Draft
end Asyncify
