import Asyncify.Proofs.Conversion
import Asyncify.Proofs.Folds
import Asyncify.Proofs.LineEndings
import Asyncify.Proofs.Shifts

/-! Template literals in statements that move into a `try` statement. What a literal looks like
afterwards depends on the lines that begin in it: each is re-indented with the statement, once for
every fold around it. -/
namespace Asyncify

namespace Draft

/-- In writing the first node the second one is written, moved as the shifts say, the inner ones
first. -/
inductive Moves (d : Draft) : Node → Node → List Shift → Prop
  | self (n : Node) : Moves d n n []
  | keep {n m t : Node} {ss : List Shift} (hm : .node m ∈ d.bodySlots n) (h : Moves d m t ss) :
      Moves d n t ss
  | move {n m t : Node} {ss : List Shift} {width : Nat} {indent ending : String}
      (hm : .moved m width indent d.doc.newline ending ∈ d.bodySlots n) (h : Moves d m t ss) :
      Moves d n t (ss ++ [⟨width, indent⟩])

end Draft

namespace Shift

variable {newline x cs : List Char}

theorem applyAll_concat (newline : List Char) (ss : List Shift) (s : Shift) (cs : List Char) :
    applyAll newline (ss ++ [s]) cs = s.apply newline (applyAll newline ss cs) := by
  simp [applyAll]

/-- A text without line ends has nothing that could move. -/
theorem applyAll_line {l : List Char} (hl : ¬ newline <:+: l) (ss : List Shift) :
    applyAll newline ss l = l := by
  induction ss with
  | nil => rfl
  | cons s ss ih =>
    have hstep : s.apply newline l = l := by
      rw [apply, Text.splitOn_line hl]
      simp [Lists.onTail, Text.joinWith]
    rw [applyAll, List.foldl_cons, hstep]
    exact ih

theorem isFirm_applyAll (h : Text.IsBreak newline) (ss : List Shift) (hx : Text.IsFirm x) :
    Text.IsFirm (applyAll newline ss x) := by
  induction ss generalizing x with
  | nil => exact hx
  | cons s ss ih => exact ih (isFirm_apply h s hx)

end Shift

namespace Slot

variable {slot : Slot} {slots : List Slot}

theorem text_infix (write : Node → String) (h : slot ∈ slots) :
    (slot.text write).toList <:+: (texts write slots).toList := by
  induction slots with
  | nil => cases h
  | cons a slots ih =>
    rw [texts, String.toList_append]
    obtain rfl | h := List.mem_cons.1 h
    · exact (List.prefix_append _ _).isInfix
    · exact (ih h).trans (List.suffix_append _ _).isInfix

end Slot

theorem Document.isBreak_newline (doc : Document) : Text.IsBreak doc.newline.toList := by
  rw [newline]
  split
  · exact Or.inr (by decide)
  · exact Or.inl (by decide)

theorem Fold.mem_slots {f : Fold} {newline inner : String} {callee n : Node} {m : Moved}
    (hi : f.inner = .ok inner) (hc : f.callee = .ok callee) (hm : m ∈ f.body)
    (hn : m.node = .ok n) :
    .moved n m.width inner newline m.ending ∈ f.slots newline := by
  have harm : .moved n m.width inner newline m.ending ∈ f.armSlots inner newline m.branch := by
    refine List.mem_flatMap.2 ⟨m, List.mem_filter.2 ⟨hm, by simp⟩, ?_⟩
    simp [hn]
  rw [slots, hi, hc]
  cases hb : m.branch with
  | attempt =>
    rw [hb] at harm
    simp [harm]
  | recover =>
    rw [hb] at harm
    simp [harm]

/-- Whatever a fold moves goes to the same indentation. -/
theorem Fold.of_mem_slots {f : Fold} {newline newline' indent ending : String} {n : Node}
    {width : Nat} (hm : .moved n width indent newline' ending ∈ f.slots newline) :
    newline' = newline ∧ f.inner = .ok indent := by
  rw [slots] at hm
  split at hm
  · next inner callee hi hc =>
    have harm {branch : Branch}
        (h : .moved n width indent newline' ending ∈ f.armSlots inner newline branch) :
        newline' = newline ∧ inner = indent := by
      obtain ⟨m, -, hm⟩ := List.mem_flatMap.1 h
      cases hn : m.node with
      | ok k =>
        simp only [hn, List.mem_cons, reduceCtorEq, Slot.moved.injEq, List.not_mem_nil, or_false,
          false_or] at hm
        exact ⟨hm.2.2.2.1, hm.2.2.1.symm⟩
      | error e => simp [hn] at hm
    have hlisted (ns : List Node) : .moved n width indent newline' ending ∉ Slot.listed ns := by
      fun_induction Slot.listed ns with
      | case1 => simp
      | case2 k => simp
      | case3 k ns _ ih => simp [ih]
    simp only [List.mem_append, List.mem_cons, List.not_mem_nil, or_false, reduceCtorEq, false_or,
      hlisted]
      at hm
    obtain h | h := hm
    · exact ⟨(harm h).1, by rw [hi, (harm h).2]⟩
    · exact ⟨(harm h).1, by rw [hi, (harm h).2]⟩
  · cases hm

namespace Draft

variable {d : Draft} {n m t : Node} {ss ss' : List Shift}

/-- Only folds move anything. -/
theorem exists_fold_of_moved {width : Nat} {indent newline ending : String}
    (hm : .moved m width indent newline ending ∈ d.bodySlots n) :
    ∃ f, d.replacement? n.id = some (.folded f) ∧ newline = d.doc.newline ∧
      f.inner = .ok indent := by
  have hrow (start : Nat) (cs : List Node) (stop : Nat) :
      .moved m width indent newline ending ∉ d.rowSlots start cs stop := by
    induction cs generalizing start with
    | nil => simp [rowSlots]
    | cons c cs ih => simp [rowSlots, ih]
  rw [bodySlots] at hm
  cases hr : d.replacement? n.id with
  | none =>
    rw [hr] at hm
    dsimp only at hm
    split at hm
    · exact absurd hm (hrow _ _ _)
    · simp at hm
  | some r =>
    rw [hr] at hm
    cases r with
    | literal v => simp at hm
    | joined pieces =>
      obtain ⟨piece, -, hp⟩ := List.mem_map.1 hm
      cases piece <;> cases hp
    | folded f =>
      obtain ⟨hn, hi⟩ := Fold.of_mem_slots hm
      exact ⟨f, rfl, hn, hi⟩

theorem Moves.trans (h : d.Moves n m ss) (h' : d.Moves m t ss') : d.Moves n t (ss' ++ ss) := by
  induction h with
  | self n => simpa using h'
  | keep hm _ ih => exact .keep hm (ih h')
  | move hm _ ih =>
    rw [← List.append_assoc]
    exact .move hm (ih h')

/-- What is reached is reached by moves. -/
theorem Reaches.exists_moves (h : d.Reaches n t) : ∃ ss, d.Moves n t ss := by
  induction h with
  | self n => exact ⟨[], .self n⟩
  | step hm _ ih =>
    obtain ⟨ss, hs⟩ := ih
    obtain ⟨slot, hslot, hnode⟩ := List.mem_filterMap.1 hm
    cases slot with
    | copied s => cases hnode
    | added s => cases hnode
    | node k =>
      obtain rfl := Option.some.inj hnode
      exact ⟨ss, .keep hslot hs⟩
    | moved k width indent newline ending =>
      obtain rfl := Option.some.inj hnode
      obtain ⟨-, -, rfl, -⟩ := exists_fold_of_moved hslot
      exact ⟨_, .move hslot hs⟩

theorem IsGrounded.text_infix (hg : d.IsGrounded) (hn : n ∈ d.doc.nodes) {slot : Slot}
    (h : slot ∈ d.bodySlots n) : (slot.text d.written).toList <:+: (d.written n).toList := by
  have hin := Slot.text_infix d.written h
  rw [hg.written_eq hn, String.toList_append, String.toList_append]
  exact hin.trans ⟨(d.before n.id).toList, (d.after n.id).toList, rfl⟩

/-- A firm piece of what a node is written as stands in the text of every node that is written from
it, moved on the way. -/
theorem Moves.applyAll_infix (h : d.Moves n t ss) (hg : d.IsGrounded) (hn : n ∈ d.doc.nodes)
    {x : List Char} (hx : Text.IsFirm x) (hin : x <:+: (d.written t).toList) :
    Shift.applyAll d.doc.newline.toList ss x <:+: (d.written n).toList := by
  have hnext {n m : Node} (hn : n ∈ d.doc.nodes) {slot : Slot} (hs : slot ∈ d.bodySlots n)
      (hm : slot.node? = some m) : m ∈ d.doc.nodes :=
    hg.mem_nodes hn (List.mem_filterMap.2 ⟨slot, hs, hm⟩)
  induction h with
  | self n => exact hin
  | @keep n m t ss hm _ ih =>
    have hslot : (d.written m).toList <:+: (d.written n).toList := by
      have htext := hg.text_infix hn hm
      rwa [Slot.text] at htext
    exact (ih (hnext hn hm rfl) hin).trans hslot
  | @move n m t ss width indent ending hm _ ih =>
    have hinner := ih (hnext hn hm rfl) hin
    have hb := d.doc.isBreak_newline
    have hmoved := Shift.apply_infix hb ⟨width, indent⟩ (Shift.isFirm_applyAll hb ss hx) hinner
    rw [Shift.applyAll_concat]
    refine hmoved.trans (List.IsInfix.trans ?_ (hg.text_infix hn hm))
    rw [Slot.text, String.toList_append,
      show Text.reindent (d.written m) width indent d.doc.newline = Text.reindent (d.written m)
        (Shift.mk width indent).width (Shift.mk width indent).indent d.doc.newline from rfl,
      Shift.toList_reindent]
    exact ⟨indent.toList, ending.toList, rfl⟩

theorem IsGrounded.mem_preorder_of_slot (hg : d.IsGrounded) (hn : n ∈ d.doc.nodes) {slot : Slot}
    (hs : slot ∈ d.bodySlots n) (hm : slot.node? = some m) :
    m ∈ d.doc.nodes ∧ ∃ c ∈ n.children, m ∈ c.preorder := by
  have hnext : m ∈ d.next n := List.mem_filterMap.2 ⟨slot, hs, hm⟩
  exact ⟨hg.mem_nodes hn hnext, hg.below n hn m hnext⟩

theorem Moves.mem_preorder (h : d.Moves n t ss) (hg : d.IsGrounded) (hn : n ∈ d.doc.nodes) :
    t ∈ n.preorder := by
  have hstep {n m t : Node} (hn : n ∈ d.doc.nodes) {slot : Slot} (hs : slot ∈ d.bodySlots n)
      (hm : slot.node? = some m) (ih : m ∈ d.doc.nodes → t ∈ m.preorder) : t ∈ n.preorder := by
    obtain ⟨hm, c, hc, hin⟩ := hg.mem_preorder_of_slot hn hs hm
    exact Node.mem_preorder_child hc (Node.mem_preorder_trans (ih hm) hin)
  induction h with
  | self n => exact Node.mem_preorder_self n
  | keep hm _ ih => exact hstep hn hm rfl ih
  | move hm _ ih => exact hstep hn hm rfl ih

/-- What is moved on the way goes to the indentation of a fold that it lies in. -/
theorem Moves.exists_fold (h : d.Moves n t ss) (hg : d.IsGrounded) (hn : n ∈ d.doc.nodes)
    {s : Shift} (hs : s ∈ ss) : ∃ a ∈ d.doc.nodes, ∃ f, d.replacement? a.id = some (.folded f) ∧
      f.inner = .ok s.indent ∧ ∃ c ∈ a.children, t ∈ c.preorder := by
  induction h with
  | self n => cases hs
  | keep hm _ ih => exact ih (hg.mem_preorder_of_slot hn hm rfl).1 hs
  | move hm hmoves ih =>
    obtain ⟨hmn, c, hc, hin⟩ := hg.mem_preorder_of_slot hn hm rfl
    obtain hs | hs := List.mem_append.1 hs
    · exact ih hmn hs
    · obtain rfl := List.mem_singleton.1 hs
      obtain ⟨f, hr, -, hi⟩ := exists_fold_of_moved hm
      exact ⟨_, hn, f, hr, hi, c, hc, Node.mem_preorder_trans (hmoves.mem_preorder hg hmn) hin⟩

end Draft

/-- The same replacement with another unit of indentation. -/
def Replacement.withUnit (unit : String) : Replacement → Replacement
  | .folded f => .folded { f with inner := .ok (f.base ++ unit) }
  | r => r

def Edit.withUnit (unit : String) (e : Edit) : Edit :=
  match e.action with
  | .replace r => { e with action := .replace (r.withUnit unit) }
  | _ => e

def Draft.withUnit (unit : String) (d : Draft) : Draft :=
  { d with edits := d.edits.map (Edit.withUnit unit) }

namespace Edit

variable (unit : String) {e : Edit}

@[simp] theorem place_withUnit (e : Edit) : (e.withUnit unit).place = e.place := by
  rw [withUnit]
  split <;> rfl

@[simp] theorem node_withUnit (e : Edit) : (e.withUnit unit).node = e.node :=
  congrArg Place.node (place_withUnit unit e)

theorem replacement?_withUnit (e : Edit) :
    (e.withUnit unit).replacement? = e.replacement?.map (Replacement.withUnit unit) := by
  obtain ⟨place, action, why⟩ := e
  cases action <;> rfl

theorem action_withUnit {f : Fold} (ha : e.action = .replace (.folded f)) :
    (e.withUnit unit).action = .replace (.folded { f with inner := .ok (f.base ++ unit) }) := by
  rw [withUnit]
  simp only [ha]
  rfl

theorem withUnit_of_isLiteral (h : e.isLiteral) : e.withUnit unit = e := by
  obtain ⟨place, action, why⟩ := e
  cases action with
  | insert text => rfl
  | wrap left right => rfl
  | replace r =>
    obtain ⟨v, rfl⟩ := eq_literal h rfl
    rfl

end Edit

namespace Draft

variable {d : Draft} {n t : Node} (unit : String)

theorem replacement?_withUnit (d : Draft) (id : Nat) :
    (d.withUnit unit).replacement? id = (d.replacement? id).map (Replacement.withUnit unit) := by
  have hcomp : (fun e => (Edit.withUnit unit e).replacement?) =
      fun e : Edit => e.replacement?.map (Replacement.withUnit unit) :=
    funext (Edit.replacement?_withUnit unit)
  have hedits : (d.withUnit unit).editsOf id = (d.editsOf id).map (Edit.withUnit unit) := by
    simp [withUnit, editsOf, List.filter_map, Function.comp_def]
  rw [replacement?, hedits, replacement?, List.filterMap_map, Function.comp_def, hcomp,
    ← List.getLast?_map, List.map_filterMap]

theorem isTouched_withUnit (d : Draft) (n : Node) :
    (d.withUnit unit).isTouched n = d.isTouched n := by
  simp [withUnit, isTouched, Function.comp_def]

/-- The unit of indentation has no say in what is written. -/
theorem mem_next_withUnit {m : Node} (h : ∀ f, d.replacement? n.id = some (.folded f) → f.IsWhole) :
    m ∈ (d.withUnit unit).next n ↔ m ∈ d.next n := by
  have hrow (start : Nat) (cs : List Node) (stop : Nat) :
      Slot.nodes ((d.withUnit unit).rowSlots start cs stop) =
        Slot.nodes (d.rowSlots start cs stop) := by
    rw [nodes_rowSlots, nodes_rowSlots]
  rw [next, next, bodySlots, bodySlots, replacement?_withUnit, isTouched_withUnit]
  cases hr : d.replacement? n.id with
  | none =>
    simp only [Option.map_none]
    split
    · rw [hrow]
    · rfl
  | some r =>
    cases r with
    | literal v => rfl
    | joined ps => rfl
    | folded f =>
      obtain ⟨⟨inner, hi⟩, ⟨callee, hc⟩, -⟩ := h f hr
      have hold : m ∈ Slot.nodes (f.slots d.doc.newline) ↔ _ := (Fold.nodes_slots hi hc).mem_iff
      have hnew :
          m ∈ Slot.nodes ({ f with inner := .ok (f.base ++ unit) }.slots d.doc.newline) ↔ _ :=
        (Fold.nodes_slots (f := { f with inner := .ok (f.base ++ unit) }) rfl hc).mem_iff
      exact hnew.trans hold.symm

theorem Reaches.withUnit (h : d.Reaches n t) (hl : d.IsLaid) (hn : n ∈ d.doc.nodes) :
    (d.withUnit unit).Reaches n t := by
  induction h with
  | self n => exact .self n
  | step hm _ ih =>
    exact .step ((mem_next_withUnit unit (hl.whole _ hn)).2 hm) (ih (hl.mem_nodes hn hm))

end Draft

/-- Callbacks are folded, with the given unit of indentation, and the methods are the default
ones. -/
structure Pass.FoldsBy (pass : Pass) (unit : String) : Prop where
  methods : pass.options.get? (.text "methods") = none
  folds : (pass.option "decompose_callbacks" (.bool true)).isSet
  indent : pass.option "indent" (.text "  ") = .text unit

namespace Document

variable {doc : Document} {c s p : Place} {cb : Callback} {unit : String}

/-- The draft of the pass that folds callbacks with the given unit of indentation. -/
def folded (doc : Document) (unit : String) : Draft := (doc.converted true).withUnit unit

/-- The statements of a callback that a fold moves: those of a block, with tests of the error taken
apart, or the expression that is the body. -/
def callbackStatements (doc : Document) (cb : Callback) : List Place :=
  (cb.function.child? .body).toList.flatMap fun body =>
    if body.kind = .block then
      doc.half cb.errorName .attempt body ++ doc.half cb.errorName .recover body
    else [body]

/-- How a statement of a callback moves when the statement of the call is folded. -/
def foldShift (doc : Document) (s p : Place) (unit : String) : Shift :=
  ⟨(doc.lineIndent p.node).length, doc.lineIndent s.node ++ unit⟩

/-- The text of a node once it has been moved. -/
def textAfter (doc : Document) (ss : List Shift) (n : Node) : List Char :=
  Shift.applyAll doc.newline.toList ss (doc.textOf n).toList

/-- The lines of a node, as far as they begin in it. -/
def laterLines (doc : Document) (n : Node) : List (List Char) :=
  (Text.splitOn doc.newline.toList (doc.textOf n).toList).tail

/-- Templates stand in backquotes. -/
def QuotesTemplates (doc : Document) : Prop :=
  ∀ n ∈ doc.nodes, n.symbol = "template_string" →
    ∃ inner, (doc.textOf n).toList = '\x60' :: (inner ++ ['\x60'])

theorem foldMark?_unit (doc : Document) (p : Place) (unit : String) :
    doc.foldMark? p (.ok unit) = (doc.foldMark? p (.ok "  ")).map (Edit.withUnit unit) := by
  rw [foldMark?, foldMark?]
  cases Callback.of? doc p with
  | none => rfl
  | some cb => cases p.statement? <;> rfl

theorem awaitEdit_withUnit (doc : Document) (p : Place) (unit : String) :
    (doc.awaitEdit p).withUnit unit = doc.awaitEdit p := by
  obtain ha | ha := doc.awaitEdit_action p <;>
    exact Edit.withUnit_of_isLiteral unit (by simp [Edit.isLiteral, ha])

/-- At each place the pass does what it does with two blanks, but for the unit. -/
theorem callMove_unit (doc : Document) (unit : String) (p : Place) :
    (Rule.callMove (Rule.renameOn doc Rule.callTable "Meteor") Rule.callTable (.ok unit) p).edits =
        (Rule.convert doc true p).edits.map (Edit.withUnit unit) ∧
      (Rule.callMove (Rule.renameOn doc Rule.callTable "Meteor") Rule.callTable
        (.ok unit) p).promoted = (Rule.convert doc true p).promoted := by
  have hdoc : (Rule.renameOn doc Rule.callTable "Meteor").doc = doc := rfl
  rw [Rule.callMove, Rule.convert, Rule.foldAt?, if_pos rfl, hdoc, foldMark?_unit]
  cases (Rule.renameOn doc Rule.callTable "Meteor").found? Rule.callTable p with
  | none => exact ⟨rfl, rfl⟩
  | some x =>
    cases doc.foldMark? p (.ok "  ") with
    | some e => exact ⟨rfl, rfl⟩
    | none =>
      refine ⟨?_, rfl⟩
      simp only [Option.map_none, Step.edits_append, List.map_append, Step.ofAwait]
      split
      · rfl
      · simp only [List.map_cons, List.map_nil, awaitEdit_withUnit]
        rfl

theorem queue_callMove (doc : Document) (unit : String) :
    doc.queue
        (Rule.callMove (Rule.renameOn doc Rule.callTable "Meteor") Rule.callTable (.ok unit)) [] =
      doc.queue (Rule.convert doc true) [] := by
  simp only [queue, asked, fun p => (callMove_unit doc unit p).2]

theorem afterPass_callMove (doc : Document) (unit : String) :
    doc.afterPass
        (Rule.callMove (Rule.renameOn doc Rule.callTable "Meteor") Rule.callTable (.ok unit)) [] =
      doc.folded unit := by
  have hmark :
      ((doc.queue (Rule.convert doc true) []).filterMap doc.asyncMark?).map (Edit.withUnit unit) =
        (doc.queue (Rule.convert doc true) []).filterMap doc.asyncMark? := by
    refine (List.map_congr_left fun e he => ?_).trans (List.map_id _)
    obtain ⟨f, -, hf⟩ := List.mem_filterMap.1 he
    exact Edit.withUnit_of_isLiteral unit (by simp [Edit.isLiteral, (asyncMark?_eq_some hf).1])
  simp only [afterPass, afterSteps, queue_callMove, folded, converted, Draft.withUnit,
    Draft.recordAll, List.map_append, List.map_flatMap, fun p =>
      (callMove_unit doc unit p).1, hmark]

/-- A replacement by a fold is the fold of a call, at the given unit. -/
theorem folded_replacement? {id : Nat} {f : Fold}
    (h : (doc.folded unit).replacement? id = some (.folded f)) :
    ∃ c s cb, doc.IsFolded true c s cb ∧ s.id = id ∧ f = doc.fold s c cb (.ok unit) := by
  rw [folded, Draft.replacement?_withUnit] at h
  obtain ⟨r, hr, hu⟩ := Option.map_eq_some_iff.1 h
  obtain ⟨c, name, -, -, rfl⟩ | ⟨c, s, cb, hc, hid, rfl⟩ := replacement?_inv hr
  · cases hu
  · injection hu with hu
    exact ⟨c, s, cb, hc, hid, hu.symm⟩

theorem IsFolded.replacement?_folded (hf : doc.IsFolded true c s cb) (hw : doc.WellFormed)
    (hj : doc.IsScript) (unit : String) :
    (doc.folded unit).replacement? s.id = some (.folded (doc.fold s c cb (.ok unit))) := by
  rw [folded, Draft.replacement?_withUnit, replacement?_statement hw hj hf]
  rfl

theorem isRecorded_folded (doc : Document) (unit : String) : (doc.folded unit).IsRecorded := by
  intro e he
  obtain ⟨e, hmem, rfl⟩ := List.mem_map.1 he
  have hconv := converts_of_mem hmem
  obtain hl | ⟨c, cb, hc, ha⟩ := hconv.isLiteral_or
  · rw [Edit.withUnit_of_isLiteral unit hl]
    exact .text (node_mem_nodes hconv.mem_places) hl
  · obtain ⟨-, ⟨name, hm⟩, hs, hcb⟩ := hc
    have hplace := e.place_withUnit unit
    have haction : (e.withUnit unit).action =
        .replace (.folded (doc.fold (e.withUnit unit).place c cb (.ok unit))) := by
      rw [hplace]
      exact Edit.action_withUnit unit ha
    exact .fold hm.1 hm.kind (hplace ▸ hs) hcb haction

/-- A unit without line breaks brings none in. -/
theorem isPlain_shift (doc : Document) (n : Node) (width : Nat) (hr : '\r' ∉ unit.toList)
    (hn : '\n' ∉ unit.toList) : (Shift.mk width (doc.lineIndent n ++ unit)).IsPlain := by
  have hindent : '\r' ∉ (doc.lineIndent n).toList := by
    rw [lineIndent, String.toList_ofList, Text.indentation]
    intro h
    exact absurd (List.all_eq_true.1 List.all_takeWhile _ h) (by decide)
  simp [Shift.IsPlain, hindent, doc.not_mem_lineIndent, hr, hn]

/-- All moves of the pass bring in the indentation of a line and one unit. -/
theorem isPlain_of_moves {t : Node} {ss : List Shift} (h : (doc.folded unit).Moves doc.root t ss)
    (hg : (doc.folded unit).IsGrounded) (hr : '\r' ∉ unit.toList) (hn : '\n' ∉ unit.toList) :
    ∀ s ∈ ss, s.IsPlain := by
  intro s hs
  obtain ⟨a, -, f, hf, hi, -⟩ := h.exists_fold hg doc.root_mem_nodes hs
  obtain ⟨c, st, cb, -, -, rfl⟩ := folded_replacement? hf
  obtain ⟨width, indent⟩ := s
  obtain rfl : doc.lineIndent st.node ++ unit = indent := Except.ok.inj hi
  exact doc.isPlain_shift st.node width hr hn

/-- A statement that lies in no folded one is not moved. -/
theorem moves_eq_nil {ss : List Shift} (h : (doc.folded unit).Moves doc.root s.node ss)
    (hg : (doc.folded unit).IsGrounded) (hw : doc.WellFormed) (hs : s ∈ doc.places)
    (hnone : ∀ c' s' cb', doc.IsFolded true c' s' cb' → s'.node ∉ s.above) : ss = [] := by
  refine List.eq_nil_iff_forall_not_mem.2 fun x hx => ?_
  obtain ⟨a, ha, f, hf, -, hbelow⟩ := h.exists_fold hg doc.root_mem_nodes hx
  obtain ⟨c', s', cb', hfold, hid, -⟩ := folded_replacement? hf
  have hsame : s'.node = a := hw.node_eq_of_id (node_mem_nodes hfold.mem_places.1) ha hid
  refine hnone c' s' cb' hfold ?_
  rw [hsame]
  exact (hw.mem_above_iff hs ha).2 hbelow

/-- Every statement of a callback is among those that a fold moves. -/
theorem IsComplete.exists_moved (hg : doc.IsComplete) {body : Place} (hb : body ∈ doc.places)
    (hbody : cb.function.child? .body = some body) (hp : p ∈ doc.callbackStatements cb) :
    ∃ m ∈ doc.callbackBody cb.errorName (some body), m.node = .ok p.node ∧
      m.width = (doc.lineIndent p.node).length := by
  rw [callbackStatements, hbody] at hp
  simp only [Option.toList_some, List.flatMap_singleton] at hp
  split at hp
  · next hk =>
    have hin {branch : Branch} (hp : p ∈ doc.half cb.errorName branch body) :
        doc.moved branch p ∈ doc.callbackBody cb.errorName (some body) := by
      have hmem := List.mem_map_of_mem (f := doc.moved branch) hp
      rw [← hg.filter_callbackBody hb hk] at hmem
      exact (List.mem_filter.1 hmem).1
    obtain hp | hp := List.mem_append.1 hp
    · exact ⟨doc.moved .attempt p, hin hp, rfl, rfl⟩
    · exact ⟨doc.moved .recover p, hin hp, rfl, rfl⟩
  · next hk =>
    obtain rfl := List.mem_singleton.1 hp
    refine ⟨{ doc.moved .attempt p with ending := ";" }, ?_, rfl, rfl⟩
    rw [callbackBody, if_neg hk]
    exact List.mem_singleton_self _

theorem IsComplete.mem_bodySlots (hg : doc.IsComplete) (hw : doc.WellFormed) (hj : doc.IsScript)
    (hf : doc.IsFolded true c s cb) (hp : p ∈ doc.callbackStatements cb) (unit : String) :
    ∃ ending, .moved p.node (doc.lineIndent p.node).length (doc.lineIndent s.node ++ unit)
      doc.newline ending ∈
      (doc.folded unit).bodySlots s.node := by
  have hr := hf.replacement?_folded hw hj unit
  obtain ⟨-, ⟨name, hm⟩, -, hcb⟩ := hf
  obtain ⟨callee, hcallee, -⟩ := hm.exists_callee
  obtain ⟨body, hbody, hb, -⟩ := hg.exists_body hm.1 hcb
  obtain ⟨m, hm, hn, hwidth⟩ := hg.exists_moved hb hbody hp
  refine ⟨m.ending, ?_⟩
  rw [Draft.bodySlots, show (doc.folded unit).replacement? s.node.id = _ from hr, ← hwidth]
  have hfold : (doc.fold s c cb (.ok unit)).callee = .ok callee.node := by simp [fold, hcallee]
  refine Fold.mem_slots rfl hfold ?_ hn
  rwa [fold, hbody]

theorem IsComplete.mem_nodes_of_callbackStatements (hg : doc.IsComplete) (hc : c ∈ doc.places)
    (hcb : Callback.of? doc c = some cb) (hp : p ∈ doc.callbackStatements cb) :
    p.node ∈ doc.nodes := by
  obtain ⟨body, hbody, hb, -⟩ := hg.exists_body hc hcb
  rw [callbackStatements, hbody] at hp
  simp only [Option.toList_some, List.flatMap_singleton] at hp
  split at hp
  · exact Node.mem_preorder_trans
      (Place.mem_preorder_of_spreads (hg.spreads_halves hb cb.errorName) hp)
      (node_mem_nodes hb)
  · obtain rfl := List.mem_singleton.1 hp
    exact node_mem_nodes hb

end Document

theorem Document.IsScript.methodsNamed {doc : Document} (hj : doc.IsScript) : doc.MethodsNamed := by
  intro p hp hm
  obtain ⟨q, hq, -⟩ := hj.methods p hp hm
  exact Option.isSome_iff_exists.2 ⟨q, hq⟩

theorem Document.MethodsNamed.isAnchored {doc : Document} (hm : doc.MethodsNamed) (folds : Bool) :
    (doc.queue (Rule.convert doc folds) []).all fun f => f.asyncAnchor?.isSome := by
  refine List.all_eq_true.2 fun f hq => ?_
  obtain ⟨hp, hl⟩ := Document.mem_queue_convert hq
  exact Place.asyncAnchor?_isSome hl (hm f hp)

namespace Rule

variable {pass : Pass} {unit : String}

theorem callMove_follows (ho : pass.FoldsBy unit) :
    callAsync.Follows pass
      (callMove (renameOn pass.doc callTable "Meteor") callTable (.ok unit)) fun _ => .ok [] := by
  refine follows_of_step ho.methods (fun p => ?_) (callMove_move rfl)
  rw [ho.folds, ho.indent]
  exact value_methodCallStep rfl (.text unit) p

/-- The pass succeeds, whatever the unit of indentation. -/
theorem exists_draft_of_methodsNamed (ho : pass.FoldsBy unit) (hm : pass.doc.MethodsNamed) :
    ∃ k, (callAsync.draft pass).value = .ok (pass.doc.folded unit, k) := by
  rw [← Document.afterPass_callMove]
  refine (callMove_follows ho).exists_draft rfl ?_
  rw [Document.queue_callMove]
  exact hm.isAnchored true

theorem exists_draft_folded (ho : pass.FoldsBy unit) (hj : pass.doc.IsScript) :
    ∃ k, (callAsync.draft pass).value = .ok (pass.doc.folded unit, k) :=
  exists_draft_of_methodsNamed ho hj.methodsNamed

end Rule

/-- What a template literal in a callback becomes. The pass succeeds, and if it records no edit in
the statement that the literal stands in, the text that it gives back holds the literal as it is
after the moves of the statement: that by the fold, then those by the folds that it lies in. A
literal on one line stays as it is. One on several lines stays as it is just if each of its later
lines does; where the fold lies in no other, such a line is empty, or it is not blank and the
indentation that it loses is the one it gets. -/
theorem Rule.callAsync_template_iff {pass : Pass} {unit : String} {c s p : Place} {cb : Callback}
    {t : Node} (ho : pass.FoldsBy unit) (hw : pass.doc.WellFormed) (hg : pass.doc.IsComplete)
    (hj : pass.doc.IsScript) (hq : pass.doc.QuotesTemplates) (hf : pass.doc.IsFolded true c s cb)
    (hp : p ∈ pass.doc.callbackStatements cb) (ht : t ∈ p.node.preorder)
    (hsym : t.symbol = "template_string") :
    ∃ d k, (callAsync.draft pass).value = .ok (d, k) ∧ (d.IsFree p.node →
      ∃ outcome text outer, (callAsync.rule.visit pass).value = .ok outcome ∧
        outcome.output = some text ∧
        d.Moves pass.doc.root s.node outer ∧
        ((∀ c' s' cb', pass.doc.IsFolded true c' s' cb' → s'.node ∉ s.above) → outer = []) ∧
        pass.doc.textAfter (pass.doc.foldShift s p unit :: outer) t <:+: text.toList ∧
        (¬ pass.doc.newline.toList <:+: (pass.doc.textOf t).toList →
          pass.doc.textAfter (pass.doc.foldShift s p unit :: outer) t =
            (pass.doc.textOf t).toList) ∧
        ('\r' ∉ unit.toList → '\n' ∉ unit.toList →
          (pass.doc.textAfter (pass.doc.foldShift s p unit :: outer) t =
            (pass.doc.textOf t).toList ↔
            ∀ l ∈ pass.doc.laterLines t, Shift.lines (pass.doc.foldShift s p unit :: outer) l = l) ∧
          (outer = [] →
            (pass.doc.textAfter (pass.doc.foldShift s p unit :: outer) t =
              (pass.doc.textOf t).toList ↔
              ∀ l ∈ pass.doc.laterLines t, l = [] ∨ l.all Text.isBlank = false ∧
                l.take (min (Text.indentation l).length (pass.doc.lineIndent p.node).length) =
                  (pass.doc.lineIndent s.node ++ unit).toList)))) := by
  obtain ⟨k, hk⟩ := exists_draft_folded ho hj
  refine ⟨_, k, hk, fun hfree => ?_⟩
  have hground := (pass.doc.isRecorded_folded unit).isGrounded hw hg
  obtain ⟨-, ⟨name, hm⟩, -, hcb⟩ := id hf
  have hpn := hg.mem_nodes_of_callbackStatements hm.1 hcb hp
  have htn : t ∈ pass.doc.nodes := Node.mem_preorder_trans ht hpn
  have hbreak := pass.doc.isBreak_newline
  have hfirm : Text.IsFirm (pass.doc.textOf t).toList := by
    obtain ⟨inner, hinner⟩ := hq t htn hsym
    rw [hinner]
    exact ⟨⟨_, _, rfl, by decide⟩, ⟨'\x60' :: inner, _, rfl, by decide⟩⟩
  -- which nodes are written does not depend on the unit, so two blanks tell
  have hreach : (pass.doc.folded unit).Reaches pass.doc.root s.node :=
    (hf.reaches hj hw).withUnit unit (hj.isLaid hw) pass.doc.root_mem_nodes
  obtain ⟨outer, houter⟩ := hreach.exists_moves
  obtain ⟨ending, hslot⟩ := hg.mem_bodySlots hw hj hf hp unit
  have hpath : (pass.doc.folded unit).Moves pass.doc.root p.node
      (pass.doc.foldShift s p unit :: outer) :=
    houter.trans (.move hslot (.self p.node))
  have hedits : (pass.doc.folded unit).edits ≠ [] := by
    obtain ⟨e, he, -⟩ := hf.mem
    exact List.ne_nil_of_mem (List.mem_map_of_mem he)
  have hsource := hground.source_eq hedits
  obtain ⟨outcome, hv, ho'⟩ := Sweep.exists_output_iff.2 ⟨_, k, hk, hedits, hsource⟩
  refine ⟨outcome, _, outer, hv, ho', houter,
    pass.doc.moves_eq_nil houter hground hw hf.mem_places.1, ?_, fun hline =>
      Shift.applyAll_line hline _, fun hr hn => ?_⟩
  · have hin := hpath.applyAll_infix hground pass.doc.root_mem_nodes hfirm
      (by rw [hfree.written_eq hground hw hpn]; exact hw.textOf_infix hpn ht)
    rw [String.toList_append, String.toList_append]
    exact hin.trans ⟨_, _, rfl⟩
  · have hiff := Shift.applyAll_eq_self_iff hbreak (pass.doc.isPlain_of_moves hpath hground hr hn)
      (pass.doc.textOf t).toList
    refine ⟨hiff, ?_⟩
    rintro rfl
    exact hiff.trans (forall₂_congr fun l _ => Shift.line_eq_self_iff)

namespace Quoting

open Sketch

/-- A statement that passes a template to a function. -/
def showing (name text : String) : Sketch :=
  statement [] (call [] name
    [tree "template_string" [] [token "`", leaf "string_fragment" [] text, token "`"]])

def handler : Sketch :=
  functionWith [] ["err", "res"]
    (block [.body] "\n  " "\n" [showing "x" "p\n  q", gap "\n  ", showing "y" "r\ns"])

/-- Two templates in a callback. The second line of the one is indented as its statement is, and
that of the other is not. -/
def doc : Document :=
  program [statement [] (callOn [] "Meteor" "call" [leaf "string" [] "'a'", handler]), gap "\n"]

def pass : Pass := { path := "a.js", doc, options := .empty }

def callback : Callback := ⟨doc.placeAt 11, "err", "res"⟩

theorem foldsBy : pass.FoldsBy "  " := ⟨rfl, rfl, rfl⟩

theorem wellFormed : doc.WellFormed := wellFormed_program _

theorem isComplete : doc.IsComplete := by decide +kernel

theorem isScript : doc.IsScript where
  tokens := by decide +kernel
  calls := by decide +kernel
  arguments := by decide +kernel
  statements := by decide +kernel
  checks := by
    have hnone : ∀ p ∈ doc.places, p.kind ≠ .ifStatement := by decide +kernel
    intro p hp name hcheck
    exact absurd (Document.isErrorCheck_iff.1 hcheck).1 (hnone p hp)
  elses := by decide +kernel
  callbacks := by decide +kernel
  methods := by decide +kernel

theorem quotesTemplates : doc.QuotesTemplates := by
  have hall : ∀ n ∈ doc.nodes, n.symbol = "template_string" →
      (doc.textOf n).toList = '\x60' :: ((doc.textOf n).toList.tail.dropLast ++ ['\x60']) := by
    decide +kernel
  exact fun n hn hs => ⟨_, hall n hn hs⟩

/-- The second line of the second template gets the indentation of its statement. -/
def output : String :=
  "try \x7b\n  const res = await Meteor.callAsync('a');\n  x(`p\n  q`);\n  y(`r\n  s`);\n" ++
    "\x7d catch (err) \x7b\n\x7d\n"

/-- What stands in the document, and what the fold writes for it. -/
theorem readings :
    (doc.placeAt 2 ∈ doc.places ∧ (doc.placeAt 2).barrier?.isNone ∧
      (∃ y ∈ (doc.placeAt 2).memberCall?, doc.isIdentifier "Meteor" y.1 ∧
        doc.textOf y.2.node = "call") ∧
      (doc.placeAt 2).statement? = some (doc.placeAt 1) ∧
      Callback.of? doc (doc.placeAt 2) = some callback) ∧
      (∀ i ∈ [21, 32], ∀ m ∈ (doc.placeAt i).node.preorder,
        ((doc.folded "  ").editsOf m.id).isEmpty) ∧
      (doc.folded "  ").source = .ok output ∧ 0 < (doc.folded "  ").edits.length := by
  decide +kernel

theorem isFolded : doc.IsFolded true (doc.placeAt 2) (doc.placeAt 1) callback := by
  obtain ⟨⟨hp, hb, ⟨⟨receiver, name⟩, hm, hr, ht⟩, hs, hcb⟩, -⟩ := readings
  exact ⟨rfl, ⟨name, hp, Option.isNone_iff_eq_none.1 hb, receiver, hm, hr, ht⟩, hs, hcb⟩

/-- Where the two templates and the folded statement stand. -/
theorem findings :
    (doc.placeAt 21 ∈ doc.callbackStatements callback ∧
      doc.placeAt 32 ∈ doc.callbackStatements callback) ∧
      (doc.placeAt 26).node ∈ (doc.placeAt 21).node.preorder ∧
      (doc.placeAt 37).node ∈ (doc.placeAt 32).node.preorder ∧
      (doc.placeAt 26).node.symbol = "template_string" ∧
      (doc.placeAt 37).node.symbol = "template_string" ∧
      doc.textOf (doc.placeAt 26).node = "`p\n  q`" ∧ doc.textOf (doc.placeAt 37).node = "`r\ns`" ∧
      ∀ n ∈ (doc.placeAt 1).above, n.kind ≠ .expressionStatement := by
  decide +kernel

theorem isFree :
    (doc.folded "  ").IsFree (doc.placeAt 21).node ∧
    (doc.folded "  ").IsFree (doc.placeAt 32).node := by
  obtain ⟨-, hnone, -⟩ := readings
  simp only [List.isEmpty_iff] at hnone
  exact ⟨hnone 21 (by simp), hnone 32 (by simp)⟩

/-- The fold lies in no other. -/
theorem not_mem_above (c s : Place) (cb : Callback) (h : doc.IsFolded true c s cb) :
    s.node ∉ (doc.placeAt 1).above := by
  obtain ⟨-, -, -, -, -, -, -, hkind⟩ := findings
  exact fun hin => hkind s.node hin h.kind

theorem exists_outcome : ∃ outcome, (Rule.callAsync.rule.visit pass).value = .ok outcome ∧
    outcome.output = some output := by
  obtain ⟨k, hk⟩ := Rule.exists_draft_folded foldsBy isScript
  obtain ⟨-, -, hsource, hedits⟩ := readings
  exact Sweep.exists_output_iff.2 ⟨_, k, hk, List.length_pos_iff.1 hedits, hsource⟩

end Quoting

/-- A template whose second line is indented as its statement is. -/
theorem Rule.callAsync_template_kept :
    Quoting.pass.FoldsBy "  " ∧ Quoting.doc.WellFormed ∧ Quoting.doc.IsComplete ∧
    Quoting.doc.IsScript ∧
      Quoting.doc.QuotesTemplates ∧
      Quoting.doc.IsFolded true (Quoting.doc.placeAt 2) (Quoting.doc.placeAt 1) Quoting.callback ∧
      Quoting.doc.placeAt 21 ∈ Quoting.doc.callbackStatements Quoting.callback ∧
      (Quoting.doc.placeAt 26).node ∈ (Quoting.doc.placeAt 21).node.preorder ∧
      (Quoting.doc.placeAt 26).node.symbol = "template_string" ∧
      ∃ d k, (callAsync.draft Quoting.pass).value = .ok (d, k) ∧
        d.IsFree (Quoting.doc.placeAt 21).node ∧
        d.Moves Quoting.doc.root (Quoting.doc.placeAt 1).node [] ∧
        ∃ outcome, (callAsync.rule.visit Quoting.pass).value = .ok outcome ∧
          outcome.output = some Quoting.output ∧
          Quoting.doc.textAfter
              [Quoting.doc.foldShift (Quoting.doc.placeAt 1) (Quoting.doc.placeAt 21) "  "]
              (Quoting.doc.placeAt 26).node = "`p\n  q`".toList ∧
          "`p\n  q`".toList <:+: Quoting.output.toList := by
  obtain ⟨⟨hp, -⟩, ht, -, hsym, -, htext, -⟩ := Quoting.findings
  obtain ⟨d, k, hd, hall⟩ :=
    callAsync_template_iff Quoting.foldsBy Quoting.wellFormed Quoting.isComplete
      Quoting.isScript Quoting.quotesTemplates Quoting.isFolded hp ht hsym
  obtain ⟨k', hk'⟩ := exists_draft_folded Quoting.foldsBy Quoting.isScript
  have hfree : d.IsFree (Quoting.doc.placeAt 21).node := by
    rw [hd] at hk'
    obtain ⟨rfl, -⟩ := Prod.mk.inj (Except.ok.inj hk')
    exact Quoting.isFree.1
  obtain ⟨outcome, text, outer, hv, ho, hmoves, houter, hin, -, hiff⟩ := hall hfree
  obtain rfl : outer = [] := houter Quoting.not_mem_above
  obtain ⟨-, hline⟩ := hiff (by decide) (by decide)
  have hkept := (hline rfl).2 (by decide +kernel)
  obtain ⟨outcome', hv', ho'⟩ := Quoting.exists_outcome
  obtain rfl := Except.ok.inj (hv.symm.trans hv')
  obtain rfl := Option.some.inj (ho.symm.trans ho')
  have htext : Quoting.pass.doc.textOf (Quoting.doc.placeAt 26).node = "`p\n  q`" := htext
  rw [hkept, htext] at hin
  rw [htext] at hkept
  exact ⟨Quoting.foldsBy, Quoting.wellFormed, Quoting.isComplete, Quoting.isScript,
    Quoting.quotesTemplates, Quoting.isFolded, hp, ht, hsym, d, k, hd, hfree, hmoves, outcome, hv,
    ho, hkept, hin⟩

/-- A template whose second line is not indented changes: no edit is recorded in its statement, and
the text that the pass gives back does not hold it. -/
theorem Rule.callAsync_template_changed :
    Quoting.pass.FoldsBy "  " ∧ Quoting.doc.WellFormed ∧ Quoting.doc.IsComplete ∧
    Quoting.doc.IsScript ∧
      Quoting.doc.QuotesTemplates ∧
      Quoting.doc.IsFolded true (Quoting.doc.placeAt 2) (Quoting.doc.placeAt 1) Quoting.callback ∧
      Quoting.doc.placeAt 32 ∈ Quoting.doc.callbackStatements Quoting.callback ∧
      (Quoting.doc.placeAt 37).node ∈ (Quoting.doc.placeAt 32).node.preorder ∧
      (Quoting.doc.placeAt 37).node.symbol = "template_string" ∧
      ∃ d k, (callAsync.draft Quoting.pass).value = .ok (d, k) ∧
        d.IsFree (Quoting.doc.placeAt 32).node ∧
        ∃ outcome, (callAsync.rule.visit Quoting.pass).value = .ok outcome ∧
          outcome.output = some Quoting.output ∧
          ¬ (Quoting.doc.textOf (Quoting.doc.placeAt 37).node).toList <:+:
            Quoting.output.toList := by
  obtain ⟨⟨-, hp⟩, -, ht, -, hsym, -, htext, -⟩ := Quoting.findings
  obtain ⟨k, hk⟩ := exists_draft_folded Quoting.foldsBy Quoting.isScript
  obtain ⟨outcome, hv, ho⟩ := Quoting.exists_outcome
  refine ⟨Quoting.foldsBy, Quoting.wellFormed, Quoting.isComplete, Quoting.isScript,
    Quoting.quotesTemplates, Quoting.isFolded, hp, ht, hsym, _, k, hk, Quoting.isFree.2, outcome,
    hv, ho, ?_⟩
  rw [htext]
  decide +kernel

end Asyncify
