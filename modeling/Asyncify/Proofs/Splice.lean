import Asyncify.Draft
import Asyncify.Proofs.WellFormed

/-! Writing a draft out is splicing: every edited node stands with its own edits around it, and all
other bytes of the source are copied. -/
namespace Asyncify

/-- A piece of an edited text: a stretch of the source, or text that came in with an edit. -/
inductive Chunk where
  | copied (start stop : Nat)
  | added (text : String)
  deriving DecidableEq, Repr

namespace Chunk

def chars (source : List Char) : Chunk → List Char
  | copied start stop => Text.slice source start stop
  | added text => text.toList

/-- The bytes of a piece, given those of the source. -/
def bytes (source : List UInt8) : Chunk → List UInt8
  | copied start stop => (source.drop start).take (stop - start)
  | added text => Text.utf8 text.toList

/-- The piece is cut out of the source between characters. -/
def IsCut (source : List Char) : Chunk → Prop
  | copied start stop =>
    Text.isBoundary source start ∧ Text.isBoundary source stop ∧ start ≤ stop
  | added _ => True

/-- The offsets of the source that a piece takes over. -/
def offsets : Chunk → List Nat
  | copied start stop => List.range' start (stop - start)
  | added _ => []

end Chunk

/-- What is written around a node, and in its place. -/
@[ext] structure Mark where
  before : List String := []
  new : Option String := none
  after : List String := []
  deriving DecidableEq, Repr

namespace Mark

/-- Takes in one more edit: its texts go next to the node, and its replacement counts from now
on. -/
def add (m : Mark) : Action → Mark
  | .replace (.literal v) => { m with new := some v.display }
  | .replace _ => m
  | .insert text => { m with before := m.before ++ [text] }
  | .wrap before after => { m with before := m.before ++ [before], after := after :: m.after }

/-- What a run of edits leaves on a node. -/
def ofEdits (es : List Edit) (n : Node) : Mark :=
  ((es.filter fun e => e.node.id = n.id).map Edit.action).foldl add {}

end Mark

namespace Node

variable (marks : Node → Mark)

mutual

/-- A node with all marks in it: what stands before it, then its new text or else its own bytes with
the children in their places, then what stands behind it. -/
def splice : Node → List Chunk
  | mk i cs =>
    (marks (mk i cs)).before.map .added ++
      (match (marks (mk i cs)).new with
        | some text => [.added text]
        | none => spliceRow i.start cs i.stop) ++
      (marks (mk i cs)).after.map .added

/-- Siblings and the source between them. -/
def spliceRow (cursor : Nat) : List Node → Nat → List Chunk
  | [], stop => [.copied cursor stop]
  | c :: cs, stop => .copied cursor c.start :: (splice c ++ spliceRow c.stop cs stop)

end

theorem splice_eq (n : Node) :
    n.splice marks = (marks n).before.map .added ++
      (match (marks n).new with
        | some text => [.added text]
        | none => spliceRow marks n.start n.children n.stop) ++
      (marks n).after.map .added := by
  cases n
  rw [splice]
  rfl

end Node

namespace Document

/-- The whole text with all marks: the bytes outside the root are copied. -/
def splice (doc : Document) (marks : Node → Mark) : List Chunk :=
  .copied 0 doc.root.start ::
    (doc.root.splice marks ++ [.copied doc.root.stop (Text.byteLength doc.chars)])

/-- The text that pieces of the source and added texts make up. -/
def assemble (doc : Document) (chunks : List Chunk) : String :=
  String.ofList (chunks.flatMap (Chunk.chars doc.chars))

end Document

/-- The edit is no replacement, or one by fixed text. -/
def Edit.isLiteral (e : Edit) : Bool :=
  match e.action with
  | .replace (.literal _) => true
  | .replace _ => false
  | _ => true

/-- The offset lies inside a node that is replaced. -/
def Edit.replacesAt (es : List Edit) (offset : Nat) : Bool :=
  es.any fun e => e.replacement?.isSome && e.node.start ≤ offset && offset < e.node.stop

theorem Edit.eq_literal {e : Edit} {r : Replacement} (h : e.isLiteral)
    (he : e.action = .replace r) :
    ∃ v, r = .literal v := by
  cases r with
  | literal v => exact ⟨v, rfl⟩
  | joined pieces => simp [isLiteral, he] at h
  | folded fold => simp [isLiteral, he] at h

namespace Action

def befores : Action → List String
  | .insert text => [text]
  | .wrap before _ => [before]
  | .replace _ => []

def afters : Action → List String
  | .wrap _ after => [after]
  | _ => []

end Action

namespace Mark

theorem before_foldl_add (as : List Action) (m : Mark) :
    (as.foldl add m).before = m.before ++ as.flatMap Action.befores := by
  induction as generalizing m with
  | nil => simp
  | cons a as ih =>
    rw [List.foldl_cons, ih]
    cases a with
    | replace r => cases r <;> simp [add, Action.befores]
    | insert text => simp [add, Action.befores]
    | wrap before after => simp [add, Action.befores]

theorem after_foldl_add (as : List Action) (m : Mark) :
    (as.foldl add m).after = (as.flatMap Action.afters).reverse ++ m.after := by
  induction as generalizing m with
  | nil => simp
  | cons a as ih =>
    rw [List.foldl_cons, ih]
    cases a with
    | replace r => cases r <;> simp [add, Action.afters]
    | insert text => simp [add, Action.afters]
    | wrap before after => simp [add, Action.afters]

/-- The new text of a mark is that of the last replacement. -/
theorem new_foldl (es : List Edit) (m : Mark) (hl : ∀ e ∈ es, e.isLiteral) :
    (∃ v, (es.filterMap Edit.replacement?).getLast? = some (.literal v) ∧
        ((es.map Edit.action).foldl add m).new = some v.display) ∨
      (es.filterMap Edit.replacement?).getLast? = none ∧
        ((es.map Edit.action).foldl add m).new = m.new := by
  induction es generalizing m with
  | nil => exact Or.inr ⟨rfl, rfl⟩
  | cons e es ih =>
    have hes : ∀ e ∈ es, e.isLiteral := fun e he => hl e (List.mem_cons_of_mem _ he)
    rw [List.map_cons, List.foldl_cons]
    cases he : e.action with
    | replace r =>
      obtain ⟨v, rfl⟩ := Edit.eq_literal (hl e List.mem_cons_self) he
      have hr : e.replacement? = some (.literal v) := by simp [Edit.replacement?, he]
      obtain ⟨w, hw, hn⟩ | ⟨hw, hn⟩ := ih (m.add (.replace (.literal v))) hes
      · refine Or.inl ⟨w, ?_, hn⟩
        rw [List.filterMap_cons_some hr, List.getLast?_cons, hw]
        rfl
      · refine Or.inl ⟨v, ?_, hn⟩
        rw [List.filterMap_cons_some hr, List.getLast?_cons, hw]
        rfl
    | insert text =>
      have hr : e.replacement? = none := by simp [Edit.replacement?, he]
      rw [List.filterMap_cons_none hr]
      exact ih (m.add (.insert text)) hes
    | wrap before after =>
      have hr : e.replacement? = none := by simp [Edit.replacement?, he]
      rw [List.filterMap_cons_none hr]
      exact ih (m.add (.wrap before after)) hes

theorem isSome_new_ofEdits {es : List Edit} (hl : ∀ e ∈ es, e.isLiteral) (n : Node) :
    (ofEdits es n).new.isSome ↔ ∃ e ∈ es, e.node.id = n.id ∧ e.replacement?.isSome := by
  have hf := new_foldl (es.filter fun e => e.node.id = n.id) {}
    fun e he => hl e (List.mem_of_mem_filter he)
  rw [ofEdits]
  constructor
  · intro hs
    obtain ⟨v, hv, -⟩ | ⟨-, hn⟩ := hf
    · obtain ⟨e, he, hr⟩ := List.mem_filterMap.1 (List.mem_of_getLast? hv)
      obtain ⟨he, hid⟩ := List.mem_filter.1 he
      exact ⟨e, he, by simpa using hid, by simp [hr]⟩
    · simp [hn] at hs
  · rintro ⟨e, he, hid, hr⟩
    obtain ⟨v, -, hn⟩ | ⟨hv, -⟩ := hf
    · simp [hn]
    · obtain ⟨r, hr⟩ := Option.isSome_iff_exists.1 hr
      have hnone := List.getLast?_eq_none_iff.1 hv
      have hmem : e ∈ es.filter fun e => e.node.id = n.id :=
        List.mem_filter.2 ⟨he, by simpa using hid⟩
      have := List.mem_filterMap.2 ⟨e, hmem, hr⟩
      simp [hnone] at this

theorem ofEdits_eq_empty {es : List Edit} {n : Node} (h : ∀ e ∈ es, e.node.id ≠ n.id) :
    ofEdits es n = {} := by
  have hf : (es.filter fun e => e.node.id = n.id) = [] := by
    simpa [List.filter_eq_nil_iff] using h
  simp [ofEdits, hf]

end Mark

namespace Document.WellFormed

variable {doc : Document} (marks : Node → Mark) {n : Node}

/-- Siblings that are written as they stand make up the source they cover. -/
theorem chars_spliceRow (h : doc.WellFormed) {cs : List Node} {start stop : Nat}
    (hrow : Node.InRow start cs stop) (hcs : ∀ c ∈ cs, c ∈ doc.nodes)
    (hb : Text.isBoundary doc.chars start) (he : Text.isBoundary doc.chars stop)
    (hc : ∀ c ∈ cs, (c.splice marks).flatMap (Chunk.chars doc.chars) =
      Text.slice doc.chars c.start c.stop) :
    (Node.spliceRow marks start cs stop).flatMap (Chunk.chars doc.chars) =
      Text.slice doc.chars start stop := by
  induction cs generalizing start with
  | nil => simp [Node.spliceRow, Chunk.chars]
  | cons c cs ih =>
    obtain ⟨h1, h2, h3⟩ := hrow
    obtain ⟨hcb, hce⟩ := h.bounds c (hcs c List.mem_cons_self)
    have hrest := ih h3 (fun d hd => hcs d (List.mem_cons_of_mem _ hd)) hce
      (fun d hd => hc d (List.mem_cons_of_mem _ hd))
    rw [Node.spliceRow, List.flatMap_cons, List.flatMap_append, hc c List.mem_cons_self, hrest]
    simp only [Chunk.chars]
    rw [Text.slice_join hcb hce he h2 h3.le, Text.slice_join hb hcb he h1 (h2.trans h3.le)]

/-- A node without a mark in it is written as it stands. -/
theorem chars_splice_of_unmarked (h : doc.WellFormed) (hn : n ∈ doc.nodes)
    (hm : ∀ m ∈ n.preorder, marks m = {}) :
    (n.splice marks).flatMap (Chunk.chars doc.chars) = Text.slice doc.chars n.start n.stop := by
  induction n using Node.induction with
  | h i cs ih =>
    obtain ⟨hb, he⟩ := h.bounds _ hn
    have hrow := h.chars_spliceRow marks (h.rows _ hn)
      (fun c hc => child_mem_nodes hn hc) hb he
      (fun c hc => ih c hc (child_mem_nodes hn hc)
        fun m hm' => hm m (Node.mem_preorder_child hc hm'))
    simpa [Node.splice, hm _ (Node.mem_preorder_self _)] using hrow

theorem assemble_splice_of_unmarked (h : doc.WellFormed)
    (hm : ∀ m ∈ doc.root.preorder, marks m = {}) : doc.assemble (doc.splice marks) = doc.text := by
  have hroot := doc.root_mem_nodes
  obtain ⟨hb, he⟩ := h.bounds _ hroot
  have hz := Text.isBoundary_zero doc.chars
  have hl := Text.isBoundary_end doc.chars
  have hle := h.start_le_stop hroot
  simp only [assemble, splice, List.flatMap_cons, List.flatMap_append, List.flatMap_nil,
    List.append_nil, Chunk.chars, h.chars_splice_of_unmarked marks hroot hm]
  rw [Text.slice_join hb he hl hle (Text.le_byteLength he),
    Text.slice_join hz hb hl (Nat.zero_le _) (Text.le_byteLength hb), Text.slice_full]
  rfl

/-- The edits whose spans lie outside a node leave no mark in it. -/
theorem unmarked_of_not_touched (h : doc.WellFormed) {d : Draft}
    (hes : ∀ e ∈ d.edits, e.node ∈ doc.nodes) (hn : n ∈ doc.nodes) (ht : d.isTouched n = false) :
    ∀ m ∈ n.preorder, Mark.ofEdits d.edits m = {} := by
  intro m hm
  apply Mark.ofEdits_eq_empty
  intro e he hid
  have hme : e.node = m := h.node_eq_of_id (hes e he) (Node.mem_preorder_trans hm hn) hid
  obtain ⟨h1, h2⟩ := h.span_of_mem_preorder hn hm
  have hin : d.isTouched n = true := by
    rw [Draft.isTouched, List.any_eq_true]
    exact ⟨e, he, by simp [hme, h1, h2]⟩
  simp [hin] at ht

end Document.WellFormed

namespace Draft

variable {d : Draft} {n : Node}

theorem toList_before (d : Draft) (n : Node) :
    (d.before n.id).toList = (Mark.ofEdits d.edits n).before.flatMap String.toList := by
  have he (e : Edit) : e.before.toList = e.action.befores.flatMap String.toList := by
    cases ha : e.action <;> simp [Edit.before, Action.befores, ha]
  rw [Mark.ofEdits, Mark.before_foldl_add]
  simp [before, editsOf, Text.toList_intercalate_empty, -String.toList_intercalate,
    List.flatMap_map, List.flatMap_assoc, he]

theorem toList_after (d : Draft) (n : Node) :
    (d.after n.id).toList = (Mark.ofEdits d.edits n).after.flatMap String.toList := by
  have he (e : Edit) : e.after.toList = e.action.afters.flatMap String.toList := by
    cases ha : e.action <;> simp [Edit.after, Action.afters, ha]
  have hr (e : Edit) : e.action.afters.reverse = e.action.afters := by
    cases e.action <;> rfl
  rw [Mark.ofEdits, Mark.after_foldl_add, after, Text.toList_intercalate_empty, ← List.map_reverse,
    List.flatMap_map]
  simp [editsOf, List.flatMap_map, List.flatMap_assoc, he, hr, List.reverse_flatMap]

theorem replacement?_eq_new (hl : ∀ e ∈ d.edits, e.isLiteral) (n : Node) :
    (∃ v, d.replacement? n.id = some (.literal v) ∧
        (Mark.ofEdits d.edits n).new = some v.display) ∨
      d.replacement? n.id = none ∧ (Mark.ofEdits d.edits n).new = none :=
  Mark.new_foldl _ {} fun e he => hl e (List.mem_of_mem_filter he)

theorem weave_eq_spliceRow {render : Node → Except Fault String} {marks : Node → Mark}
    {cs : List Node} {cursor stop : Nat}
    (hr : ∀ c ∈ cs, render c = .ok (d.doc.assemble (c.splice marks))) :
    d.weave render cursor cs stop =
      .ok (d.doc.assemble (Node.spliceRow marks cursor cs stop)) := by
  induction cs generalizing cursor with
  | nil => simp [weave, Node.spliceRow, Document.assemble, Chunk.chars, Document.slice]
  | cons c cs ih =>
    rw [weave, hr c List.mem_cons_self, ih fun e he => hr e (List.mem_cons_of_mem _ he)]
    simp [bind, Except.bind, pure, Except.pure, Node.spliceRow, Document.assemble, Chunk.chars,
      Document.slice, String.ofList_append, String.append_assoc]

/-- A node without what stands around it, given how the nodes in it are written. -/
def body (d : Draft) (render : Node → Except Fault String) (n : Node) : Except Fault String :=
  match d.replacement? n.id with
  | some r => r.write render d.doc.newline
  | none =>
    if d.isTouched n then d.weave render n.start n.children n.stop else .ok (d.doc.textOf n)

theorem renderWithin_succ (d : Draft) (fuel : Nat) (n : Node) :
    d.renderWithin (fuel + 1) n =
      (d.body (d.renderWithin fuel) n).map fun s => d.before n.id ++ s ++ d.after n.id := by
  rw [renderWithin, body]
  cases d.replacement? n.id with
  | some r => rfl
  | none => cases d.isTouched n <;> rfl

/-- The body of a node is its new text, or else its row with the children written out. -/
theorem body_eq_splice (h : d.doc.WellFormed) (hl : ∀ e ∈ d.edits, e.isLiteral)
    (hes : ∀ e ∈ d.edits, e.node ∈ d.doc.nodes) (hn : n ∈ d.doc.nodes)
    {render : Node → Except Fault String}
    (hr : ∀ c ∈ n.children, render c = .ok (d.doc.assemble (c.splice (Mark.ofEdits d.edits)))) :
    d.body render n = .ok (d.doc.assemble (match (Mark.ofEdits d.edits n).new with
      | some text => [.added text]
      | none => Node.spliceRow (Mark.ofEdits d.edits) n.start n.children n.stop)) := by
  obtain ⟨v, hv, hm⟩ | ⟨hv, hm⟩ := replacement?_eq_new hl n
  · simp [body, hv, hm, Replacement.write, Document.assemble, Chunk.chars]
  · by_cases ht : d.isTouched n = true
    · simp only [body, hv, hm, ht, if_true]
      exact weave_eq_spliceRow hr
    · have ht : d.isTouched n = false := by simpa using ht
      -- no edit lies in an untouched node, so its row adds up to its own text
      have hu := h.unmarked_of_not_touched hes hn ht
      obtain ⟨hb, he⟩ := h.bounds n hn
      have hrow := h.chars_spliceRow (Mark.ofEdits d.edits) (h.rows n hn)
        (fun c hc => Document.child_mem_nodes hn hc) hb he
        (fun c hc => h.chars_splice_of_unmarked _ (Document.child_mem_nodes hn hc)
          fun m hm => hu m (Node.mem_preorder_child hc hm))
      simp [body, hv, hm, ht, Document.assemble, hrow, Document.textOf, Document.slice]

theorem renderWithin_eq_splice (h : d.doc.WellFormed) (hl : ∀ e ∈ d.edits, e.isLiteral)
    (hes : ∀ e ∈ d.edits, e.node ∈ d.doc.nodes) {fuel : Nat} (hn : n ∈ d.doc.nodes)
    (hf : n.size ≤ fuel) :
    d.renderWithin fuel n = .ok (d.doc.assemble (n.splice (Mark.ofEdits d.edits))) := by
  induction fuel generalizing n with
  | zero =>
    rw [Node.size_eq] at hf
    omega
  | succ fuel ih =>
    have hc : ∀ c ∈ n.children,
        d.renderWithin fuel c = .ok (d.doc.assemble (c.splice (Mark.ofEdits d.edits))) := by
      intro c hc
      have := Node.size_lt_of_child hc
      exact ih (Document.child_mem_nodes hn hc) (by omega)
    rw [renderWithin_succ, body_eq_splice h hl hes hn hc, Node.splice_eq]
    simp [Except.map, Document.assemble, ← String.toList_inj, toList_before, toList_after,
      List.flatMap_map, Chunk.chars]

/-- Writing out a draft of fixed texts never fails, and gives the splice of its edits. -/
theorem source_eq_splice (h : d.doc.WellFormed) (hl : ∀ e ∈ d.edits, e.isLiteral)
    (hes : ∀ e ∈ d.edits, e.node ∈ d.doc.nodes) :
    d.source = .ok (d.doc.assemble (d.doc.splice (Mark.ofEdits d.edits))) := by
  have hroot := d.doc.root_mem_nodes
  by_cases he : d.edits = []
  · have hm : ∀ m ∈ d.doc.root.preorder, Mark.ofEdits d.edits m = {} := by simp [he, Mark.ofEdits]
    rw [h.assemble_splice_of_unmarked _ hm]
    simp [source, he]
  · have hr := renderWithin_eq_splice h hl hes hroot (Nat.le_refl _)
    simp [source, he, render, hr, bind, Except.bind, pure, Except.pure, Document.splice,
      Document.assemble, Document.slice, Chunk.chars, ← String.toList_inj]

end Draft

namespace Node

/-- The offset lies inside the node, and the node has a new text. -/
def replacedAt (marks : Node → Mark) (offset : Nat) (n : Node) : Bool :=
  (marks n).new.isSome && n.start ≤ offset && offset < n.stop

end Node

namespace Document.WellFormed

variable {doc : Document} (marks : Node → Mark) {n : Node}

theorem not_replacedAt_of_outside (h : doc.WellFormed) (hn : n ∈ doc.nodes) {b : Nat}
    (hb : b < n.start ∨ n.stop ≤ b) :
    n.preorder.any (·.replacedAt marks b) = false := by
  rw [List.any_eq_false]
  intro m hm
  obtain ⟨h1, h2⟩ := h.span_of_mem_preorder hn hm
  simp only [Node.replacedAt, Bool.and_eq_true, decide_eq_true_eq]
  omega

/-- Siblings copy the offsets that no replaced node below them covers. -/
theorem offsets_spliceRow (h : doc.WellFormed) {cs : List Node} {start stop : Nat}
    (hrow : Node.InRow start cs stop) (hcs : ∀ c ∈ cs, c ∈ doc.nodes)
    (hc : ∀ c ∈ cs, (c.splice marks).flatMap Chunk.offsets =
      (List.range' c.start (c.stop - c.start)).filter fun b =>
        !c.preorder.any (·.replacedAt marks b)) :
    (Node.spliceRow marks start cs stop).flatMap Chunk.offsets =
      (List.range' start (stop - start)).filter fun b =>
        !(cs.flatMap Node.preorder).any (·.replacedAt marks b) := by
  induction cs generalizing start with
  | nil => simp [Node.spliceRow, Chunk.offsets]
  | cons c cs ih =>
    obtain ⟨h1, h2, h3⟩ := hrow
    have hcn := hcs c List.mem_cons_self
    have hle := h3.le
    have hrest := ih h3 (fun d hd => hcs d (List.mem_cons_of_mem _ hd))
      (fun d hd => hc d (List.mem_cons_of_mem _ hd))
    have hsplit : List.range' start (stop - start) =
        List.range' start (c.start - start) ++ (List.range' c.start (c.stop - c.start) ++
          List.range' c.stop (stop - c.stop)) := by
      rw [show stop - start = (c.start - start) + ((c.stop - c.start) + (stop - c.stop)) by omega,
        ← List.range'_append_1, ← List.range'_append_1]
      rw [show start + (c.start - start) = c.start by omega,
        show c.start + (c.stop - c.start) = c.stop by omega]
    have hbehind : ∀ b, b < c.stop →
        (cs.flatMap Node.preorder).any (·.replacedAt marks b) = false := by
      intro b hb
      rw [List.any_flatMap, List.any_eq_false]
      intro d hd
      obtain ⟨h4, -, -⟩ := h3.mem hd
      simp [h.not_replacedAt_of_outside marks (hcs d (List.mem_cons_of_mem _ hd))
        (Or.inl (show b < d.start by omega))]
    rw [Node.spliceRow, List.flatMap_cons, List.flatMap_append, hc c List.mem_cons_self, hrest,
      hsplit, List.filter_append, List.filter_append, List.flatMap_cons]
    congr 1
    · rw [eq_comm, Chunk.offsets, List.filter_eq_self]
      intro b hb
      have hb := List.mem_range'_1.1 hb
      have hin := h.not_replacedAt_of_outside marks hcn (b := b) (Or.inl (by omega))
      rw [List.any_append, hin, hbehind b (by omega)]
      rfl
    congr 1
    · apply List.filter_congr
      intro b hb
      have hb := List.mem_range'_1.1 hb
      rw [List.any_append, hbehind b (by omega), Bool.or_false]
    · apply List.filter_congr
      intro b hb
      have hb := List.mem_range'_1.1 hb
      have hin := h.not_replacedAt_of_outside marks hcn (b := b) (Or.inr (by omega))
      rw [List.any_append, hin, Bool.false_or]

/-- A node copies the offsets of its span that no replaced node in it covers. -/
theorem offsets_splice (h : doc.WellFormed) (hn : n ∈ doc.nodes) :
    (n.splice marks).flatMap Chunk.offsets =
      (List.range' n.start (n.stop - n.start)).filter fun b =>
        !n.preorder.any (·.replacedAt marks b) := by
  induction n using Node.induction with
  | h i cs ih =>
    have hadded : ∀ texts : List String, (texts.map Chunk.added).flatMap Chunk.offsets = [] := by
      intro texts
      simp [List.flatMap_map, Chunk.offsets]
    rw [Node.splice_eq, List.flatMap_append, List.flatMap_append, hadded, hadded, List.nil_append,
      List.append_nil]
    cases hnew : (marks (.mk i cs)).new with
    | some text =>
      rw [eq_comm, List.filter_eq_nil_iff.2]
      · rfl
      · intro b hb
        have hb := List.mem_range'_1.1 hb
        have hself : Node.replacedAt marks b (.mk i cs) = true := by
          simp only [Node.replacedAt, hnew, Option.isSome_some, Bool.true_and, Bool.and_eq_true,
            decide_eq_true_eq]
          omega
        rw [Node.preorder_eq, List.any_cons, hself]
        simp
    | none =>
      have hrow := h.offsets_spliceRow marks (h.rows _ hn)
        (fun c hc => child_mem_nodes hn hc) (fun c hc => ih c hc (child_mem_nodes hn hc))
      refine hrow.trans (List.filter_congr fun b _ => ?_)
      rw [Node.preorder_eq, List.any_cons, Node.replacedAt, hnew]
      rfl

/-- The pieces copied from the source are, in order, all bytes outside the replaced nodes. -/
theorem offsets_document (h : doc.WellFormed) :
    (doc.splice marks).flatMap Chunk.offsets =
      (List.range (Text.byteLength doc.chars)).filter fun b =>
        !doc.nodes.any (·.replacedAt marks b) := by
  have hroot := doc.root_mem_nodes
  have hrow : Node.InRow 0 [doc.root] (Text.byteLength doc.chars) :=
    ⟨Nat.zero_le _, h.start_le_stop hroot, Text.le_byteLength (h.bounds _ hroot).2⟩
  have hall := h.offsets_spliceRow marks hrow (List.forall_mem_singleton.2 hroot)
    (List.forall_mem_singleton.2 (h.offsets_splice marks hroot))
  simpa [Node.spliceRow, splice, List.range_eq_range', nodes] using hall

theorem any_replacedAt_eq (h : doc.WellFormed) {es : List Edit} (hl : ∀ e ∈ es, e.isLiteral)
    (hes : ∀ e ∈ es, e.node ∈ doc.nodes) (b : Nat) :
    doc.nodes.any (·.replacedAt (Mark.ofEdits es) b) = Edit.replacesAt es b := by
  rw [Bool.eq_iff_iff, List.any_eq_true, Edit.replacesAt, List.any_eq_true]
  constructor
  · rintro ⟨n, hn, hb⟩
    simp only [Node.replacedAt, Bool.and_eq_true, Mark.isSome_new_ofEdits hl] at hb
    obtain ⟨⟨⟨e, he, hid, hr⟩, h1⟩, h2⟩ := hb
    obtain rfl := h.node_eq_of_id (hes e he) hn hid
    exact ⟨e, he, by simp [hr, h1, h2]⟩
  · rintro ⟨e, he, hb⟩
    refine ⟨e.node, hes e he, ?_⟩
    simp only [Bool.and_eq_true] at hb
    obtain ⟨⟨hr, h1⟩, h2⟩ := hb
    simp only [Node.replacedAt, Bool.and_eq_true, Mark.isSome_new_ofEdits hl]
    exact ⟨⟨⟨e, he, rfl, hr⟩, h1⟩, h2⟩

theorem isCut_spliceRow (h : doc.WellFormed) {cs : List Node} {start stop : Nat}
    (hrow : Node.InRow start cs stop) (hcs : ∀ c ∈ cs, c ∈ doc.nodes)
    (hb : Text.isBoundary doc.chars start) (he : Text.isBoundary doc.chars stop)
    (hc : ∀ c ∈ cs, ∀ k ∈ c.splice marks, k.IsCut doc.chars) :
    ∀ k ∈ Node.spliceRow marks start cs stop, k.IsCut doc.chars := by
  induction cs generalizing start with
  | nil =>
    intro k hk
    obtain rfl := List.mem_singleton.1 hk
    exact ⟨hb, he, hrow⟩
  | cons c cs ih =>
    obtain ⟨h1, h2, h3⟩ := hrow
    obtain ⟨hcb, hce⟩ := h.bounds c (hcs c List.mem_cons_self)
    intro k hk
    rw [Node.spliceRow] at hk
    obtain rfl | hk := List.mem_cons.1 hk
    · exact ⟨hb, hcb, h1⟩
    · obtain hk | hk := List.mem_append.1 hk
      · exact hc c List.mem_cons_self k hk
      · exact ih h3 (fun d hd => hcs d (List.mem_cons_of_mem _ hd)) hce
          (fun d hd => hc d (List.mem_cons_of_mem _ hd)) k hk

theorem isCut_splice (h : doc.WellFormed) (hn : n ∈ doc.nodes) :
    ∀ k ∈ n.splice marks, k.IsCut doc.chars := by
  induction n using Node.induction with
  | h i cs ih =>
    have hadded : ∀ texts : List String, ∀ k ∈ texts.map Chunk.added, k.IsCut doc.chars := by
      intro texts k hk
      obtain ⟨text, -, rfl⟩ := List.mem_map.1 hk
      trivial
    intro k hk
    rw [Node.splice_eq] at hk
    obtain hk | hk := List.mem_append.1 hk
    · obtain hk | hk := List.mem_append.1 hk
      · exact hadded _ k hk
      · cases hnew : (marks (.mk i cs)).new with
        | some text =>
          rw [hnew] at hk
          obtain rfl := List.mem_singleton.1 hk
          trivial
        | none =>
          rw [hnew] at hk
          obtain ⟨hb, he⟩ := h.bounds _ hn
          exact h.isCut_spliceRow marks (h.rows _ hn) (fun c hc => child_mem_nodes hn hc) hb he
            (fun c hc => ih c hc (child_mem_nodes hn hc)) k hk
    · exact hadded _ k hk

theorem isCut_document (h : doc.WellFormed) : ∀ k ∈ doc.splice marks, k.IsCut doc.chars := by
  have hroot := doc.root_mem_nodes
  have hrow : Node.InRow 0 [doc.root] (Text.byteLength doc.chars) :=
    ⟨Nat.zero_le _, h.start_le_stop hroot, Text.le_byteLength (h.bounds _ hroot).2⟩
  have hall := h.isCut_spliceRow marks hrow (List.forall_mem_singleton.2 hroot)
    (Text.isBoundary_zero _) (Text.isBoundary_end _)
    (List.forall_mem_singleton.2 (h.isCut_splice marks hroot))
  simpa [Node.spliceRow, splice] using hall

/-- Decoding the pieces one by one loses no byte. -/
theorem utf8_assemble {chunks : List Chunk} (hk : ∀ k ∈ chunks, k.IsCut doc.chars) :
    Text.utf8 (doc.assemble chunks).toList =
      chunks.flatMap (Chunk.bytes (Text.utf8 doc.chars)) := by
  rw [assemble, String.toList_ofList]
  induction chunks with
  | nil => rfl
  | cons k chunks ih =>
    have hone : Text.utf8 (k.chars doc.chars) = k.bytes (Text.utf8 doc.chars) := by
      have hcut := hk k List.mem_cons_self
      cases k with
      | copied start stop => exact Text.utf8_slice hcut.1 hcut.2.1 hcut.2.2
      | added text => rfl
    rw [List.flatMap_cons, List.flatMap_cons, Text.utf8_append, hone,
      ih fun c hc => hk c (List.mem_cons_of_mem _ hc)]

end Document.WellFormed

theorem Draft.foldl_record (d : Draft) (es : List Edit) : es.foldl record d = d.recordAll es := by
  induction es generalizing d with
  | nil => simp [recordAll]
  | cons e es ih => simp [ih, record, recordAll]

theorem Draft.foldl_record_fresh (doc : Document) (es : List Edit) :
    es.foldl record { doc } = { doc, edits := es } :=
  foldl_record { doc } es

/-- However edits by fixed text are recorded on the nodes of a document, writing the draft out
succeeds and gives the bytes of the splice; the bytes it copies are, in order, all those outside the
replaced nodes. -/
theorem Draft.bytes_of_literal_edits (doc : Document) (h : doc.WellFormed) (es : List Edit)
    (hl : ∀ e ∈ es, e.isLiteral) (hes : ∀ e ∈ es, e.node ∈ doc.nodes) :
    ∃ out, (es.foldl Draft.record { doc }).source = .ok out ∧
      Text.utf8 out.toList =
        (doc.splice (Mark.ofEdits es)).flatMap (Chunk.bytes (Text.utf8 doc.chars)) ∧
      (doc.splice (Mark.ofEdits es)).flatMap Chunk.offsets =
        (List.range (Text.byteLength doc.chars)).filter fun b => !Edit.replacesAt es b := by
  have hd : es.foldl Draft.record { doc } = { doc, edits := es } := by
    simp [foldl_record, recordAll]
  refine ⟨_, ?_, Document.WellFormed.utf8_assemble (h.isCut_document _), ?_⟩
  · rw [hd]
    exact source_eq_splice h hl hes
  · simp only [← h.any_replacedAt_eq hl hes]
    exact h.offsets_document _

namespace Sample

def node (id : Nat) (symbol : String) (start stop : Nat) (children : List Node) : Node :=
  .mk { id, symbol, named := true, missing := false, hasError := false, fields := [], start, stop }
    children

def callee : Node := node 3 "identifier" 0 2 []

def inner : Node := node 7 "identifier" 3 4 []

/-- Same span as the node in it. -/
def argument : Node := node 6 "parenthesized_expression" 3 4 [inner]

/-- A node without width. -/
def gap : Node := node 8 "missing" 4 4 []

def arguments : Node := node 4 "arguments" 2 5 [node 5 "(" 2 3 [], argument, gap]

def call : Node := node 2 "call_expression" 0 5 [callee, arguments]

def statement : Node := node 1 "expression_statement" 0 6 [call]

/-- The text `é(a);x`, the last byte outside the root. -/
def doc : Document where
  chars := ['é', '(', 'a', ')', ';', 'x']
  root := node 0 "program" 0 6 [statement]

def edits : List Edit :=
  [⟨⟨call, []⟩, .wrap "(await " ")", ""⟩, ⟨⟨callee, []⟩, .replace (.literal (.text "f")), ""⟩,
    ⟨⟨inner, []⟩, .insert "!", ""⟩, ⟨⟨call, []⟩, .insert "void ", ""⟩,
    ⟨⟨callee, []⟩, .replace (.literal (.text "ö")), ""⟩, ⟨⟨argument, []⟩, .wrap "[" "]", ""⟩,
    ⟨⟨gap, []⟩, .insert ", 1", ""⟩]

theorem wellFormed : doc.WellFormed := by decide +kernel

end Sample

theorem Draft.bytes_of_literal_edits_sample :
    Sample.doc.WellFormed ∧ (∀ e ∈ Sample.edits, e.isLiteral) ∧
      (∀ e ∈ Sample.edits, e.node ∈ Sample.doc.nodes) ∧
      ∃ out, (Sample.edits.foldl Draft.record { doc := Sample.doc }).source = .ok out ∧
        Text.utf8 out.toList = (Sample.doc.splice (Mark.ofEdits Sample.edits)).flatMap
          (Chunk.bytes (Text.utf8 Sample.doc.chars)) ∧
        (Sample.doc.splice (Mark.ofEdits Sample.edits)).flatMap Chunk.offsets =
          (List.range (Text.byteLength Sample.doc.chars)).filter fun b =>
            !Edit.replacesAt Sample.edits b := by
  have h : Sample.doc.WellFormed := by decide +kernel
  have hl : ∀ e ∈ Sample.edits, e.isLiteral := by decide
  have hes : ∀ e ∈ Sample.edits, e.node ∈ Sample.doc.nodes := by
    simp [Sample.edits, Sample.doc, Document.nodes, Node.preorder, Node.preorders, Sample.node,
      Sample.statement, Sample.call, Sample.callee, Sample.arguments, Sample.argument, Sample.inner,
      Sample.gap, Edit.node]
  exact ⟨h, hl, hes, bytes_of_literal_edits Sample.doc h Sample.edits hl hes⟩

example : (Sample.edits.foldl Draft.record { doc := Sample.doc }).source =
    .ok "(await void ö([!a], 1));x" := by decide +kernel

end Asyncify
