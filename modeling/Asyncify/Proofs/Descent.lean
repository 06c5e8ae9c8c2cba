import Asyncify.Proofs.Occurrence

/-! Writing goes down the tree: where every node is written from nodes below it, a draft has a text
for each node, and this text depends on the edits at the node and below it only. -/
namespace Asyncify

/-- An edit at a node of the document. Whatever it puts in place of the node can be written, from
nodes below it. -/
structure Document.Draws (doc : Document) (e : Edit) : Prop where
  node : e.node ∈ doc.nodes
  whole : ∀ f, e.action = .replace (.folded f) → f.IsWhole
  below : ∀ r, e.action = .replace r → ∀ m ∈ Slot.nodes (r.slots doc.newline),
    ∃ c ∈ e.node.children, m ∈ c.preorder

namespace Document.Draws

variable {doc : Document} {e : Edit}

theorem of_isLiteral (hn : e.node ∈ doc.nodes) (hl : e.isLiteral) : doc.Draws e := by
  refine ⟨hn, fun f ha => ?_, fun r ha m hm => ?_⟩
  · obtain ⟨v, hv⟩ := Edit.eq_literal hl ha
    cases hv
  · obtain ⟨v, rfl⟩ := Edit.eq_literal hl ha
    simp [Replacement.slots] at hm

theorem of_joined {ps : List Piece} (hn : e.node ∈ doc.nodes)
    (ha : e.action = .replace (.joined ps))
    (hp : ∀ m, .node m ∈ ps → ∃ c ∈ e.node.children, m ∈ c.preorder) : doc.Draws e := by
  refine ⟨hn, fun f ha' => ?_, fun r ha' m hm => hp m ?_⟩
  · rw [ha] at ha'
    cases ha'
  · rw [ha] at ha'
    injection ha' with hr
    subst hr
    obtain ⟨slot, hslot, hnode⟩ := List.mem_filterMap.1 hm
    obtain ⟨piece, hpiece, rfl⟩ := List.mem_map.1 hslot
    cases piece with
    | text s => cases hnode
    | node k =>
      obtain rfl : k = m := Option.some.inj hnode
      exact hpiece

end Document.Draws

namespace Draft

/-- Whatever stands for a node can be written, from nodes below it. -/
structure IsGrounded (d : Draft) : Prop where
  whole : ∀ n ∈ d.doc.nodes, ∀ f, d.replacement? n.id = some (.folded f) → f.IsWhole
  below : ∀ n ∈ d.doc.nodes, ∀ m ∈ d.next n, ∃ c ∈ n.children, m ∈ c.preorder

/-- Whatever stands for a node is written from nodes below it, if it can be written. -/
def IsDescending (d : Draft) : Prop :=
  ∀ n ∈ d.doc.nodes, ∀ r, d.replacement? n.id = some r → ∀ m ∈ r.nodes, ∃ c ∈ n.children,
    m ∈ c.preorder

/-- The nodes whose texts are asked for to write a node. -/
def asks (d : Draft) (n : Node) : List Node :=
  match d.replacement? n.id with
  | some r => r.nodes
  | none => if d.isTouched n then n.children else []

/-- The text of a node with all edits. -/
def written (d : Draft) (n : Node) : String :=
  match d.render n with
  | .ok text => text
  | .error _ => ""

/-- The text of a node without what the edits of the node itself put around it. -/
def inside (d : Draft) (n : Node) : String := Slot.texts d.written (d.bodySlots n)

/-- No edit is recorded at the node or below it. -/
def IsFree (d : Draft) (n : Node) : Prop := ∀ m ∈ n.preorder, d.editsOf m.id = []

/-- Every edit is recorded at a node of the document. -/
def IsPlaced (d : Draft) : Prop := ∀ e ∈ d.edits, e.node ∈ d.doc.nodes

variable {d : Draft} {m n c : Node} {fuel : Nat}

namespace IsGrounded

theorem mem_nodes (h : d.IsGrounded) (hn : n ∈ d.doc.nodes) (hm : m ∈ d.next n) :
    m ∈ d.doc.nodes := by
  obtain ⟨c, hc, hm⟩ := h.below n hn m hm
  exact Node.mem_preorder_trans hm (Document.child_mem_nodes hn hc)

theorem size_lt (h : d.IsGrounded) (hn : n ∈ d.doc.nodes) (hm : m ∈ d.next n) :
    m.size < n.size := by
  obtain ⟨c, hc, hm⟩ := h.below n hn m hm
  exact (Node.size_le_of_mem_preorder hm).trans_lt (Node.size_lt_of_child hc)

/-- A node is written in as many steps as it has nodes, and more steps change nothing. -/
theorem exists_text (h : d.IsGrounded) (hn : n ∈ d.doc.nodes) :
    ∃ text, ∀ fuel, n.size ≤ fuel → d.renderWithin fuel n = .ok text := by
  induction hk : n.size using Nat.strong_induction_on generalizing n with
  | h k ih =>
    have hnext : ∀ m, ∃ text, m ∈ d.next n → ∀ fuel, m.size ≤ fuel →
        d.renderWithin fuel m = .ok text := by
      intro m
      by_cases hm : m ∈ d.next n
      · have hlt := h.size_lt hn hm
        obtain ⟨text, ht⟩ := ih m.size (by omega) (h.mem_nodes hn hm) rfl
        exact ⟨text, fun _ => ht⟩
      · exact ⟨"", fun hm' => absurd hm' hm⟩
    choose write hwrite using hnext
    refine ⟨d.before n.id ++ Slot.texts write (d.bodySlots n) ++ d.after n.id, fun fuel hf => ?_⟩
    obtain ⟨j, rfl⟩ : ∃ j, fuel = j + 1 := ⟨fuel - 1, by rw [Node.size_eq] at hk; omega⟩
    have hr : ∀ m ∈ d.next n, d.renderWithin j m = .ok (write m) := by
      intro m hm
      have hlt := h.size_lt hn hm
      exact hwrite m hm j (by omega)
    rw [renderWithin_succ, body_eq_texts write (h.whole n hn) hr]
    rfl

theorem renderWithin_eq (h : d.IsGrounded) (hn : n ∈ d.doc.nodes) (hf : n.size ≤ fuel) :
    d.renderWithin fuel n = .ok (d.written n) := by
  obtain ⟨text, ht⟩ := h.exists_text hn
  have hroot : d.render n = .ok text := ht _ (Node.size_le_of_mem_preorder hn)
  rw [ht fuel hf, written, hroot]

/-- Every node can be written. -/
theorem render_eq (h : d.IsGrounded) (hn : n ∈ d.doc.nodes) : d.render n = .ok (d.written n) :=
  h.renderWithin_eq hn (Node.size_le_of_mem_preorder hn)

theorem written_eq (h : d.IsGrounded) (hn : n ∈ d.doc.nodes) :
    d.written n = d.before n.id ++ d.inside n ++ d.after n.id := by
  have hr : ∀ m ∈ d.next n, d.renderWithin n.size m = .ok (d.written m) :=
    fun m hm => h.renderWithin_eq (h.mem_nodes hn hm) (h.size_lt hn hm).le
  have htop := h.renderWithin_eq hn (Nat.le_succ n.size)
  rw [renderWithin_succ, body_eq_texts d.written (h.whole n hn) hr] at htop
  exact (Except.ok.inj htop).symm

/-- What a replacement is written as is the inside of the node. -/
theorem write_eq_inside (h : d.IsGrounded) (hn : n ∈ d.doc.nodes) {r : Replacement}
    (hr : d.replacement? n.id = some r) : r.write d.render d.doc.newline = .ok (d.inside n) := by
  have hbody := body_eq_texts d.written (h.whole n hn) fun m hm => h.render_eq (h.mem_nodes hn hm)
  rw [body, hr] at hbody
  exact hbody

/-- A draft with edits is written as its root between what lies outside of it. -/
theorem source_eq (h : d.IsGrounded) (he : d.edits ≠ []) :
    d.source = .ok (d.doc.slice 0 d.doc.root.start ++ d.written d.doc.root ++
      d.doc.slice d.doc.root.stop (Text.byteLength d.doc.chars)) := by
  simp [source, he, h.render_eq d.doc.root_mem_nodes, bind, Except.bind, pure, Except.pure]

end IsGrounded

theorem exists_of_replacement? {id : Nat} {r : Replacement} (h : d.replacement? id = some r) :
    ∃ e ∈ d.edits, e.node.id = id ∧ e.action = .replace r := by
  obtain ⟨e, he, her⟩ := List.mem_filterMap.1 (List.mem_of_getLast? h)
  obtain ⟨he, hid⟩ := List.mem_filter.1 he
  refine ⟨e, he, of_decide_eq_true hid, ?_⟩
  rw [Edit.replacement?] at her
  split at her
  · next ha => rw [ha, Option.some.inj her]
  · cases her

/-- Edits that draw on nodes below their own leave a draft that can be written. -/
theorem IsGrounded.of_draws (hw : d.doc.WellFormed) (h : ∀ e ∈ d.edits, d.doc.Draws e) :
    d.IsGrounded where
  whole n hn f hr := by
    obtain ⟨e, he, -, ha⟩ := exists_of_replacement? hr
    exact (h e he).whole f ha
  below n hn m hm := by
    rw [next] at hm
    cases hr : d.replacement? n.id with
    | none =>
      rw [bodySlots, hr] at hm
      dsimp only at hm
      split at hm
      · rw [nodes_rowSlots] at hm
        exact ⟨m, hm, m.mem_preorder_self⟩
      · simp at hm
    | some r =>
      rw [bodySlots_of_replacement? hr] at hm
      obtain ⟨e, he, hid, ha⟩ := exists_of_replacement? hr
      obtain rfl := hw.node_eq_of_id (h e he).node hn hid
      exact (h e he).below r ha m hm

theorem before_of_editsOf (h : d.editsOf n.id = []) : d.before n.id = "" := by
  rw [before, h]
  rfl

theorem after_of_editsOf (h : d.editsOf n.id = []) : d.after n.id = "" := by
  rw [after, h]
  rfl

theorem replacement?_of_editsOf (h : d.editsOf n.id = []) : d.replacement? n.id = none := by
  rw [replacement?, h]
  rfl

theorem IsFree.child (h : d.IsFree n) (hc : c ∈ n.children) : d.IsFree c :=
  fun m hm => h m (Node.mem_preorder_child hc hm)

/-- Children that are written as they stand make up the source again. -/
theorem texts_rowSlots (hw : d.doc.WellFormed) {write : Node → String} {cs : List Node}
    {start stop : Nat}
    (hcs : ∀ c ∈ cs, c ∈ d.doc.nodes ∧ write c = d.doc.textOf c) (hrow : Node.InRow start cs stop)
    (hstart : Text.isBoundary d.doc.chars start) (hstop : Text.isBoundary d.doc.chars stop) :
    Slot.texts write (d.rowSlots start cs stop) = d.doc.slice start stop := by
  induction cs generalizing start with
  | nil => simp [rowSlots, Slot.texts, Slot.text]
  | cons c cs ih =>
    obtain ⟨h1, h2, h3⟩ := hrow
    obtain ⟨hcn, htext⟩ := hcs c List.mem_cons_self
    obtain ⟨hb1, hb2⟩ := hw.bounds c hcn
    have hrest := ih (fun b hb => hcs b (List.mem_cons_of_mem _ hb)) h3 hb2
    rw [rowSlots, Slot.texts, Slot.texts, hrest]
    simp only [Slot.text, htext, Document.textOf, Document.slice, ← String.ofList_append]
    rw [Text.slice_join hb1 hb2 hstop h2 h3.le,
      Text.slice_join hstart hb1 hstop h1 (h2.trans h3.le)]

theorem weave_verbatim (hw : d.doc.WellFormed) {render : Node → Except Fault String}
    (hn : n ∈ d.doc.nodes) (hc : ∀ c ∈ n.children, render c = .ok (d.doc.textOf c)) :
    d.weave render n.start n.children n.stop = .ok (d.doc.textOf n) := by
  obtain ⟨hb1, hb2⟩ := hw.bounds n hn
  rw [weave_eq_texts hc, texts_rowSlots hw (fun c hc => ⟨Document.child_mem_nodes hn hc, rfl⟩)
    (hw.rows n hn) hb1 hb2]
  rfl

theorem weave_congr {render render' : Node → Except Fault String} {cs : List Node}
    (h : ∀ c ∈ cs, render c = render' c) (cursor stop : Nat) :
    d.weave render cursor cs stop = d.weave render' cursor cs stop := by
  induction cs generalizing cursor with
  | nil => rfl
  | cons c cs ih =>
    rw [weave, weave, h c List.mem_cons_self, ih fun b hb => h b (List.mem_cons_of_mem _ hb)]

theorem weave_withEdits (d : Draft) (es : List Edit) (render : Node → Except Fault String)
    (cursor : Nat) (cs : List Node) (stop : Nat) :
    weave { d with edits := es } render cursor cs stop = d.weave render cursor cs stop := by
  induction cs generalizing cursor with
  | nil => rfl
  | cons c cs ih => simp only [weave, ih]

theorem IsGrounded.isDescending (h : d.IsGrounded) : d.IsDescending := by
  intro n hn r hr m hm
  refine h.below n hn m ?_
  rw [next, bodySlots_of_replacement? hr]
  exact Replacement.mem_slots_of_mem_nodes (fun f hf => h.whole n hn f (hf ▸ hr)) hm

/-- What a node is written as depends on the texts that it asks for and on nothing else. -/
theorem body_eq_of_asks {render render' : Node → Except Fault String}
    (h : ∀ m ∈ d.asks n, render m = render' m) : d.body render n = d.body render' n := by
  rw [asks] at h
  rw [body, body]
  cases hr : d.replacement? n.id with
  | some r =>
    rw [hr] at h
    exact Replacement.write_congr h _
  | none =>
    rw [hr] at h
    dsimp only at h ⊢
    split
    · next ht =>
      rw [if_pos ht] at h
      exact weave_congr h _ _
    · rfl

namespace IsDescending

theorem below_of_asks (h : d.IsDescending) (hn : n ∈ d.doc.nodes) (hm : m ∈ d.asks n) :
    ∃ c ∈ n.children, m ∈ c.preorder := by
  rw [asks] at hm
  cases hr : d.replacement? n.id with
  | some r =>
    rw [hr] at hm
    exact h n hn r hr m hm
  | none =>
    rw [hr] at hm
    dsimp only at hm
    split at hm
    · exact ⟨m, hm, m.mem_preorder_self⟩
    · cases hm

/-- The body of a node depends on how the nodes below it are written. -/
theorem body_congr (h : d.IsDescending) {render render' : Node → Except Fault String}
    (hn : n ∈ d.doc.nodes) (hr : ∀ c ∈ n.children, ∀ m ∈ c.preorder, render m = render' m) :
    d.body render n = d.body render' n := by
  refine body_eq_of_asks fun m hm => ?_
  obtain ⟨c, hc, hmc⟩ := h.below_of_asks hn hm
  exact hr c hc m hmc

/-- More steps than there are nodes to enter change nothing. -/
theorem renderWithin_eq (h : d.IsDescending) {j k : Nat} (hn : n ∈ d.doc.nodes) (hj : n.size ≤ j)
    (hk : n.size ≤ k) : d.renderWithin j n = d.renderWithin k n := by
  induction j generalizing n k with
  | zero =>
    rw [Node.size_eq] at hj
    omega
  | succ j ih =>
    obtain ⟨k, rfl⟩ : ∃ i, k = i + 1 := ⟨k - 1, by rw [Node.size_eq] at hk; omega⟩
    have hbelow : ∀ c ∈ n.children, ∀ m ∈ c.preorder, d.renderWithin j m = d.renderWithin k m := by
      intro c hc m hm
      have hlt := (Node.size_le_of_mem_preorder hm).trans_lt (Node.size_lt_of_child hc)
      exact ih (Node.mem_preorder_trans hm (Document.child_mem_nodes hn hc)) (by omega) (by omega)
    rw [renderWithin_succ, renderWithin_succ, h.body_congr hn hbelow]

theorem render_eq_body (h : d.IsDescending) (hn : n ∈ d.doc.nodes) :
    d.render n = (d.body d.render n).map fun s => d.before n.id ++ s ++ d.after n.id := by
  have hsize : n.size ≤ d.doc.root.size := Node.size_le_of_mem_preorder hn
  exact (h.renderWithin_eq hn hsize (hsize.trans (Nat.le_succ _))).trans (d.renderWithin_succ _ n)

end IsDescending

/-- A node without edits is written as it stands. -/
theorem IsFree.render_eq (h : d.IsFree n) (hd : d.IsDescending) (hw : d.doc.WellFormed)
    (hn : n ∈ d.doc.nodes) : d.render n = .ok (d.doc.textOf n) := by
  induction n using Node.induction with
  | h i cs ih =>
    have hself := h _ (Node.mem_preorder_self _)
    have hbody : d.body d.render (.mk i cs) = .ok (d.doc.textOf (.mk i cs)) := by
      rw [body, replacement?_of_editsOf hself]
      dsimp only
      split
      · exact weave_verbatim hw hn fun c hc => ih c hc (h.child hc) (Document.child_mem_nodes hn hc)
      · rfl
    rw [hd.render_eq_body hn, hbody, before_of_editsOf hself, after_of_editsOf hself]
    simp [Except.map]

theorem IsFree.written_eq (h : d.IsFree n) (hg : d.IsGrounded) (hw : d.doc.WellFormed)
    (hn : n ∈ d.doc.nodes) : d.written n = d.doc.textOf n := by
  rw [written, h.render_eq hg.isDescending hw hn]

/-- A draft is written as its root between what lies outside of it, edits or not. -/
theorem IsDescending.source_eq_render (h : d.IsDescending) (hw : d.doc.WellFormed) :
    d.source = (d.render d.doc.root).map fun s => d.doc.slice 0 d.doc.root.start ++ s ++
      d.doc.slice d.doc.root.stop (Text.byteLength d.doc.chars) := by
  by_cases he : d.edits = []
  · have hroot := d.doc.root_mem_nodes
    have hfree : d.IsFree d.doc.root := fun m _ => by rw [editsOf, he]; rfl
    obtain ⟨hb1, hb2⟩ := hw.bounds _ hroot
    have hz := Text.isBoundary_zero d.doc.chars
    have hl := Text.isBoundary_end d.doc.chars
    rw [hfree.render_eq h hw hroot, source, he]
    simp only [Except.map, Document.textOf, Document.slice, ← String.ofList_append]
    rw [Text.slice_join hz hb1 hb2 (Nat.zero_le _) (hw.start_le_stop hroot),
      Text.slice_join hz hb2 hl (Nat.zero_le _) (Text.le_byteLength hb2), Text.slice_full]
    rfl
  · rw [source, if_neg (by simpa using he)]
    rfl

theorem IsGrounded.exists_source (h : d.IsGrounded) (hw : d.doc.WellFormed) :
    ∃ text, d.source = .ok text := by
  rw [h.isDescending.source_eq_render hw, h.render_eq d.doc.root_mem_nodes]
  exact ⟨_, rfl⟩

theorem isTouched_of_mem (hw : d.doc.WellFormed) {e : Edit} (he : e ∈ d.edits)
    (hn : n ∈ d.doc.nodes) (hm : e.node ∈ n.preorder) : d.isTouched n := by
  obtain ⟨h1, h2⟩ := hw.span_of_mem_preorder hn hm
  exact List.any_eq_true.2 ⟨e, he, by simp [h1, h2]⟩

/-- A node that is not touched has no edit in it. -/
theorem IsPlaced.isFree (h : d.IsPlaced) (hw : d.doc.WellFormed) (hn : n ∈ d.doc.nodes)
    (ht : d.isTouched n = false) : d.IsFree n := by
  intro m hm
  refine List.filter_eq_nil_iff.2 fun e he hid => ?_
  have hmn : m ∈ d.doc.nodes := Node.mem_preorder_trans hm hn
  have heq : e.node = m := hw.node_eq_of_id (h e he) hmn (of_decide_eq_true hid)
  rw [isTouched_of_mem hw he hn (heq ▸ hm)] at ht
  cases ht

/-- A node that is not replaced is written from its children, whether it is touched or not. -/
theorem IsDescending.body_eq_weave (h : d.IsDescending) (hw : d.doc.WellFormed) (hp : d.IsPlaced)
    (hn : n ∈ d.doc.nodes) (hr : d.replacement? n.id = none) :
    d.body d.render n = d.weave d.render n.start n.children n.stop := by
  rw [body, hr]
  dsimp only
  cases ht : d.isTouched n with
  | true => rfl
  | false =>
    have hfree := hp.isFree hw hn ht
    rw [weave_verbatim hw hn fun c hc =>
      (hfree.child hc).render_eq h hw (Document.child_mem_nodes hn hc)]
    rfl

theorem IsGrounded.inside_eq_row (hg : d.IsGrounded) (hw : d.doc.WellFormed) (hp : d.IsPlaced)
    (hn : n ∈ d.doc.nodes) (hr : d.replacement? n.id = none) :
    d.inside n = Slot.texts d.written (d.rowSlots n.start n.children n.stop) := by
  have hbody : d.body d.render n = .ok (d.inside n) :=
    body_eq_texts d.written (hg.whole n hn) fun m hm => hg.render_eq (hg.mem_nodes hn hm)
  have hrow : d.weave d.render n.start n.children n.stop = _ :=
    weave_eq_texts fun c hc => hg.render_eq (Document.child_mem_nodes hn hc)
  rw [hg.isDescending.body_eq_weave hw hp hn hr, hrow] at hbody
  exact (Except.ok.inj hbody).symm

theorem rowSlots_withEdits (es : List Edit) (start : Nat) (cs : List Node) (stop : Nat) :
    rowSlots { d with edits := es } start cs stop = d.rowSlots start cs stop := by
  induction cs generalizing start with
  | nil => rfl
  | cons c cs ih => rw [rowSlots, rowSlots, ih]

/-- Two drafts with the same edits below a node, and the same replacement of it, write the same
inside. -/
theorem IsGrounded.renderWithin_of_agree (hg : d.IsGrounded) (hw : d.doc.WellFormed)
    {es : List Edit}
    (hp : d.IsPlaced) (hp' : IsPlaced { d with edits := es }) (hn : n ∈ d.doc.nodes)
    (hs : ∀ c ∈ n.children, ∀ m ∈ c.preorder, editsOf { d with edits := es } m.id = d.editsOf m.id)
    (hr : replacement? { d with edits := es } n.id = d.replacement? n.id) (hf : n.size ≤ fuel) :
    renderWithin { d with edits := es } fuel n =
      .ok (before { d with edits := es } n.id ++ d.inside n ++
        after { d with edits := es } n.id) := by
  induction fuel generalizing n with
  | zero =>
    rw [Node.size_eq] at hf
    omega
  | succ fuel ih =>
    -- The nodes inside agree altogether, so what the induction gives for them is their text in `d`.
    have hbelow : ∀ c ∈ n.children, ∀ m ∈ c.preorder,
        renderWithin { d with edits := es } fuel m = .ok (d.written m) := by
      intro c hc m hm
      have hmn : m ∈ d.doc.nodes := Node.mem_preorder_trans hm (Document.child_mem_nodes hn hc)
      have hlt := (Node.size_le_of_mem_preorder hm).trans_lt (Node.size_lt_of_child hc)
      have hedits := hs c hc m hm
      have hmr : replacement? { d with edits := es } m.id = d.replacement? m.id := by
        rw [replacement?, replacement?, hedits]
      have hbelow : ∀ b ∈ m.children, ∀ k ∈ b.preorder, _ := fun b hb k hk =>
        hs c hc k (Node.mem_preorder_trans (Node.mem_preorder_child hb hk) hm)
      rw [ih hmn hbelow hmr (by omega), hg.written_eq hmn]
      simp only [before, after, hedits]
    have hbody : body { d with edits := es } (renderWithin { d with edits := es } fuel) n =
        .ok (d.inside n) := by
      cases hrep : d.replacement? n.id with
      | some r =>
        have hslots : bodySlots { d with edits := es } n = d.bodySlots n := by
          rw [bodySlots_of_replacement? hrep, bodySlots_of_replacement? (hr.trans hrep)]
        rw [inside, ← hslots]
        refine body_eq_texts d.written (fun f hf => hg.whole n hn f (hr ▸ hf)) fun m hm => ?_
        rw [next, hslots] at hm
        obtain ⟨c, hc, hmc⟩ := hg.below n hn m hm
        exact hbelow c hc m hmc
      | none =>
        rw [hg.inside_eq_row hw hp hn hrep]
        rw [hrep] at hr
        cases ht : isTouched { d with edits := es } n with
        | true =>
          rw [body, hr, ← rowSlots_withEdits es]
          simp only [ht, if_true]
          exact weave_eq_texts fun c hc => hbelow c hc c c.mem_preorder_self
        | false =>
          have hfree := hp'.isFree hw hn ht
          have hchildren : ∀ c ∈ n.children, c ∈ d.doc.nodes ∧ d.written c = d.doc.textOf c := by
            intro c hc
            have hcn := Document.child_mem_nodes hn hc
            have hc' : d.IsFree c := fun m hm => (hs c hc m hm).symm.trans (hfree.child hc m hm)
            exact ⟨hcn, hc'.written_eq hg hw hcn⟩
          obtain ⟨hb1, hb2⟩ := hw.bounds n hn
          rw [texts_rowSlots hw hchildren (hw.rows n hn) hb1 hb2, body, hr]
          simp [ht, Document.textOf]
    rw [renderWithin_succ, hbody]
    rfl

end Draft
end Asyncify
