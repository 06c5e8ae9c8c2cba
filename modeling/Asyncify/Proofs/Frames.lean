import Asyncify.Proofs.Descent
import Asyncify.Proofs.Runs

/-! Drafts that differ at some places and below them only: what they write around these places is
the same text, and they can be written just if these places can. -/
namespace Asyncify

namespace Text

/-- A text with pieces in its gaps: its first part, then each piece with the part behind it. -/
def fill (first : String) : List String → List String → String
  | p :: ps, part :: rest => first ++ p ++ fill part ps rest
  | _, _ => first

theorem fill_append (text first : String) (ps rest : List String) :
    fill (text ++ first) ps rest = text ++ fill first ps rest := by
  cases ps with
  | nil => simp [fill]
  | cons p ps => cases rest <;> simp [fill, String.append_assoc]

end Text

namespace Piece

/-- Pieces one behind the other. -/
def write (render : Node → Except Fault String) : List Piece → Except Fault String
  | [] => .ok ""
  | .text s :: ps => (write render ps).map (s ++ ·)
  | .node n :: ps => do
    let text ← render n
    let rest ← write render ps
    return text ++ rest

variable {render : Node → Except Fault String}

@[simp] theorem nodes_nil : nodes [] = [] := rfl

@[simp] theorem nodes_text (s : String) (ps : List Piece) : nodes (.text s :: ps) = nodes ps := rfl

@[simp] theorem nodes_node (n : Node) (ps : List Piece) : nodes (.node n :: ps) = n :: nodes ps :=
  rfl

@[simp] theorem nodes_append (ps qs : List Piece) : nodes (ps ++ qs) = nodes ps ++ nodes qs :=
  List.filterMap_append

theorem write_append (ps qs : List Piece) :
    write render (ps ++ qs) = (write render ps).bind fun text =>
      (write render qs).map (text ++ ·) := by
  induction ps with
  | nil => cases h : write render qs <;> simp [write, h, Except.bind, Except.map]
  | cons p ps ih =>
    cases p with
    | text s =>
      rw [List.cons_append, write, write, ih]
      cases write render ps <;> cases write render qs <;> simp [Except.bind, Except.map,
        String.append_assoc]
    | node n =>
      rw [List.cons_append, write, write, ih]
      cases render n <;> cases write render ps <;> cases write render qs <;>
        simp [bind, Except.bind, Except.map, pure, Except.pure, String.append_assoc]

/-- The nodes are written into the gaps of one text. -/
theorem exists_fill (ps : List Piece) :
    ∃ first rest, rest.length = (nodes ps).length ∧ ∀ render,
      write render ps = ((nodes ps).mapM render).map fun texts => Text.fill first texts rest := by
  induction ps with
  | nil => exact ⟨"", [], rfl, fun _ => rfl⟩
  | cons p ps ih =>
    obtain ⟨first, rest, hlength, hfill⟩ := ih
    cases p with
    | text s =>
      refine ⟨s ++ first, rest, hlength, fun render => ?_⟩
      rw [write, hfill, nodes_text]
      cases (nodes ps).mapM render <;> simp [Except.map, Text.fill_append]
    | node n =>
      refine ⟨"", first :: rest, by simp [hlength], fun render => ?_⟩
      rw [write, hfill, nodes_node, List.mapM_cons]
      cases render n <;> cases (nodes ps).mapM render <;>
        simp [bind, Except.bind, Except.map, pure, Except.pure, Text.fill]

end Piece

/-- The place is neither of some kind nor below a place of it. -/
def Place.isOutside (stops : Place → Bool) (p : Place) : Bool := !(p :: p.ancestors).any stops

theorem Place.isOutside_eq_false {stops : Place → Bool} {p q : Place} (hp : p ∈ q :: q.ancestors)
    (hstop : stops p) : q.isOutside stops = false := by
  rw [isOutside, List.any_eq_true.2 ⟨p, hp, hstop⟩]
  rfl

/-- The places of some kind that are below no other. -/
def Document.outermost (doc : Document) (stops : Place → Bool) : List Place :=
  doc.places.filter fun p => stops p && !p.ancestors.any stops

namespace Draft

variable (d : Draft) (stops : Place → Bool)

mutual

/-- What is written for a node, with the outermost places of some kind left open. -/
def frame (above : List Node) : Node → List Piece
  | .mk i cs =>
    if stops ⟨.mk i cs, above⟩ then [.node (.mk i cs)]
    else
      .text (d.before i.id) ::
        ((if d.isReplaced (.mk i cs) then [.text (d.inside (.mk i cs))]
          else frameRow (.mk i cs :: above) i.start cs i.stop) ++ [.text (d.after i.id)])

/-- Siblings and the source between them. -/
def frameRow (above : List Node) (cursor : Nat) : List Node → Nat → List Piece
  | [], stop => [.text (d.doc.slice cursor stop)]
  | c :: cs, stop =>
    .text (d.doc.slice cursor c.start) :: (frame above c ++ frameRow above c.stop cs stop)

end

/-- What is written for the document, with the outermost places of some kind left open. -/
def outline : List Piece :=
  .text (d.doc.slice 0 d.doc.root.start) ::
    (d.frame stops [] d.doc.root ++
      [.text (d.doc.slice d.doc.root.stop (Text.byteLength d.doc.chars))])

theorem frame_eq (p : Place) :
    d.frame stops p.above p.node =
      if stops p then [.node p.node]
      else
        .text (d.before p.id) ::
          ((if d.isReplaced p.node then [.text (d.inside p.node)]
            else d.frameRow stops (p.node :: p.above) p.node.start p.node.children p.node.stop) ++
            [.text (d.after p.id)]) := by
  obtain ⟨⟨i, cs⟩, above⟩ := p
  rw [frame]
  rfl

variable {d stops} {p : Place} {es : List Edit}

theorem nodes_frameRow (above cs : List Node) (cursor stop : Nat) :
    Piece.nodes (d.frameRow stops above cursor cs stop) =
      cs.flatMap fun c => Piece.nodes (d.frame stops above c) := by
  induction cs generalizing cursor with
  | nil => rfl
  | cons c cs ih => simp [frameRow, ih]

/-- The nodes left open are the outermost of their kind, if no such node is in a replaced one. -/
theorem nodes_frame
    (hbare : ∀ p ∈ d.doc.places, d.isReplaced p.node → ∀ q ∈ Place.under p.above p.node,
    stops q = false) (hp : p ∈ d.doc.places) (hout : p.ancestors.any stops = false) :
    Piece.nodes (d.frame stops p.above p.node) =
      ((Place.under p.above p.node).filter fun q => stops q && !q.ancestors.any stops).map
        Place.node := by
  induction p using Place.induction with
  | h p ih =>
    rw [frame_eq, Place.under_eq]
    cases hstop : stops p with
    | true =>
      have hbelow : (p.node.children.flatMap (Place.under (p.node :: p.above))).filter
          (fun q => stops q && !q.ancestors.any stops) = [] := by
        refine List.filter_eq_nil_iff.2 fun q hq => ?_
        obtain ⟨c, hc, hq⟩ := List.mem_flatMap.1 hq
        have hany : q.ancestors.any stops :=
          List.any_eq_true.2 ⟨p, Place.mem_ancestors_of_mem_under hq, hstop⟩
        simp [hany]
      rw [List.filter_cons_of_pos (by simpa [hstop] using hout), hbelow]
      rfl
    | false =>
      rw [List.filter_cons_of_neg (by simp [hstop])]
      cases hrep : d.isReplaced p.node with
      | true =>
        have hnone : (p.node.children.flatMap (Place.under (p.node :: p.above))).filter
            (fun q => stops q && !q.ancestors.any stops) = [] := by
          refine List.filter_eq_nil_iff.2 fun q hq => ?_
          rw [hbare p hp hrep q (by rw [Place.under_eq]; exact List.mem_cons_of_mem _ hq)]
          simp
        rw [hnone]
        rfl
      | false =>
        have hchild : ∀ c ∈ p.node.children, Piece.nodes (d.frame stops (p.node :: p.above) c) =
            ((Place.under (p.node :: p.above) c).filter fun q =>
              stops q && !q.ancestors.any stops).map
              Place.node := by
          intro c hc
          exact ih c hc (Document.child_mem_places hp (List.mem_map_of_mem hc))
            (by simp [hstop, hout])
        simp [nodes_frameRow, List.filter_flatMap, List.map_flatMap, List.flatMap_congr hchild]

theorem nodes_outline
    (hbare : ∀ p ∈ d.doc.places, d.isReplaced p.node → ∀ q ∈ Place.under p.above p.node,
      stops q = false) :
    Piece.nodes (d.outline stops) = (d.doc.outermost stops).map Place.node := by
  have hframe : Piece.nodes (d.frame stops [] d.doc.root) = _ :=
    nodes_frame (p := Place.ofRoot d.doc.root) hbare d.doc.root_mem_places rfl
  rw [outline, Piece.nodes_text, Piece.nodes_append, Piece.nodes_text, Piece.nodes_nil,
    List.append_nil, Document.outermost, d.doc.places_eq_under]
  exact hframe

theorem inside_of_literal {n : Node} {v : Value} (h : d.replacement? n.id = some (.literal v)) :
    d.inside n = v.display := by
  rw [inside, bodySlots_of_replacement? h]
  simp [Replacement.slots, Slot.texts, Slot.text]

theorem weave_eq_frameRow {render : Node → Except Fault String} {above cs : List Node}
    (h : ∀ c ∈ cs, render c = Piece.write render (d.frame stops above c)) (cursor stop : Nat) :
    d.weave render cursor cs stop = Piece.write render (d.frameRow stops above cursor cs stop) := by
  induction cs generalizing cursor with
  | nil => simp [weave, frameRow, Piece.write, Except.map]
  | cons c cs ih =>
    rw [weave, frameRow, Piece.write, Piece.write_append, ← h c List.mem_cons_self,
      ih fun b hb => h b (List.mem_cons_of_mem _ hb)]
    cases render c <;> cases Piece.write render (d.frameRow stops above c.stop cs stop) <;>
      simp [bind, Except.bind, Except.map, pure, Except.pure, String.append_assoc]

/-- A draft that has the edits of another one around the places of some kind writes what the other
one leaves around them. -/
theorem IsDescending.render_eq_frame (hd : IsDescending { d with edits := es })
    (hw : d.doc.WellFormed)
    (hplaced : IsPlaced { d with edits := es }) (hl : ∀ e ∈ d.edits, e.isLiteral)
    (hsame : ∀ p ∈ d.doc.places, p.isOutside stops →
      editsOf { d with edits := es } p.id = d.editsOf p.id)
    (hp : p ∈ d.doc.places) (hout : p.ancestors.any stops = false) :
    render { d with edits := es } p.node =
      Piece.write (render { d with edits := es }) (d.frame stops p.above p.node) := by
  -- going down the places: a child of a place that is not left open has none of the kind above it
  -- either
  induction p using Place.induction with
  | h p ih =>
    rw [frame_eq]
    cases hstop : stops p with
    | true =>
      cases h : render { d with edits := es } p.node <;>
        simp [Piece.write, h, bind, Except.bind, pure, Except.pure]
    | false =>
      have hn : p.node ∈ d.doc.nodes := Document.node_mem_nodes hp
      have hedits : editsOf { d with edits := es } p.node.id = d.editsOf p.node.id :=
        hsame p hp (by simp [Place.isOutside, hstop, hout])
      have hr : replacement? { d with edits := es } p.node.id = d.replacement? p.node.id := by
        rw [replacement?, replacement?, hedits]
      have hbody : body { d with edits := es } (render { d with edits := es }) p.node =
          Piece.write (render { d with edits := es })
            (if d.isReplaced p.node then [.text (d.inside p.node)]
              else d.frameRow stops (p.node :: p.above) p.node.start p.node.children
                p.node.stop) := by
        cases hrep : d.replacement? p.node.id with
        | some r =>
          obtain ⟨e, he, -, ha⟩ := exists_of_replacement? hrep
          obtain ⟨v, rfl⟩ := Edit.eq_literal (hl e he) ha
          rw [body, hr, hrep, isReplaced, hrep, inside_of_literal hrep]
          simp [Replacement.write, Piece.write, Except.map]
        | none =>
          have hnot : ¬ d.isReplaced p.node := by simp [isReplaced, hrep]
          rw [hd.body_eq_weave hw hplaced hn (hr.trans hrep), if_neg hnot, weave_withEdits]
          refine weave_eq_frameRow (fun c hc => ?_) _ _
          exact ih c hc (Document.child_mem_places hp (List.mem_map_of_mem hc))
            (by simp [hstop, hout])
      have hbefore : before { d with edits := es } p.node.id = d.before p.node.id := by
        rw [before, before, hedits]
      have hafter : after { d with edits := es } p.node.id = d.after p.node.id := by
        rw [after, after, hedits]
      rw [if_neg Bool.false_ne_true, hd.render_eq_body hn, hbody, hbefore, hafter, Piece.write,
        Piece.write_append]
      cases Piece.write (render { d with edits := es }) _ <;>
        simp [Piece.write, Except.bind, Except.map, String.append_assoc, Place.id]

theorem IsDescending.source_eq_outline (hd : IsDescending { d with edits := es })
    (hw : d.doc.WellFormed)
    (hplaced : IsPlaced { d with edits := es }) (hl : ∀ e ∈ d.edits, e.isLiteral)
    (hsame : ∀ p ∈ d.doc.places, p.isOutside stops →
      editsOf { d with edits := es } p.id = d.editsOf p.id) :
    source { d with edits := es } = Piece.write (render { d with edits := es })
      (d.outline stops) := by
  have hroot : render { d with edits := es } d.doc.root =
      Piece.write (render { d with edits := es }) (d.frame stops [] d.doc.root) :=
    hd.render_eq_frame (p := Place.ofRoot d.doc.root) hw hplaced hl hsame d.doc.root_mem_places rfl
  rw [hd.source_eq_render hw, hroot, outline, Piece.write, Piece.write_append]
  cases Piece.write (render { d with edits := es }) (d.frame stops [] d.doc.root) <;>
    simp [Piece.write, Except.bind, Except.map, String.append_assoc]

variable {d' : Draft}

/-- The edits outside places of some kind. -/
def editsOutside (d : Draft) (stops : Place → Bool) : List Edit :=
  d.edits.filter fun e => e.place.isOutside stops

/-- Two drafts of a document with the same edits outside places of some kind. They write the same
text, that of these edits, but for the pieces that each of them writes for the outermost of the
places. -/
structure SameOutside (stops : Place → Bool) (d d' : Draft) : Prop where
  doc : d'.doc = d.doc
  edits : d.editsOutside stops = d'.editsOutside stops
  text : ∃ first rest, rest.length = (d.doc.outermost stops).length ∧
    d.source = ((d.doc.outermost stops).mapM fun p => d.render p.node).map
      (fun pieces => Text.fill first pieces rest) ∧
    d'.source = ((d.doc.outermost stops).mapM fun p => d'.render p.node).map
      (fun pieces => Text.fill first pieces rest) ∧
    source { d with edits := d.editsOutside stops } =
      .ok (Text.fill first ((d.doc.outermost stops).map fun p => d.doc.textOf p.node) rest)

theorem editsOf_editsOutside {p : Place} (hw : d.doc.WellFormed)
    (hes : ∀ e ∈ d.edits, e.place ∈ d.doc.places)
    (hp : p ∈ d.doc.places) (hout : p.isOutside stops) :
    editsOf { d with edits := d.editsOutside stops } p.id = d.editsOf p.id := by
  rw [editsOf, editsOf, editsOutside, List.filter_filter]
  refine List.filter_congr fun e he => ?_
  by_cases hid : e.node.id = p.id
  · obtain rfl : e.place = p := hw.place_eq_of_id (hes e he) hp hid
    simp [hid, hout]
  · simp [hid]

/-- No edit outside the places is in one of them. -/
theorem isFree_editsOutside {p : Place} (hw : d.doc.WellFormed)
    (hes : ∀ e ∈ d.edits, e.place ∈ d.doc.places) (hp : p ∈ d.doc.places) (hstop : stops p) :
    IsFree { d with edits := d.editsOutside stops } p.node := by
  intro m hm
  refine List.filter_eq_nil_iff.2 fun e he hid => ?_
  obtain ⟨he, hout⟩ := List.mem_filter.1 he
  rw [← Place.map_node_under p.above] at hm
  obtain ⟨q, hq, rfl⟩ := List.mem_map.1 hm
  obtain rfl : e.place = q :=
    hw.place_eq_of_id (hes e he) (Document.under_subset_places hp hq) (of_decide_eq_true hid)
  rw [Place.isOutside_eq_false (Place.mem_of_mem_under hq) hstop] at hout
  cases hout

theorem editsOutside_editsOutside (d : Draft) (stops : Place → Bool) :
    editsOutside { d with edits := d.editsOutside stops } stops = d.editsOutside stops := by
  simp [editsOutside, List.filter_filter]

/-- Drafts of texts are descending: no node stands in place of another. -/
theorem isDescending_of_isLiteral (hl : ∀ e ∈ d.edits, e.isLiteral) : d.IsDescending := by
  intro n _ r hr m hm
  obtain ⟨e, he, -, ha⟩ := exists_of_replacement? hr
  obtain ⟨v, rfl⟩ := Edit.eq_literal (hl e he) ha
  cases hm

/-- All drafts with given edits outside places of some kind write one text, with gaps for the
outermost of the places. The edits are texts, and none of them replaces a node with such a place in
it. -/
theorem exists_fill (hw : d.doc.WellFormed) (hes : ∀ e ∈ d.edits, e.place ∈ d.doc.places)
    (hl : ∀ e ∈ d.editsOutside stops, e.isLiteral)
    (hbare : ∀ e ∈ d.editsOutside stops, e.replacement?.isSome →
      ∀ q ∈ Place.under e.place.above e.place.node, stops q = false) :
    ∃ first rest, rest.length = (d.doc.outermost stops).length ∧
      ∀ es, (∀ e ∈ es, e.place ∈ d.doc.places) →
        editsOutside { d with edits := es } stops = d.editsOutside stops →
        IsDescending { d with edits := es } →
        source { d with edits := es } =
          ((d.doc.outermost stops).mapM fun p => render { d with edits := es } p.node).map
            fun pieces => Text.fill first pieces rest := by
  have hbare' : ∀ p ∈ d.doc.places, isReplaced { d with edits := d.editsOutside stops } p.node →
      ∀ q ∈ Place.under p.above p.node, stops q = false := by
    intro p hp hrep
    obtain ⟨e, he, hid, hsome⟩ := (isReplaced_iff _ _).1 hrep
    obtain rfl : e.place = p := hw.place_eq_of_id (hes e (List.mem_of_mem_filter he)) hp hid
    exact hbare e he hsome
  have hnodes : Piece.nodes (outline { d with edits := d.editsOutside stops } stops) =
      (d.doc.outermost stops).map Place.node := nodes_outline hbare'
  obtain ⟨first, rest, hlength, hfill⟩ :=
    Piece.exists_fill (outline { d with edits := d.editsOutside stops } stops)
  rw [hnodes, List.length_map] at hlength
  refine ⟨first, rest, hlength, fun es hes' hout hd => ?_⟩
  have hsame : ∀ p ∈ d.doc.places, p.isOutside stops →
      editsOf { d with edits := es } p.id =
        editsOf { d with edits := d.editsOutside stops } p.id := by
    intro p hp hp'
    rw [← hout]
    exact (editsOf_editsOutside (d := { d with edits := es }) hw hes' hp hp').symm
  have hsource := hd.source_eq_outline (d := { d with edits := d.editsOutside stops }) hw
    (fun e he => Document.node_mem_nodes (hes' e he)) hl hsame
  rw [hfill, hnodes, List.mapM_map] at hsource
  exact hsource

theorem sameOutside (hw : d.doc.WellFormed) (hdoc : d'.doc = d.doc)
    (hes : ∀ e ∈ d.edits, e.place ∈ d.doc.places) (hes' : ∀ e ∈ d'.edits, e.place ∈ d.doc.places)
    (hedits : d.editsOutside stops = d'.editsOutside stops)
    (hl : ∀ e ∈ d.editsOutside stops, e.isLiteral)
    (hbare : ∀ e ∈ d.editsOutside stops, e.replacement?.isSome →
      ∀ q ∈ Place.under e.place.above e.place.node, stops q = false)
    (hd : d.IsDescending) (hd' : d'.IsDescending) : SameOutside stops d d' := by
  obtain ⟨doc, es⟩ := d
  obtain ⟨doc', es'⟩ := d'
  obtain rfl : doc = doc' := hdoc.symm
  obtain ⟨first, rest, hlength, hfill⟩ := exists_fill hw hes hl hbare
  refine ⟨rfl, hedits, first, rest, hlength, hfill es hes rfl hd,
    hfill es' hes' hedits.symm hd', ?_⟩
  have hcommon : IsDescending { doc, edits := editsOutside { doc, edits := es } stops } :=
    isDescending_of_isLiteral hl
  have hpieces : ((doc.outermost stops).mapM fun p =>
      render { doc, edits := editsOutside { doc, edits := es } stops } p.node) =
        .ok ((doc.outermost stops).map fun p => doc.textOf p.node) := by
    rw [Except.mapM_eq_ok_iff, List.map_map]
    refine List.map_congr_left fun p hp => ?_
    obtain ⟨hp, hs⟩ := List.mem_filter.1 hp
    have hfree := isFree_editsOutside hw hes hp (Bool.and_eq_true_iff.1 hs).1
    exact hfree.render_eq hcommon hw (Document.node_mem_nodes hp)
  have hsource :=
    hfill _ (fun e he => hes e (List.mem_of_mem_filter he)) (editsOutside_editsOutside _ _) hcommon
  exact hsource.trans (congrArg (Except.map fun pieces => Text.fill first pieces rest) hpieces)

end Draft
end Asyncify
