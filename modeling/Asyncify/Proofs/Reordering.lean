import Asyncify.Proofs.Descent

/-! The order in which edits are recorded matters at one node only: runs that keep it there write
every node alike. -/
namespace Asyncify

/-- Two runs of the same edits, with those of each node in the same order. -/
structure Edit.Reorders (es es' : List Edit) : Prop where
  perm : es.Perm es'
  order : ∀ id, (es.filter fun e => e.node.id = id) = es'.filter fun e => e.node.id = id

namespace Draft

variable {doc : Document} {es es' : List Edit}

/-- One level of writing depends on the run through the edits of the node and the set of edited
nodes. -/
theorem body_of_reorders (h : Edit.Reorders es es') (render : Node → Except Fault String)
    (n : Node) :
    body { doc, edits := es } render n = body { doc, edits := es' } render n := by
  have hr : replacement? { doc, edits := es } n.id = replacement? { doc, edits := es' } n.id := by
    simp only [replacement?, editsOf, h.order]
  have ht : isTouched { doc, edits := es } n = isTouched { doc, edits := es' } n := h.perm.any_eq
  simp only [body, hr, ht]
  rw [weave_withEdits { doc, edits := es' } es]

theorem renderWithin_of_reorders (h : Edit.Reorders es es') (fuel : Nat) :
    renderWithin { doc, edits := es } fuel = renderWithin { doc, edits := es' } fuel := by
  induction fuel with
  | zero => rfl
  | succ fuel ih =>
    funext n
    rw [renderWithin_succ, renderWithin_succ, ih, body_of_reorders h]
    simp only [before, after, editsOf, h.order]

theorem render_of_reorders (h : Edit.Reorders es es') :
    render { doc, edits := es } = render { doc, edits := es' } := by
  funext n
  rw [render, render, renderWithin_of_reorders h]

theorem source_of_reorders (h : Edit.Reorders es es') :
    source { doc, edits := es } = source { doc, edits := es' } := by
  have he : es.isEmpty = es'.isEmpty := by
    rw [Bool.eq_iff_iff, List.isEmpty_iff_length_eq_zero, List.isEmpty_iff_length_eq_zero,
      h.perm.length_eq]
  simp only [source, he, render_of_reorders h]

/-- A replacement that no later one of the node supersedes is the one that counts. -/
theorem replacement?_of_last {xs ys : List Edit} {e : Edit} {r : Replacement}
    (ha : e.action = .replace r) (hlast : ∀ y ∈ ys, y.node.id = e.node.id → y.replacement? = none) :
    replacement? { doc, edits := xs ++ e :: ys } e.node.id = some r := by
  have he : e.replacement? = some r := by rw [Edit.replacement?, ha]
  have hys : (ys.filter fun y => y.node.id = e.node.id).filterMap Edit.replacement? = [] := by
    refine List.filterMap_eq_nil_iff.2 fun y hy => ?_
    obtain ⟨hy, hid⟩ := List.mem_filter.1 hy
    exact hlast y hy (of_decide_eq_true hid)
  simp [replacement?, editsOf, List.filter_append, List.filterMap_append, hys, he]

/-- Two runs of edits with the same order at each node write the document and every node of it
alike. What stands in place of a node is written with all edits of the run, those recorded later
among them. -/
theorem written_alike_of_reorders (hw : doc.WellFormed) (hes : ∀ e ∈ es, doc.Draws e)
    (h : Edit.Reorders es es') :
    (∃ text, (es.foldl record { doc }).source = .ok text ∧
      (es'.foldl record { doc }).source = .ok text) ∧
      (∀ n ∈ doc.nodes, ∃ text,
        (es.foldl record { doc }).render n = .ok text ∧
        (es'.foldl record { doc }).render n = .ok text) ∧
      ∀ xs e ys r, es = xs ++ e :: ys → e.action = .replace r →
        (∀ y ∈ ys, y.node.id = e.node.id → y.replacement? = none) →
        ∃ text, r.write (es'.foldl record { doc }).render doc.newline = .ok text ∧
          (es.foldl record { doc }).render e.node =
            .ok ((es.foldl record { doc }).before e.node.id ++ text ++
              (es.foldl record { doc }).after e.node.id) := by
  have hg : IsGrounded { doc, edits := es } := .of_draws hw hes
  simp only [foldl_record_fresh, ← source_of_reorders h, ← render_of_reorders h, and_self]
  refine ⟨?_, fun n hn => ⟨_, hg.render_eq hn⟩, ?_⟩
  · by_cases hnil : es = []
    · exact ⟨doc.text, by simp [source, hnil]⟩
    · exact ⟨_, hg.source_eq hnil⟩
  · rintro xs e ys r rfl ha hlast
    have hn : e.node ∈ doc.nodes := (hes e (by simp)).node
    refine ⟨_, hg.write_eq_inside hn (replacement?_of_last ha hlast), ?_⟩
    rw [hg.render_eq hn, hg.written_eq hn]

end Draft

namespace Sample

/-- The replacement of the call shows the innermost node of its argument. -/
def replacing : Edit := ⟨⟨call, []⟩, .replace (.joined [.text "g(", .node inner, .text ")"]), ""⟩

def wrapping : Edit := ⟨⟨call, []⟩, .wrap "(" ")", ""⟩

def inserting : Edit := ⟨⟨inner, []⟩, .insert "await ", ""⟩

theorem draws : ∀ e ∈ [replacing, wrapping, inserting], doc.Draws e := by
  have hcall : call ∈ doc.nodes := List.mem_of_getElem? (i := 2) rfl
  have hbelow : ∃ c ∈ call.children, inner ∈ c.preorder :=
    ⟨_, List.mem_of_getElem? (i := 1) rfl, List.mem_of_getElem? (i := 3) rfl⟩
  obtain ⟨c, hc, hinner⟩ := hbelow
  simp only [List.forall_mem_cons]
  refine ⟨.of_joined hcall rfl fun m hm => ?_, .of_isLiteral hcall rfl,
    .of_isLiteral (Node.mem_preorder_trans (Node.mem_preorder_child hc hinner) hcall) rfl, by simp⟩
  obtain rfl : m = inner := by simpa using hm
  exact ⟨c, hc, hinner⟩

end Sample

/-- An insertion behind the replacement shows in it as one before it does. -/
theorem Draft.written_alike_sample :
    Sample.doc.WellFormed ∧
      (∀ e ∈ [Sample.replacing, Sample.wrapping, Sample.inserting], Sample.doc.Draws e) ∧
      Edit.Reorders [Sample.replacing, Sample.wrapping, Sample.inserting]
        [Sample.inserting, Sample.replacing, Sample.wrapping] ∧
      ([Sample.replacing, Sample.wrapping, Sample.inserting].foldl record
        { doc := Sample.doc }).source = .ok "(g(await a));x" ∧
      ([Sample.inserting, Sample.replacing, Sample.wrapping].foldl record
        { doc := Sample.doc }).source = .ok "(g(await a));x" := by
  have hr : Edit.Reorders [Sample.replacing, Sample.wrapping, Sample.inserting]
      [Sample.inserting, Sample.replacing, Sample.wrapping] := by
    refine ⟨List.perm_append_singleton Sample.inserting [_, _], fun id => ?_⟩
    by_cases h : Sample.inserting.node.id = id
    · subst h
      rfl
    · simp [List.filter_cons, h]
  obtain ⟨⟨text, h1, h2⟩, -⟩ := written_alike_of_reorders Sample.wellFormed Sample.draws hr
  have hs : ([Sample.replacing, Sample.wrapping, Sample.inserting].foldl record
      { doc := Sample.doc }).source = .ok "(g(await a));x" := by decide +kernel
  exact ⟨Sample.wellFormed, Sample.draws, hr, hs, h2.trans (h1.symm.trans hs)⟩

end Asyncify
