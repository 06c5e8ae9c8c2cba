import Mathlib.Data.List.Nodup
import Asyncify.Proofs.Places
import Asyncify.Proofs.Spans

/-! What a parser promises of the tree of a text. -/
namespace Asyncify

namespace Node

/-- Siblings lie one behind the other from `start` to `stop`. Any of them may be empty. -/
def InRow (start : Nat) : List Node → Nat → Prop
  | [], stop => start ≤ stop
  | c :: cs, stop => start ≤ c.start ∧ c.start ≤ c.stop ∧ InRow c.stop cs stop

instance decidableInRow : (start : Nat) → (cs : List Node) → (stop : Nat) →
    Decidable (InRow start cs stop)
  | start, [], stop => inferInstanceAs (Decidable (start ≤ stop))
  | start, c :: cs, stop =>
    have := decidableInRow c.stop cs stop
    inferInstanceAs (Decidable (start ≤ c.start ∧ c.start ≤ c.stop ∧ InRow c.stop cs stop))

theorem InRow.le {start stop : Nat} {cs : List Node} (h : InRow start cs stop) : start ≤ stop := by
  induction cs generalizing start with
  | nil => exact h
  | cons c cs ih =>
    obtain ⟨h1, h2, h3⟩ := h
    have := ih h3
    omega

theorem InRow.mem {start stop : Nat} {cs : List Node} {c : Node} (h : InRow start cs stop)
    (hc : c ∈ cs) : start ≤ c.start ∧ c.start ≤ c.stop ∧ c.stop ≤ stop := by
  induction cs generalizing start with
  | nil => cases hc
  | cons b cs ih =>
    obtain ⟨h1, h2, h3⟩ := h
    obtain rfl | hc := List.mem_cons.1 hc
    · exact ⟨h1, h2, h3.le⟩
    · obtain ⟨h4, h5, h6⟩ := ih h3 hc
      exact ⟨by omega, h5, h6⟩

end Node

namespace Document

/-- No two nodes share an identity, children lie in order inside their parent, and every span begins
and ends between characters. -/
structure WellFormed (doc : Document) : Prop where
  ids : (doc.nodes.map Node.id).Nodup
  rows : ∀ n ∈ doc.nodes, Node.InRow n.start n.children n.stop
  bounds : ∀ n ∈ doc.nodes, Text.isBoundary doc.chars n.start ∧ Text.isBoundary doc.chars n.stop

theorem map_id_places (doc : Document) : doc.places.map Place.id = doc.nodes.map Node.id := by
  rw [← map_node_places, List.map_map]
  rfl

/-- Where no two nodes share an identity, no two places do. -/
theorem place_eq_of_nodup {doc : Document} {p q : Place} (h : (doc.nodes.map Node.id).Nodup)
    (hp : p ∈ doc.places) (hq : q ∈ doc.places) (he : p.id = q.id) : p = q := by
  rw [← map_id_places] at h
  exact List.inj_on_of_nodup_map h hp hq he

instance (doc : Document) : Decidable doc.WellFormed :=
  decidable_of_iff ((doc.nodes.map Node.id).Nodup ∧
      (∀ n ∈ doc.nodes, Node.InRow n.start n.children n.stop) ∧
      ∀ n ∈ doc.nodes, Text.isBoundary doc.chars n.start ∧ Text.isBoundary doc.chars n.stop)
    ⟨fun h => ⟨h.1, h.2.1, h.2.2⟩, fun h => ⟨h.ids, h.rows, h.bounds⟩⟩

namespace WellFormed

variable {doc : Document} {m n c : Node} {p q : Place}

theorem start_le_stop (h : doc.WellFormed) (hn : n ∈ doc.nodes) : n.start ≤ n.stop :=
  (h.rows n hn).le

theorem child_span (h : doc.WellFormed) (hn : n ∈ doc.nodes) (hc : c ∈ n.children) :
    n.start ≤ c.start ∧ c.stop ≤ n.stop := by
  obtain ⟨h1, -, h2⟩ := (h.rows n hn).mem hc
  exact ⟨h1, h2⟩

/-- Whatever lies below a node lies inside its span. -/
theorem span_of_mem_preorder (h : doc.WellFormed) (hn : n ∈ doc.nodes) (hm : m ∈ n.preorder) :
    n.start ≤ m.start ∧ m.stop ≤ n.stop := by
  induction n using Node.induction with
  | h i cs ih =>
    obtain rfl | ⟨c, hc, hm⟩ := Node.mem_preorder_iff.1 hm
    · exact ⟨Nat.le_refl _, Nat.le_refl _⟩
    · obtain ⟨h1, h2⟩ := h.child_span hn hc
      obtain ⟨h3, h4⟩ := ih c hc (child_mem_nodes hn hc) hm
      exact ⟨h1.trans h3, h4.trans h2⟩

/-- The text of a node holds the texts of all nodes below it. -/
theorem textOf_infix (h : doc.WellFormed) (hn : n ∈ doc.nodes) (hm : m ∈ n.preorder) :
    (doc.textOf m).toList <:+: (doc.textOf n).toList := by
  have hmn : m ∈ doc.nodes := Node.mem_preorder_trans hm hn
  obtain ⟨h1, h2⟩ := h.span_of_mem_preorder hn hm
  obtain ⟨ha, hd⟩ := h.bounds n hn
  obtain ⟨hb, hc⟩ := h.bounds m hmn
  simp only [textOf, slice, String.toList_ofList]
  exact Text.slice_infix ha hb hc hd h1 (h.start_le_stop hmn) h2

theorem node_eq_of_id (h : doc.WellFormed) (hm : m ∈ doc.nodes) (hn : n ∈ doc.nodes)
    (he : m.id = n.id) : m = n :=
  List.inj_on_of_nodup_map h.ids hm hn he

theorem nodup_places (h : doc.WellFormed) : (doc.places.map Place.id).Nodup := by
  rw [map_id_places]
  exact h.ids

theorem place_eq_of_id (h : doc.WellFormed) (hp : p ∈ doc.places) (hq : q ∈ doc.places)
    (he : p.id = q.id) : p = q :=
  place_eq_of_nodup h.ids hp hq he

/-- What is around a place is what holds it below. -/
theorem mem_above_iff (h : doc.WellFormed) (hp : p ∈ doc.places) (hn : n ∈ doc.nodes) :
    n ∈ p.above ↔ ∃ c ∈ n.children, p.node ∈ c.preorder := by
  refine ⟨fun hin => (exists_child_of_mem_above hp hin).2, ?_⟩
  rintro ⟨c, hc, hin⟩
  obtain ⟨q, hq, rfl⟩ := exists_place hn
  obtain ⟨r, hr, hnode, habove⟩ :=
    exists_place_below (child_mem_places hq (List.mem_map_of_mem hc)) hin
  obtain rfl : r = p := h.place_eq_of_id hr hp (congrArg Node.id hnode)
  exact habove List.mem_cons_self

end WellFormed
end Document
end Asyncify
