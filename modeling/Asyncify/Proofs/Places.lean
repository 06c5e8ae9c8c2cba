import Mathlib.Algebra.Order.Group.Nat
import Mathlib.Data.List.Basic
import Asyncify.Document

/-! The places of a tree: the walk as a recursion on the tree, and how places lie above and below
one another. -/
namespace Asyncify

namespace Node

/-- What holds of a node as soon as it holds of its children holds of every node. -/
@[elab_as_elim] theorem induction {P : Node → Prop}
    (h : ∀ i cs, (∀ c ∈ cs, P c) → P (mk i cs)) (n : Node) : P n := by
  match n with
  | mk i cs => exact h i cs fun c _ => induction h c

mutual

/-- The node and everything below it, in document order. -/
def preorder : Node → List Node
  | mk i cs => mk i cs :: preorders cs

def preorders : List Node → List Node
  | [] => []
  | n :: ns => preorder n ++ preorders ns

end

mutual

theorem length_preorder : (n : Node) → n.preorder.length = n.size
  | mk _ cs => by simp [preorder, size, length_preorders cs]

theorem length_preorders : (ns : List Node) → (preorders ns).length = sizes ns
  | [] => rfl
  | n :: ns => by simp [preorders, sizes, length_preorder n, length_preorders ns]

end

theorem preorders_eq_flatMap (ns : List Node) : preorders ns = ns.flatMap preorder := by
  induction ns with
  | nil => rfl
  | cons n ns ih => simp [preorders, ih]

theorem preorder_eq (n : Node) : n.preorder = n :: n.children.flatMap preorder := by
  cases n
  simp [preorder, preorders_eq_flatMap]

theorem mem_preorder_self (n : Node) : n ∈ n.preorder := by
  rw [preorder_eq]
  exact List.mem_cons_self

theorem mem_preorder_iff {m n : Node} :
    m ∈ n.preorder ↔ m = n ∨ ∃ c ∈ n.children, m ∈ c.preorder := by
  rw [preorder_eq]
  simp

theorem mem_preorder_child {m c n : Node} (hc : c ∈ n.children) (hm : m ∈ c.preorder) :
    m ∈ n.preorder :=
  mem_preorder_iff.2 (Or.inr ⟨c, hc, hm⟩)

theorem mem_preorder_trans {l m n : Node} (hl : l ∈ m.preorder) (hm : m ∈ n.preorder) :
    l ∈ n.preorder := by
  induction n using Node.induction with
  | h i cs ih =>
    obtain rfl | ⟨c, hc, hm⟩ := mem_preorder_iff.1 hm
    · exact hl
    · exact mem_preorder_child hc (ih c hc hm)

theorem mem_preorder_of_child {m c n : Node} (hc : c ∈ m.children) (hm : m ∈ n.preorder) :
    c ∈ n.preorder :=
  mem_preorder_trans (mem_preorder_child hc (mem_preorder_self c)) hm

theorem mem_children_of_child? {n c : Node} {f : Field} (h : n.child? f = some c) :
    c ∈ n.children :=
  List.mem_of_find?_eq_some h

theorem size_lt_of_child {n c : Node} (h : c ∈ n.children) : c.size < n.size := by
  obtain ⟨before, after, hs⟩ := List.append_of_mem h
  rw [size_eq n, hs, sizes_append, sizes]
  omega

theorem preorder_sublist {m n : Node} (h : m ∈ n.preorder) : m.preorder.Sublist n.preorder := by
  induction n using Node.induction with
  | h i cs ih =>
    obtain rfl | ⟨c, hc, hm⟩ := mem_preorder_iff.1 h
    · exact List.Sublist.refl _
    · obtain ⟨l, r, hlr⟩ := List.append_of_mem hc
      have hsub : c.preorder.Sublist ((mk i cs).children.flatMap preorder) := by
        rw [hlr, List.flatMap_append, List.flatMap_cons]
        exact (List.sublist_append_left _ _).trans (List.sublist_append_right _ _)
      rw [preorder_eq (mk i cs)]
      exact ((ih c hc hm).trans hsub).cons _

theorem size_le_of_mem_preorder {m n : Node} (h : m ∈ n.preorder) : m.size ≤ n.size := by
  induction n using Node.induction with
  | h i cs ih =>
    obtain rfl | ⟨c, hc, hm⟩ := mem_preorder_iff.1 h
    · exact Nat.le_refl _
    · exact (ih c hc hm).trans (size_lt_of_child hc).le

end Node

namespace Place

mutual

/-- The place of a node with the given ancestors, and all places below it. -/
def under (above : List Node) : Node → List Place
  | .mk i cs => ⟨.mk i cs, above⟩ :: underAll (.mk i cs :: above) cs

def underAll (above : List Node) : List Node → List Place
  | [] => []
  | n :: ns => under above n ++ underAll above ns

end

theorem underAll_eq_flatMap (above : List Node) (ns : List Node) :
    underAll above ns = ns.flatMap (under above) := by
  induction ns with
  | nil => rfl
  | cons n ns ih => simp [underAll, ih]

theorem under_eq (above : List Node) (n : Node) :
    under above n = ⟨n, above⟩ :: n.children.flatMap (under (n :: above)) := by
  cases n
  simp [under, underAll_eq_flatMap]

theorem walkFrom_eq_flatMap (stack : List Place) :
    walkFrom stack = stack.flatMap fun p => under p.above p.node := by
  fun_induction walkFrom stack with
  | case1 => rfl
  | case2 p rest ih =>
    rw [ih, List.flatMap_cons, under_eq]
    simp [children, below, List.flatMap_map]

theorem walk_eq_under (p : Place) : p.walk = under p.above p.node := by
  simp [walk, walkFrom_eq_flatMap]

theorem map_node_under (above : List Node) (n : Node) :
    (under above n).map node = n.preorder := by
  induction n using Node.induction generalizing above with
  | h i cs ih =>
    rw [under_eq, Node.preorder_eq, List.map_cons, List.map_flatMap]
    congr 1
    exact List.flatMap_congr fun c hc => ih c hc _

/-- What holds of a place as soon as it holds of its children holds of every place. -/
@[elab_as_elim] theorem induction {P : Place → Prop}
    (h : ∀ p, (∀ c ∈ p.node.children, P (p.below c)) → P p) (p : Place) : P p := by
  obtain ⟨n, above⟩ := p
  induction n using Node.induction generalizing above with
  | h i cs ih => exact h _ fun c hc => ih c hc _

@[simp] theorem parent?_below (p : Place) (n : Node) : (p.below n).parent? = some p := rfl

@[simp] theorem node_below (p : Place) (n : Node) : (p.below n).node = n := rfl

@[simp] theorem ancestors_below (p : Place) (n : Node) : (p.below n).ancestors = p :: p.ancestors :=
  rfl

theorem mem_children_of_child? {p c : Place} {f : Field} (h : p.child? f = some c) :
    c ∈ p.children := by
  obtain ⟨n, hn, rfl⟩ := Option.map_eq_some_iff.1 h
  exact List.mem_map_of_mem (Node.mem_children_of_child? hn)

theorem parent?_of_child? {p c : Place} {f : Field} (h : p.child? f = some c) :
    c.parent? = some p := by
  obtain ⟨n, -, rfl⟩ := Option.map_eq_some_iff.1 h
  rfl

theorem parent?_of_mem_children {p c : Place} (h : c ∈ p.children) : c.parent? = some p := by
  obtain ⟨n, -, rfl⟩ := List.mem_map.1 h
  rfl

theorem node_mem_of_mem_children {p c : Place} (h : c ∈ p.children) :
    c.node ∈ p.node.children ∧ c.above = p.node :: p.above := by
  obtain ⟨n, hn, rfl⟩ := List.mem_map.1 h
  exact ⟨hn, rfl⟩

theorem ancestors_of_mem_children {p c : Place} (h : c ∈ p.children) :
    c.ancestors = p :: p.ancestors := by
  obtain ⟨n, hn, rfl⟩ := List.mem_map.1 h
  rfl

end Place

namespace Document

variable {doc : Document} {p q c : Place}

/-- All nodes of the document, in document order. -/
def nodes (doc : Document) : List Node := doc.root.preorder

theorem places_eq_under (doc : Document) : doc.places = Place.under [] doc.root :=
  (Place.ofRoot doc.root).walk_eq_under

theorem map_node_places (doc : Document) : doc.places.map Place.node = doc.nodes := by
  rw [places_eq_under, Place.map_node_under, nodes]

theorem node_mem_nodes (hp : p ∈ doc.places) : p.node ∈ doc.nodes := by
  rw [← map_node_places]
  exact List.mem_map_of_mem hp

theorem root_mem_nodes (doc : Document) : doc.root ∈ doc.nodes := doc.root.mem_preorder_self

theorem child_mem_nodes {n m : Node} (hn : n ∈ doc.nodes) (hm : m ∈ n.children) : m ∈ doc.nodes :=
  Node.mem_preorder_of_child hm hn

end Document

namespace Place

theorem child_mem_under {above : List Node} {n : Node} {p c : Place} (hp : p ∈ under above n)
    (hc : c ∈ p.children) : c ∈ under above n := by
  induction n using Node.induction generalizing above with
  | h i cs ih =>
    rw [under_eq] at hp ⊢
    obtain rfl | hp := List.mem_cons.1 hp
    · obtain ⟨m, hm, rfl⟩ := List.mem_map.1 hc
      refine List.mem_cons_of_mem _ (List.mem_flatMap.2 ⟨m, hm, ?_⟩)
      rw [under_eq]
      exact List.mem_cons_self
    · obtain ⟨m, hm, hp⟩ := List.mem_flatMap.1 hp
      exact List.mem_cons_of_mem _ (List.mem_flatMap.2 ⟨m, hm, ih m hm hp⟩)

/-- What holds at the top and passes from every place to its children holds everywhere below. -/
theorem under_induction {P : Place → Prop} {above : List Node} {n : Node}
    (top : P ⟨n, above⟩) (child : ∀ p c, P p → c ∈ p.children → P c) {p : Place}
    (hp : p ∈ under above n) : P p := by
  induction n using Node.induction generalizing above with
  | h i cs ih =>
    rw [under_eq] at hp
    obtain rfl | hp := List.mem_cons.1 hp
    · exact top
    · obtain ⟨m, hm, hp⟩ := List.mem_flatMap.1 hp
      exact ih m hm (child _ _ top (List.mem_map_of_mem hm)) hp

theorem mem_of_mem_under {p q : Place} (h : q ∈ under p.above p.node) : p ∈ q :: q.ancestors := by
  refine under_induction (P := fun q => p ∈ q :: q.ancestors) List.mem_cons_self
    (fun r x hr hx => ?_) h
  rw [ancestors_of_mem_children hx]
  exact List.mem_cons_of_mem _ hr

theorem mem_ancestors_of_mem_under {p q : Place} {c : Node} (h : q ∈ under (p.node :: p.above) c) :
    p ∈ q.ancestors := by
  refine under_induction (P := fun q => p ∈ q.ancestors) List.mem_cons_self (fun r x hr hx => ?_) h
  rw [ancestors_of_mem_children hx]
  exact List.mem_cons_of_mem _ hr

end Place

namespace Document

variable {doc : Document} {p q c : Place}

theorem root_mem_places (doc : Document) : Place.ofRoot doc.root ∈ doc.places := by
  rw [places_eq_under, Place.under_eq]
  exact List.mem_cons_self

theorem child_mem_places (hp : p ∈ doc.places) (hc : c ∈ p.children) : c ∈ doc.places := by
  rw [places_eq_under] at hp ⊢
  exact Place.child_mem_under hp hc

/-- Every place of a document is its root or a child of another place. -/
theorem places_induction {P : Place → Prop} (top : P (Place.ofRoot doc.root))
    (child : ∀ p c, p ∈ doc.places → P p → c ∈ p.children → P c) (hp : p ∈ doc.places) : P p := by
  have hboth : p ∈ doc.places ∧ P p := by
    rw [places_eq_under] at hp
    refine Place.under_induction (P := fun p => p ∈ doc.places ∧ P p)
      ⟨doc.root_mem_places, top⟩ ?_ hp
    intro p c h hc
    exact ⟨child_mem_places h.1 hc, child p c h.1 h.2 hc⟩
  exact hboth.2

theorem ancestor_mem_places (hp : p ∈ doc.places) (hq : q ∈ p.ancestors) : q ∈ doc.places := by
  revert hq
  refine places_induction (P := fun p => q ∈ p.ancestors → q ∈ doc.places) ?_ ?_ hp
  · intro h
    cases h
  · intro p c hm ih hc hq
    rw [Place.ancestors_of_mem_children hc] at hq
    obtain rfl | hq := List.mem_cons.1 hq
    · exact hm
    · exact ih hq

/-- A place with a parent is one of its children. -/
theorem mem_children_of_parent? (hp : p ∈ doc.places) (hq : p.parent? = some q) :
    q ∈ doc.places ∧ p ∈ q.children := by
  revert hq
  refine places_induction (P := fun p => p.parent? = some q → q ∈ doc.places ∧
    p ∈ q.children) ?_ ?_ hp
  · intro h
    cases h
  · intro r x hr _ hx h
    obtain ⟨n, hn, rfl⟩ := List.mem_map.1 hx
    obtain rfl := Option.some.inj h
    exact ⟨hr, hx⟩

theorem under_subset_places (hp : p ∈ doc.places) (hq : q ∈ Place.under p.above p.node) :
    q ∈ doc.places :=
  Place.under_induction (P := (· ∈ doc.places)) hp (fun _ _ => child_mem_places) hq

theorem exists_place {n : Node} (hn : n ∈ doc.nodes) : ∃ p ∈ doc.places, p.node = n := by
  rw [← map_node_places] at hn
  exact List.mem_map.1 hn

/-- A node below a place has a place with everything around it that is around the first. -/
theorem exists_place_below {n : Node} (hp : p ∈ doc.places) (hn : n ∈ p.node.preorder) :
    ∃ q ∈ doc.places, q.node = n ∧ p.above ⊆ q.above := by
  induction p using Place.induction with
  | h p ih =>
    obtain rfl | ⟨c, hc, hn⟩ := Node.mem_preorder_iff.1 hn
    · exact ⟨p, hp, rfl, fun _ h => h⟩
    · obtain ⟨q, hq, hqn, habove⟩ := ih c hc (child_mem_places hp (List.mem_map_of_mem hc)) hn
      exact ⟨q, hq, hqn, fun m hm => habove (List.mem_cons_of_mem _ hm)⟩

/-- The nodes around a place hold it below them. -/
theorem exists_child_of_mem_above {n : Node} (hp : p ∈ doc.places) (hn : n ∈ p.above) :
    n ∈ doc.nodes ∧ ∃ c ∈ n.children, p.node ∈ c.preorder := by
  revert hn
  refine places_induction
    (P := fun p => n ∈ p.above → n ∈ doc.nodes ∧ ∃ c ∈ n.children, p.node ∈ c.preorder) ?_ ?_ hp
  · intro hn
    cases hn
  · intro q x hq ih hx hn
    obtain ⟨hchild, habove⟩ := Place.node_mem_of_mem_children hx
    rw [habove, List.mem_cons] at hn
    obtain rfl | hn := hn
    · exact ⟨node_mem_nodes hq, x.node, hchild, x.node.mem_preorder_self⟩
    · obtain ⟨hnodes, c, hc, hin⟩ := ih hn
      exact ⟨hnodes, c, hc, Node.mem_preorder_of_child hchild hin⟩

theorem mem_preorder_of_mem_above {n : Node} (hp : p ∈ doc.places) (hn : n ∈ p.above) :
    n ∈ doc.nodes ∧ p.node ∈ n.preorder := by
  obtain ⟨hnodes, c, hc, hin⟩ := exists_child_of_mem_above hp hn
  exact ⟨hnodes, Node.mem_preorder_child hc hin⟩

end Document
end Asyncify
