import Mathlib.Data.List.Perm.Basic
import Asyncify.Proofs.WellFormed

/-! Ways through a tree. The walk meets a node and everything below it in the order of the
recursion. A place carries along what is around it; a table of parents by identity, filled once for
the whole tree, and the way up that reads it tell the same. -/
namespace Asyncify

namespace Node

theorem sizes_reverse (ns : List Node) : sizes ns.reverse = sizes ns := by
  induction ns with
  | nil => rfl
  | cons n ns ih => simp [sizes_append, sizes, ih, Nat.add_comm]

/-- What a table of parents says of the children of a node. -/
def entries (n : Node) : List (Nat × Node) := n.children.map fun c => (c.id, n)

/-- Enters the parents of all nodes below those on a stack into a table. The children of a node go
on top of the stack, the last one uppermost. A later entry stands before the earlier ones and hides
them. -/
def enterParents : List Node → List (Nat × Node) → List (Nat × Node)
  | [], table => table
  | n :: rest, table => enterParents (n.children.reverse ++ rest) (n.entries.reverse ++ table)
termination_by stack => sizes stack
decreasing_by
  rw [sizes_append, sizes_reverse, sizes, size_eq n]
  omega

/-- Whatever is on the stack, the table gets the entries of all nodes at or below it, in some
order. -/
theorem enterParents_perm (stack : List Node) (table : List (Nat × Node)) :
    (enterParents stack table).Perm ((stack.flatMap preorder).flatMap entries ++ table) := by
  fun_induction enterParents stack table with
  | case1 table => exact List.Perm.refl _
  | case2 n rest table ih =>
    -- the last child comes off the stack first, so the order of the recursion is not kept
    have hbelow : ((n.children.reverse ++ rest).flatMap preorder).Perm
        (n.children.flatMap preorder ++ rest.flatMap preorder) := by
      rw [List.flatMap_append]
      exact ((List.reverse_perm _).flatMap_right _).append_right _
    refine ih.trans
      (((hbelow.flatMap_right _).append ((List.reverse_perm _).append_right _)).trans ?_)
    rw [List.flatMap_cons, preorder_eq, List.cons_append, List.flatMap_cons, List.append_assoc]
    exact List.perm_append_comm_assoc _ _ _

/-- Each node below another is a child just once among the nodes at or below that one. -/
theorem flatMap_children_perm (n : Node) :
    (n.preorder.flatMap children).Perm (n.children.flatMap preorder) := by
  induction n using Node.induction with
  | h i cs ih =>
    have hcons : cs.flatMap preorder = cs.flatMap fun c => [c] ++ c.children.flatMap preorder :=
      List.flatMap_congr fun c _ => preorder_eq c
    rw [preorder_eq, List.flatMap_cons, children_mk, List.flatMap_assoc, hcons]
    -- all children and then what is below them, against each child with what is below it
    refine List.Perm.trans ?_ (List.flatMap_append_perm cs _ _)
    rw [List.flatMap_singleton']
    exact (List.Perm.flatMap_left cs ih).append_left cs

theorem map_fst_entries (ns : List Node) :
    (ns.flatMap entries).map Prod.fst = (ns.flatMap children).map id := by
  simp [List.map_flatMap, entries, Function.comp_def]

end Node

namespace Place

theorem map_node_walk (p : Place) : p.walk.map node = p.node.preorder := by
  rw [walk_eq_under, map_node_under]

theorem map_node_ancestors (p : Place) : p.ancestors.map node = p.above := by
  rw [ancestors]
  induction p.above with
  | nil => rfl
  | cons n ns ih => rw [chain, List.map_cons, ih]

end Place

namespace Document

/-- The table of the parents of all nodes but the root. -/
def parents (doc : Document) : List (Nat × Node) := Node.enterParents [doc.root] []

def parentOf? (doc : Document) (n : Node) : Option Node := doc.parents.lookup n.id

/-- The way up from a node, from each node to its parent in the table, goes over these nodes and
ends. -/
inductive Climbs (doc : Document) : Node → List Node → Prop
  | top {n : Node} (hn : doc.parentOf? n = none) : Climbs doc n []
  | up {n m : Node} {l : List Node} (hn : doc.parentOf? n = some m) (hm : Climbs doc m l) :
      Climbs doc n (m :: l)

variable {doc : Document} {m n : Node} {p q : Place} {l l' : List Node}

/-- The way up is never in doubt. -/
theorem Climbs.unique (h : doc.Climbs n l) (h' : doc.Climbs n l') : l = l' := by
  induction h generalizing l' with
  | top hn =>
    cases h' with
    | top => rfl
    | up hn' => cases hn.symm.trans hn'
  | up hn _ ih =>
    cases h' with
    | top hn' => cases hn.symm.trans hn'
    | up hn' hm' =>
      obtain rfl := Option.some.inj (hn.symm.trans hn')
      rw [ih hm']

/-- Above every place, the last is the root. -/
theorem getLast?_ancestors (hp : p ∈ doc.places) :
    (p :: p.ancestors).getLast? = some (Place.ofRoot doc.root) := by
  refine places_induction (P := fun p => (p :: p.ancestors).getLast? = some (Place.ofRoot doc.root))
    rfl ?_ hp
  intro p c _ ih hc
  rw [Place.ancestors_of_mem_children hc, List.getLast?_cons_cons]
  exact ih

theorem getLast?_ancestors_of_ne (hp : p ∈ doc.places) (hne : p ≠ Place.ofRoot doc.root) :
    p.ancestors.getLast? = some (Place.ofRoot doc.root) := by
  have hlast := getLast?_ancestors hp
  cases ha : p.ancestors with
  | nil =>
    rw [ha] at hlast
    exact absurd (Option.some.inj hlast) hne
  | cons q qs => rwa [ha, List.getLast?_cons_cons] at hlast

theorem parent?_eq_none_iff (hp : p ∈ doc.places) :
    p.parent? = none ↔ p = Place.ofRoot doc.root := by
  constructor
  · refine places_induction (P := fun p => p.parent? = none → p = Place.ofRoot doc.root)
      (fun _ => rfl) ?_ hp
    intro p c _ _ hc hnone
    rw [Place.parent?_of_mem_children hc] at hnone
    cases hnone
  · rintro rfl
    rfl

theorem mem_parents_iff {id : Nat} :
    (id, n) ∈ doc.parents ↔ n ∈ doc.nodes ∧ ∃ c ∈ n.children, c.id = id := by
  rw [parents, (Node.enterParents_perm _ _).mem_iff, List.flatMap_singleton, List.append_nil,
    List.mem_flatMap]
  constructor
  · rintro ⟨m, hm, hin⟩
    obtain ⟨c, hc, heq⟩ := List.mem_map.1 hin
    obtain ⟨rfl, rfl⟩ := Prod.mk.inj heq
    exact ⟨hm, c, hc, rfl⟩
  · rintro ⟨hn, c, hc, rfl⟩
    exact ⟨n, hn, List.mem_map.2 ⟨c, hc, rfl⟩⟩

section Nodup

variable (h : (doc.nodes.map Node.id).Nodup)
include h

/-- No identity has two entries, so it does not matter in which order they were made. -/
theorem nodup_parents : (doc.parents.map Prod.fst).Nodup := by
  have hperm : (doc.parents.map Prod.fst).Perm
      ((doc.root.children.flatMap Node.preorder).map Node.id) := by
    refine ((Node.enterParents_perm _ _).map _).trans ?_
    rw [List.flatMap_singleton, List.append_nil, Node.map_fst_entries]
    exact doc.root.flatMap_children_perm.map _
  rw [hperm.nodup_iff]
  rw [nodes, Node.preorder_eq, List.map_cons] at h
  exact h.of_cons

/-- The table gives a node its parent: the one node that it is a child of. -/
theorem parentOf?_eq_some_iff (hn : n ∈ doc.nodes) :
    doc.parentOf? n = some m ↔ m ∈ doc.nodes ∧ n ∈ m.children := by
  rw [parentOf?]
  constructor
  · intro hl
    obtain ⟨front, back, heq, -⟩ := List.lookup_eq_some_iff.1 hl
    have hin : (n.id, m) ∈ doc.parents := by simp [heq]
    obtain ⟨hm, c, hc, hid⟩ := mem_parents_iff.1 hin
    obtain rfl := List.inj_on_of_nodup_map h (child_mem_nodes hm hc) hn hid
    exact ⟨hm, hc⟩
  · rintro ⟨hm, hc⟩
    obtain ⟨front, back, heq⟩ := List.append_of_mem (mem_parents_iff.2 ⟨hm, n, hc, rfl⟩)
    refine List.lookup_eq_some_iff.2 ⟨front, back, heq, fun e he => ?_⟩
    have hnodup := nodup_parents h
    rw [heq, List.map_append, List.map_cons, List.nodup_append] at hnodup
    have hne := hnodup.2.2 _ (List.mem_map_of_mem he) n.id List.mem_cons_self
    simpa using hne.symm

theorem existsUnique_place (hn : n ∈ doc.nodes) : ∃! p, p ∈ doc.places ∧ p.node = n := by
  obtain ⟨p, hp, rfl⟩ := exists_place hn
  exact ⟨p, ⟨hp, rfl⟩, fun q hq => place_eq_of_nodup h hq.1 hp (congrArg Node.id hq.2)⟩

theorem nodup_walk (hp : p ∈ doc.places) : (p.walk.map Place.id).Nodup := by
  have hids : p.walk.map Place.id = p.node.preorder.map Node.id := by
    rw [← p.map_node_walk, List.map_map]
    rfl
  rw [hids]
  exact h.sublist ((Node.preorder_sublist (node_mem_nodes hp)).map _)

theorem mem_walk_iff (hp : p ∈ doc.places) :
    q ∈ p.walk ↔ q ∈ doc.places ∧ q.node ∈ p.node.preorder := by
  constructor
  · intro hq
    have hnode := List.mem_map_of_mem (f := Place.node) hq
    rw [p.map_node_walk] at hnode
    rw [Place.walk_eq_under] at hq
    exact ⟨under_subset_places hp hq, hnode⟩
  · rintro ⟨hq, hnode⟩
    rw [← p.map_node_walk] at hnode
    obtain ⟨r, hr, hrq⟩ := List.mem_map.1 hnode
    have hplace : r ∈ doc.places := by
      rw [Place.walk_eq_under] at hr
      exact under_subset_places hp hr
    rwa [← place_eq_of_nodup h hplace hq (congrArg Node.id hrq)]

theorem parent?_eq_some_iff (hp : p ∈ doc.places) :
    p.parent? = some q ↔ q ∈ doc.places ∧ p.node ∈ q.node.children := by
  constructor
  · intro hq
    obtain ⟨hplace, hchild⟩ := mem_children_of_parent? hp hq
    exact ⟨hplace, (Place.node_mem_of_mem_children hchild).1⟩
  · rintro ⟨hq, hchild⟩
    have hbelow : q.below p.node ∈ doc.places := child_mem_places hq (List.mem_map_of_mem hchild)
    rw [place_eq_of_nodup h hp hbelow rfl, Place.parent?_below]

/-- The table and the place name the same parent. -/
theorem parentOf?_node (hp : p ∈ doc.places) : doc.parentOf? p.node = p.parent?.map Place.node := by
  refine Option.ext fun m => ?_
  rw [parentOf?_eq_some_iff h (node_mem_nodes hp), Option.map_eq_some_iff]
  constructor
  · rintro ⟨hm, hchild⟩
    obtain ⟨q, hq, rfl⟩ := exists_place hm
    exact ⟨q, (parent?_eq_some_iff h hp).2 ⟨hq, hchild⟩, rfl⟩
  · rintro ⟨q, hq, rfl⟩
    obtain ⟨hplace, hchild⟩ := (parent?_eq_some_iff h hp).1 hq
    exact ⟨node_mem_nodes hplace, hchild⟩

theorem mem_ancestors_iff (hp : p ∈ doc.places) :
    q ∈ p.ancestors ↔ q ∈ doc.places ∧ q ≠ p ∧ p.node ∈ q.node.preorder := by
  constructor
  · intro hq
    have habove : q.node ∈ p.above := by
      rw [← p.map_node_ancestors]
      exact List.mem_map_of_mem hq
    obtain ⟨-, c, hc, hin⟩ := exists_child_of_mem_above hp habove
    have hlt := (Node.size_le_of_mem_preorder hin).trans_lt (Node.size_lt_of_child hc)
    refine ⟨ancestor_mem_places hp hq, ?_, Node.mem_preorder_child hc hin⟩
    rintro rfl
    exact Nat.lt_irrefl _ hlt
  · rintro ⟨hq, hne, hin⟩
    have hwalk := (mem_walk_iff h hq).2 ⟨hp, hin⟩
    rw [Place.walk_eq_under] at hwalk
    exact (List.mem_cons.1 (Place.mem_of_mem_under hwalk)).resolve_left hne

/-- Of two nodes around a place, the one that is listed first lies in the other. -/
theorem pairwise_ancestors (hp : p ∈ doc.places) :
    p.ancestors.Pairwise fun near far => near ≠ far ∧ near.node ∈ far.node.preorder := by
  refine places_induction
    (P := fun p => p.ancestors.Pairwise fun near far => near ≠ far ∧ near.node ∈ far.node.preorder)
    .nil ?_ hp
  intro p c hp ih hc
  rw [Place.ancestors_of_mem_children hc, List.pairwise_cons]
  refine ⟨fun q hq => ?_, ih⟩
  obtain ⟨-, hne, hin⟩ := (mem_ancestors_iff h hp).1 hq
  exact ⟨hne.symm, hin⟩

/-- The way up by the table ends, at the root, after the nodes around the place. -/
theorem climbs_ancestors (hp : p ∈ doc.places) :
    doc.Climbs p.node (p.ancestors.map Place.node) := by
  refine places_induction (P := fun p => doc.Climbs p.node (p.ancestors.map Place.node)) ?_ ?_ hp
  · exact .top (parentOf?_node h doc.root_mem_places)
  · intro p c hp ih hc
    have hparent := parentOf?_node h (child_mem_places hp hc)
    rw [Place.parent?_of_mem_children hc] at hparent
    rw [Place.ancestors_of_mem_children hc]
    exact .up hparent ih

end Nodup

/-- Where no two nodes share an identity, each has one place, and from there the walk meets the
nodes of the subtree in the order of the recursion, no place twice and every place of the document
that lies there. The parent is the place that has this one as a child, and only the root has none.
The ancestors are the other places with this one in their subtree, each before those that it lies
in, and the last is the root. The table of parents names the same parent, and the way up by it is
over the same nodes and ends. -/
theorem navigation_is_faithful {doc : Document} (h : (doc.nodes.map Node.id).Nodup) :
    (∀ n ∈ doc.nodes, ∃! p, p ∈ doc.places ∧ p.node = n) ∧
      ∀ p ∈ doc.places,
        (p.walk.map Place.node = p.node.preorder ∧ (p.walk.map Place.id).Nodup ∧
          ∀ q, q ∈ p.walk ↔ q ∈ doc.places ∧ q.node ∈ p.node.preorder) ∧
        ((∀ q, p.parent? = some q ↔ q ∈ doc.places ∧ p.node ∈ q.node.children) ∧
          (p.parent? = none ↔ p = Place.ofRoot doc.root) ∧
          doc.parentOf? p.node = p.parent?.map Place.node) ∧
        (∀ q, q ∈ p.ancestors ↔ q ∈ doc.places ∧ q ≠ p ∧ p.node ∈ q.node.preorder) ∧
        (p.ancestors.Pairwise fun near far => near ≠ far ∧ near.node ∈ far.node.preorder) ∧
        (p ≠ Place.ofRoot doc.root → p.ancestors.getLast? = some (Place.ofRoot doc.root)) ∧
        ∀ l, doc.Climbs p.node l ↔ l = p.ancestors.map Place.node := by
  refine ⟨fun n hn => existsUnique_place h hn, fun p hp => ?_⟩
  refine ⟨⟨p.map_node_walk, nodup_walk h hp, fun q => mem_walk_iff h hp⟩,
    ⟨fun q => parent?_eq_some_iff h hp, parent?_eq_none_iff hp, parentOf?_node h hp⟩,
    fun q => mem_ancestors_iff h hp, pairwise_ancestors h hp, getLast?_ancestors_of_ne hp,
      fun l => ?_⟩
  constructor
  · exact fun hl => hl.unique (climbs_ancestors h hp)
  · rintro rfl
    exact climbs_ancestors h hp

end Document

namespace Grove

def node (id : Nat) (children : List Node) : Node :=
  .mk ⟨id, "statement_block", true, false, false, [], 0, 0⟩ children

def twig : Node := node 0 [node 9 [], node 6 []]

def branch : Node := node 7 [node 2 [], twig]

/-- Identities that do not follow the order of the document, and spans that do not tell nodes
apart. -/
def doc : Document where
  chars := []
  root := node 4 [branch, node 1 [], node 3 [node 8 []]]

/-- The place of a node in the middle, with something before it, behind it and below it. -/
def place : Place := ⟨twig, [branch, doc.root]⟩

theorem place_mem : place ∈ doc.places := by
  rw [Document.places_eq_under]
  exact List.mem_of_getElem? (i := 3) rfl

end Grove

theorem Document.navigation_is_faithful_grove :
    (Grove.doc.nodes.map Node.id).Nodup ∧ Grove.place ∈ Grove.doc.places ∧
      Grove.place.walk.map Place.node = [Grove.twig, Grove.node 9 [], Grove.node 6 []] ∧
      Grove.doc.parentOf? Grove.twig = some Grove.branch ∧
      Grove.place.ancestors.getLast? = some (Place.ofRoot Grove.doc.root) ∧
      Grove.doc.Climbs Grove.twig [Grove.branch, Grove.doc.root] := by
  have hids : (Grove.doc.nodes.map Node.id).Nodup := by decide +kernel
  obtain ⟨-, hall⟩ := navigation_is_faithful hids
  obtain ⟨⟨hwalk, -⟩, ⟨-, hroot, htable⟩, -, -, hlast, hclimbs⟩ := hall Grove.place Grove.place_mem
  have hne : Grove.place ≠ Place.ofRoot Grove.doc.root := by
    intro heq
    cases hroot.2 heq
  exact ⟨hids, Grove.place_mem, hwalk, htable, hlast hne, (hclimbs _).2 rfl⟩

end Asyncify
