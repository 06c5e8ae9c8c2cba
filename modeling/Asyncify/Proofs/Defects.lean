import Asyncify.Proofs.Places
import Asyncify.Tree.Defect

/-! The first defect of a parse. Where marks tell the truth, nothing is missed below the nodes
without one, so the search ends at the first defect of the whole tree. -/
namespace Asyncify.Node

/-- The nodes that are marked as faulty are those with a defect at or below them. -/
def IsMarked (root : Node) : Prop :=
  ∀ n ∈ root.preorder, n.info.hasError ↔ ∃ d ∈ n.preorder, d.isDefect

instance (root : Node) : Decidable root.IsMarked :=
  inferInstanceAs (Decidable (∀ n ∈ root.preorder, n.info.hasError ↔ ∃ d ∈ n.preorder, d.isDefect))

variable {root n c : Node} {stack : List Node}

theorem IsMarked.child (h : n.IsMarked) (hc : c ∈ n.children) : c.IsMarked :=
  fun m hm => h m (mem_preorder_child hc hm)

/-- A node without a mark has nothing to find. -/
theorem IsMarked.find?_eq_none (h : n.IsMarked) (hm : ¬ n.info.hasError) :
    n.preorder.find? isDefect = none := by
  rw [List.find?_eq_none]
  intro d hd hdefect
  exact hm ((h n n.mem_preorder_self).2 ⟨d, hd, hdefect⟩)

theorem find?_preorder_of_not_isDefect (hd : ¬ n.isDefect) (rest : List Node) :
    (n.preorder ++ rest).find? isDefect = (n.children.flatMap preorder ++ rest).find? isDefect := by
  rw [preorder_eq, List.cons_append, List.find?_cons_of_neg hd]

/-- Whatever is on the stack, the search gives the first defect at or below it, in document
order. -/
theorem searchDefect_eq_find? (h : ∀ n ∈ stack, n.IsMarked) :
    searchDefect stack = (stack.flatMap preorder).find? isDefect := by
  fun_induction searchDefect stack with
  | case1 => rfl
  | case2 n rest hd =>
    rw [List.flatMap_cons, preorder_eq, List.cons_append, List.find?_cons_of_pos hd]
  | case3 n rest hd hm ih =>
    obtain ⟨hn, hrest⟩ := List.forall_mem_cons.1 h
    have hnext : ∀ m ∈ n.children ++ rest, m.IsMarked := by
      intro m hmem
      obtain hc | hr := List.mem_append.1 hmem
      · exact hn.child hc
      · exact hrest m hr
    rw [ih hnext, List.flatMap_append, List.flatMap_cons, find?_preorder_of_not_isDefect hd]
  | case4 n rest hd hm ih =>
    obtain ⟨hn, hrest⟩ := List.forall_mem_cons.1 h
    rw [ih hrest, List.flatMap_cons, List.find?_append, hn.find?_eq_none hm, Option.none_or]

theorem IsMarked.isSome_searchDefect (h : root.IsMarked) (hm : root.info.hasError) :
    (searchDefect [root]).isSome := by
  rw [searchDefect_eq_find? (List.forall_mem_singleton.2 h), List.flatMap_singleton,
    List.find?_isSome]
  exact (h root root.mem_preorder_self).1 hm

theorem IsMarked.firstDefect?_eq_find? (h : root.IsMarked) :
    root.firstDefect? = root.preorder.find? isDefect := by
  rw [firstDefect?]
  split
  · next hm =>
    obtain ⟨d, hd⟩ := Option.isSome_iff_exists.1 (h.isSome_searchDefect hm)
    rw [hd, Option.getD_some, ← hd, searchDefect_eq_find? (List.forall_mem_singleton.2 h),
      List.flatMap_singleton]
  · next hm => exact (h.find?_eq_none hm).symm

/-- The search that passes over unmarked nodes finds the first defect of the whole tree. It comes
back with nothing just if there is no defect, it never has to fall back on the root, and what it
finds is a defect with none before it in document order. -/
theorem firstDefect?_is_first {root : Node} (h : root.IsMarked) :
    (root.firstDefect? = none ↔ ∀ n ∈ root.preorder, ¬ n.isDefect) ∧
      (∀ d, root.firstDefect? = some d ↔ d.isDefect ∧
        ∃ before after, root.preorder = before ++ d :: after ∧ ∀ n ∈ before, ¬ n.isDefect) ∧
      (root.info.hasError → (searchDefect [root]).isSome) := by
  rw [h.firstDefect?_eq_find?]
  refine ⟨List.find?_eq_none, fun d => ?_, h.isSome_searchDefect⟩
  simp [List.find?_eq_some_iff_append]

namespace Broken

def node (id : Nat) (symbol : String) (hasError : Bool) (children : List Node) : Node :=
  mk ⟨id, symbol, true, false, hasError, [], id, id⟩ children

/-- A semicolon that the parser supplied. -/
def supplied : Node := mk ⟨6, ";", false, true, true, [], 6, 6⟩ []

def refused : Node := node 5 "ERROR" true [supplied]

/-- A statement without defects, then one with a defect in a defect, then a defect of its own. -/
def program : Node :=
  node 0 "program" true
    [node 1 "expression_statement" false [node 2 "identifier" false []],
      node 3 "expression_statement" true [node 4 "identifier" false [], refused],
      node 7 "ERROR" true []]

end Broken

theorem firstDefect?_is_first_broken :
    Broken.program.IsMarked ∧ Broken.program.firstDefect? = some Broken.refused := by
  have h : Broken.program.IsMarked := by decide +kernel
  obtain ⟨-, hsome, -⟩ := firstDefect?_is_first h
  exact ⟨h, (hsome _).2
    ⟨rfl, Broken.program.preorder.take 5, Broken.program.preorder.drop 6, rfl, by decide +kernel⟩⟩

end Asyncify.Node
