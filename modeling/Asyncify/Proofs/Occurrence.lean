import Asyncify.Proofs.Layout

/-! How often a node is written. A node that is reached from the root, going from each node to those
that are written for it, is written once. -/
namespace Asyncify

namespace Print

/-- The print is that of the node with this number. -/
def isOf (id : Nat) : Print → Bool
  | node n _ => n.id == id
  | _ => false

def times (p : Print) (id : Nat) : Nat := p.nodes.countP (isOf id)

end Print

namespace Draft

variable (d : Draft)

/-- In writing the first node, the second one is written. -/
inductive Reaches : Node → Node → Prop
  | self (n : Node) : Reaches n n
  | step {n m t : Node} (hm : m ∈ d.next n) (ht : Reaches m t) : Reaches n t

variable {d} {n m t : Node} {P : Print → Bool}

theorem Reaches.trans (h : d.Reaches n m) (h' : d.Reaches m t) : d.Reaches n t := by
  induction h with
  | self n => exact h'
  | step hm _ ih => exact .step hm (ih h')

theorem Reaches.mem_preorder (h : d.IsLaid) (hr : d.Reaches n t) (hn : n ∈ d.doc.nodes) :
    t ∈ n.preorder := by
  induction hr with
  | self n => exact n.mem_preorder_self
  | step hm _ ih =>
    obtain ⟨c, hc, hmc⟩ := (h.spreads _ hn).exists_mem hm
    exact Node.mem_preorder_child hc (Node.mem_preorder_trans (ih (h.mem_nodes hn hm)) hmc)

/-- Every print in the print of a node is that of a node below it. -/
theorem exists_of_mem_nodes (h : d.IsLaid) {fuel : Nat} {x : Print} (hn : n ∈ d.doc.nodes)
    (hx : x ∈ (d.printWithin fuel n).nodes) (hf : n.size ≤ fuel) :
    ∃ k, ∃ m ∈ n.preorder, m ∈ d.doc.nodes ∧ x = d.printWithin (k + 1) m := by
  induction fuel generalizing n with
  | zero =>
    rw [Node.size_eq] at hf
    omega
  | succ fuel ih =>
    rw [nodes_printWithin_succ] at hx
    obtain rfl | hx := List.mem_cons.1 hx
    · exact ⟨fuel, n, n.mem_preorder_self, hn, rfl⟩
    · obtain ⟨m, hm, hx⟩ := List.mem_flatMap.1 hx
      have hlt := (h.spreads n hn).size_lt hm
      obtain ⟨k, l, hl, hln, rfl⟩ := ih (h.mem_nodes hn hm) hx (by omega)
      obtain ⟨c, hc, hmc⟩ := (h.spreads n hn).exists_mem hm
      exact ⟨k, l, Node.mem_preorder_child hc (Node.mem_preorder_trans hl hmc), hln, rfl⟩

/-- What holds of no print of a node is never counted. -/
theorem countP_eq_zero (h : d.IsLaid) {fuel : Nat} (hn : n ∈ d.doc.nodes) (hf : n.size ≤ fuel)
    (hP : ∀ k, ∀ m ∈ n.preorder, m ∈ d.doc.nodes → P (d.printWithin (k + 1) m) = false) :
    (d.printWithin fuel n).nodes.countP P = 0 := by
  refine List.countP_eq_zero.2 fun x hx => ?_
  obtain ⟨k, m, hm, hmn, rfl⟩ := exists_of_mem_nodes h hn hx hf
  simp [hP k m hm hmn]

/-- Of the nodes written for a node, only one holds a given node. -/
theorem not_mem_preorder_of_next (h : d.IsLaid) (hw : d.doc.WellFormed) (hn : n ∈ d.doc.nodes)
    {before after : List Node} (hs : d.next n = before ++ m :: after) (ht : t ∈ m.preorder)
    {k : Node} (hk : k ∈ before ++ after) : t ∉ k.preorder := by
  have hnodup : (n.children.flatMap Node.preorder).Nodup := by
    have hall : d.doc.nodes.Nodup := hw.ids.of_map _
    have hpre := hall.sublist (Node.preorder_sublist hn)
    rw [Node.preorder_eq, List.nodup_cons] at hpre
    exact hpre.2
  obtain ⟨l, hl, hsub⟩ := h.spreads n hn
  have hflat : ((d.next n).flatMap Node.preorder).Nodup := hl.nodup_iff.1 (hnodup.sublist hsub)
  rw [hs, List.flatMap_append, List.flatMap_cons, List.nodup_append, List.nodup_append] at hflat
  obtain ⟨-, ⟨-, -, hright⟩, hleft⟩ := hflat
  intro htk
  obtain hk | hk := List.mem_append.1 hk
  · exact hleft t (List.mem_flatMap.2 ⟨k, hk, htk⟩) t (List.mem_append_left _ ht) rfl
  · exact hright t ht t (List.mem_flatMap.2 ⟨k, hk, htk⟩) rfl

/-- A node is counted in the one node that is written for the node around it and holds it. -/
theorem countP_next (h : d.IsLaid) (hw : d.doc.WellFormed) (hn : n ∈ d.doc.nodes)
    (hm : m ∈ d.next n) (ht : t ∈ m.preorder) (hne : n ≠ t) {fuel : Nat} (hf : n.size ≤ fuel + 1)
    (hP : ∀ k, ∀ m ∈ d.doc.nodes, m ≠ t → P (d.printWithin (k + 1) m) = false) :
    (d.printWithin (fuel + 1) n).nodes.countP P = (d.printWithin fuel m).nodes.countP P := by
  obtain ⟨before, after, hs⟩ := List.append_of_mem hm
  have hzero {k : Node} (hk : k ∈ before ++ after) : (d.printWithin fuel k).nodes.countP P = 0 := by
    have hkn : k ∈ d.next n := by
      rw [hs]
      simp only [List.mem_append, List.mem_cons] at hk ⊢
      tauto
    have hlt := (h.spreads n hn).size_lt hkn
    have hnot := not_mem_preorder_of_next h hw hn hs ht hk
    refine countP_eq_zero h (h.mem_nodes hn hkn) (by omega) fun j l hl hln => hP j l hln ?_
    rintro rfl
    exact hnot hl
  have hflat {ks : List Node} (hks : ∀ k ∈ ks, (d.printWithin fuel k).nodes.countP P = 0) :
      (ks.flatMap fun k => (d.printWithin fuel k).nodes).countP P = 0 := by
    refine List.countP_eq_zero.2 fun x hx => ?_
    obtain ⟨k, hk, hx⟩ := List.mem_flatMap.1 hx
    exact List.countP_eq_zero.1 (hks k hk) x hx
  rw [nodes_printWithin_succ, List.countP_cons_of_neg (by simp [hP fuel n hn hne]), hs,
    List.flatMap_append, List.flatMap_cons, List.countP_append, List.countP_append,
    hflat fun k hk => hzero (List.mem_append_left _ hk),
    hflat fun k hk => hzero (List.mem_append_right _ hk), Nat.zero_add, Nat.add_zero]

theorem countP_self (h : d.IsLaid) (hn : n ∈ d.doc.nodes) {fuel : Nat}
    (hf : n.size ≤ fuel + 1)
    (hP : ∀ k, ∀ m ∈ d.doc.nodes, m ≠ n → P (d.printWithin (k + 1) m) = false) :
    (d.printWithin (fuel + 1) n).nodes.countP P =
      if P (d.printWithin (fuel + 1) n) then 1 else 0 := by
  have hrest : ((d.next n).flatMap fun m => (d.printWithin fuel m).nodes).countP P = 0 := by
    refine List.countP_eq_zero.2 fun x hx => ?_
    obtain ⟨m, hm, hx⟩ := List.mem_flatMap.1 hx
    have hlt := (h.spreads n hn).size_lt hm
    obtain ⟨k, l, hl, hln, rfl⟩ := exists_of_mem_nodes h (h.mem_nodes hn hm) hx (by omega)
    have hne : l ≠ n := by
      rintro rfl
      have := Node.size_le_of_mem_preorder hl
      omega
    simp [hP k l hln hne]
  rw [nodes_printWithin_succ, List.countP_cons, hrest, Nat.zero_add]

/-- A property that only the print of one node can have holds once in what reaches that node, or not
at all. -/
theorem countP_of_reaches (h : d.IsLaid) (hw : d.doc.WellFormed) (hr : d.Reaches n t)
    (hn : n ∈ d.doc.nodes) {fuel : Nat} (hf : n.size ≤ fuel)
    (hP : ∀ k, ∀ m ∈ d.doc.nodes, m ≠ t → P (d.printWithin (k + 1) m) = false) :
    ∃ k, t.size ≤ k + 1 ∧
      (d.printWithin fuel n).nodes.countP P = if P (d.printWithin (k + 1) t) then 1 else 0 := by
  induction hr generalizing fuel with
  | self n =>
    obtain ⟨k, rfl⟩ : ∃ k, fuel = k + 1 := ⟨fuel - 1, by rw [Node.size_eq] at hf; omega⟩
    exact ⟨k, hf, countP_self h hn hf hP⟩
  | @step n m t hm ht ih =>
    obtain ⟨k, rfl⟩ : ∃ k, fuel = k + 1 := ⟨fuel - 1, by rw [Node.size_eq] at hf; omega⟩
    have hlt := (h.spreads n hn).size_lt hm
    have htm := ht.mem_preorder h (h.mem_nodes hn hm)
    have hne : n ≠ t := by
      rintro rfl
      have := Node.size_le_of_mem_preorder htm
      omega
    rw [countP_next h hw hn hm htm hne hf hP]
    exact ih (h.mem_nodes hn hm) (by omega) hP

@[simp] theorem isOf_printWithin (id fuel : Nat) (n : Node) :
    (d.printWithin fuel n).isOf id = (n.id == id) := by
  cases fuel <;> rfl

/-- A property of the prints of one node holds once in what reaches that node, or not at all. -/
theorem countP_of_isOf (h : d.IsLaid) (hw : d.doc.WellFormed) (hr : d.Reaches n t)
    (hn : n ∈ d.doc.nodes) {fuel : Nat} (hf : n.size ≤ fuel) (hP : ∀ x, P x → x.isOf t.id) :
    ∃ k, t.size ≤ k + 1 ∧
      (d.printWithin fuel n).nodes.countP P = if P (d.printWithin (k + 1) t) then 1 else 0 := by
  refine countP_of_reaches h hw hr hn hf fun k m hm hne => Bool.eq_false_iff.2 fun hPm => hne ?_
  have hid := hP _ hPm
  rw [isOf_printWithin, beq_iff_eq] at hid
  exact hw.node_eq_of_id hm (Node.mem_preorder_trans (hr.mem_preorder h hn) hn) hid

/-- A node that is reached is written once. -/
theorem times_eq_one (h : d.IsLaid) (hw : d.doc.WellFormed) (hr : d.Reaches n t)
    (hn : n ∈ d.doc.nodes)
    {fuel : Nat} (hf : n.size ≤ fuel) : (d.printWithin fuel n).times t.id = 1 := by
  obtain ⟨k, -, hk⟩ := countP_of_isOf h hw hr hn hf fun x hx => hx
  rw [Print.times, hk]
  simp

end Draft
end Asyncify
