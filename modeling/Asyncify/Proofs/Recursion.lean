import Asyncify.Proofs.Decomposition
import Asyncify.Proofs.Reports

/-! Writing a node asks for the texts of other nodes, and what stands for it may ask for any. After
the pass over calls of server methods it asks for nodes below only, so writing comes to an end for
every node, and the bound on its depth is never reached. -/
namespace Asyncify

/-- The result was not given up for want of depth. It may be a fault of another kind. -/
def Ends {α : Type} (x : Except Fault α) : Prop := x ≠ .error .endless

namespace Ends

variable {α β : Type} {x : Except Fault α} {f : α → Except Fault β} {l : List α}

theorem iff_failsOnly : Ends x ↔ Except.FailsOnly (· ≠ .endless) x := by
  constructor
  · rintro h e rfl rfl
    exact h rfl
  · intro h he
    exact h _ he rfl

theorem ok (a : α) : Ends (.ok a) := iff_failsOnly.2 (.ok a)

theorem bind (hx : Ends x) (hf : ∀ a, x = .ok a → Ends (f a)) : Ends (x >>= f) :=
  iff_failsOnly.2 ((iff_failsOnly.1 hx).bind fun a ha => iff_failsOnly.1 (hf a ha))

theorem map (hx : Ends x) (g : α → β) : Ends (x.map g) :=
  iff_failsOnly.2 ((iff_failsOnly.1 hx).map g)

theorem mapM (hf : ∀ a ∈ l, Ends (f a)) : Ends (l.mapM f) :=
  iff_failsOnly.2 (.mapM fun a ha => iff_failsOnly.1 (hf a ha))

end Ends

theorem Value.ends_indentUnit (v : Value) : Ends v.indentUnit := by
  intro h
  cases v with
  | scalar k => cases k <;> cases h
  | _ => cases h

/-- What a fold lacks, it does not lack for want of depth. -/
structure Fold.PartsEnd (f : Fold) : Prop where
  inner : Ends f.inner
  callee : Ends f.callee
  body : ∀ m ∈ f.body, Ends m.node

/-- The same of what stands in place of a node. -/
def Replacement.PartsEnd (r : Replacement) : Prop := ∀ f, r = .folded f → f.PartsEnd

section Write

variable {render : Node → Except Fault String}

theorem Fold.PartsEnd.ends_write {f : Fold} (h : f.PartsEnd) (hr : ∀ n ∈ f.nodes, Ends (render n))
    (newline : String) : Ends (f.write render newline) := by
  have hargs : Ends (f.args.mapM render) := .mapM fun n hn => hr n (by simp [nodes, hn])
  refine h.inner.bind fun inner _ => h.callee.bind fun callee hcallee => ?_
  refine (hr callee (by simp [nodes, hcallee, Except.toOption])).bind fun text _ => ?_
  refine hargs.bind fun args _ => Ends.bind (.mapM fun m hm => ?_) fun moved _ => .ok _
  refine (h.body m hm).bind fun n hn => ?_
  have hin : n ∈ nodesOf f.body := List.mem_filterMap.2 ⟨m, hm, by rw [hn]; rfl⟩
  exact (hr n (by simp [nodes, hin])).bind fun line _ => .ok _

theorem Replacement.PartsEnd.ends_write {r : Replacement} (h : r.PartsEnd)
    (hr : ∀ n ∈ r.nodes, Ends (render n)) (newline : String) : Ends (r.write render newline) := by
  cases r with
  | literal v => exact .ok _
  | joined pieces =>
    refine Ends.bind (.mapM fun piece hp => ?_) fun texts _ => .ok _
    cases piece with
    | text s => exact .ok s
    | node n => exact hr n (List.mem_filterMap.2 ⟨.node n, hp, rfl⟩)
  | folded f => exact (h f rfl).ends_write hr newline

theorem Draft.ends_weave (d : Draft) {cs : List Node} (hr : ∀ c ∈ cs, Ends (render c))
    (cursor stop : Nat) :
    Ends (d.weave render cursor cs stop) := by
  induction cs generalizing cursor with
  | nil => exact .ok _
  | cons c cs ih =>
    obtain ⟨hc, hcs⟩ := List.forall_mem_cons.1 hr
    exact hc.bind fun text _ => (ih hcs c.stop).bind fun rest _ => .ok _

end Write

/-- An edit at a node of the document. Whatever it puts in place of the node asks for nodes below
it. -/
structure Document.Descends (doc : Document) (e : Edit) : Prop where
  node : e.node ∈ doc.nodes
  parts : ∀ r, e.action = .replace r → r.PartsEnd
  below : ∀ r, e.action = .replace r → ∀ m ∈ r.nodes, ∃ c ∈ e.node.children, m ∈ c.preorder

namespace Draft

variable {d : Draft} {n : Node}

/-- A way to write the nodes of the document: the text of a node is made from the texts that it asks
for. -/
def IsWriter (d : Draft) (write : Node → Except Fault String) : Prop :=
  ∀ n ∈ d.doc.nodes, write n = (d.body write n).map fun s => d.before n.id ++ s ++ d.after n.id

theorem isDescending_of_descends (hids : (d.doc.nodes.map Node.id).Nodup)
    (h : ∀ e ∈ d.edits, d.doc.Descends e) : d.IsDescending := by
  intro n hn r hr
  obtain ⟨e, he, hid, ha⟩ := exists_of_replacement? hr
  obtain rfl := List.inj_on_of_nodup_map hids (h e he).node hn hid
  exact (h e he).below r ha

namespace IsDescending

theorem mem_nodes_of_asks (h : d.IsDescending) (hn : n ∈ d.doc.nodes) {m : Node}
    (hm : m ∈ d.asks n) :
    m ∈ d.doc.nodes := by
  obtain ⟨c, hc, hmc⟩ := h.below_of_asks hn hm
  exact Node.mem_preorder_trans hmc (Document.child_mem_nodes hn hc)

/-- Asking goes down the tree, so it comes to an end. -/
theorem acc_asks (h : d.IsDescending) (hn : n ∈ d.doc.nodes) : Acc (fun a b => a ∈ d.asks b) n := by
  induction hk : n.size using Nat.strong_induction_on generalizing n with
  | h k ih =>
    refine Acc.intro n fun m hm => ?_
    obtain ⟨c, hc, hmc⟩ := h.below_of_asks hn hm
    have hlt := (Node.size_le_of_mem_preorder hmc).trans_lt (Node.size_lt_of_child hc)
    exact ih m.size (by omega) (h.mem_nodes_of_asks hn hm) rfl

theorem isWriter_render (h : d.IsDescending) : d.IsWriter d.render :=
  fun _ hn => h.render_eq_body hn

/-- There is one way to write the nodes. -/
theorem isWriter_unique (h : d.IsDescending) {write write' : Node → Except Fault String}
    (hw : d.IsWriter write)
    (hw' : d.IsWriter write') (hn : n ∈ d.doc.nodes) : write n = write' n := by
  induction h.acc_asks hn with
  | intro n _ ih =>
    rw [hw n hn, hw' n hn, body_eq_of_asks fun m hm => ih m hm (h.mem_nodes_of_asks hn hm)]

end IsDescending

theorem ends_body {render : Node → Except Fault String}
    (hp : ∀ r, d.replacement? n.id = some r → r.PartsEnd)
    (hr : ∀ m ∈ d.asks n, Ends (render m)) : Ends (d.body render n) := by
  rw [asks] at hr
  rw [body]
  cases hrep : d.replacement? n.id with
  | some r =>
    rw [hrep] at hr
    exact (hp r hrep).ends_write hr _
  | none =>
    rw [hrep] at hr
    dsimp only at hr ⊢
    split
    · next ht =>
      rw [if_pos ht] at hr
      exact d.ends_weave hr _ _
    · exact .ok _

section Descends

variable (hids : (d.doc.nodes.map Node.id).Nodup) (h : ∀ e ∈ d.edits, d.doc.Descends e)
include hids h

theorem ends_render (hn : n ∈ d.doc.nodes) : Ends (d.render n) := by
  have hd := isDescending_of_descends hids h
  induction hd.acc_asks hn with
  | intro n _ ih =>
    have hparts : ∀ r, d.replacement? n.id = some r → r.PartsEnd := by
      intro r hr
      obtain ⟨e, he, -, ha⟩ := exists_of_replacement? hr
      exact (h e he).parts r ha
    rw [hd.render_eq_body hn]
    exact (ends_body hparts fun m hm => ih m hm (hd.mem_nodes_of_asks hn hm)).map _

theorem ends_source : Ends d.source := by
  rw [source]
  split
  · exact .ok _
  · exact (ends_render hids h d.doc.root_mem_nodes).bind fun body _ => .ok _

theorem ends_change {e : Edit} (he : e ∈ d.edits) : Ends (d.change e) := by
  have hcode : Ends (d.newCode e) := by
    rw [newCode]
    split
    · exact .ok _
    · next r _ ha =>
      refine Ends.map (((h e he).parts r ha).ends_write (fun m hm => ends_render hids h ?_) _) _
      obtain ⟨c, hc, hmc⟩ := (h e he).below r ha m hm
      exact Node.mem_preorder_trans hmc (Document.child_mem_nodes (h e he).node hc)
    · exact .ok _
    · exact .ok _
  exact hcode.bind fun code _ => .ok _

/-- The report ends too, also where the last of several replacements hides the others. -/
theorem ends_changes : Ends d.changes :=
  .mapM fun _ he => ends_change hids h (List.mem_of_mem_filter he)

end Descends

end Draft

namespace Document

variable {doc : Document} {e : Edit}

theorem Descends.of_isLiteral (hn : e.node ∈ doc.nodes) (hl : e.isLiteral) : doc.Descends e := by
  refine ⟨hn, fun r ha f hf => ?_, fun r ha m hm => ?_⟩
  · obtain ⟨v, rfl⟩ := Edit.eq_literal hl ha
    cases hf
  · obtain ⟨v, rfl⟩ := Edit.eq_literal hl ha
    cases hm

theorem partsEnd_fold (s c : Place) (cb : Callback) {indent : Except Fault String}
    (hi : Ends indent) :
    (doc.fold s c cb indent).PartsEnd where
  inner := hi.map _
  callee := by
    intro h
    rw [fold] at h
    dsimp only at h
    split at h <;> cases h
  body m hm := by
    intro h
    have hbelow : m.IsBelow cb.function.node :=
      isBelow_callbackBody (fun q => Place.mem_preorder_of_child?) hm
    obtain hf | hf := hbelow.fault _ h <;> cases hf

/-- A call that is folded with its callback is a child of the statement that the fold replaces. -/
theorem descends_of_foldMark? {p : Place} {indent : Except Fault String} (hp : p ∈ doc.places)
    (hi : Ends indent) (hf : doc.foldMark? p indent = some e) : doc.Descends e := by
  obtain ⟨cb, hcb, hs, ha'⟩ := foldMark?_eq_some hf
  obtain ⟨hmem, hchild⟩ := mem_children_of_parent? hp (Option.filter_eq_some_iff.1 hs).1
  refine ⟨node_mem_nodes hmem, fun r ha => ?_, fun r ha m hm => ?_⟩
  · obtain rfl := Action.replace.inj (ha'.symm.trans ha)
    intro f hr
    obtain rfl := Replacement.folded.inj hr
    exact partsEnd_fold _ _ _ hi
  · obtain rfl := Action.replace.inj (ha'.symm.trans ha)
    exact ⟨p.node, (Place.node_mem_of_mem_children hchild).1, mem_preorder_of_fold hcb hm⟩

end Document

namespace Rule

variable {pass : Pass} {d : Draft} {k : Nat}

/-- Whatever options are set, the pass over calls of server methods replaces names by texts and
statements by folds. -/
theorem descends_of_callAsync (h : (callAsync.draft pass).value = .ok (d, k)) :
    d.doc = pass.doc ∧ ∀ e ∈ d.edits, pass.doc.Descends e := by
  have hs : callAsync ∈ sweeps := by simp [sweeps]
  obtain ⟨hdoc, hplaced⟩ := draft_placed hs h
  refine ⟨hdoc, fun e he => ?_⟩
  have hnode : e.node ∈ pass.doc.nodes := Document.node_mem_nodes (hplaced e he)
  rw [Sweep.draft, Run.value_bind] at h
  obtain ⟨t, ht, h⟩ := Except.bind_eq_ok.1 h
  cases ht
  obtain ⟨p, hp, step, hv, he⟩ | ⟨f, ha, -⟩ := (Traversal.run_inv h).2 e he
  · obtain rfl | ⟨receiver, name, new, -, -, rfl | ⟨e', hf, rfl⟩⟩ := methodCallStep_inv hv
    · cases he
    · obtain rfl | he := List.mem_cons.1 he
      · exact .of_isLiteral hnode rfl
      · obtain ⟨-, rfl⟩ := Step.mem_edits_ofAwait.1 he
        refine .of_isLiteral hnode ?_
        obtain ha | ha := pass.doc.awaitEdit_action p <;> simp [Edit.isLiteral, ha]
    · obtain rfl | he := List.mem_cons.1 he
      · exact .of_isLiteral hnode rfl
      · obtain rfl := List.mem_singleton.1 he
        exact Document.descends_of_foldMark? hp (Value.ends_indentUnit _) hf
  · exact .of_isLiteral hnode (by simp [Edit.isLiteral, (Document.asyncMark?_eq_some ha).1])

end Rule

/-- After a pass over calls of server methods, whatever options are set, each replacement is written
from nodes strictly below the one that it replaces. A node is written from the texts that it asks
for, and asking comes to an end from every node, so there is exactly one way to write the nodes and
`render` is it. Neither this nor the text nor the report of the draft is ever given up for want of
depth. -/
theorem Rule.callAsync_writing_ends {pass : Pass} {d : Draft} {k : Nat}
    (hids : (pass.doc.nodes.map Node.id).Nodup) (hd : (callAsync.draft pass).value = .ok (d, k)) :
    (∀ e ∈ d.edits, ∀ r, e.action = .replace r →
        ∀ m ∈ r.nodes, ∃ c ∈ e.node.children, m ∈ c.preorder) ∧
      (∀ n write write', (∀ m ∈ d.asks n, write m = write' m) → d.body write n = d.body write' n) ∧
      (∀ n ∈ pass.doc.nodes, Acc (fun a b => a ∈ d.asks b) n) ∧
      d.IsWriter d.render ∧
      (∀ write, d.IsWriter write → ∀ n ∈ pass.doc.nodes, write n = d.render n) ∧
      (∀ n ∈ pass.doc.nodes, Ends (d.render n) ∧
        ∀ fuel, n.size ≤ fuel → d.renderWithin fuel n = d.render n) ∧
      Ends d.source ∧ Ends d.changes := by
  obtain ⟨hdoc, hedits⟩ := descends_of_callAsync hd
  rw [← hdoc] at hids hedits ⊢
  have hdesc := Draft.isDescending_of_descends hids hedits
  refine ⟨fun e he => (hedits e he).below, fun n write write' => Draft.body_eq_of_asks,
    fun n hn => hdesc.acc_asks hn, hdesc.isWriter_render,
    fun write hw n hn => hdesc.isWriter_unique hw hdesc.isWriter_render hn,
    fun n hn => ⟨Draft.ends_render hids hedits hn, fun fuel hf => ?_⟩,
    Draft.ends_source hids hedits, Draft.ends_changes hids hedits⟩
  exact hdesc.renderWithin_eq hn hf (Node.size_le_of_mem_preorder hn)

/-- A fold with another fold in its callback. -/
theorem Rule.callAsync_writing_ends_mixed :
    (Mixed.doc.nodes.map Node.id).Nodup ∧
      ∃ d k, (callAsync.draft (Mixed.pass Mixed.doc true)).value = .ok (d, k) ∧
        (d.edits.filter fun e => !e.isLiteral).length = 2 ∧
        d.IsWriter d.render ∧ Ends d.source ∧ Ends d.changes := by
  have hm : Mixed.doc.MethodsNamed := by
    unfold Document.MethodsNamed
    decide +kernel
  obtain ⟨k, hk⟩ := exists_draft_of_methodsNamed (Mixed.foldsBy Mixed.doc) hm
  have hids : ((Mixed.pass Mixed.doc true).doc.nodes.map Node.id).Nodup := Mixed.wellFormed.ids
  obtain ⟨-, -, -, hwriter, -, -, hends⟩ := callAsync_writing_ends hids hk
  exact ⟨hids, _, k, hk, by decide +kernel, hwriter, hends⟩

end Asyncify
