import Asyncify.Proofs.Conversion

/-! The text that the pass over calls of server methods gives back: every such call stands in it
once, under its new name and behind one `await`, however deep it lies in callbacks that are
folded. -/
namespace Asyncify

/-- The call is written once, under its new name and behind one `await`: an inserted one, with which
nothing comes in but parentheses, that of the constant at the start of its own `try` statement, or
the one it had. -/
structure Print.Converts (p : Print) (doc : Document) (c name : Place) : Prop where
  callee : ∀ q ∈ c.child? .function, p.times q.id = 1
  once : p.times name.id = 1
  renamed : ∀ x ∈ p.nodes, x.isOf name.id → x.text = "callAsync"
  awaited : p.awaits c = 1
  around : ∀ x ∈ p.nodes, x.isOf c.id →
    (x.opening?, x.closing?) ∈ [(some "", some ""), (some "await ", some ""),
      (some "(await ", some ")")]
  bound : ∀ q ∈ c.child? .function, ∀ x ∈ p.nodes, x.leadsAwait q.id → ∃ s cb,
    c.statement? = some s ∧ Callback.of? doc c = some cb ∧ x.isOf s.id ∧
      x.lead? q.id = some ("try \x7b" ++ doc.newline ++ (doc.lineIndent s.node ++ "  ") ++
        "const " ++ cb.resultName ++ " = await ")

namespace Document

variable {doc : Document} {folds : Bool} {c name s f a p : Place} {cb : Callback} {e : Edit}
  {n : Node}

/-- An edit at a call awaits it. -/
theorem eq_awaitEdit (hp : p ∈ doc.places) (he : e ∈ (Rule.convert doc folds p).edits)
    (hk : e.place.kind = .call) : e = doc.awaitEdit p := by
  obtain ⟨name, hc, ⟨rfl, -⟩ | hf | ⟨-, -, he⟩⟩ := Rule.mem_edits_convert hp he
  · rw [hc.kind_name.1] at hk
    cases hk
  · obtain ⟨cb, hfold, -⟩ := foldAt?_eq_some hf ⟨name, hc⟩
    rw [hfold.kind] at hk
    cases hk
  · exact he

/-- The only edit at a method call is its `await`, where the call is neither folded nor awaited
yet. -/
theorem IsScript.editsOf_call (h : doc.IsScript) (hw : doc.WellFormed)
    (hc : doc.IsMethodCall c name) :
    (doc.converted folds).editsOf c.id =
      if (Rule.foldAt? doc folds c).isNone && !c.isAwaited then [doc.awaitEdit c] else [] := by
  have hother {q : Place} (hq : q ∈ doc.places) (hk : q.kind ≠ .call) : q.id ≠ c.id := by
    intro he
    obtain rfl := hw.place_eq_of_id hq hc.1 he
    exact hk hc.kind
  have hsteps : ∀ q ∈ doc.places, q.id ≠ c.id →
      ((Rule.convert doc folds q).edits.filter fun e => e.node.id = c.id) = [] := by
    intro q hq hne
    refine List.filter_eq_nil_iff.2 fun e he hid => hne ?_
    have hplace : e.place = c :=
      hw.place_eq_of_id (converts_of_mem_step hq he).mem_places hc.1 (of_decide_eq_true hid)
    have hawait := eq_awaitEdit hq he (by rw [hplace]; exact hc.kind)
    rw [hawait, awaitEdit_place] at hplace
    rw [hplace]
  have hqueue : (((doc.queue (Rule.convert doc folds) []).filterMap doc.asyncMark?).filter
      fun e => e.node.id = c.id) = [] := by
    refine List.filter_eq_nil_iff.2 fun e he hid => ?_
    obtain ⟨f, hf, he⟩ := List.mem_filterMap.1 he
    obtain ⟨hp, hl⟩ := mem_queue_convert hf
    obtain ⟨-, ha⟩ := asyncMark?_eq_some he
    refine hother (Place.asyncAnchor?_mem_places hp ha) ?_ (of_decide_eq_true hid)
    obtain ⟨hn, -⟩ | ⟨-, -, -, hn⟩ := h.asyncAnchor?_ne_call hp hl ha <;> exact hn
  rw [Draft.editsOf, converted, afterPass, Draft.recordAll, List.filter_append, hqueue,
    List.append_nil, afterSteps, List.filter_flatMap, hw.flatMap_places hc.1 hsteps]
  obtain ⟨why, heq⟩ := Rule.convert_of_isMethodCall folds hc
  have hname : name.node.id ≠ c.id := by
    obtain ⟨hk, hp⟩ := hc.kind_name
    exact hother hp (by simp [hk])
  rw [heq, Step.edits_append, List.filter_append,
    List.filter_cons_of_neg (by simp [Edit.node, hname])]
  cases hfold : Rule.foldAt? doc folds c with
  | some e =>
    obtain ⟨cb, hf, -⟩ := foldAt?_eq_some hfold ⟨name, hc⟩
    have hs : e.node.id ≠ c.id := hother hf.mem_places.1 (by simp [hf.kind])
    simp [hs]
  | none =>
    have hself : (doc.awaitEdit c).node.id = c.id := by rw [Edit.node, awaitEdit_place]; rfl
    cases ha : c.isAwaited <;> simp [Step.ofAwait, ha, hself]

/-- Around a method call comes in an `await`, if need be in parentheses, just where it is neither
folded nor awaited yet. -/
theorem IsScript.around_call (h : doc.IsScript) (hw : doc.WellFormed) (folds : Bool)
    (hc : doc.IsMethodCall c name) :
    ((doc.converted folds).before c.id, (doc.converted folds).after c.id) ∈
      if (Rule.foldAt? doc folds c).isNone && !c.isAwaited then [("await ", ""), ("(await ", ")")]
      else [("", "")] := by
  rw [Draft.before, Draft.after, h.editsOf_call hw hc]
  cases (Rule.foldAt? doc folds c).isNone && !c.isAwaited with
  | false => exact List.mem_singleton_self _
  | true => obtain ha | ha := doc.awaitEdit_action c <;> simp [Edit.before, Edit.after, ha]

theorem IsScript.endsAwait_before (h : doc.IsScript) (hw : doc.WellFormed)
    (hc : doc.IsMethodCall c name) :
    Text.endsAwait ((doc.converted folds).before c.id) =
      ((Rule.foldAt? doc folds c).isNone && !c.isAwaited) := by
  have haround := h.around_call hw folds hc
  cases hb : (Rule.foldAt? doc folds c).isNone && !c.isAwaited with
  | false =>
    rw [hb, if_neg Bool.false_ne_true, List.mem_singleton, Prod.mk.injEq] at haround
    rw [haround.1]
    rfl
  | true =>
    rw [hb, if_pos rfl, List.mem_pair, Prod.mk.injEq, Prod.mk.injEq] at haround
    obtain ⟨hbefore, -⟩ | ⟨hbefore, -⟩ := haround <;> rw [hbefore] <;> decide

/-- Nothing but the new name is written for the name of a method call. -/
theorem IsScript.text_name (h : doc.IsScript) (hw : doc.WellFormed) (hc : doc.IsMethodCall c name)
    (fuel : Nat) : ((doc.converted folds).printWithin (fuel + 1) name.node).text = "callAsync" := by
  obtain ⟨hk, hp⟩ := hc.kind_name
  have hedit : ∀ e ∈ (doc.converted folds).editsOf name.id, e.before = "" ∧ e.after = "" := by
    intro e he
    obtain ⟨he, hid⟩ := List.mem_filter.1 he
    have hconv := converts_of_mem he
    have hplace : e.place = name :=
      hw.place_eq_of_id hconv.mem_places hp (of_decide_eq_true hid)
    cases hconv with
    | rename _ ha => simp [Edit.before, Edit.after, ha]
    | fold _ ha => simp [Edit.before, Edit.after, ha]
    | await hc' he =>
      have hkc := hc'.kind
      rw [he, awaitEdit_place] at hplace
      rw [hplace, hk] at hkc
      cases hkc
    | promote hf hl ha =>
      rw [hplace] at ha
      obtain ⟨-, hn⟩ | ⟨q, hq, hm, -⟩ := h.asyncAnchor?_ne_call hf hl ha
      · exact absurd hk hn
      · obtain ⟨-, -, receiver, hmember, -⟩ := hc
        obtain ⟨-, callee, -, hkm, -, hprop, -⟩ := Place.memberCall?_eq_some.1 hmember
        obtain rfl := Option.some.inj ((Place.parent?_of_child? hprop).symm.trans hq)
        rw [hkm] at hm
        cases hm
  have hbefore : (doc.converted folds).before name.id = "" := by
    refine Text.intercalate_eq_empty fun s hs => ?_
    obtain ⟨e, he, rfl⟩ := List.mem_map.1 hs
    exact (hedit e he).1
  have hafter : (doc.converted folds).after name.id = "" := by
    refine Text.intercalate_eq_empty fun s hs => ?_
    obtain ⟨e, he, rfl⟩ := List.mem_map.1 (List.mem_reverse.1 hs)
    exact (hedit e he).2
  have hr : (doc.converted folds).replacement? name.node.id = _ := replacement?_name hw hc
  rw [Draft.printWithin, Print.text, Slot.texts_map_print, Draft.layout, Draft.bodySlots, hr]
  show (doc.converted folds).before name.id ++
    ("callAsync" ++ ((doc.converted folds).after name.id ++ "")) = _
  rw [hbefore, hafter]
  decide

/-- How often the print of a method call starts with an `await`. -/
theorem IsScript.countP_opensAwait (h : doc.IsScript) (hw : doc.WellFormed)
    (hc : doc.IsMethodCall c name) :
    (doc.converted folds).print.nodes.countP (Print.opensAwait c.id) =
      if (Rule.foldAt? doc folds c).isNone && !c.isAwaited then 1 else 0 := by
  have hopens (k : Nat) (m : Node) : ((doc.converted folds).printWithin (k + 1) m).opensAwait c.id =
      (m.id == c.id && ((Rule.foldAt? doc folds c).isNone && !c.isAwaited)) := by
    rw [Draft.opensAwait_printWithin]
    cases hm : m.id == c.id with
    | false => rfl
    | true => rw [beq_iff_eq.1 hm, h.endsAwait_before hw hc]
  split
  · next hb =>
    rw [Bool.and_eq_true] at hb
    have hnone := (foldAt?_eq_none_iff ⟨name, hc⟩).1 (Option.isNone_iff_eq_none.1 hb.1)
    have hreach := h.reaches_call hw hc hnone doc.root_mem_nodes (node_mem_nodes hc.1)
    obtain ⟨k, -, hk⟩ :=
      Draft.countP_of_isOf (h.isLaid hw) hw hreach doc.root_mem_nodes (Nat.le_refl _)
        fun x (hx : x.opensAwait c.id) => Print.isOf_of_opensAwait hx
    rw [print_converted, hk, hopens, hb.1, hb.2]
    simp [Place.id]
  · next hb =>
    refine Draft.countP_eq_zero (h.isLaid hw) doc.root_mem_nodes (Nat.le_refl _) fun k m _ _ => ?_
    rw [hopens, Bool.eq_false_iff.2 hb, Bool.and_false]

/-- Only the fold of a call leads to what it calls with an `await`. -/
theorem IsScript.leadsAwait_iff (h : doc.IsScript) (hw : doc.WellFormed) (hn : n ∈ doc.nodes)
    (id k : Nat) :
    ((doc.converted folds).printWithin (k + 1) n).leadsAwait id ↔
      ∃ c s cb callee, doc.IsFolded folds c s cb ∧ s.node = n ∧ c.child? .function = some callee ∧
        callee.id = id := by
  have hfolded {c s : Place} {cb : Callback} (hf : doc.IsFolded folds c s cb) :
      ∃ callee, c.child? .function = some callee ∧
        ((doc.converted folds).printWithin (k + 1) s.node).leadsAwait id = (callee.id == id) := by
    have hr : (doc.converted folds).replacement? s.node.id = _ := replacement?_statement hw h hf
    obtain ⟨-, ⟨name, hc⟩, -⟩ := hf
    obtain ⟨callee, hcallee, -⟩ := hc.exists_callee
    exact ⟨callee, hcallee, Draft.leadsAwait_of_folded hr rfl (by simp [fold, hcallee])⟩
  constructor
  · intro hl
    cases hr : (doc.converted folds).replacement? n.id with
    | none => rw [Draft.leadsAwait_of_plain (Or.inl hr)] at hl; cases hl
    | some r =>
      obtain ⟨c, name, -, -, rfl⟩ | ⟨c, s, cb, hf, rfl, -⟩ := replacement?_cases hw hn hr
      · rw [Draft.leadsAwait_of_plain (Or.inr ⟨_, hr⟩)] at hl
        cases hl
      · obtain ⟨callee, hcallee, heq⟩ := hfolded hf
        rw [heq, beq_iff_eq] at hl
        exact ⟨c, s, cb, callee, hf, rfl, hcallee, hl⟩
  · rintro ⟨c, s, cb, callee, hf, rfl, hcallee, rfl⟩
    obtain ⟨callee', hcallee', heq⟩ := hfolded hf
    obtain rfl := Option.some.inj (hcallee.symm.trans hcallee')
    rw [heq]
    exact beq_self_eq_true _

/-- Two calls that call the same node are one. -/
theorem IsFolded.call_eq {c' s' q q' : Place} {cb' : Callback} (hf : doc.IsFolded folds c' s' cb')
    (hw : doc.WellFormed) (hc : doc.IsMethodCall c name) (hq : c.child? .function = some q)
    (hq' : c'.child? .function = some q') (hid : q'.id = q.id) : c' = c := by
  obtain ⟨-, ⟨name', hc'⟩, -⟩ := hf
  obtain rfl := hw.place_eq_of_id (child_mem_places hc'.1 (Place.mem_children_of_child? hq'))
    (child_mem_places hc.1 (Place.mem_children_of_child? hq)) hid
  exact Option.some.inj ((Place.parent?_of_child? hq').symm.trans (Place.parent?_of_child? hq))

/-- How often an `await` leads to what a method call calls. -/
theorem IsScript.countP_leadsAwait (h : doc.IsScript) (hw : doc.WellFormed)
    (hc : doc.IsMethodCall c name) {callee : Place} (hcallee : c.child? .function = some callee) :
    (doc.converted folds).print.nodes.countP (Print.leadsAwait callee.id) =
      if (Rule.foldAt? doc folds c).isSome then 1 else 0 := by
  cases hfold : Rule.foldAt? doc folds c with
  | none =>
    refine Draft.countP_eq_zero (h.isLaid hw) doc.root_mem_nodes (Nat.le_refl _) fun k m _ hm => ?_
    refine Bool.eq_false_iff.2 fun hl => ?_
    obtain ⟨c', s', cb', callee', hf', -, hcallee', hid⟩ := (h.leadsAwait_iff hw hm _ _).1 hl
    obtain rfl := hf'.call_eq hw hc hcallee hcallee' hid
    exact (foldAt?_eq_none_iff ⟨name, hc⟩).1 hfold s' cb' hf'
  | some e =>
    obtain ⟨cb, hf, -⟩ := foldAt?_eq_some hfold ⟨name, hc⟩
    have hs := node_mem_nodes hf.mem_places.1
    obtain ⟨k, -, hk⟩ := Draft.countP_of_reaches (P := Print.leadsAwait callee.id) (h.isLaid hw) hw
      (hf.reaches h hw) doc.root_mem_nodes (Nat.le_refl _) fun k m hm hne => by
        refine Bool.eq_false_iff.2 fun hl => hne ?_
        obtain ⟨c', s', cb', callee', hf', rfl, hcallee', hid⟩ := (h.leadsAwait_iff hw hm _ _).1 hl
        obtain rfl := hf'.call_eq hw hc hcallee hcallee' hid
        rw [Option.some.inj (hf'.2.2.1.symm.trans hf.2.2.1)]
    have hl := (h.leadsAwait_iff hw hs callee.id k).2
      ⟨c, _, cb, callee, hf, rfl, hcallee, rfl⟩
    rw [print_converted, hk, hl]
    rfl

/-- No `await` that comes in leads to a method call as a whole. -/
theorem IsScript.countP_leadsAwait_call (h : doc.IsScript) (hw : doc.WellFormed)
    (hc : doc.IsMethodCall c name) :
    (doc.converted folds).print.nodes.countP (Print.leadsAwait c.id) = 0 := by
  refine Draft.countP_eq_zero (h.isLaid hw) doc.root_mem_nodes (Nat.le_refl _) fun k m _ hm => ?_
  refine Bool.eq_false_iff.2 fun hl => ?_
  obtain ⟨c', s', cb', callee', ⟨-, ⟨name', hc'⟩, -⟩, -, hcallee', hid⟩ :=
    (h.leadsAwait_iff hw hm _ _).1 hl
  obtain ⟨callee, hcallee, hp, hk, -⟩ := hc'.exists_callee
  obtain rfl := Option.some.inj (hcallee.symm.trans hcallee')
  obtain rfl := hw.place_eq_of_id hp hc.1 hid
  rw [hc.kind] at hk
  cases hk

/-- A folded call is a statement, so it is not awaited. -/
theorem IsFolded.isAwaited (h : doc.IsFolded folds c s cb) : c.isAwaited = false := by
  have hk : s.node.kind = .expressionStatement := h.kind
  obtain ⟨-, hchild⟩ := h.mem_places
  rw [Place.isAwaited, (Place.node_mem_of_mem_children hchild).2, Place.awaitedBy]
  simp [hk]

/-- The `await` that a method call has is written once, with all that belongs to it. -/
theorem IsScript.countP_keepsAwait (h : doc.IsScript) (hw : doc.WellFormed)
    (hc : doc.IsMethodCall c name) (ha : c.awaiter? = some n) :
    (doc.converted folds).print.nodes.countP (Print.keepsAwait n c.id) = 1 := by
  obtain ⟨habove, hk⟩ := Place.awaiter?_eq_some ha
  obtain ⟨hn, hin⟩ := mem_preorder_of_mem_above hc.1 habove
  have hnone : ∀ s cb, ¬ doc.IsFolded folds c s cb := by
    intro s cb hf
    have hawaited := hf.isAwaited
    rw [Place.isAwaited_eq, ha] at hawaited
    cases hawaited
  have hreach := h.reaches_around hw folds hc hn (by rw [hk]; rfl) (by simp [hk]) hin
  obtain ⟨k, hsize, hcount⟩ := Draft.countP_of_isOf (h.isLaid hw) hw hreach doc.root_mem_nodes
    (Nat.le_refl _) fun x (hx : x.keepsAwait n c.id) => Print.isOf_of_keepsAwait hx
  have hkeeps := Draft.keepsAwait_of_touched (h.isLaid hw) hw hn
    (replacement?_eq_none hw hn (by simp [hk]) (by simp [hk]))
    (hc.isTouched hw hn (hc.name_mem_preorder hin)) (h.reaches_call hw hc hnone hn hin) hsize
  rw [print_converted, hcount]
  exact if_pos hkeeps

/-- One `await` stands before every method call: its own, that of its `try` statement, or the one it
had. -/
theorem IsScript.awaits_eq_one (h : doc.IsScript) (hw : doc.WellFormed)
    (hc : doc.IsMethodCall c name) :
    (doc.converted folds).print.awaits c = 1 := by
  obtain ⟨callee, hcallee, -⟩ := hc.exists_callee
  have hleads : ((c.child? .function).map fun q =>
      (doc.converted folds).print.nodes.countP (Print.leadsAwait q.id)).getD 0 =
        if (Rule.foldAt? doc folds c).isSome then 1 else 0 := by
    simp [hcallee, h.countP_leadsAwait hw hc hcallee]
  rw [Print.awaits, hleads, h.countP_leadsAwait_call hw hc, h.countP_opensAwait hw hc]
  cases hfold : Rule.foldAt? doc folds c with
  | some e =>
    obtain ⟨cb, hf, -⟩ := foldAt?_eq_some hfold ⟨name, hc⟩
    have hnone := hf.isAwaited
    rw [Place.isAwaited_eq, Option.isSome_eq_false_iff, Option.isNone_iff_eq_none] at hnone
    simp [hnone]
  | none =>
    cases ha : c.awaiter? with
    | none => simp [Place.isAwaited_eq, ha]
    | some n => simp [Place.isAwaited_eq, ha, h.countP_keepsAwait hw hc ha]

theorem IsScript.converts (h : doc.IsScript) (hw : doc.WellFormed) (folds : Bool)
    (hc : doc.IsMethodCall c name) : (doc.converted folds).print.Converts doc c name := by
  obtain ⟨callee, hcallee, hreach, hname⟩ := h.reaches_name hw folds hc
  have honce {t : Node} (ht : (doc.converted folds).Reaches doc.root t) :
      (doc.converted folds).print.times t.id = 1 :=
    Draft.times_eq_one (h.isLaid hw) hw ht doc.root_mem_nodes (Nat.le_refl _)
  have hprint {x : Print} (hx : x ∈ (doc.converted folds).print.nodes) :
      ∃ k, ∃ m ∈ doc.nodes, x = (doc.converted folds).printWithin (k + 1) m := by
    obtain ⟨k, m, -, hm, rfl⟩ :=
      Draft.exists_of_mem_nodes (h.isLaid hw) doc.root_mem_nodes hx (Nat.le_refl _)
    exact ⟨k, m, hm, rfl⟩
  refine ⟨?_, honce hname, ?_, h.awaits_eq_one hw hc, ?_, ?_⟩
  · intro q hq
    obtain rfl := Option.some.inj (hcallee.symm.trans hq)
    exact honce hreach
  · intro x hx hof
    obtain ⟨k, m, hm, rfl⟩ := hprint hx
    rw [Draft.isOf_printWithin, beq_iff_eq] at hof
    obtain rfl := hw.node_eq_of_id hm (node_mem_nodes hc.kind_name.2) hof
    exact h.text_name hw hc k
  · intro x hx hof
    obtain ⟨k, m, hm, rfl⟩ := hprint hx
    rw [Draft.isOf_printWithin, beq_iff_eq] at hof
    rw [Draft.opening?_printWithin, Draft.closing?_printWithin, hof]
    have haround := h.around_call hw folds hc
    split at haround
    · rw [List.mem_pair, Prod.mk.injEq, Prod.mk.injEq] at haround
      obtain ⟨hb, ha⟩ | ⟨hb, ha⟩ := haround <;> simp [hb, ha]
    · rw [List.mem_singleton, Prod.mk.injEq] at haround
      simp [haround.1, haround.2]
  · intro q hq x hx hl
    obtain ⟨k, m, hm, rfl⟩ := hprint hx
    obtain ⟨c', s, cb, q', hf, rfl, hq', hid⟩ := (h.leadsAwait_iff hw hm _ _).1 hl
    obtain rfl := hf.call_eq hw hc hq hq' hid
    have hr : (doc.converted folds).replacement? s.node.id = _ := replacement?_statement hw h hf
    refine ⟨s, cb, hf.2.2.1, hf.2.2.2, by simp [Place.id], ?_⟩
    rw [← hid]
    exact Draft.lead?_of_folded hr rfl (by simp [fold, hq'])

/-- Statements are moved to blanks only. -/
theorem isEven_of_mem_layout (folds : Bool) (n : Node) :
    ∀ s ∈ (doc.converted folds).layout n, s.IsEven := by
  have hnewline : Text.solid doc.newline.toList = [] ∧ doc.newline.toList ≠ [] := by
    rw [newline]
    split <;> decide
  have hbody : ∀ s ∈ (doc.converted folds).bodySlots n, s.IsEven := by
    rw [Draft.bodySlots]
    cases hr : (doc.converted folds).replacement? n.id with
    | none =>
      dsimp only
      split
      · exact Draft.isEven_rowSlots _ _ _
      · simp [Slot.IsEven]
    | some r =>
      obtain ⟨-, -, -, -, rfl⟩ | ⟨c, s, cb, -, -, rfl⟩ := replacement?_inv hr
      · simp [Slot.IsEven]
      · have hindent : Text.solid (doc.lineIndent s.node ++ "  ").toList = [] := by
          rw [String.toList_append, Text.solid_append, List.append_eq_nil_iff]
          refine ⟨Text.solid_eq_nil_iff.2 fun x hx => ?_, by decide⟩
          rw [lineIndent, String.toList_ofList] at hx
          exact Text.isBlank_of_mem_indentation _ hx
        exact Fold.isEven_slots rfl hindent hnewline.1 hnewline.2
  intro s hs
  rw [Draft.layout, List.mem_cons, List.mem_append, List.mem_singleton] at hs
  rcases hs with rfl | hs | rfl
  · trivial
  · exact hbody s hs
  · trivial

end Document

/-- Whether callbacks are folded or not, the pass succeeds, and each call of a server method stands
in the text that it gives back once, under its new name and behind one `await`. The text is that of
the print, in which moving a statement changes blanks only. -/
theorem Rule.callAsync_converts {pass : Pass} (ho : pass.IsPlain) (hw : pass.doc.WellFormed)
    (hj : pass.doc.IsScript) :
    ∃ d k, (callAsync.draft pass).value = .ok (d, k) ∧
      Text.solid d.print.text.toList = d.print.solid ∧
      ∀ c name, pass.doc.IsMethodCall c name →
        (callAsync.rule.visit pass).value.map Outcome.output =
            .ok (some (pass.doc.slice 0 pass.doc.root.start ++ d.print.text ++
              pass.doc.slice pass.doc.root.stop (Text.byteLength pass.doc.chars))) ∧
          d.print.Converts pass.doc c name := by
  generalize hf : (pass.option "decompose_callbacks" (.bool true)).isSet = folds
  have hfollows := convert_follows ho
  rw [hf] at hfollows
  have hanchored : (pass.doc.queue (convert pass.doc folds) []).all fun f =>
      f.asyncAnchor?.isSome := by
    refine List.all_eq_true.2 fun f hq => ?_
    obtain ⟨hp, hl⟩ := Document.mem_queue_convert hq
    refine Place.asyncAnchor?_isSome hl fun hm => ?_
    obtain ⟨q, hq, -⟩ := hj.methods f hp hm
    exact Option.isSome_iff_exists.2 ⟨q, hq⟩
  obtain ⟨k, hk⟩ := hfollows.exists_draft rfl hanchored
  refine ⟨pass.doc.converted folds, k, hk,
    Draft.solid_printWithin (Document.isEven_of_mem_layout folds) _ _, ?_⟩
  intro c name hc
  refine ⟨?_, hj.converts hw folds hc⟩
  have hedits : (pass.doc.converted folds).edits ≠ [] := by
    obtain ⟨e, he, -⟩ := Document.rename_mem folds hc
    exact List.ne_nil_of_mem he
  have hsource := Draft.source_eq_print (hj.isLaid hw) hedits
  rw [Sweep.value_visit, hk]
  show (if (pass.doc.converted folds).edits.isEmpty then _
    else (pass.doc.converted folds).source.map some) = _
  rw [if_neg (by simpa using hedits), hsource]
  rfl

namespace Nesting

open Sketch

def meteorCall (fields : List Field) (name : String) (args : List Sketch) : Sketch :=
  callOn fields "Meteor" "call" (leaf "string" [] name :: args)

def arrow : Sketch :=
  tree "arrow_function" []
    [parameters ["error", "data"], gap " ", token "=>", gap " ", meteorCall [.body] "'d'" []]

def handler : Sketch :=
  functionWith [] ["err", "res"] (block [.body] " " " "
    [check [] "err"
      [leaving [.consequence], gap " ",
        otherwise (block [] " " " " [statement [] (meteorCall [] "'c'" [arrow])])]])

/-- A call with an awaited call among its arguments and a callback that tests the error. In the
other arm stands a second such call, whose callback is an expression with one more call. -/
def doc : Document :=
  program
    [statement [] (meteorCall [] "'a'" [awaited [] (meteorCall [] "'b'" []), handler]), gap "\n"]

def pass : Pass := { path := "a.js", doc, options := .empty }

/-- The four calls with their names. -/
def calls : List (Place × Place) :=
  [(2, 6), (13, 17), (47, 51), (64, 68)].map fun x => (doc.placeAt x.1, doc.placeAt x.2)

theorem wellFormed : doc.WellFormed := wellFormed_program _

theorem isScript : doc.IsScript where
  tokens := by decide +kernel
  calls := by decide +kernel
  arguments := by decide +kernel
  statements := by decide +kernel
  checks := by
    have hall : ∀ p ∈ doc.places, p.kind = .ifStatement → (p.child? .consequence).isSome ∧
        p.parts =
          [p.child? .condition, p.child? .consequence, p.child? .alternative].filterMap (·) := by
      decide +kernel
    intro p hp name hcheck
    exact hall p hp (Document.isErrorCheck_iff.1 hcheck).1
  elses := by decide +kernel
  callbacks := by decide +kernel
  methods := by decide +kernel

def output : String :=
  "try \x7b\n  const res = await Meteor.callAsync('a', await Meteor.callAsync('b'));\n" ++
    "  try \x7b\n    const data = await Meteor.callAsync('c');\n" ++
    "    await Meteor.callAsync('d');\n  \x7d catch (error) \x7b\n  \x7d\n" ++
    "\x7d catch (err) \x7b\n  return;\n\x7d\n"

/-- Where the calls stand, and what the pass writes. -/
theorem readings :
    (∀ x ∈ calls, x.1 ∈ doc.places ∧ x.1.barrier?.isNone ∧
      ∃ y ∈ x.1.memberCall?, y.2 = x.2 ∧ doc.isIdentifier "Meteor" y.1 ∧
        doc.textOf x.2.node = "call") ∧
      (Rule.callAsync.rule.visit pass).value.map Outcome.output = .ok (some output) := by
  decide +kernel

theorem isMethodCall : ∀ x ∈ calls, doc.IsMethodCall x.1 x.2 := by
  intro x hx
  obtain ⟨hp, hb, ⟨receiver, name⟩, hm, rfl, hr, ht⟩ := readings.1 x hx
  exact ⟨hp, Option.isNone_iff_eq_none.1 hb, receiver, hm, hr, ht⟩

end Nesting

/-- Two of the calls are folded, one in the callback of the other; one gets an `await`, and one
keeps its own. -/
theorem Rule.callAsync_converts_nested :
    Nesting.pass.IsPlain ∧ Nesting.doc.WellFormed ∧ Nesting.doc.IsScript ∧
      (∀ x ∈ Nesting.calls, Nesting.doc.IsMethodCall x.1 x.2) ∧
      (callAsync.rule.visit Nesting.pass).value.map Outcome.output = .ok (some Nesting.output) ∧
      ∃ d k, (callAsync.draft Nesting.pass).value = .ok (d, k) ∧
        ∀ x ∈ Nesting.calls, d.print.Converts Nesting.doc x.1 x.2 := by
  have ho : Nesting.pass.IsPlain := ⟨rfl, rfl⟩
  obtain ⟨d, k, hd, -, hall⟩ := callAsync_converts ho Nesting.wellFormed Nesting.isScript
  exact ⟨ho, Nesting.wellFormed, Nesting.isScript, Nesting.isMethodCall, Nesting.readings.2,
    d, k, hd, fun x hx => (hall x.1 x.2 (Nesting.isMethodCall x hx)).2⟩

end Asyncify
