import Asyncify.Proofs.Printer

/-! The plan of a pass says what becomes of each place. Its marks are those that the edits of the
pass leave, so the pass writes out what the printer prints. -/
namespace Asyncify

/-- What a pass is to do: the nodes that get a new text, the calls that get an `await`, and the
functions that become async. -/
structure Plan where
  renamed : Place → List (Place × String)
  awaited : Place → Bool
  promotes : Place → Bool

namespace Plan

variable (plan : Plan) (doc : Document)

/-- The text that a node gets from somewhere in the document. -/
def newText? (p : Place) : Option String :=
  ((doc.places.flatMap plan.renamed).find? fun x => x.1.id = p.id).map (·.2)

/-- The number of functions that put their keyword before the place. -/
def keywords (p : Place) : Nat :=
  doc.places.countP fun f => plan.promotes f && f.asyncAnchor?.any fun a => a.id = p.id

/-- An awaited call that is an operand of something that binds closer stands in parentheses. -/
def mark (p : Place) : Mark where
  before :=
    (if plan.awaited p then [if doc.needsParentheses p then "(await " else "await "] else []) ++
      List.replicate (plan.keywords doc p) "async "
  new := plan.newText? doc p
  after := if plan.awaited p && doc.needsParentheses p then [")"] else []

/-- The plan leaves the document as it is. -/
def isIdle : Bool :=
  doc.places.all fun p => (plan.renamed p).isEmpty && !plan.awaited p && !plan.promotes p

/-- Every function that is to become async has a place for the keyword. -/
def isAnchored : Bool :=
  doc.places.all fun f => !plan.promotes f || f.asyncAnchor?.isSome

end Plan

def Action.new? : Action → Option String
  | .replace (.literal v) => some v.display
  | _ => none

namespace Mark

variable (as : List Action) (m : Mark)

theorem new_foldl_add : (as.foldl add m).new = (as.filterMap Action.new?).getLast?.or m.new := by
  induction as generalizing m with
  | nil => simp
  | cons a as ih =>
    rw [List.foldl_cons, ih]
    cases hn : a.new? with
    | none =>
      have hm : (m.add a).new = m.new := by
        cases a with
        | replace r => cases r <;> simp [add, Action.new?] at hn ⊢
        | insert text => rfl
        | wrap before after => rfl
      rw [List.filterMap_cons_none hn, hm]
    | some text =>
      have hm : (m.add a).new = some text := by
        cases a with
        | replace r => cases r <;> simp_all [add, Action.new?]
        | insert text => cases hn
        | wrap before after => cases hn
      rw [List.filterMap_cons_some hn, hm, List.getLast?_cons]
      cases (as.filterMap Action.new?).getLast? <;> rfl

end Mark

/-- The edits of a pass do what the plan says, and its queue holds the functions that the plan
promotes. -/
structure Plan.Describes (plan : Plan) (doc : Document) (g : Place → Step) (l : List Place) :
    Prop where
  edits : ∀ p ∈ doc.places, (g p).edits.map (fun e => (e.place, e.action)) =
    (plan.renamed p).map (fun x => (x.1, .replace (.literal (.text x.2)))) ++
      if plan.awaited p then [(p, (doc.awaitEdit p).action)] else []
  queue : ∀ f, f ∈ doc.queue g l ↔ f ∈ doc.places ∧ plan.promotes f
  renamed_mem : ∀ p ∈ doc.places, ∀ x ∈ plan.renamed p, x.1 ∈ doc.places
  renamed_eq : ∀ p ∈ doc.places, ∀ x ∈ plan.renamed p, ∀ q ∈ doc.places, ∀ y ∈ plan.renamed q,
    x.1.id = y.1.id → x.2 = y.2

/-- The actions that a list of placed actions has for one node. -/
def Action.at (id : Nat) (xs : List (Place × Action)) : List Action :=
  (xs.filter fun x => x.1.id = id).map Prod.snd

namespace Action

@[simp] theorem at_append (id : Nat) (xs ys : List (Place × Action)) :
    Action.at id (xs ++ ys) = Action.at id xs ++ Action.at id ys := by
  simp [Action.at]

theorem at_flatMap {α : Type} (id : Nat) (l : List α) (h : α → List (Place × Action)) :
    Action.at id (l.flatMap h) = l.flatMap fun a => Action.at id (h a) := by
  simp [Action.at, List.filter_flatMap, List.map_flatMap]

end Action

/-- What edits leave on a node depends on their places and actions alone. -/
theorem Mark.ofEdits_eq (es : List Edit) (n : Node) :
    ofEdits es n = (Action.at n.id (es.map fun e => (e.place, e.action))).foldl add {} := by
  rw [ofEdits, Action.at, List.filter_map, List.map_map]
  rfl

theorem Document.WellFormed.flatMap_places {doc : Document} {α : Type} {p : Place}
    (hw : doc.WellFormed)
    (hp : p ∈ doc.places) {h : Place → List α} (hz : ∀ q ∈ doc.places, q.id ≠ p.id → h q = []) :
    doc.places.flatMap h = h p := by
  obtain ⟨l, r, hlr⟩ := List.append_of_mem hp
  have hn := hw.nodup_places
  rw [hlr, List.map_append, List.map_cons, List.nodup_append, List.nodup_cons] at hn
  obtain ⟨-, ⟨hr, -⟩, hl⟩ := hn
  have hleft : l.flatMap h = [] := by
    refine List.flatMap_eq_nil_iff.2 fun q hq => hz q (by simp [hlr, hq]) ?_
    exact hl q.id (List.mem_map_of_mem hq) p.id List.mem_cons_self
  have hright : r.flatMap h = [] := by
    refine List.flatMap_eq_nil_iff.2 fun q hq => hz q (by simp [hlr, hq]) ?_
    intro he
    exact hr (he ▸ List.mem_map_of_mem hq)
  rw [hlr, List.flatMap_append, List.flatMap_cons, hleft, hright, List.nil_append, List.append_nil]

namespace Plan.Describes

variable {plan : Plan} {doc : Document} {g : Place → Step} {l : List Place} {p : Place}

/-- Every place adds its renamings and its await, and every function in the queue its keyword. -/
theorem pairs_eq (h : plan.Describes doc g l) :
    (doc.afterPass g l).edits.map (fun e => (e.place, e.action)) =
      (doc.places.flatMap fun q =>
        (plan.renamed q).map (fun x => (x.1, .replace (.literal (.text x.2)))) ++
          if plan.awaited q then [(q, (doc.awaitEdit q).action)] else []) ++
        (doc.queue g l).filterMap fun f => f.asyncAnchor?.map fun a => (a, .insert "async ") := by
  rw [Document.afterPass, Draft.recordAll, List.map_append, Document.afterSteps, List.map_flatMap,
    List.map_filterMap]
  congr 1
  · exact List.flatMap_congr h.edits
  · refine congrArg (List.filterMap · _) (funext fun f => ?_)
    cases hf : f.asyncAnchor? <;> simp [Document.asyncMark?, hf]

theorem at_rename (id : Nat) (xs : List (Place × String)) :
    Action.at id (xs.map fun x => (x.1, .replace (.literal (.text x.2)))) =
      (xs.filter fun x => x.1.id = id).map fun x => .replace (.literal (.text x.2)) := by
  rw [Action.at, List.filter_map, List.map_map]
  rfl

theorem at_await (id : Nat) (q : Place) (a : Action) :
    Action.at id (if plan.awaited q then [(q, a)] else []) =
      if plan.awaited q && q.id = id then [a] else [] := by
  cases plan.awaited q <;> by_cases hq : q.id = id <;> simp [Action.at, hq]

/-- Of the steps of a pass, only the one at the place itself puts something around it. -/
theorem flatMap_at_steps (hw : doc.WellFormed) (hp : p ∈ doc.places) {α : Type}
    {k : Action → List α} (hk : ∀ r, k (.replace r) = []) :
    (Action.at p.id (doc.places.flatMap fun q =>
        (plan.renamed q).map (fun x => (x.1, .replace (.literal (.text x.2)))) ++
          if plan.awaited q then [(q, (doc.awaitEdit q).action)] else [])).flatMap k =
      if plan.awaited p then k (doc.awaitEdit p).action else [] := by
  have hq (q : Place) : (Action.at p.id ((plan.renamed q).map (fun x =>
      (x.1, .replace (.literal (.text x.2)))) ++
        if plan.awaited q then [(q, (doc.awaitEdit q).action)] else [])).flatMap k =
      if plan.awaited q && q.id = p.id then k (doc.awaitEdit q).action else [] := by
    have hr : (Action.at p.id ((plan.renamed q).map fun x =>
        (x.1, .replace (.literal (.text x.2))))).flatMap k = [] := by
      rw [at_rename, List.flatMap_map]
      exact List.flatMap_eq_nil_iff.2 fun x _ => hk _
    rw [Action.at_append, List.flatMap_append, hr, at_await, List.nil_append]
    split <;> simp
  rw [Action.at_flatMap, List.flatMap_assoc, funext hq]
  rw [hw.flatMap_places hp]
  · simp
  · intro q _ hne
    simp [hne]

/-- As many keywords go before a place as the plan counts. -/
theorem at_queue (h : plan.Describes doc g l) (hw : doc.WellFormed) :
    Action.at p.id ((doc.queue g l).filterMap fun f =>
        f.asyncAnchor?.map fun a => (a, .insert "async ")) =
      List.replicate (plan.keywords doc p) (.insert "async ") := by
  have hcount : (doc.queue g l).countP (fun f => f.asyncAnchor?.any fun a => a.id = p.id) =
      plan.keywords doc p := by
    -- the queue and the promoted places are the same set, and neither has repetitions
    have hperm : (doc.queue g l).Perm (doc.places.filter plan.promotes) := by
      refine (List.perm_ext_iff_of_nodup ?_ ?_).2 fun f => ?_
      · exact List.Nodup.of_map _ (Queue.nodup_addAll List.nodup_nil)
      · exact (List.Nodup.of_map _ hw.nodup_places).filter _
      · rw [h.queue, List.mem_filter]
    rw [hperm.countP_eq, List.countP_filter, Plan.keywords]
    exact List.countP_congr fun f _ => by simp [and_comm]
  rw [← hcount]
  induction doc.queue g l with
  | nil => rfl
  | cons f fs ih =>
    rw [List.countP_cons]
    cases hf : f.asyncAnchor? with
    | none => simpa [List.filterMap_cons, hf] using ih
    | some a =>
      by_cases ha : a.id = p.id
      · simp_all [Action.at, List.replicate_succ]
      · simp_all [Action.at]

theorem befores_awaitEdit (doc : Document) (p : Place) :
    (doc.awaitEdit p).action.befores =
      [if doc.needsParentheses p then "(await " else "await "] := by
  rw [Document.awaitEdit]
  split <;> rfl

theorem afters_awaitEdit (doc : Document) (p : Place) :
    (doc.awaitEdit p).action.afters = if doc.needsParentheses p then [")"] else [] := by
  rw [Document.awaitEdit]
  split <;> rfl

/-- The new texts that the edits give a place are those that the plan gives it. -/
theorem news_eq (h : plan.Describes doc g l) (hw : doc.WellFormed) :
    (Action.at p.id ((doc.afterPass g l).edits.map fun e => (e.place, e.action))).filterMap
      Action.new? =
      ((doc.places.flatMap plan.renamed).filter fun x => x.1.id = p.id).map Prod.snd := by
  have hq (q : Place) : (Action.at p.id ((plan.renamed q).map (fun x =>
      (x.1, .replace (.literal (.text x.2)))) ++
        if plan.awaited q then [(q, (doc.awaitEdit q).action)] else [])).filterMap Action.new? =
      ((plan.renamed q).filter fun x => x.1.id = p.id).map Prod.snd := by
    have ha : (doc.awaitEdit q).action.new? = none := by
      obtain ha | ha := doc.awaitEdit_action q <;> rw [ha] <;> rfl
    rw [Action.at_append, List.filterMap_append, at_rename, at_await, List.filterMap_map]
    have hs : (if (plan.awaited q && q.id = p.id) = true then [(doc.awaitEdit q).action] else
        []).filterMap Action.new? = [] := by
      split <;> simp [ha]
    rw [hs, List.append_nil]
    exact congrFun List.filterMap_eq_map' _
  rw [h.pairs_eq, Action.at_append, List.filterMap_append, h.at_queue hw, Action.at_flatMap,
    List.filterMap_flatMap, funext hq, List.filter_flatMap, List.map_flatMap]
  simp [Action.new?]

/-- The edits of a pass leave the marks of its plan. -/
theorem ofEdits_eq_mark (h : plan.Describes doc g l) (hw : doc.WellFormed) (hp : p ∈ doc.places) :
    Mark.ofEdits (doc.afterPass g l).edits p.node = plan.mark doc p := by
  have hbefore : (Mark.ofEdits (doc.afterPass g l).edits p.node).before =
      (plan.mark doc p).before := by
    rw [Mark.ofEdits_eq, Mark.before_foldl_add, h.pairs_eq, Action.at_append, List.flatMap_append]
    rw [show p.node.id = p.id from rfl, h.at_queue hw, flatMap_at_steps hw hp fun r => rfl,
      befores_awaitEdit]
    simp [Plan.mark, Action.befores, List.flatMap_replicate]
  have hafter : (Mark.ofEdits (doc.afterPass g l).edits p.node).after =
      (plan.mark doc p).after := by
    rw [Mark.ofEdits_eq, Mark.after_foldl_add, h.pairs_eq, Action.at_append, List.flatMap_append]
    rw [show p.node.id = p.id from rfl, h.at_queue hw, flatMap_at_steps hw hp fun r => rfl,
      afters_awaitEdit]
    have hq : (List.replicate (plan.keywords doc p) (Action.insert "async ")).flatMap
        Action.afters = [] := by
      rw [List.flatMap_eq_nil_iff]
      intro a ha
      rw [List.eq_of_mem_replicate ha]
      rfl
    rw [hq, List.append_nil, List.append_nil, Plan.mark]
    cases plan.awaited p <;> cases doc.needsParentheses p <;> rfl
  have hnew : (Mark.ofEdits (doc.afterPass g l).edits p.node).new = (plan.mark doc p).new := by
    rw [Mark.ofEdits_eq, Mark.new_foldl_add, show p.node.id = p.id from rfl, h.news_eq hw,
      Lists.getLast?_eq_head?, List.head?_map, List.head?_filter]
    · simp [Plan.mark, Plan.newText?]
    · intro x hx y hy
      obtain ⟨⟨a, x⟩, ha, rfl⟩ := List.mem_map.1 hx
      obtain ⟨⟨b, y⟩, hb, rfl⟩ := List.mem_map.1 hy
      obtain ⟨ha, hap⟩ := List.mem_filter.1 ha
      obtain ⟨hb, hbp⟩ := List.mem_filter.1 hb
      obtain ⟨q, hq, ha⟩ := List.mem_flatMap.1 ha
      obtain ⟨r, hr, hb⟩ := List.mem_flatMap.1 hb
      have hid : a.id = b.id := (of_decide_eq_true hap).trans (of_decide_eq_true hbp).symm
      exact h.renamed_eq q hq _ ha r hr _ hb hid
  exact Mark.ext hbefore hnew hafter

/-- Each edit is a renaming, an await or a keyword of the plan. -/
theorem edit_cases (h : plan.Describes doc g l) {e : Edit} (he : e ∈ (doc.afterPass g l).edits) :
    (∃ q ∈ doc.places, ∃ x ∈ plan.renamed q,
        e.place = x.1 ∧ e.action = .replace (.literal (.text x.2))) ∨
      (e.place ∈ doc.places ∧ plan.awaited e.place ∧ e.action = (doc.awaitEdit e.place).action) ∨
      (∃ f ∈ doc.queue g l, f.asyncAnchor? = some e.place ∧ e.action = .insert "async ") := by
  have hm : (e.place, e.action) ∈ (doc.afterPass g l).edits.map fun e => (e.place, e.action) :=
    List.mem_map_of_mem he
  rw [h.pairs_eq] at hm
  obtain hm | hm := List.mem_append.1 hm
  · obtain ⟨q, hq, hm⟩ := List.mem_flatMap.1 hm
    obtain hm | hm := List.mem_append.1 hm
    · obtain ⟨x, hx, hxe⟩ := List.mem_map.1 hm
      obtain ⟨h1, h2⟩ := Prod.mk.inj hxe
      exact Or.inl ⟨q, hq, x, hx, h1.symm, h2.symm⟩
    · split at hm
      · next ha =>
        obtain ⟨h1, h2⟩ := Prod.mk.inj (List.mem_singleton.1 hm)
        rw [h1]
        exact Or.inr (Or.inl ⟨hq, ha, h2⟩)
      · cases hm
  · obtain ⟨f, hf, hm⟩ := List.mem_filterMap.1 hm
    obtain ⟨a, ha, hx⟩ := Option.map_eq_some_iff.1 hm
    obtain ⟨h1, h2⟩ := Prod.mk.inj hx
    exact Or.inr (Or.inr ⟨f, hf, h1 ▸ ha, h2.symm⟩)

theorem literal_of_mem (h : plan.Describes doc g l) {e : Edit}
    (he : e ∈ (doc.afterPass g l).edits) : e.isLiteral := by
  obtain ⟨q, -, x, -, -, ha⟩ | ⟨-, -, ha⟩ | ⟨f, -, -, ha⟩ := h.edit_cases he
  · simp [Edit.isLiteral, ha]
  · obtain hw | hw := doc.awaitEdit_action e.place <;> simp [Edit.isLiteral, ha, hw]
  · simp [Edit.isLiteral, ha]

theorem node_mem_of_mem (h : plan.Describes doc g l) {e : Edit}
    (he : e ∈ (doc.afterPass g l).edits) : e.node ∈ doc.nodes := by
  apply Document.node_mem_nodes
  obtain ⟨q, hq, x, hx, hp, -⟩ | ⟨hp, -, -⟩ | ⟨f, hf, hp, -⟩ := h.edit_cases he
  · exact hp ▸ h.renamed_mem q hq x hx
  · exact hp
  · exact Place.asyncAnchor?_mem_places ((h.queue f).1 hf).1 hp

/-- A pass writes out what the printer prints for its plan. -/
theorem source_eq_print (h : plan.Describes doc g l) (hw : doc.WellFormed) :
    (doc.afterPass g l).source = .ok (doc.print (plan.mark doc)) := by
  rw [Draft.source_eq_splice hw (fun e he => h.literal_of_mem he) fun e he => h.node_mem_of_mem he]
  exact congrArg Except.ok (Document.assemble_splice_eq_print fun p hp => h.ofEdits_eq_mark hw hp)

/-- A plan that says nothing leaves no edit, and any other leaves one unless it lacks an anchor. -/
theorem edits_eq_nil_iff (h : plan.Describes doc g l) (ha : plan.isAnchored doc) :
    (doc.afterPass g l).edits = [] ↔ plan.isIdle doc := by
  have hp := h.pairs_eq
  constructor
  · intro he
    rw [he, List.map_nil, eq_comm, List.append_eq_nil_iff] at hp
    obtain ⟨hs, hq⟩ := hp
    rw [Plan.isIdle, List.all_eq_true]
    intro p hmem
    have hstep := List.flatMap_eq_nil_iff.1 hs p hmem
    obtain ⟨hr, hw⟩ := List.append_eq_nil_iff.1 hstep
    have hno : plan.promotes p = false := by
      by_contra hpr
      have hpr : plan.promotes p = true := by simpa using hpr
      have hnone := List.filterMap_eq_nil_iff.1 hq p ((h.queue p).2 ⟨hmem, hpr⟩)
      have hsome := List.all_eq_true.1 ha p hmem
      simp [hpr, Option.map_eq_none_iff.1 hnone] at hsome
    have haw : plan.awaited p = false := by
      by_contra hc
      simp [hc] at hw
    simp [List.map_eq_nil_iff.1 hr, haw, hno]
  · intro hi
    have hall := List.all_eq_true.1 hi
    simp only [Bool.and_eq_true, Bool.not_eq_true', List.isEmpty_iff] at hall
    have hq : doc.queue g l = [] := by
      refine List.eq_nil_iff_forall_not_mem.2 fun f hf => ?_
      obtain ⟨hf, hpr⟩ := (h.queue f).1 hf
      simp [(hall f hf).2] at hpr
    rw [hq, List.filterMap_nil, List.append_nil] at hp
    refine List.map_eq_nil_iff.1 (hp.trans (List.flatMap_eq_nil_iff.2 fun p hmem => ?_))
    simp [(hall p hmem).1.1, (hall p hmem).1.2]

end Plan.Describes

theorem Rule.value_outcome (d : Draft) :
    (Rule.outcome d).value.map Outcome.output =
      if d.edits.isEmpty then .ok none else d.source.map some := by
  rw [outcome]
  split
  · rfl
  · rw [Run.value_bind, Run.value_liftExcept]
    cases d.source <;> rfl

/-- What a rule gives back is read off the draft that its pass leaves. -/
theorem Sweep.value_visit_eq (s : Sweep) (pass : Pass) :
    (s.rule.visit pass).value =
      ((s.draft pass).value.map Prod.fst).bind fun d => (Rule.outcome d).value := by
  rw [rule, Run.value_bind, Run.value_lift, Except.bind, Run.value_bind]
  cases (s.draft pass).value with
  | error e => rfl
  | ok x =>
    show Run.value _ = (Rule.outcome x.1).value
    dsimp only
    split <;> rfl

/-- A rule gives back nothing where its draft has no edit, and else the text of the draft. -/
theorem Sweep.value_visit (s : Sweep) (pass : Pass) :
    (s.rule.visit pass).value.map Outcome.output =
      ((s.draft pass).value.map Prod.fst).bind fun d =>
        if d.edits.isEmpty then .ok none else d.source.map some := by
  rw [s.value_visit_eq]
  cases (s.draft pass).value with
  | error e => rfl
  | ok x => exact Rule.value_outcome x.1

namespace Plan.Describes

variable {plan : Plan} {s : Sweep} {pass : Pass} {g : Place → Step}
  {late : Draft → Except Fault (List Place)} {l : List Place}

theorem all_anchored (h : plan.Describes pass.doc g l) :
    ((pass.doc.queue g l).all fun f => f.asyncAnchor?.isSome) = plan.isAnchored pass.doc := by
  rw [Bool.eq_iff_iff, List.all_eq_true, Plan.isAnchored, List.all_eq_true]
  constructor
  · intro hall f hf
    cases hp : plan.promotes f with
    | false => rfl
    | true => exact hall f ((h.queue f).2 ⟨hf, hp⟩)
  · intro hall f hf
    obtain ⟨hf, hp⟩ := (h.queue f).1 hf
    simpa [hp] using hall f hf

theorem isAnchored_of_isIdle {doc : Document} (h : plan.isIdle doc) : plan.isAnchored doc := by
  have hall := List.all_eq_true.1 h
  refine List.all_eq_true.2 fun f hf => ?_
  have hf := hall f hf
  simp only [Bool.and_eq_true, Bool.not_eq_true'] at hf
  simp [hf.2]

/-- The result of a pass is read off its plan. -/
theorem value_visit (h : plan.Describes pass.doc g l) (hf : s.Follows pass g late)
    (hl : late (pass.doc.afterSteps g) = .ok l) (hw : pass.doc.WellFormed) :
    (s.rule.visit pass).value.map Outcome.output =
      if plan.isIdle pass.doc then .ok none
      else if plan.isAnchored pass.doc then .ok (some (pass.doc.print (plan.mark pass.doc)))
      else .error .missingNode := by
  rw [s.value_visit, hf.draft_of_late hl, h.all_anchored]
  cases ha : plan.isAnchored pass.doc with
  | false =>
    have hi : plan.isIdle pass.doc = false := by
      by_contra hi
      simp [isAnchored_of_isIdle (by simpa using hi)] at ha
    simp [hi, Except.bind]
  | true =>
    have he := h.edits_eq_nil_iff ha
    simp only [if_true, Except.bind, h.source_eq_print hw, List.isEmpty_iff, he, Except.map]

end Plan.Describes
end Asyncify
