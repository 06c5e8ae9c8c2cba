import Asyncify.Proofs.Awaits
import Asyncify.Proofs.Keywords
import Asyncify.Proofs.Rewrites
import Asyncify.Proofs.Script

/-! The pass over calls of server methods: each is written once, under its new name, and with one
`await` before it, however deep it lies in callbacks that are folded. -/
namespace Asyncify

/-- No option is set, except perhaps whether callbacks are folded. -/
def Pass.IsPlain (pass : Pass) : Prop :=
  pass.options.get? (.text "methods") = none ∧ pass.option "indent" (.text "  ") = .text "  "

namespace Rule

/-- The edit that folds a call with its callback, if callbacks are folded. -/
def foldAt? (doc : Document) (folds : Bool) (p : Place) : Option Edit :=
  if folds then doc.foldMark? p (.ok "  ") else none

/-- What the rule for method calls does at one place. -/
def convert (doc : Document) (folds : Bool) (p : Place) : Step :=
  match (renameOn doc callTable "Meteor").found? callTable p with
  | some (name, new) =>
    ⟨[(renameOn doc callTable "Meteor").renameEdit name new], []⟩ ++
      match foldAt? doc folds p with
      | some e => ⟨[e], p.promotion?.toList⟩
      | none => Step.ofAwait doc p
  | none => {}

variable {doc : Document} {pass : Pass} {folds : Bool} {p c name : Place}

/-- The unit of indentation has no say where callbacks are not folded. -/
theorem value_methodCallStep_unfolded (indent : Value) (p : Place) :
    (methodCallStep (renameOn doc callTable "Meteor") false indent p).value =
      .ok (convert doc false p) := by
  rw [methodCallStep, Run.value_bind, Renaming.value_rename? rfl, convert]
  cases (renameOn doc callTable "Meteor").found? callTable p <;> rfl

theorem value_methodCallStep_eq_convert (folds : Bool) (p : Place) :
    (methodCallStep (renameOn doc callTable "Meteor") folds (.text "  ") p).value =
      .ok (convert doc folds p) := by
  cases folds with
  | true => exact value_methodCallStep rfl (.text "  ") p
  | false => exact value_methodCallStep_unfolded (.text "  ") p

theorem convert_move (p : Place) : callAsync.Move doc p (convert doc folds p) := by
  rw [convert]
  cases h : (renameOn doc callTable "Meteor").found? callTable p with
  | none => exact .rest
  | some x =>
    obtain ⟨hb, receiver, hm, -, -⟩ := Renaming.found?_eq_some h
    cases he : foldAt? doc folds p with
    | none => exact .rename hm hb
    | some e =>
      rw [foldAt?] at he
      split at he
      · exact .fold hm hb he
      · cases he

/-- With the default methods, a pass is described by what it does at each place. -/
theorem follows_of_step {g : Place → Step} (h : pass.options.get? (.text "methods") = none)
    (hg : ∀ p, (methodCallStep (renameOn pass.doc callTable "Meteor")
      (pass.option "decompose_callbacks" (.bool true)).isSet
      (pass.option "indent" (.text "  ")) p).value = .ok (g p))
    (hm : ∀ p, callAsync.Move pass.doc p (g p)) : callAsync.Follows pass g fun _ => .ok [] := by
  have hmethods : pass.methods callTable = .ok callTable := by
    rw [Pass.methods, Pass.option_unset h]
    rfl
  refine follows_of_does ⟨_, rfl, fun p => ?_, rfl⟩ hm (by decide) (by decide)
  show (methodCallStep
    { doc := pass.doc, table := pass.methods callTable, accepts := pass.doc.isIdentifier "Meteor" }
    _ (pass.option "indent" (.text "  ")) p).value = _
  rw [hmethods]
  exact hg p

theorem convert_follows (h : pass.IsPlain) :
    callAsync.Follows pass
      (convert pass.doc (pass.option "decompose_callbacks" (.bool true)).isSet)
      fun _ => .ok [] := by
  refine follows_of_step h.1 (fun p => ?_) convert_move
  rw [h.2]
  exact value_methodCallStep_eq_convert _ p

/-- The rule finds just the calls of server methods. -/
theorem found?_iff (hp : p ∈ doc.places) {x : Place × Value} :
    (renameOn doc callTable "Meteor").found? callTable p = some x ↔
      doc.IsMethodCall p x.1 ∧ x.2 = .text "callAsync" := by
  have htable (s : String) : callTable.get? (.text s) =
      if s = "call" then some (.text "callAsync") else none := by
    rw [callTable, MethodTable.get?_ofNames (by decide)]
    by_cases hs : s = "call"
    · subst hs
      rfl
    · simp [hs]
  constructor
  · intro h
    obtain ⟨hb, receiver, hm, hacc, hget⟩ := Renaming.found?_eq_some h
    have hget' : callTable.get? (.text (doc.textOf x.1.node)) = some x.2 := hget
    rw [htable] at hget'
    split at hget'
    · next hs => exact ⟨⟨hp, hb, receiver, hm, hacc, hs⟩, (Option.some.inj hget').symm⟩
    · cases hget'
  · rintro ⟨⟨-, hb, receiver, hm, hacc, hs⟩, hx⟩
    have hacc' : (renameOn doc callTable "Meteor").accepts receiver = true := hacc
    have hget : callTable.get? (.text ((renameOn doc callTable "Meteor").doc.textOf x.1.node)) =
        some (.text "callAsync") := by
      rw [show (renameOn doc callTable "Meteor").doc = doc from rfl, htable, if_pos hs]
    rw [Renaming.found?, hm]
    simp [hacc', hb, hget, ← hx]

theorem convert_of_isMethodCall (folds : Bool) (h : doc.IsMethodCall c name) :
    ∃ why, convert doc folds c = ⟨[⟨name, .replace (.literal (.text "callAsync")), why⟩], []⟩ ++
      match foldAt? doc folds c with
      | some e => ⟨[e], c.promotion?.toList⟩
      | none => Step.ofAwait doc c := by
  have hfound := (found?_iff h.1 (x := (name, .text "callAsync"))).2 ⟨h, rfl⟩
  rw [convert, hfound]
  exact ⟨_, rfl⟩

/-- An edit of a step belongs to a call of a server method: it renames the call, folds it, or awaits
it. -/
theorem mem_edits_convert (hp : p ∈ doc.places) {e : Edit} (he : e ∈ (convert doc folds p).edits) :
    ∃ name, doc.IsMethodCall p name ∧
      ((e.place = name ∧ e.action = .replace (.literal (.text "callAsync"))) ∨
        foldAt? doc folds p = some e ∨
        foldAt? doc folds p = none ∧ p.isAwaited = false ∧ e = doc.awaitEdit p) := by
  cases hf : (renameOn doc callTable "Meteor").found? callTable p with
  | none => simp [convert, hf] at he
  | some x =>
    obtain ⟨hcall, hx⟩ := (found?_iff hp).1 hf
    obtain ⟨why, heq⟩ := convert_of_isMethodCall folds hcall
    rw [heq, Step.edits_append, List.singleton_append, List.mem_cons] at he
    refine ⟨x.1, hcall, ?_⟩
    obtain rfl | he := he
    · exact Or.inl ⟨rfl, rfl⟩
    · right
      cases hfold : foldAt? doc folds p with
      | some e' =>
        rw [hfold] at he
        exact Or.inl (by rw [List.mem_singleton.1 he])
      | none =>
        rw [hfold] at he
        exact Or.inr ⟨rfl, Step.mem_edits_ofAwait.1 he⟩

end Rule

/-- The draft that the pass leaves. -/
def Document.converted (doc : Document) (folds : Bool) : Draft :=
  doc.afterPass (Rule.convert doc folds) []

theorem Document.print_converted (doc : Document) (folds : Bool) :
    (doc.converted folds).print = (doc.converted folds).printWithin doc.root.size doc.root := rfl

namespace Document

variable {doc : Document} {folds : Bool} {c name s f a p : Place} {cb : Callback} {e : Edit}
  {n : Node}

/-- The call is folded with its callback, and its statement replaced. -/
def IsFolded (doc : Document) (folds : Bool) (c s : Place) (cb : Callback) : Prop :=
  folds = true ∧ (∃ name, doc.IsMethodCall c name) ∧ c.statement? = some s ∧
    Callback.of? doc c = some cb

theorem foldAt?_eq_some (h : Rule.foldAt? doc folds c = some e)
    (hc : ∃ name, doc.IsMethodCall c name) :
    ∃ cb, doc.IsFolded folds c e.place cb ∧
      e.action = .replace (.folded (doc.fold e.place c cb (.ok "  "))) := by
  rw [Rule.foldAt?] at h
  split at h
  · next hf =>
    obtain ⟨cb, hcb, hs, ha⟩ := foldMark?_eq_some h
    exact ⟨cb, ⟨hf, hc, hs, hcb⟩, ha⟩
  · cases h

theorem IsFolded.foldAt? (h : doc.IsFolded folds c s cb) :
    ∃ e, Rule.foldAt? doc folds c = some e ∧ e.place = s ∧
      e.action = .replace (.folded (doc.fold s c cb (.ok "  "))) := by
  obtain ⟨hf, -, hs, hcb⟩ := h
  simp [Rule.foldAt?, hf, foldMark?, hcb, hs]

theorem foldAt?_eq_none_iff (hc : ∃ name, doc.IsMethodCall c name) :
    Rule.foldAt? doc folds c = none ↔ ∀ s cb, ¬ doc.IsFolded folds c s cb := by
  constructor
  · intro h s cb hfold
    obtain ⟨e, he, -⟩ := hfold.foldAt?
    rw [h] at he
    cases he
  · intro h
    cases he : Rule.foldAt? doc folds c with
    | none => rfl
    | some e =>
      obtain ⟨cb, hfold, -⟩ := foldAt?_eq_some he hc
      exact absurd hfold (h _ _)

theorem IsFolded.kind (h : doc.IsFolded folds c s cb) : s.kind = .expressionStatement := by
  simpa using (Option.filter_eq_some_iff.1 h.2.2.1).2

theorem IsFolded.mem_places (h : doc.IsFolded folds c s cb) : s ∈ doc.places ∧ c ∈ s.children := by
  obtain ⟨-, ⟨name, hc⟩, hs, -⟩ := h
  exact mem_children_of_parent? hc.1 (Option.filter_eq_some_iff.1 hs).1

theorem IsMethodCall.kind_name (h : doc.IsMethodCall c name) :
    name.kind = .propertyName ∧ name ∈ doc.places := by
  obtain ⟨hc, -, receiver, hm, -⟩ := h
  obtain ⟨-, callee, -, -, -, -, hk⟩ := Place.memberCall?_eq_some.1 hm
  exact ⟨hk, (Place.memberCall?_mem_places hc hm).2⟩

/-- A folded statement holds one call only. -/
theorem IsScript.eq_of_isFolded (h : doc.IsScript) {c' : Place} {cb' : Callback}
    (hc : doc.IsFolded folds c s cb) (hc' : doc.IsFolded folds c' s cb') : c = c' := by
  obtain ⟨hs, hchild⟩ := hc.mem_places
  obtain ⟨-, hchild'⟩ := hc'.mem_places
  obtain ⟨x, hx⟩ := List.length_eq_one_iff.1 (h.statements s hs hc.kind)
  have hpart {q : Place} (hq : q ∈ s.children) (hk : q.kind = .call) : q = x := by
    have := h.mem_parts hs hq (Node.holdsCall_iff.2 ⟨q.node, q.node.mem_preorder_self, hk⟩)
    rwa [hx, List.mem_singleton] at this
  obtain ⟨-, ⟨name, hm⟩, -⟩ := hc
  obtain ⟨-, ⟨name', hm'⟩, -⟩ := hc'
  rw [hpart hchild hm.kind, hpart hchild' hm'.kind]

/-- The keyword never goes before a call, and before a property's name only in a method. -/
theorem IsScript.asyncAnchor?_ne_call (h : doc.IsScript) (hf : f ∈ doc.places)
    (hl : f.isFunctionLike)
    (ha : f.asyncAnchor? = some a) : a.kind ≠ .call ∧ a.kind ≠ .propertyName ∨
      ∃ q, a.parent? = some q ∧ q.kind = .method ∧ a.kind ≠ .call := by
  by_cases hm : f.kind = .method
  · right
    have ht : f.asyncTarget? = some f := by simp [Place.asyncTarget?, hm]
    rw [Place.asyncAnchor?, ht] at ha
    simp only [hm, if_true] at ha
    cases hs : f.children.find? fun c => c.node.symbol = "*" with
    | some b =>
      rw [hs] at ha
      cases ha
      have hsym : a.node.symbol = "*" := by simpa using List.find?_some hs
      refine ⟨f, Place.parent?_of_mem_children (List.mem_of_find?_eq_some hs), hm, ?_⟩
      rw [Place.kind, Node.kind, hsym]
      decide
    | none =>
      rw [hs] at ha
      obtain ⟨q, hq, hk⟩ := h.methods f hf hm
      obtain rfl : q = a := Option.some.inj (Eq.trans (Eq.symm hq) ha)
      exact ⟨f, Place.parent?_of_child? ha, hm, hk⟩
  · left
    obtain ⟨rfl, -⟩ | ⟨-, hk⟩ | ⟨hpar, ht⟩ := Place.asyncAnchor?_cases hl ha
    · rw [Place.isFunctionLike] at hl
      constructor <;> intro hk <;> simp [hk, Kind.isFunction] at hl
    · exact absurd hk hm
    · have hp : f.kind = .property := by
        by_contra hp
        have hself : f.asyncTarget? = some f := by simp [Place.asyncTarget?, hp]
        exact Place.ne_of_parent? hpar (Option.some.inj (ht.symm.trans hself))
      obtain ⟨v, hv, hlit⟩ := Place.exists_value_of_isFunctionLike hp hl
      have htv : f.asyncTarget? = some v := by simp [Place.asyncTarget?, hp, hv]
      obtain rfl : a = v := Option.some.inj (ht.symm.trans htv)
      rcases Place.kind_of_isFunctionLiteral hlit with hk | hk <;> simp [hk]

/-- What an edit of the pass does: it renames a call, folds a call, awaits a call that is not
folded, or makes a function async. -/
inductive Converts (doc : Document) (folds : Bool) (e : Edit) : Prop
  | rename {c : Place} (hc : doc.IsMethodCall c e.place)
      (ha : e.action = .replace (.literal (.text "callAsync")))
  | fold {c : Place} {cb : Callback} (hc : doc.IsFolded folds c e.place cb)
      (ha : e.action = .replace (.folded (doc.fold e.place c cb (.ok "  "))))
  | await {c name : Place} (hc : doc.IsMethodCall c name) (he : e = doc.awaitEdit c)
  | promote {f : Place} (hf : f ∈ doc.places) (hl : f.isFunctionLike)
      (hp : f.asyncAnchor? = some e.place) (ha : e.action = .insert "async ")

theorem mem_queue_convert (hf : f ∈ doc.queue (Rule.convert doc folds) []) :
    f ∈ doc.places ∧ f.isFunctionLike := by
  obtain hf | hf := Queue.mem_addAll hf
  · cases hf
  rw [asked, List.append_nil] at hf
  obtain ⟨p, hp, hf⟩ := List.mem_flatMap.1 hf
  have hmove : Rule.callAsync.Move doc p (Rule.convert doc folds p) := Rule.convert_move p
  refine ⟨hmove.promoted_mem_places hp hf, ?_⟩
  obtain ⟨-, hpr, -⟩ | ⟨hs, -⟩ := hmove.promoted hf
  · exact Place.isFunctionLike_of_enclosingFunction? (Place.promotion?_eq_some.1 hpr).1
  · exact absurd (congrArg (fun s => s.info.id) hs) (by decide)

theorem converts_of_mem_step (hp : p ∈ doc.places) (he : e ∈ (Rule.convert doc folds p).edits) :
    doc.Converts folds e := by
  obtain ⟨name, hc, ⟨rfl, ha⟩ | hf | ⟨-, -, he⟩⟩ := Rule.mem_edits_convert hp he
  · exact .rename hc ha
  · obtain ⟨cb, hfold, ha⟩ := foldAt?_eq_some hf ⟨name, hc⟩
    exact .fold hfold ha
  · exact .await hc he

theorem converts_of_mem (he : e ∈ (doc.converted folds).edits) : doc.Converts folds e := by
  obtain he | ⟨f, hf, he⟩ := mem_afterPass.1 he
  · obtain ⟨p, hp, he⟩ := mem_afterSteps.1 he
    exact converts_of_mem_step hp he
  · obtain ⟨ha, hanchor⟩ := asyncMark?_eq_some he
    obtain ⟨hp, hl⟩ := mem_queue_convert hf
    exact .promote hp hl hanchor ha

/-- All edits but folds are texts. -/
theorem Converts.isLiteral_or (h : doc.Converts folds e) :
    e.isLiteral ∨ ∃ c cb, doc.IsFolded folds c e.place cb ∧
      e.action = .replace (.folded (doc.fold e.place c cb (.ok "  "))) := by
  cases h with
  | rename _ ha => exact Or.inl (by simp [Edit.isLiteral, ha])
  | @fold c cb hc ha => exact Or.inr ⟨c, cb, hc, ha⟩
  | @await c name _ he =>
    subst he
    obtain ha | ha := doc.awaitEdit_action c <;> exact Or.inl (by simp [Edit.isLiteral, ha])
  | promote _ _ _ ha => exact Or.inl (by simp [Edit.isLiteral, ha])

theorem Converts.mem_places (h : doc.Converts folds e) : e.place ∈ doc.places := by
  cases h with
  | rename hc => exact hc.kind_name.2
  | fold hc => exact hc.mem_places.1
  | await hc he =>
    rw [he, awaitEdit_place]
    exact hc.1
  | promote hf _ hp => exact Place.asyncAnchor?_mem_places hf hp

theorem rename_mem (folds : Bool) (h : doc.IsMethodCall c name) :
    ∃ e ∈ (doc.converted folds).edits, e.place = name ∧
      e.action = .replace (.literal (.text "callAsync")) := by
  obtain ⟨why, heq⟩ := Rule.convert_of_isMethodCall folds h
  refine ⟨⟨name, .replace (.literal (.text "callAsync")), why⟩, ?_, rfl, rfl⟩
  refine mem_afterPass.2 (Or.inl (mem_afterSteps.2 ⟨c, h.1, ?_⟩))
  rw [heq]
  exact List.mem_cons_self

theorem IsFolded.mem (h : doc.IsFolded folds c s cb) :
    ∃ e ∈ (doc.converted folds).edits, e.place = s ∧
      e.action = .replace (.folded (doc.fold s c cb (.ok "  "))) := by
  obtain ⟨e, he, hp, ha⟩ := h.foldAt?
  obtain ⟨-, ⟨name, hc⟩, -⟩ := h
  refine ⟨e, mem_afterPass.2 (Or.inl (mem_afterSteps.2 ⟨c, hc.1, ?_⟩)), hp, ha⟩
  obtain ⟨why, heq⟩ := Rule.convert_of_isMethodCall folds hc
  rw [heq, he]
  exact List.mem_cons_of_mem _ (List.mem_singleton_self _)

/-- Only the names of method calls and folded statements are replaced. -/
theorem replacement?_inv {id : Nat} {r : Replacement}
    (hr : (doc.converted folds).replacement? id = some r) :
    (∃ c name, doc.IsMethodCall c name ∧ name.id = id ∧ r = .literal (.text "callAsync")) ∨
      ∃ c s cb, doc.IsFolded folds c s cb ∧ s.id = id ∧
        r = .folded (doc.fold s c cb (.ok "  ")) := by
  obtain ⟨e, he, her⟩ := List.mem_filterMap.1 (List.mem_of_getLast? hr)
  obtain ⟨he, hid⟩ := List.mem_filter.1 he
  have hplace : e.place.id = id := of_decide_eq_true hid
  cases converts_of_mem he with
  | rename hc ha =>
    left
    refine ⟨_, _, hc, hplace, ?_⟩
    simpa [Edit.replacement?, ha, eq_comm] using her
  | fold hc ha =>
    right
    refine ⟨_, _, _, hc, hplace, ?_⟩
    simpa [Edit.replacement?, ha, eq_comm] using her
  | @await c name hc he =>
    subst he
    obtain ha | ha := doc.awaitEdit_action c <;> simp [Edit.replacement?, ha] at her
  | promote _ _ _ ha => simp [Edit.replacement?, ha] at her

theorem replacement?_cases (hw : doc.WellFormed) (hn : n ∈ doc.nodes) {r : Replacement}
    (hr : (doc.converted folds).replacement? n.id = some r) :
    (∃ c name, doc.IsMethodCall c name ∧ name.node = n ∧ r = .literal (.text "callAsync")) ∨
      ∃ c s cb, doc.IsFolded folds c s cb ∧ s.node = n ∧
        r = .folded (doc.fold s c cb (.ok "  ")) := by
  obtain ⟨c, name, hc, hid, h⟩ | ⟨c, s, cb, hc, hid, h⟩ := replacement?_inv hr
  · exact Or.inl ⟨c, name, hc, hw.node_eq_of_id (node_mem_nodes hc.kind_name.2) hn hid, h⟩
  · exact Or.inr ⟨c, s, cb, hc, hw.node_eq_of_id (node_mem_nodes hc.mem_places.1) hn hid, h⟩

theorem replacement?_eq_none (hw : doc.WellFormed) (hn : n ∈ doc.nodes)
    (hp : n.kind ≠ .propertyName)
    (hs : n.kind ≠ .expressionStatement) : (doc.converted folds).replacement? n.id = none := by
  cases hr : (doc.converted folds).replacement? n.id with
  | none => rfl
  | some r =>
    obtain ⟨c, name, hc, rfl, -⟩ | ⟨c, s, cb, hc, rfl, -⟩ := replacement?_cases hw hn hr
    · exact absurd hc.kind_name.1 hp
    · exact absurd hc.kind hs

theorem replacement?_name (hw : doc.WellFormed) (h : doc.IsMethodCall c name) :
    (doc.converted folds).replacement? name.id = some (.literal (.text "callAsync")) := by
  obtain ⟨hk, hp⟩ := h.kind_name
  obtain ⟨e, he, rfl, ha⟩ := rename_mem folds h
  have hsome : (doc.converted folds).isReplaced e.place.node :=
    (Draft.isReplaced_iff _ _).2 ⟨e, he, rfl, by simp [Edit.replacement?, ha]⟩
  obtain ⟨r, hr⟩ := Option.isSome_iff_exists.1 hsome
  obtain ⟨-, -, -, -, rfl⟩ | ⟨c', s, cb, hc, hs, -⟩ := replacement?_cases hw (node_mem_nodes hp) hr
  · exact hr
  · have hks : e.place.kind = .expressionStatement := by
      rw [Place.kind, ← hs]
      exact hc.kind
    rw [hk] at hks
    cases hks

theorem replacement?_statement (hw : doc.WellFormed) (h : doc.IsScript)
    (hf : doc.IsFolded folds c s cb) :
    (doc.converted folds).replacement? s.id = some (.folded (doc.fold s c cb (.ok "  "))) := by
  obtain ⟨hp, -⟩ := hf.mem_places
  obtain ⟨e, he, rfl, ha⟩ := hf.mem
  have hsome : (doc.converted folds).isReplaced e.place.node :=
    (Draft.isReplaced_iff _ _).2 ⟨e, he, rfl, by simp [Edit.replacement?, ha]⟩
  obtain ⟨r, hr⟩ := Option.isSome_iff_exists.1 hsome
  obtain ⟨c', name, hc, hs, -⟩ | ⟨c', s', cb', hc, hs, rfl⟩ :=
    replacement?_cases hw (node_mem_nodes hp) hr
  · have hks : name.kind = .expressionStatement := by
      rw [Place.kind, hs]
      exact hf.kind
    rw [hc.kind_name.1] at hks
    cases hks
  · obtain rfl := hw.place_eq_of_id hc.mem_places.1 hp (congrArg Node.id hs)
    obtain rfl := h.eq_of_isFolded hf hc
    obtain rfl := Option.some.inj (hf.2.2.2.symm.trans hc.2.2.2)
    exact hr

/-- The draft has an edit in every node that holds the name of a method call. -/
theorem IsMethodCall.isTouched (hw : doc.WellFormed) (h : doc.IsMethodCall c name)
    (hn : n ∈ doc.nodes) (hm : name.node ∈ n.preorder) : (doc.converted folds).isTouched n := by
  obtain ⟨e, he, rfl, -⟩ := rename_mem folds h
  obtain ⟨h1, h2⟩ := hw.span_of_mem_preorder hn hm
  refine List.any_eq_true.2 ⟨e, he, ?_⟩
  simp [Edit.node, h1, h2]

theorem IsMethodCall.exists_callee (h : doc.IsMethodCall c name) :
    ∃ callee, c.child? .function = some callee ∧ callee ∈ doc.places ∧ callee.kind = .member ∧
      callee.node ∈ c.node.children ∧ name.node ∈ callee.node.children := by
  obtain ⟨hc, -, receiver, hm, -⟩ := h
  obtain ⟨-, callee, hf, hk, -, hn, -⟩ := Place.memberCall?_eq_some.1 hm
  exact ⟨callee, hf, child_mem_places hc (Place.mem_children_of_child? hf), hk,
    (Place.node_mem_of_mem_children (Place.mem_children_of_child? hf)).1,
    (Place.node_mem_of_mem_children (Place.mem_children_of_child? hn)).1⟩

theorem IsMethodCall.name_mem_preorder (h : doc.IsMethodCall c name) (hc : c.node ∈ n.preorder) :
    name.node ∈ n.preorder := by
  obtain ⟨callee, -, -, -, hcallee, hname⟩ := h.exists_callee
  exact Node.mem_preorder_of_child hname (Node.mem_preorder_of_child hcallee hc)

/-- A node that is touched and not replaced is written from its children. -/
theorem next_eq_children (hr : (doc.converted folds).replacement? n.id = none)
    (ht : (doc.converted folds).isTouched n) : (doc.converted folds).next n = n.children := by
  rw [Draft.next, Draft.bodySlots, hr]
  simp only [ht, if_true]
  exact Draft.nodes_rowSlots _ _ _

theorem IsFolded.next_perm (hw : doc.WellFormed) (h : doc.IsScript)
    (hf : doc.IsFolded folds c s cb) :
    ((doc.converted folds).next s.node).Perm (doc.foldNodes c cb) := by
  have hr := replacement?_statement hw h hf
  obtain ⟨-, ⟨name, hc⟩, -⟩ := hf
  obtain ⟨callee, hcallee, -⟩ := hc.exists_callee
  rw [Draft.next, Draft.bodySlots, show (doc.converted folds).replacement? s.node.id = _ from hr]
  have hfold : (doc.fold s c cb (.ok "  ")).callee = .ok callee.node := by simp [fold, hcallee]
  rw [foldNodes, hcallee]
  exact Fold.nodes_slots rfl hfold

/-- Everything that the pass writes can be written, from nodes that stand apart. -/
theorem IsScript.isLaid (h : doc.IsScript) (hw : doc.WellFormed) :
    (doc.converted folds).IsLaid where
  whole := by
    intro n hn f hr
    obtain ⟨-, -, -, -, hr⟩ | ⟨c, s, cb, hc, -, hr⟩ := replacement?_cases hw hn hr
    · cases hr
    · injection hr with hr
      subst hr
      obtain ⟨-, ⟨name, hm⟩, -, hcb⟩ := hc
      obtain ⟨-, -, receiver, hmember, -⟩ := id hm
      exact h.fold_isWhole hw hm.1 (by simp [hmember]) hcb "  "
  spreads := by
    intro n hn
    cases hr : (doc.converted folds).replacement? n.id with
    | none =>
      cases ht : (doc.converted folds).isTouched n with
      | true =>
        rw [next_eq_children hr ht]
        exact .refl _
      | false =>
        rw [Draft.next, Draft.bodySlots, hr]
        simpa [ht] using Node.Spreads.of_sublist (List.nil_sublist n.children)
    | some r =>
      obtain ⟨-, -, -, -, rfl⟩ | ⟨c, s, cb, hc, rfl, rfl⟩ := replacement?_cases hw hn hr
      · rw [Draft.next, Draft.bodySlots, hr]
        exact Node.Spreads.of_sublist (List.nil_sublist n.children)
      · obtain ⟨-, ⟨name, hm⟩, hs, hcb⟩ := id hc
        exact (h.spreads_fold hw hm.1 hm.kind hs hcb).trans (.of_perm (hc.next_perm hw h))

/-- No method call is lost on the way down from a node to those that are written for it. -/
theorem IsScript.exists_next (h : doc.IsScript) (hw : doc.WellFormed) {t : Node}
    (hn : n ∈ doc.nodes) (ht : t ∈ n.preorder) (hne : t ≠ n) (hcar : doc.Carries t)
    (hcall : ∀ c s cb, doc.IsFolded folds c s cb → t ≠ c.node) :
    ∃ m ∈ (doc.converted folds).next n, t ∈ m.preorder := by
  obtain ⟨-, c, name, hc, hct⟩ := id hcar
  have hcn := Node.mem_preorder_trans hct ht
  cases hr : (doc.converted folds).replacement? n.id with
  | none =>
    rw [next_eq_children hr (hc.isTouched hw hn (hc.name_mem_preorder hcn))]
    obtain rfl | hm := Node.mem_preorder_iff.1 ht
    · exact absurd rfl hne
    · exact hm
  | some r =>
    obtain ⟨c', name', hc', rfl, -⟩ | ⟨c', s, cb, hc', rfl, -⟩ := replacement?_cases hw hn hr
    · -- a name is too short to hold a call
      obtain ⟨-, -, -, -, -, htext⟩ := hc'
      refine absurd hcn (hc.not_mem_preorder hw hn ?_)
      rw [htext]
      decide
    · obtain ⟨-, ⟨name', hm⟩, hs, hcb⟩ := id hc'
      obtain ⟨m, hm, htm⟩ := h.fold_covers hw hm.1 hm.kind hs hcb ht hcar hne (hcall _ _ _ hc')
      exact ⟨m, (hc'.next_perm hw h).mem_iff.2 hm, htm⟩

/-- What carries a method call is reached from every node around it, a call that is folded apart. -/
theorem IsScript.reaches (h : doc.IsScript) (hw : doc.WellFormed) {t : Node} (hn : n ∈ doc.nodes)
    (ht : t ∈ n.preorder) (hcar : doc.Carries t)
    (hcall : ∀ c s cb, doc.IsFolded folds c s cb → t ≠ c.node) :
    (doc.converted folds).Reaches n t := by
  induction hk : n.size using Nat.strong_induction_on generalizing n with
  | h k ih =>
    by_cases hne : t = n
    · subst hne
      exact .self t
    · obtain ⟨m, hm, htm⟩ := h.exists_next hw hn ht hne hcar hcall
      have hlt := ((h.isLaid hw).spreads n hn).size_lt hm
      exact .step hm (ih m.size (by omega) ((h.isLaid hw).mem_nodes hn hm) htm rfl)

theorem IsMethodCall.carries (hc : doc.IsMethodCall c name) (hn : n.kind.isSolid)
    (hin : c.node ∈ n.preorder) : doc.Carries n :=
  ⟨hn, c, name, hc, hin⟩

theorem IsScript.reaches_call (h : doc.IsScript) (hw : doc.WellFormed)
    (hc : doc.IsMethodCall c name)
    (hf : ∀ s cb, ¬ doc.IsFolded folds c s cb) (hn : n ∈ doc.nodes) (hin : c.node ∈ n.preorder) :
    (doc.converted folds).Reaches n c.node := by
  have hk : c.node.kind = .call := hc.kind
  refine h.reaches hw hn hin (hc.carries (by rw [hk]; rfl) c.node.mem_preorder_self) ?_
  intro c' s cb hf' he
  obtain ⟨-, ⟨name', hc'⟩, -⟩ := id hf'
  obtain rfl := hw.place_eq_of_id hc.1 hc'.1 (congrArg Node.id he)
  exact hf s cb hf'

/-- A node with a method call in it, of a kind that is neither a call nor taken apart, is
reached. -/
theorem IsScript.reaches_around (h : doc.IsScript) (hw : doc.WellFormed) (folds : Bool)
    (hc : doc.IsMethodCall c name) (hn : n ∈ doc.nodes) (hk : n.kind.isSolid) (hne : n.kind ≠ .call)
    (hin : c.node ∈ n.preorder) :
    (doc.converted folds).Reaches doc.root n := by
  refine h.reaches hw doc.root_mem_nodes hn (hc.carries hk hin) ?_
  rintro c' s cb ⟨-, ⟨name', hc'⟩, -⟩ rfl
  exact hne hc'.kind

theorem IsFolded.reaches (hf : doc.IsFolded folds c s cb) (h : doc.IsScript) (hw : doc.WellFormed) :
    (doc.converted folds).Reaches doc.root s.node := by
  obtain ⟨hs, hchild⟩ := hf.mem_places
  have hk : s.node.kind = .expressionStatement := hf.kind
  obtain ⟨-, ⟨name, hc⟩, -⟩ := hf
  refine h.reaches_around hw folds hc (node_mem_nodes hs) (by rw [hk]; rfl) (by simp [hk]) ?_
  exact Node.mem_preorder_child (Place.node_mem_of_mem_children hchild).1 c.node.mem_preorder_self

/-- What is called is reached from the root, with the call or with its folded statement, and the
name with it. -/
theorem IsScript.reaches_name (h : doc.IsScript) (hw : doc.WellFormed) (folds : Bool)
    (hc : doc.IsMethodCall c name) : ∃ callee, c.child? .function = some callee ∧
      (doc.converted folds).Reaches doc.root callee.node ∧
      (doc.converted folds).Reaches doc.root name.node := by
  obtain ⟨callee, hcallee, hp, hk, hchild, hname⟩ := hc.exists_callee
  have hroot : (doc.converted folds).Reaches doc.root callee.node := by
    by_cases hf : ∃ s cb, doc.IsFolded folds c s cb
    · obtain ⟨s, cb, hf⟩ := hf
      refine (hf.reaches h hw).trans (.step ((hf.next_perm hw h).mem_iff.2 ?_) (.self _))
      simp [foldNodes, hcallee]
    · have hnone : ∀ s cb, ¬ doc.IsFolded folds c s cb := fun s cb hs => hf ⟨s, cb, hs⟩
      refine (h.reaches_call hw hc hnone doc.root_mem_nodes (node_mem_nodes hc.1)).trans
        (.step ?_ (.self _))
      have hkc : c.node.kind = .call := hc.kind
      rw [next_eq_children
        (replacement?_eq_none hw (node_mem_nodes hc.1) (by simp [hkc]) (by simp [hkc]))
        (hc.isTouched hw (node_mem_nodes hc.1) (hc.name_mem_preorder c.node.mem_preorder_self))]
      exact hchild
  refine ⟨callee, hcallee, hroot, hroot.trans (.step ?_ (.self _))⟩
  have hkm : callee.node.kind = .member := hk
  rw [next_eq_children (replacement?_eq_none hw (node_mem_nodes hp) (by simp [hkm]) (by simp [hkm]))
    (hc.isTouched hw (node_mem_nodes hp)
      (Node.mem_preorder_child hname name.node.mem_preorder_self))]
  exact hname

end Document
end Asyncify
