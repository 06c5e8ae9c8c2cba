import Asyncify.Proofs.Frames
import Asyncify.Proofs.Literals
import Asyncify.Proofs.MethodCalls

/-! Folding callbacks changes the folded statements and nothing else: around the outermost of them,
the pass over calls of server methods gives back the same text whether it folds or not. -/
namespace Asyncify

/-- Callbacks are not folded, and the methods are the default ones. -/
structure Pass.KeepsCallbacks (pass : Pass) : Prop where
  methods : pass.options.get? (.text "methods") = none
  folds : (pass.option "decompose_callbacks" (.bool true)).isSet = false

/-- The place consists of a call of a server method whose callback can be folded. -/
def Document.foldsAt (doc : Document) (s : Place) : Bool :=
  s.children.any fun c =>
    ((Rule.renameOn doc Rule.callTable "Meteor").found? Rule.callTable c).isSome &&
      c.statement?.isSome &&
      (Callback.of? doc c).isSome

namespace Document

variable {doc : Document} {c name s p : Place} {cb : Callback} {e : Edit} {unit : String}
  {folds : Bool}

theorem foldsAt_iff (hs : s ∈ doc.places) : doc.foldsAt s ↔ ∃ c cb, doc.IsFolded true c s cb := by
  simp only [foldsAt, List.any_eq_true, Bool.and_eq_true, Option.isSome_iff_exists]
  constructor
  · rintro ⟨c, hc, ⟨⟨x, hx⟩, q, hq⟩, cb, hcb⟩
    obtain ⟨hcall, -⟩ := (Rule.found?_iff (child_mem_places hs hc)).1 hx
    have hpar := (Option.filter_eq_some_iff.1 hq).1
    obtain rfl : s = q := Option.some.inj ((Place.parent?_of_mem_children hc).symm.trans hpar)
    exact ⟨c, cb, rfl, ⟨x.1, hcall⟩, hq, hcb⟩
  · rintro ⟨c, cb, hf⟩
    obtain ⟨-, hchild⟩ := hf.mem_places
    obtain ⟨-, ⟨name, hcall⟩, hq, hcb⟩ := hf
    exact ⟨c, hchild, ⟨⟨_, (Rule.found?_iff hcall.1 (x := (name, .text "callAsync"))).2
      ⟨hcall, rfl⟩⟩, s, hq⟩, cb, hcb⟩

theorem IsFolded.foldsAt (h : doc.IsFolded true c s cb) : doc.foldsAt s :=
  (foldsAt_iff h.mem_places.1).2 ⟨c, cb, h⟩

/-- These are the statements that the pass replaces by a fold. -/
theorem foldsAt_iff_exists_edit (hs : s ∈ doc.places) (unit : String) :
    doc.foldsAt s ↔ ∃ e ∈ (doc.folded unit).edits, e.place = s ∧
    ∃ f, e.action = .replace (.folded f) := by
  rw [foldsAt_iff hs]
  constructor
  · rintro ⟨c, cb, hf⟩
    obtain ⟨e, he, rfl, ha⟩ := hf.mem
    exact ⟨e.withUnit unit, List.mem_map_of_mem he, e.place_withUnit unit, _,
      Edit.action_withUnit unit ha⟩
  · rintro ⟨e, he, rfl, f, ha⟩
    obtain ⟨e, hmem, rfl⟩ := List.mem_map.1 he
    rw [Edit.place_withUnit]
    obtain hl | ⟨c, cb, hf, -⟩ := (converts_of_mem hmem).isLiteral_or
    · rw [Edit.withUnit_of_isLiteral unit hl] at ha
      obtain ⟨v, hv⟩ := Edit.eq_literal hl ha
      cases hv
    · exact ⟨c, cb, hf⟩

/-- What the pass does at a folded call, it does in the statement of the call. -/
theorem IsFolded.not_isOutside (h : doc.IsFolded true c s cb)
    (he : e ∈ (Rule.convert doc folds c).edits) :
    e.place.isOutside doc.foldsAt = false := by
  have hfolds := h.foldsAt
  have hc := Place.ancestors_of_mem_children h.mem_places.2
  have hin {q : Place} (hq : s ∈ q :: q.ancestors) : q.isOutside doc.foldsAt = false :=
    Place.isOutside_eq_false hq hfolds
  obtain ⟨-, ⟨name', hm⟩, hs, -⟩ := h
  obtain ⟨name, hcall, ⟨rfl, -⟩ | hf | ⟨-, -, rfl⟩⟩ := Rule.mem_edits_convert hm.1 he
  · obtain ⟨-, -, receiver, hmember, -⟩ := hcall
    obtain ⟨-, callee, hcallee, -, -, hname, -⟩ := Place.memberCall?_eq_some.1 hmember
    apply hin
    rw [Place.ancestors_of_mem_children (Place.mem_children_of_child? hname),
      Place.ancestors_of_mem_children (Place.mem_children_of_child? hcallee), hc]
    simp
  · obtain ⟨cb', hf', -⟩ := foldAt?_eq_some hf ⟨name', hm⟩
    obtain rfl := Option.some.inj (hs.symm.trans hf'.2.2.1)
    exact hin List.mem_cons_self
  · rw [awaitEdit_place]
    apply hin
    rw [hc]
    simp

theorem convert_eq_of_not_isFolded (hp : p ∈ doc.places) (h : ∀ s cb, ¬ doc.IsFolded true p s cb) :
    Rule.convert doc true p = Rule.convert doc false p := by
  rw [Rule.convert, Rule.convert]
  cases hx : (Rule.renameOn doc Rule.callTable "Meteor").found? Rule.callTable p with
  | none => rfl
  | some x =>
    rw [(foldAt?_eq_none_iff ⟨x.1, ((Rule.found?_iff hp).1 hx).1⟩).2 h]
    rfl

/-- At each place the pass does the same outside folded statements, and makes the same functions
async. -/
theorem convert_alike (hp : p ∈ doc.places) :
    ((Rule.convert doc true p).edits.filter fun e => e.place.isOutside doc.foldsAt) =
        ((Rule.convert doc false p).edits.filter fun e => e.place.isOutside doc.foldsAt) ∧
      (Rule.convert doc true p).promoted = (Rule.convert doc false p).promoted := by
  by_cases hfold : ∃ s cb, doc.IsFolded true p s cb
  · obtain ⟨s, cb, hf⟩ := hfold
    have hnone (folds : Bool) :
        ((Rule.convert doc folds p).edits.filter fun e => e.place.isOutside doc.foldsAt) = [] :=
      List.filter_eq_nil_iff.2 fun e he => by simp [hf.not_isOutside he]
    refine ⟨by rw [hnone, hnone], ?_⟩
    obtain ⟨e, he, -⟩ := hf.foldAt?
    have hawaited := hf.isAwaited
    obtain ⟨-, ⟨name, hm⟩, -⟩ := hf
    obtain ⟨why, htrue⟩ := Rule.convert_of_isMethodCall true hm
    obtain ⟨why', hfalse⟩ := Rule.convert_of_isMethodCall false hm
    rw [htrue, hfalse, he]
    simp [Rule.foldAt?, Step.ofAwait, hawaited]
  · rw [convert_eq_of_not_isFolded hp fun s cb hf => hfold ⟨s, cb, hf⟩]
    exact ⟨rfl, rfl⟩

theorem queue_convert_alike (doc : Document) :
    doc.queue (Rule.convert doc true) [] = doc.queue (Rule.convert doc false) [] := by
  rw [queue, queue, asked, asked, List.flatMap_congr fun p hp => (convert_alike hp).2]

theorem editsOutside_converted (doc : Document) :
    (doc.converted true).editsOutside doc.foldsAt =
      (doc.converted false).editsOutside doc.foldsAt := by
  simp only [Draft.editsOutside, converted, afterPass, Draft.recordAll, afterSteps,
    List.filter_append, List.filter_flatMap, queue_convert_alike, List.flatMap_congr fun p hp =>
      (convert_alike hp).1]

theorem isLiteral_of_mem_unfolded (he : e ∈ (doc.converted false).edits) : e.isLiteral := by
  obtain hl | ⟨c, cb, hf, -⟩ := (converts_of_mem he).isLiteral_or
  · exact hl
  · cases hf.1

theorem editsOutside_folded (doc : Document) (unit : String) :
    (doc.folded unit).editsOutside doc.foldsAt =
      (doc.converted false).editsOutside doc.foldsAt := by
  rw [← editsOutside_converted, Draft.editsOutside, folded, Draft.withUnit, List.filter_map]
  simp only [Function.comp_def, Edit.place_withUnit]
  rw [← Draft.editsOutside, editsOutside_converted]
  refine (List.map_congr_left fun e he => ?_).trans (List.map_id _)
  exact Edit.withUnit_of_isLiteral unit (isLiteral_of_mem_unfolded (List.mem_of_mem_filter he))

/-- The name of a method is too short to hold a call of one. -/
theorem not_foldsAt_of_replaced (hw : doc.WellFormed) (he : e ∈ (doc.converted false).edits)
    (hr : e.replacement?.isSome) {q : Place} (hq : q ∈ Place.under e.place.above e.place.node) :
    doc.foldsAt q = false := by
  refine Bool.eq_false_iff.2 fun hfolds => ?_
  have hplace := (converts_of_mem he).mem_places
  obtain ⟨c, cb, hf⟩ := (foldsAt_iff (under_subset_places hplace hq)).1 hfolds
  have hin : q.node ∈ e.place.node.preorder := by
    rw [← Place.map_node_under e.place.above]
    exact List.mem_map_of_mem hq
  have hchild := (Place.node_mem_of_mem_children hf.mem_places.2).1
  obtain ⟨-, ⟨name, hcall⟩, -⟩ := hf
  cases converts_of_mem he with
  | rename hc =>
    obtain ⟨-, -, -, -, -, htext⟩ := hc
    refine hcall.not_mem_preorder hw (node_mem_nodes hplace) ?_
      (Node.mem_preorder_of_child hchild hin)
    rw [htext]
    decide
  | fold hc => cases hc.1
  | @await c _ _ he =>
    subst he
    obtain ha | ha := doc.awaitEdit_action c <;> simp [Edit.replacement?, ha] at hr
  | promote _ _ _ ha => simp [Edit.replacement?, ha] at hr

theorem place_mem_of_mem_folded (doc : Document) {unit : String} :
    ∀ e ∈ (doc.folded unit).edits, e.place ∈ doc.places := by
  intro e he
  obtain ⟨e, hmem, rfl⟩ := List.mem_map.1 he
  rw [Edit.place_withUnit]
  exact (converts_of_mem hmem).mem_places

/-- A folded statement is written from nodes below it, whatever the callback looks like. -/
theorem isDescending_folded (hw : doc.WellFormed) (unit : String) :
    (doc.folded unit).IsDescending := by
  intro n hn r hr m hm
  rw [folded, Draft.replacement?_withUnit] at hr
  obtain ⟨r', hr', rfl⟩ := Option.map_eq_some_iff.1 hr
  obtain ⟨c, name, -, -, rfl⟩ | ⟨c, s, cb, hf, rfl, rfl⟩ := replacement?_cases hw hn hr'
  · cases hm
  · have hmem : m ∈ (doc.fold s c cb (.ok "  ")).nodes := hm
    obtain ⟨hchild, -⟩ := Place.node_mem_of_mem_children hf.mem_places.2
    exact ⟨c.node, hchild, mem_preorder_of_fold hf.2.2.2 hmem⟩

theorem sameOutside_folds (hw : doc.WellFormed) (unit : String) :
    (doc.folded unit).SameOutside doc.foldsAt (doc.converted false) := by
  have hedits := doc.editsOutside_folded unit
  have hmem : ∀ e ∈ (doc.folded unit).editsOutside doc.foldsAt,
      e ∈ (doc.converted false).edits := by
    intro e he
    rw [hedits] at he
    exact List.mem_of_mem_filter he
  exact Draft.sameOutside hw rfl doc.place_mem_of_mem_folded
    (fun e he => (converts_of_mem he).mem_places) hedits
    (fun e he => isLiteral_of_mem_unfolded (hmem e he))
    (fun e he hr q hq => not_foldsAt_of_replaced hw (hmem e he) hr hq)
    (isDescending_folded hw unit) (Draft.isDescending_of_isLiteral fun e he =>
      isLiteral_of_mem_unfolded he)

/-- Without folds there is nothing that could not be written. -/
theorem exists_source_unfolded (hw : doc.WellFormed) :
    ∃ text, (doc.converted false).source = .ok text :=
  ⟨_, Draft.source_eq_splice hw (fun _ he => isLiteral_of_mem_unfolded he)
    fun _ he => node_mem_nodes (converts_of_mem he).mem_places⟩

/-- Where there is nothing to fold, all edits are outside. -/
theorem folded_eq_of_not_isFolded (h : ∀ c s cb, ¬ doc.IsFolded true c s cb) (unit : String) :
    doc.folded unit = doc.converted false := by
  have hout {d : Draft} (hes : ∀ e ∈ d.edits, e.place ∈ doc.places) :
      d.editsOutside doc.foldsAt = d.edits := by
    refine List.filter_eq_self.2 fun e he => ?_
    have hnone : ∀ q ∈ e.place :: e.place.ancestors, ¬ doc.foldsAt q := by
      intro q hq hfolds
      have hqp : q ∈ doc.places := by
        obtain rfl | hq := List.mem_cons.1 hq
        · exact hes e he
        · exact ancestor_mem_places (hes e he) hq
      obtain ⟨c, cb, hf⟩ := (foldsAt_iff hqp).1 hfolds
      exact h c q cb hf
    rw [Place.isOutside, Bool.not_eq_true', List.any_eq_false]
    exact hnone
  have hedits := doc.editsOutside_folded unit
  rw [hout doc.place_mem_of_mem_folded, hout fun e he => (converts_of_mem he).mem_places] at hedits
  exact congrArg (fun es => ({ doc, edits := es } : Draft)) hedits

end Document

theorem Rule.convert_follows_unfolded {pass : Pass} (h : pass.KeepsCallbacks) :
    callAsync.Follows pass (convert pass.doc false) fun _ => .ok [] := by
  refine follows_of_step h.methods (fun p => ?_) convert_move
  rw [h.folds]
  exact value_methodCallStep_unfolded _ p

/-- The text after a visit is that of the draft, also if the visit gives back none. -/
theorem Sweep.text_visit {s : Sweep} {pass : Pass} {d : Draft} {k : Nat}
    (hd : (s.draft pass).value = .ok (d, k)) :
    ((s.rule.visit pass).value.map fun o => o.output.getD d.doc.text) = d.source := by
  have hmap {x : Except Fault Outcome} {t : String} :
      (x.map fun o => o.output.getD t) = (x.map Outcome.output).map fun o => o.getD t := by
    cases x <;> rfl
  rw [hmap, s.value_visit, hd]
  show (if d.edits.isEmpty then Except.ok none else d.source.map some).map
    (fun o => o.getD d.doc.text) = _
  split
  · next he => simp [Draft.source, he, Except.map]
  · cases d.source <;> rfl

theorem Sweep.visit_of_draft_error {s : Sweep} {pass : Pass} {fault : Fault}
    (h : (s.draft pass).value.map Prod.fst = .error fault) :
    (s.rule.visit pass).value = .error fault := by
  rw [s.value_visit_eq, h]
  rfl

/-- Folding changes nothing outside the folded statements. Unless a method lacks its name, which
makes both passes fail, both leave a draft. The texts of the two drafts differ in the pieces for the
outermost folded statements only: outside of them the edits are the same, and they make the text
around the pieces. Without folds the text can always be written, and with them if the callbacks have
all their parts. Where no call of a server method is a statement with an error-first callback, the
two visits give back the same. -/
theorem Rule.callAsync_same_outside_folds {on off : Pass} {unit : String} (ho : on.FoldsBy unit)
    (hoff : off.KeepsCallbacks) (hdoc : off.doc = on.doc) (hw : on.doc.WellFormed) :
    ((¬ on.doc.MethodsNamed ∧ (callAsync.rule.visit on).value = .error .missingNode ∧
        (callAsync.rule.visit off).value = .error .missingNode) ∨
      ∃ d k d' k', (callAsync.draft on).value = .ok (d, k) ∧
        (callAsync.draft off).value = .ok (d', k') ∧
        ((callAsync.rule.visit on).value.map fun o => o.output.getD on.doc.text) = d.source ∧
        ((callAsync.rule.visit off).value.map fun o => o.output.getD on.doc.text) = d'.source ∧
        d.doc = on.doc ∧
        (∀ s ∈ on.doc.places, on.doc.foldsAt s ↔
          ∃ e ∈ d.edits, e.place = s ∧ ∃ f, e.action = .replace (.folded f)) ∧
        d.SameOutside on.doc.foldsAt d' ∧ (∃ text, d'.source = .ok text) ∧
        (on.doc.IsComplete → ∃ text, d.source = .ok text)) ∧
      ((∀ c name, on.doc.IsMethodCall c name → c.statement? = none ∨ Callback.of? on.doc c = none) →
        (callAsync.rule.visit on).value.map Outcome.output =
          (callAsync.rule.visit off).value.map Outcome.output) := by
  have hfollows := convert_follows_unfolded hoff
  have hon := (callMove_follows ho).draft_of_late rfl
  have hoff' := hfollows.draft_of_late rfl
  rw [Document.queue_callMove, Document.queue_convert_alike, Document.afterPass_callMove] at hon
  rw [hdoc] at hfollows hoff'
  constructor
  · by_cases hq : (on.doc.queue (convert on.doc false) []).all fun f => f.asyncAnchor?.isSome
    · right
      obtain ⟨k, hk⟩ := (callMove_follows ho).exists_draft rfl
        (by rwa [Document.queue_callMove, Document.queue_convert_alike])
      obtain ⟨k', hk'⟩ := hfollows.exists_draft rfl (by rwa [hdoc])
      rw [Document.afterPass_callMove] at hk
      rw [hdoc] at hk'
      refine ⟨_, k, _, k', hk, hk', Sweep.text_visit hk, Sweep.text_visit hk', rfl,
        fun s hs => Document.foldsAt_iff_exists_edit hs unit, Document.sameOutside_folds hw unit,
        Document.exists_source_unfolded hw, fun hg => ?_⟩
      exact ((on.doc.isRecorded_folded unit).isGrounded hw hg).exists_source hw
    · left
      rw [if_neg hq] at hon hoff'
      exact ⟨fun hm => hq (hm.isAnchored false), Sweep.visit_of_draft_error hon,
        Sweep.visit_of_draft_error hoff'⟩
  · intro hnone
    have hfold : ∀ c s cb, ¬ on.doc.IsFolded true c s cb := by
      rintro c s cb ⟨-, ⟨name, hc⟩, hs, hcb⟩
      obtain h | h := hnone c name hc
      · rw [h] at hs
        cases hs
      · rw [h] at hcb
        cases hcb
    rw [Document.folded_eq_of_not_isFolded hfold] at hon
    rw [Sweep.value_visit, Sweep.value_visit, hon, hoff']
    rfl

namespace Mixed

open Sketch

/-- A function with a call that is folded, in whose callback there is another such call, and a call
behind it that has no callback. -/
def doc : Document :=
  program
    [functionNamed [] "f" (block [.body] " " " "
        [statement [] (Nesting.meteorCall [] "'a'" [Nesting.handler]), gap " ",
          statement [] (Nesting.meteorCall [] "'e'" [])]),
      gap "\n"]

/-- Only the call without a callback. -/
def plain : Document := program [statement [] (Nesting.meteorCall [] "'e'" []), gap "\n"]

def pass (doc : Document) (folds : Bool) : Pass where
  path := "a.js"
  doc
  options := .ofList [(.text "indent", .text "    "), (.text "decompose_callbacks", .bool folds)]

theorem foldsBy (doc : Document) : (pass doc true).FoldsBy "    " := ⟨rfl, rfl, rfl⟩

theorem keepsCallbacks (doc : Document) : (pass doc false).KeepsCallbacks := ⟨rfl, rfl⟩

theorem wellFormed : doc.WellFormed := wellFormed_program _

theorem isComplete : doc.IsComplete := by decide +kernel

/-- What is written around the folded statement: the keyword before it and the other call behind
it. -/
def around : String :=
  "async function f() \x7b " ++ doc.textOf (doc.placeAt 9).node ++
    " await Meteor.callAsync('e'); \x7d\n"

theorem source_outside :
    Draft.source { doc, edits := (doc.folded "    ").editsOutside doc.foldsAt } = .ok around := by
  decide +kernel

theorem callback_of_plain : ∀ p ∈ plain.places, Callback.of? plain p = none := by decide +kernel

end Mixed

/-- One of the two folded statements is outermost, and all that is written around it is the same.
Without callbacks the two visits give back the same. -/
theorem Rule.callAsync_same_outside_folds_mixed :
    ((Mixed.pass Mixed.doc true).FoldsBy "    " ∧ (Mixed.pass Mixed.doc false).KeepsCallbacks ∧
      Mixed.doc.WellFormed ∧ Mixed.doc.outermost Mixed.doc.foldsAt = [Mixed.doc.placeAt 9] ∧
      ∃ d k d' k', (callAsync.draft (Mixed.pass Mixed.doc true)).value = .ok (d, k) ∧
        (callAsync.draft (Mixed.pass Mixed.doc false)).value = .ok (d', k') ∧
        d.SameOutside Mixed.doc.foldsAt d' ∧
        Draft.source { d with edits := d.editsOutside Mixed.doc.foldsAt } = .ok Mixed.around ∧
        ∃ text, d.source = .ok text) ∧
      (Mixed.plain.WellFormed ∧ (∀ c name, Mixed.plain.IsMethodCall c name →
          c.statement? = none ∨ Callback.of? Mixed.plain c = none) ∧
        (callAsync.rule.visit (Mixed.pass Mixed.plain true)).value.map Outcome.output =
          (callAsync.rule.visit (Mixed.pass Mixed.plain false)).value.map Outcome.output) := by
  have hall : Mixed.doc.MethodsNamed ∧ Mixed.doc.outermost Mixed.doc.foldsAt =
      [Mixed.doc.placeAt 9] := by
    unfold Document.MethodsNamed
    decide +kernel
  obtain ⟨hm, houter⟩ := hall
  have hplain : Mixed.plain.WellFormed := Sketch.wellFormed_program _
  have hnone : ∀ c name, Mixed.plain.IsMethodCall c name →
      c.statement? = none ∨ Callback.of? Mixed.plain c = none :=
    fun c _ hc => Or.inr (Mixed.callback_of_plain c hc.1)
  refine ⟨⟨Mixed.foldsBy _, Mixed.keepsCallbacks _, Mixed.wellFormed, houter, ?_⟩, hplain, hnone,
    (callAsync_same_outside_folds (Mixed.foldsBy Mixed.plain)
      (Mixed.keepsCallbacks Mixed.plain) rfl hplain).2
      hnone⟩
  obtain ⟨hnot, -⟩ | ⟨d, k, d', k', hd, hd', -, -, -, -, hsame, -, htext⟩ :=
    (callAsync_same_outside_folds (Mixed.foldsBy Mixed.doc) (Mixed.keepsCallbacks Mixed.doc) rfl
      Mixed.wellFormed).1
  · exact absurd hm hnot
  · obtain ⟨k₀, hk₀⟩ := exists_draft_of_methodsNamed (Mixed.foldsBy Mixed.doc) hm
    obtain ⟨rfl, -⟩ := Prod.mk.inj (Except.ok.inj (hk₀.symm.trans hd))
    exact ⟨_, k, d', k', hd, hd', hsame, Mixed.source_outside, htext Mixed.isComplete⟩

end Asyncify
