import Asyncify.Proofs.Legality

/-! The pass over route handlers. Subscriptions inside calls on `FastRender` are awaited, the
functions around them and the handlers of all routes become async, and all bytes of the text
stay. -/
namespace Asyncify

namespace Place

variable {p f : Place}

/-- The nearest of the class fields, parameter lists and functions around the place, if there is
one, is a function and neither getter nor setter. -/
def AllowsAwait (p : Place) : Prop :=
  ∀ m, p.ancestors.find? isDecisive = some m → m.isFunctionLike ∧ m.refusesAsync = false

/-- Nothing but parentheses stands between the place and an `await`. -/
def IsOperand (p : Place) : Prop :=
  ∃ parens n rest, p.above = parens ++ n :: rest ∧ (∀ m ∈ parens, m.kind = .parenthesized) ∧
    n.kind = .awaited

theorem verdict_of_accepts (hl : p.isFunctionLike) (hr : p.refusesAsync = false) :
    p.verdict = .allowed := by
  obtain ⟨hfield, hparameters⟩ := kind_ne_of_isFunctionLike hl
  rw [refusesAsync] at hr
  rw [verdict, if_neg hfield, if_neg hparameters, if_pos hl]
  cases ht : p.asyncTarget? with
  | none => rfl
  | some t =>
    have hmethod : t.kind = .method → t.isAccessor = false := by simpa [ht, Option.filter] using hr
    simpa using hmethod

theorem barrier?_eq_none_iff_allowsAwait : p.barrier? = none ↔ p.AllowsAwait := by
  rw [barrier?, AllowsAwait]
  generalize p.ancestors = qs
  induction qs with
  | nil => simp [firstBarrier?]
  | cons q qs ih =>
    by_cases hd : q.isDecisive
    · rw [List.find?_cons_of_pos hd]
      constructor
      · rintro h m ⟨⟩
        exact (firstBarrier?_cons h).1 hd
      · intro h
        obtain ⟨hl, hr⟩ := h q rfl
        rw [firstBarrier?, verdict_of_accepts hl hr]
    · rw [List.find?_cons_of_neg hd, firstBarrier?, verdict_of_isDecisive (by simpa using hd)]
      exact ih

theorem isAwaited_iff : p.isAwaited ↔ p.IsOperand := by
  rw [isAwaited, IsOperand]
  induction p.above with
  | nil => simp [awaitedBy]
  | cons n ns ih =>
    rw [awaitedBy]
    by_cases hn : n.kind = .parenthesized
    · rw [if_pos hn, ih]
      constructor
      · rintro ⟨parens, m, rest, hns, hall, hm⟩
        exact ⟨n :: parens, m, rest, by rw [hns]; rfl, List.forall_mem_cons.2 ⟨hn, hall⟩, hm⟩
      · rintro ⟨_ | ⟨k, parens⟩, m, rest, hns, hall, hm⟩
        · obtain ⟨rfl, -⟩ := List.cons.inj hns
          rw [hn] at hm
          cases hm
        · exact ⟨parens, m, rest, (List.cons.inj hns).2, (List.forall_mem_cons.1 hall).2, hm⟩
    · rw [if_neg hn, decide_eq_true_iff]
      constructor
      · intro hm
        exact ⟨[], n, ns, rfl, by simp, hm⟩
      · rintro ⟨_ | ⟨k, parens⟩, m, rest, hns, hall, hm⟩
        · obtain ⟨rfl, -⟩ := List.cons.inj hns
          exact hm
        · obtain ⟨rfl, -⟩ := List.cons.inj hns
          exact (hn (hall n List.mem_cons_self)).elim

end Place

namespace Document

variable (doc : Document)

/-- A call of a method on the identifier `FastRender`. -/
def CallsRoutes (c : Place) (method : String) : Prop :=
  ∃ receiver name, c.memberCall? = some (receiver, name) ∧ receiver.kind = .identifier ∧
    doc.textOf receiver.node = "FastRender" ∧ doc.textOf name.node = method

/-- A subscription that the pass awaits. -/
structure WaitsForRoute (c : Place) : Prop where
  place : c ∈ doc.places
  subscribes : ∃ receiver name, c.memberCall? = some (receiver, name) ∧
    receiver.kind = .thisObject ∧
    doc.textOf name.node = "subscribe"
  inside : ∃ q ∈ c.ancestors, ∃ method, doc.CallsRoutes q method
  allowed : c.AllowsAwait
  bare : ¬ c.IsOperand

/-- The function is the first argument of a call of `FastRender.onAllRoutes`. -/
def HandlesRoutes (f : Place) : Prop :=
  ∃ c ∈ doc.places, doc.CallsRoutes c "onAllRoutes" ∧ c.callArguments.head? = some f ∧
    f.isFunctionLiteral

/-- The edits that await calls and make functions async: `await ` before a call, with parentheses
where it needs them, and `async ` before a function. -/
def additions (awaited promoted : List Place) : List Edit :=
  awaited.map doc.awaitMark ++ promoted.filterMap doc.asyncMark?

end Document

namespace Rule

variable {doc : Document} {p f : Place}

theorem isSubscribe_iff :
    isSubscribe doc p ↔ ∃ receiver name, p.memberCall? = some (receiver, name) ∧
    receiver.kind = .thisObject ∧ doc.textOf name.node = "subscribe" := by
  rw [isSubscribe]
  rcases p.memberCall? with _ | ⟨receiver, name⟩ <;> simp

theorem isOnFastRender_iff : isOnFastRender doc p ↔ ∃ method, doc.CallsRoutes p method := by
  rw [isOnFastRender, decide_eq_true_iff, Document.receiverName?]
  unfold Document.CallsRoutes
  rcases p.memberCall? with _ | ⟨receiver, name⟩ <;> simp

theorem isOnAllRoutes_iff : isOnAllRoutes doc p ↔ doc.CallsRoutes p "onAllRoutes" := by
  rw [isOnAllRoutes, Bool.and_eq_true, decide_eq_true_iff, isOnFastRender_iff, Document.methodName?]
  unfold Document.CallsRoutes
  rcases p.memberCall? with _ | ⟨receiver, name⟩ <;> simp [and_assoc]

/-- The receiver of a call is not both an identifier and `this`. -/
theorem isSubscribe_of_isOnAllRoutes (h : isOnAllRoutes doc p) : isSubscribe doc p = false := by
  obtain ⟨receiver, name, hm, hk, -⟩ := isOnAllRoutes_iff.1 h
  simp [isSubscribe, hm, hk]

/-- The pass awaits the call. -/
def isRouteWait (doc : Document) (p : Place) : Bool :=
  isSubscribe doc p && p.ancestors.any (isOnFastRender doc) && p.barrier?.isNone && !p.isAwaited

theorem isRouteWait_iff (hp : p ∈ doc.places) : isRouteWait doc p ↔ doc.WaitsForRoute p := by
  simp only [isRouteWait, Bool.and_eq_true, Bool.not_eq_true', isSubscribe_iff, List.any_eq_true,
    isOnFastRender_iff, Option.isNone_iff_eq_none, Place.barrier?_eq_none_iff_allowsAwait,
    ← Bool.not_eq_true, Place.isAwaited_iff]
  constructor
  · rintro ⟨⟨⟨hs, hi⟩, ha⟩, hn⟩
    exact ⟨hp, hs, hi, ha, hn⟩
  · rintro ⟨-, hs, hi, ha, hn⟩
    exact ⟨⟨⟨hs, hi⟩, ha⟩, hn⟩

theorem routeMove_edits (doc : Document) (p : Place) :
    (routeMove doc p).edits = if isRouteWait doc p then [doc.awaitEdit p] else [] := by
  rw [routeMove, isRouteWait]
  cases hr : isOnAllRoutes doc p with
  | true => simp [isSubscribe_of_isOnAllRoutes hr]
  | false =>
    cases isSubscribe doc p && p.ancestors.any (isOnFastRender doc) && p.barrier?.isNone with
    | false => rfl
    | true => cases ha : p.isAwaited <;> simp [Step.ofAwait, ha]

theorem mem_promoted_routeMove : f ∈ (routeMove doc p).promoted ↔
    (isRouteWait doc p ∧ p.promotion? = some f) ∨
      (isOnAllRoutes doc p ∧ p.callArguments.head? = some f ∧ f.isFunctionLiteral ∧
        f.isAsync = false) := by
  rw [routeMove, isRouteWait]
  cases hr : isOnAllRoutes doc p with
  | true => simp [isSubscribe_of_isOnAllRoutes hr, Option.filter_eq_some_iff]
  | false =>
    cases isSubscribe doc p && p.ancestors.any (isOnFastRender doc) && p.barrier?.isNone with
    | false => simp
    | true => simp [Step.mem_promoted_ofAwait]

theorem edits_afterSteps_routes (doc : Document) :
    (doc.afterSteps (routeMove doc)).edits =
      (doc.places.filter (isRouteWait doc)).map doc.awaitMark := by
  rw [Document.afterSteps]
  dsimp only
  induction doc.places with
  | nil => rfl
  | cons p ps ih =>
    rw [List.flatMap_cons, ih, routeMove_edits, List.filter_cons, doc.awaitEdit_eq]
    cases isRouteWait doc p <;> rfl

/-- The draft of the pass: the awaits in document order, then the keywords. -/
theorem afterPass_routes (doc : Document) : doc.afterPass (routeMove doc) [] =
    { doc
      edits := doc.additions (doc.places.filter (isRouteWait doc))
        (doc.queue (routeMove doc) []) } := by
  rw [Document.afterPass, Draft.recordAll, edits_afterSteps_routes]
  rfl

theorem mem_asked_routes : f ∈ doc.asked (routeMove doc) [] ↔
    f.isAsync = false ∧ ((∃ c, doc.WaitsForRoute c ∧ c.enclosingFunction? = some f) ∨
      doc.HandlesRoutes f) := by
  rw [Document.asked, List.append_nil, List.mem_flatMap]
  constructor
  · rintro ⟨c, hc, hf⟩
    obtain ⟨hwait, hp⟩ | ⟨hr, hh, hl, ha⟩ := mem_promoted_routeMove.1 hf
    · obtain ⟨he, ha⟩ := Place.promotion?_eq_some.1 hp
      exact ⟨ha, Or.inl ⟨c, (isRouteWait_iff hc).1 hwait, he⟩⟩
    · exact ⟨ha, Or.inr ⟨c, hc, isOnAllRoutes_iff.1 hr, hh, hl⟩⟩
  · rintro ⟨ha, ⟨c, hwait, he⟩ | ⟨c, hc, hr, hh, hl⟩⟩
    · refine ⟨c, hwait.place,
        mem_promoted_routeMove.2 (Or.inl ⟨(isRouteWait_iff hwait.place).2 hwait, ?_⟩)⟩
      exact Place.promotion?_eq_some.2 ⟨he, ha⟩
    · exact ⟨c, hc, mem_promoted_routeMove.2 (Or.inr ⟨isOnAllRoutes_iff.2 hr, hh, hl, ha⟩)⟩

/-- What becomes async is a function of the document. -/
theorem function_of_routes
    (h : (∃ c, doc.WaitsForRoute c ∧ c.enclosingFunction? = some f) ∨ doc.HandlesRoutes f) :
    f ∈ doc.places ∧ f.isFunctionLike := by
  obtain ⟨c, hwait, he⟩ | ⟨c, hc, -, hh, hl⟩ := h
  · exact ⟨Place.enclosingFunction?_mem_places hwait.place he,
      Place.isFunctionLike_of_enclosingFunction? he⟩
  · exact ⟨Place.callArguments_mem_places hc (List.mem_of_mem_head? hh),
      Place.isFunctionLike_of_isFunctionLiteral hl⟩

theorem mem_queue_routes (hw : doc.WellFormed) : f ∈ doc.queue (routeMove doc) [] ↔
    f.isAsync = false ∧ ((∃ c, doc.WaitsForRoute c ∧ c.enclosingFunction? = some f) ∨
      doc.HandlesRoutes f) := by
  have hplaces : ∀ f ∈ doc.asked (routeMove doc) [], f ∈ doc.places :=
    fun f hf => (function_of_routes (mem_asked_routes.1 hf).2).1
  rw [Document.queue, Queue.mem_addAll_iff hw hplaces, mem_asked_routes]

end Rule

namespace Document

variable {doc : Document} {awaited promoted : List Place} {e : Edit}

theorem mem_additions : e ∈ doc.additions awaited promoted ↔
    (∃ c ∈ awaited, doc.awaitMark c = e) ∨ ∃ f ∈ promoted, doc.asyncMark? f = some e := by
  rw [additions, List.mem_append, List.mem_map, List.mem_filterMap]

/-- None of these edits replaces anything. -/
theorem action_of_mem_additions (h : e ∈ doc.additions awaited promoted) :
    e.isLiteral ∧ e.replacement? = none := by
  obtain ⟨c, -, rfl⟩ | ⟨f, -, hf⟩ := mem_additions.1 h
  · cases hc : doc.needsParentheses c <;> simp [awaitMark, Edit.isLiteral, Edit.replacement?, hc]
  · simp [Edit.isLiteral, Edit.replacement?, (asyncMark?_eq_some hf).1]

theorem place_mem_of_mem_additions (ha : ∀ c ∈ awaited, c ∈ doc.places)
    (hp : ∀ f ∈ promoted, f ∈ doc.places)
    (h : e ∈ doc.additions awaited promoted) : e.place ∈ doc.places := by
  obtain ⟨c, hc, rfl⟩ | ⟨f, hf, he⟩ := mem_additions.1 h
  · exact ha c hc
  · exact Place.asyncAnchor?_mem_places (hp f hf) (asyncMark?_eq_some he).2

theorem additions_eq_nil_iff (h : ∀ f ∈ promoted, f.asyncAnchor?.isSome) :
    doc.additions awaited promoted = [] ↔ awaited = [] ∧ promoted = [] := by
  rw [additions, List.append_eq_nil_iff, List.map_eq_nil_iff, List.filterMap_eq_nil_iff]
  refine and_congr_right fun _ => ⟨fun hnone => List.eq_nil_iff_forall_not_mem.2 fun f hf => ?_, ?_⟩
  · have hsome := h f hf
    rw [Option.map_eq_none_iff.1 (hnone f hf)] at hsome
    cases hsome
  · rintro rfl
    simp

/-- Whatever is added, every byte of the text is copied. -/
theorem WellFormed.offsets_additions (hw : doc.WellFormed) (ha : ∀ c ∈ awaited, c ∈ doc.places)
    (hp : ∀ f ∈ promoted, f ∈ doc.places) :
    (doc.splice (Mark.ofEdits (doc.additions awaited promoted))).flatMap Chunk.offsets =
      List.range (Text.byteLength doc.chars) := by
  have hnone : ∀ b, Edit.replacesAt (doc.additions awaited promoted) b = false := by
    intro b
    refine List.any_eq_false.2 fun e he => ?_
    simp [(action_of_mem_additions he).2]
  rw [hw.offsets_document]
  simp only [hw.any_replacedAt_eq (fun e he => (action_of_mem_additions he).1)
    (fun e he => node_mem_nodes (place_mem_of_mem_additions ha hp he)), hnone, Bool.not_false,
    List.filter_true]

theorem WellFormed.source_additions (hw : doc.WellFormed) (ha : ∀ c ∈ awaited, c ∈ doc.places)
    (hp : ∀ f ∈ promoted, f ∈ doc.places) :
    Draft.source { doc, edits := doc.additions awaited promoted } =
      .ok (doc.assemble (doc.splice (Mark.ofEdits (doc.additions awaited promoted)))) :=
  Draft.source_eq_splice hw (fun _ he => (action_of_mem_additions he).1)
    fun _ he => node_mem_nodes (place_mem_of_mem_additions ha hp he)

end Document

/-- A pass that only adds to the text gives back nothing just if it adds nothing. -/
theorem Sweep.output_of_additions {s : Sweep} {pass : Pass} {awaited promoted : List Place}
    {k : Nat} (h : (s.draft pass).value =
      .ok ({ doc := pass.doc, edits := pass.doc.additions awaited promoted }, k))
    (hw : pass.doc.WellFormed) (ha : ∀ c ∈ awaited, c ∈ pass.doc.places)
    (hp : ∀ f ∈ promoted, f ∈ pass.doc.places) (hanchored : ∀ f ∈ promoted, f.asyncAnchor?.isSome) :
    (s.rule.visit pass).value.map Outcome.output =
      .ok (if awaited.isEmpty && promoted.isEmpty then none
        else some (pass.doc.assemble
          (pass.doc.splice (Mark.ofEdits (pass.doc.additions awaited promoted))))) := by
  have hnil : (pass.doc.additions awaited promoted).isEmpty =
      (awaited.isEmpty && promoted.isEmpty) := by
    rw [Bool.eq_iff_iff, Bool.and_eq_true, List.isEmpty_iff, List.isEmpty_iff, List.isEmpty_iff]
    exact Document.additions_eq_nil_iff hanchored
  rw [s.value_visit, h]
  show (if (pass.doc.additions awaited promoted).isEmpty then _ else _) = _
  rw [hw.source_additions ha hp, hnil]
  split <;> rfl

/-- The pass succeeds. It puts an `await` on each subscription that waits for a route and on no
other call, and the keyword on each function that is not async yet and stands nearest around such a
call or handles all routes, once and on no other. All bytes of the text are copied. Nothing is given
back just if there is neither such a call nor such a function. -/
theorem Rule.fastRenderAsync_additions {pass : Pass} (hw : pass.doc.WellFormed)
    (hm : pass.doc.MethodsNamed) :
    ∃ awaited promoted : List Place,
      let edits := pass.doc.additions awaited promoted
      (awaited.map Place.id).Nodup ∧ (∀ c, c ∈ awaited ↔ pass.doc.WaitsForRoute c) ∧
      (promoted.map Place.id).Nodup ∧ (∀ f, f ∈ promoted ↔ f.isAsync = false ∧
        ((∃ c ∈ awaited, c.enclosingFunction? = some f) ∨ pass.doc.HandlesRoutes f)) ∧
      (∀ f ∈ promoted, f.asyncAnchor?.isSome) ∧
      (∃ k, (fastRenderAsync.draft pass).value = .ok ({ doc := pass.doc, edits }, k)) ∧
      (pass.doc.splice (Mark.ofEdits edits)).flatMap Chunk.offsets =
        List.range (Text.byteLength pass.doc.chars) ∧
      (fastRenderAsync.rule.visit pass).value.map Outcome.output =
        .ok (if awaited.isEmpty && promoted.isEmpty then none
          else some (pass.doc.assemble (pass.doc.splice (Mark.ofEdits edits)))) := by
  have hawaited : ∀ c, c ∈ pass.doc.places.filter (isRouteWait pass.doc) ↔
      pass.doc.WaitsForRoute c := by
    intro c
    rw [List.mem_filter]
    exact ⟨fun h => (isRouteWait_iff h.1).1 h.2, fun h => ⟨h.place, (isRouteWait_iff h.place).2 h⟩⟩
  have hfunction : ∀ f ∈ pass.doc.queue (routeMove pass.doc) [], f ∈ pass.doc.places ∧
      f.isFunctionLike :=
    fun f hf => function_of_routes ((mem_queue_routes hw).1 hf).2
  have hanchored : ∀ f ∈ pass.doc.queue (routeMove pass.doc) [], f.asyncAnchor?.isSome :=
    fun f hf => Place.asyncAnchor?_isSome (hfunction f hf).2 (hm f (hfunction f hf).1)
  have ha : ∀ c ∈ pass.doc.places.filter (isRouteWait pass.doc), c ∈ pass.doc.places :=
    fun c hc => List.mem_of_mem_filter hc
  have hp : ∀ f ∈ pass.doc.queue (routeMove pass.doc) [], f ∈ pass.doc.places :=
    fun f hf => (hfunction f hf).1
  obtain ⟨k, hk⟩ := (@fastRenderAsync_follows pass).exists_draft rfl (List.all_eq_true.2 hanchored)
  rw [afterPass_routes] at hk
  refine ⟨_, pass.doc.queue (routeMove pass.doc) [], ?_, hawaited,
    Queue.nodup_addAll List.nodup_nil, ?_, hanchored, ⟨k, hk⟩, hw.offsets_additions ha hp,
    Sweep.output_of_additions hk hw ha hp hanchored⟩
  · exact hw.nodup_places.sublist (List.filter_sublist.map _)
  · intro f
    simp only [hawaited]
    exact mem_queue_routes hw

namespace Routing

open Sketch

def subscription : Sketch :=
  statement [] (methodCall [] (leaf "this" [.object] "this") "subscribe" [])

/-- The handler of all routes is also the function around a subscription. Another subscription
stands outside. -/
def doc : Document :=
  program
    [statement [] (callOn [] "FastRender" "onAllRoutes"
        [functionWith [] [] (block [.body] " " " " [subscription])]),
      gap "\n", subscription]

def pass : Pass := { path := "a.js", doc, options := .empty }

theorem methodsNamed : doc.MethodsNamed := by
  unfold Document.MethodsNamed
  decide +kernel

def output : String :=
  "FastRender.onAllRoutes(async function () \x7b await this.subscribe(); \x7d);\nthis.subscribe();"

/-- The two subscriptions, the handler, and what the pass writes. -/
theorem findings :
    (doc.placeAt 17 ∈ doc.places ∧ Rule.isRouteWait doc (doc.placeAt 17)) ∧
      (doc.placeAt 30 ∈ doc.places ∧ Rule.isRouteWait doc (doc.placeAt 30) = false) ∧
      (doc.placeAt 2 ∈ doc.places ∧ Rule.isOnAllRoutes doc (doc.placeAt 2) ∧
        (doc.placeAt 2).callArguments.head? = some (doc.placeAt 9) ∧
        (doc.placeAt 9).isFunctionLiteral ∧
        (doc.placeAt 9).isAsync = false) ∧
      (Rule.fastRenderAsync.rule.visit pass).value.map Outcome.output = .ok (some output) := by
  decide +kernel

theorem waitsForRoute :
    doc.WaitsForRoute (doc.placeAt 17) ∧ ¬ doc.WaitsForRoute (doc.placeAt 30) := by
  obtain ⟨⟨hin, hwait⟩, ⟨hout, hfree⟩, -⟩ := findings
  rw [← Rule.isRouteWait_iff hin, ← Rule.isRouteWait_iff hout, hfree]
  exact ⟨hwait, Bool.false_ne_true⟩

theorem handlesRoutes : doc.HandlesRoutes (doc.placeAt 9) ∧ (doc.placeAt 9).isAsync = false := by
  obtain ⟨-, -, ⟨hc, hr, hh, hl, ha⟩, -⟩ := findings
  exact ⟨⟨_, hc, Rule.isOnAllRoutes_iff.1 hr, hh, hl⟩, ha⟩

end Routing

/-- The subscription inside the handler is awaited and the one outside is not. The handler is asked
for twice and gets one keyword. -/
theorem Rule.fastRenderAsync_additions_routing :
    Routing.doc.WellFormed ∧ Routing.doc.MethodsNamed ∧
      ∃ awaited promoted : List Place, Routing.doc.placeAt 17 ∈ awaited ∧
        Routing.doc.placeAt 30 ∉ awaited ∧
        Routing.doc.placeAt 9 ∈ promoted ∧ (promoted.map Place.id).Nodup ∧
        (fastRenderAsync.rule.visit Routing.pass).value.map Outcome.output =
          .ok (some Routing.output) ∧
        Routing.output = Routing.doc.assemble
          (Routing.doc.splice (Mark.ofEdits (Routing.doc.additions awaited promoted))) := by
  have hw : Routing.doc.WellFormed := Sketch.wellFormed_program _
  obtain ⟨awaited, promoted, -, hawaited, hnodup, hpromoted, -, -, -, hvisit⟩ :=
    @fastRenderAsync_additions Routing.pass hw Routing.methodsNamed
  have hwait : Routing.doc.placeAt 17 ∈ awaited := (hawaited _).2 Routing.waitsForRoute.1
  have hhandler : Routing.doc.placeAt 9 ∈ promoted :=
    (hpromoted _).2 ⟨Routing.handlesRoutes.2, Or.inr Routing.handlesRoutes.1⟩
  have hsome : (awaited.isEmpty && promoted.isEmpty) = false := by
    rw [Bool.and_eq_false_iff, List.isEmpty_eq_false_iff]
    exact Or.inl (List.ne_nil_of_mem hwait)
  obtain ⟨-, -, -, houtput⟩ := Routing.findings
  rw [hsome, houtput] at hvisit
  exact ⟨hw, Routing.methodsNamed, awaited, promoted, hwait,
    fun h => Routing.waitsForRoute.2 ((hawaited _).1 h), hhandler, hnodup, houtput,
    Option.some.inj (Except.ok.inj hvisit)⟩

end Asyncify
