import Asyncify.Proofs.Revisit

/-! A rule is done after one pass: on the tree of its own output it finds nothing to edit. -/
namespace Asyncify

namespace Plan

variable (plan : Plan) (doc : Document) (p : Place)

theorem isWrapped_mark :
    (plan.mark doc p).isWrapped = (plan.awaited p && doc.needsParentheses p) := by
  cases ha : plan.awaited p <;> cases hn : doc.needsParentheses p <;>
    simp [Mark.isWrapped, mark, ha, hn, List.mem_replicate]

theorem isAwait_mark : (plan.mark doc p).isAwait = plan.awaited p := by
  rw [Mark.isAwait, isWrapped_mark]
  cases ha : plan.awaited p <;> cases hn : doc.needsParentheses p <;>
    simp [mark, ha, hn, List.mem_replicate]

theorem keywords_mark : (plan.mark doc p).keywords = plan.keywords doc p := by
  cases ha : plan.awaited p <;> cases hn : doc.needsParentheses p <;>
    simp [Mark.keywords, mark, ha, hn]

theorem isRegular_mark : (plan.mark doc p).IsRegular where
  before := by
    rw [isAwait_mark, isWrapped_mark, keywords_mark, mark]
    cases plan.awaited p <;> cases doc.needsParentheses p <;> rfl
  after := by
    rw [isWrapped_mark, mark]

/-- Only calls are awaited, and only names and pieces of strings get a new text, which shows that it
is new. -/
structure IsTidy : Prop where
  call : ∀ p ∈ doc.places, plan.awaited p → p.kind = .call
  renamed : ∀ p ∈ doc.places, ∀ x ∈ plan.renamed p,
    IsEdited x.2 ∧ (x.1.kind = .propertyName ∨ x.1.kind = .other)

namespace Describes

variable {plan : Plan} {doc : Document} {g : Place → Step} {l : List Place} {p f : Place}

/-- The functions to promote can be read off the queue. -/
theorem of_edits (hw : doc.WellFormed)
    (edits : ∀ p ∈ doc.places, (g p).edits.map (fun e => (e.place, e.action)) =
      (plan.renamed p).map (fun x => (x.1, .replace (.literal (.text x.2)))) ++
        if plan.awaited p then [(p, (doc.awaitEdit p).action)] else [])
    (renamed_mem : ∀ p ∈ doc.places, ∀ x ∈ plan.renamed p, x.1 ∈ doc.places)
    (renamed_eq : ∀ p ∈ doc.places, ∀ x ∈ plan.renamed p, ∀ q ∈ doc.places, ∀ y ∈ plan.renamed q,
      x.1.id = y.1.id → x.2 = y.2)
    (hasked : ∀ f ∈ doc.asked g l, f ∈ doc.places) :
    ({ plan with promotes := (doc.queue g l).contains } : Plan).Describes doc g l where
  edits := edits
  renamed_mem := renamed_mem
  renamed_eq := renamed_eq
  queue f := by
    have hmem {f : Place} (hf : f ∈ doc.queue g l) : f ∈ doc.places :=
      hasked f ((Queue.mem_addAll_iff hw hasked).1 hf)
    constructor
    · intro hf
      exact ⟨hmem hf, List.any_eq_true.2 ⟨f, hf, by simp⟩⟩
    · rintro ⟨hf, hc⟩
      obtain ⟨x, hx, hid⟩ := List.any_eq_true.1 hc
      have hxf : x = f := hw.place_eq_of_id (hmem hx) hf (of_decide_eq_true hid)
      exact hxf ▸ hx

theorem marked (h : plan.Describes doc g l) (hw : doc.WellFormed) (ht : plan.IsTidy doc) :
    doc.Marked (Mark.ofEdits (doc.afterPass g l).edits) where
  regular n hn := by
    obtain ⟨p, hp, rfl⟩ := Document.exists_place hn
    rw [h.ofEdits_eq_mark hw hp]
    exact plan.isRegular_mark doc p
  call n hn ha := by
    obtain ⟨p, hp, rfl⟩ := Document.exists_place hn
    rw [h.ofEdits_eq_mark hw hp, isAwait_mark] at ha
    exact ht.call p hp ha
  renamed n hn text hnew := by
    obtain ⟨p, hp, rfl⟩ := Document.exists_place hn
    rw [h.ofEdits_eq_mark hw hp] at hnew
    obtain ⟨x, hx, rfl⟩ := Option.map_eq_some_iff.1 hnew
    obtain ⟨q, hq, hxq⟩ := List.mem_flatMap.1 (List.mem_of_find?_eq_some hx)
    have hid : x.1.id = p.id := by simpa using List.find?_some hx
    obtain rfl : x.1 = p := hw.place_eq_of_id (h.renamed_mem q hq x hxq) hp hid
    exact ht.renamed q hq x hxq

theorem isSome_new (h : plan.Describes doc g l) (hw : doc.WellFormed) (hp : p ∈ doc.places)
    {x : Place × String} (hx : x ∈ plan.renamed p) :
    (Mark.ofEdits (doc.afterPass g l).edits x.1.node).new.isSome := by
  rw [h.ofEdits_eq_mark hw (h.renamed_mem p hp x hx)]
  simp only [mark, newText?, Option.isSome_map, List.find?_isSome]
  exact ⟨x, List.mem_flatMap.2 ⟨p, hp, hx⟩, by simp⟩

theorem isAwait (h : plan.Describes doc g l) (hw : doc.WellFormed) (hp : p ∈ doc.places)
    (ha : plan.awaited p) : (Mark.ofEdits (doc.afterPass g l).edits p.node).isAwait := by
  rwa [h.ofEdits_eq_mark hw hp, isAwait_mark]

theorem keywords_pos (h : plan.Describes doc g l) (hw : doc.WellFormed) (hf : f ∈ doc.queue g l)
    (ha : f.asyncAnchor? = some f) :
    0 < (Mark.ofEdits (doc.afterPass g l).edits f.node).keywords := by
  obtain ⟨hfp, hpr⟩ := (h.queue f).1 hf
  rw [h.ofEdits_eq_mark hw hfp, keywords_mark]
  refine List.countP_pos_iff.2 ⟨f, hfp, ?_⟩
  simp [hpr, ha]

theorem source_eq_regrown (h : plan.Describes doc g l) (hw : doc.WellFormed)
    (ht : plan.IsTidy doc) :
    (doc.afterPass g l).source = .ok (doc.afterPass g l).regrown.text :=
  Draft.source_eq_regrown hw (fun _ he => h.literal_of_mem he) (fun _ he => h.node_mem_of_mem he)
    (h.marked hw ht).regular

end Describes
end Plan

namespace Rule.Rewrite

open Mirror

variable {w : Rewrite} {doc : Document} {l : List Place} {p p' : Place}

/-- The table takes plain names to names that show an edit. -/
def IsFresh (w : Rewrite) : Prop := ∀ x ∈ w.methods, ¬ IsEdited x.1 ∧ IsEdited x.2

theorem isTidy_plan (hf : w.IsFresh) : (w.plan doc).IsTidy doc where
  call p _ ha := by
    obtain ⟨hs, -⟩ := Bool.and_eq_true_iff.1 ha
    obtain ⟨x, hx⟩ := Option.isSome_iff_exists.1 hs
    obtain ⟨receiver, hc, -⟩ := renamed?_eq_some.1 hx
    exact (Place.memberCall?_eq_some.1 hc).1
  renamed p _ x hx := by
    rcases mem_renamed_plan.1 hx with hr | ⟨hr, hnew⟩
    · obtain ⟨receiver, -, -, -, hl⟩ := renamed?_eq_some.1 hr
      obtain ⟨front, back, hsplit, -⟩ := List.lookup_eq_some_iff.1 hl
      have hmem : (doc.textOf x.1.node, x.2) ∈ w.methods :=
        hsplit ▸ List.mem_append_right _ List.mem_cons_self
      exact ⟨(hf _ hmem).2, Or.inl (kind_of_renamed? hr)⟩
    · obtain ⟨hs, -⟩ := oldPackageName?_eq_some (fragment?_eq_some hr)
      have hkind : x.1.kind = .other := by
        rw [Place.kind, Node.kind, hs]
        rfl
      exact ⟨hnew ▸ .of_mem (by decide), Or.inr hkind⟩

/-- The plan of a pass, with the functions in its queue. -/
def planOf (w : Rewrite) (doc : Document) (l : List Place) : Plan :=
  { w.plan doc with promotes := (doc.queue (w.step doc) l).contains }

theorem describes_planOf (hr : w.IsSeparate) (hw : doc.WellFormed)
    (hasked : ∀ f ∈ doc.asked (w.step doc) l, f ∈ doc.places) :
    (w.planOf doc l).Describes doc (w.step doc) l :=
  .of_edits hw (fun _ hp => edits_step hr hw hp) (fun _ hp _ hx => renamed_mem_places hp hx)
    (fun _ hp _ hx _ hq _ hy hid =>
      renamed_eq hx hy (hw.place_eq_of_id (renamed_mem_places hp hx)
        (renamed_mem_places hq hy) hid))
    hasked

/-- On the tree of its output a rule stays where it is. -/
theorem step_grown (hf : w.IsFresh) (hw : doc.WellFormed) {marks : Node → Mark}
    (hm : doc.Marked marks)
    (hnew : ∀ p ∈ doc.places, ∀ x ∈ (w.plan doc).renamed p, (marks x.1.node).new.isSome)
    (haccepts : ∀ r r', Stands doc marks r r' → w.accepts (doc.grown marks) r' → w.accepts doc r)
    (hp : p' ∈ (doc.grown marks).places) : w.step (doc.grown marks) p' = {} := by
  have hrenamed : w.renamed? (doc.grown marks) p' = none := by
    refine renamed?_grown hw hm (fun x hx => (hf x hx).1) haccepts (fun p hp x hx => ?_) hp
    exact hnew p hp x (mem_renamed_plan.2 (Or.inl hx))
  have hfragment : w.fragment? (doc.grown marks) p' = none := by
    rw [fragment?]
    split
    · next hpack =>
      refine oldPackageName?_grown hw hm (fun p hp f hf => ?_) hp
      refine hnew p hp (f, newRolesPackage) (mem_renamed_plan.2 (Or.inr ⟨?_, rfl⟩))
      rw [fragment?, if_pos hpack, hf]
    · rfl
  rw [step, hfragment, hrenamed]

theorem isFresh_of_mem (hr : w ∈ cursor :: rewrites) : w.IsFresh := by
  simp only [rewrites, List.mem_cons, List.not_mem_nil, or_false] at hr
  rcases hr with rfl | rfl | rfl | rfl | rfl <;> unfold IsFresh <;> decide +kernel

theorem cursor_follows {pass : Pass} (ho : pass.IsStandard cursorAsync) :
    cursorAsync.Follows pass (cursor.step pass.doc)
      (waitingCallbacks (renameCursors pass.doc)) := by
  have h : (renameCursors pass.doc).move cursorTable = cursor.step pass.doc :=
    step_eq_move rfl rfl rfl rfl
  exact h ▸ cursorAsync_follows ho

/-- Where nothing was renamed, no callback is looked for. -/
theorem waitingCallbacks_eq_nil (doc : Document) :
    waitingCallbacks (renameCursors doc) { doc } = .ok [] := by
  have hnone (p : Place) : waitingCallback? (renameCursors doc) { doc } p = .ok none := by
    rw [waitingCallback?_eq rfl]
    cases hi : iteratingCallback? (renameCursors doc) cursorTable { doc } p with
    | none => rfl
    | some f =>
      obtain ⟨_, _, -, -, -, hr, -⟩ := iteratingCallback?_eq_some.1 hi
      cases hr
  have hall : ∀ ps : List Place,
      ps.mapM (waitingCallback? (renameCursors doc) { doc }) = .ok (ps.map fun _ => none) := by
    intro ps
    induction ps with
    | nil => rfl
    | cons p ps ih =>
      rw [List.mapM_cons, hnone, ih]
      rfl
  rw [waitingCallbacks, hall, Except.map, List.filterMap_map]
  simp

theorem accepts_grown (hr : w ∈ rewrites) (hw : doc.WellFormed) {marks : Node → Mark}
    (hm : doc.Marked marks) (r r' : Place) (hs : Stands doc marks r r')
    (ha : w.accepts (doc.grown marks) r') : w.accepts doc r := by
  simp only [rewrites, List.mem_cons, List.not_mem_nil, or_false] at hr
  rcases hr with rfl | rfl | rfl | rfl
  · rfl
  · exact isIdentifier_of_stands hw hm (not_isEdited_of_mem (by simp [soughtWords])) hs ha
  · rfl
  · exact isIdentifier_of_stands hw hm (not_isEdited_of_mem (by simp [soughtWords])) hs ha

end Rule.Rewrite

namespace Rule

variable {doc : Document} {p : Place}

/-- The subscriptions that get an `await`. -/
def routePlan (doc : Document) : Plan where
  renamed _ := []
  awaited p := !isOnAllRoutes doc p &&
    (isSubscribe doc p && p.ancestors.any (isOnFastRender doc) && p.barrier?.isNone) && !p.isAwaited
  promotes := (doc.queue (routeMove doc) []).contains

theorem edits_routeMove (doc : Document) (p : Place) :
    (routeMove doc p).edits.map (fun e => (e.place, e.action)) =
      if (routePlan doc).awaited p then [(p, (doc.awaitEdit p).action)] else [] := by
  have hawaited : (routePlan doc).awaited p = (!isOnAllRoutes doc p &&
    (isSubscribe doc p && p.ancestors.any (isOnFastRender doc) && p.barrier?.isNone) &&
      !p.isAwaited) := rfl
  rw [routeMove, hawaited]
  cases isOnAllRoutes doc p with
  | true => rfl
  | false =>
    cases isSubscribe doc p && p.ancestors.any (isOnFastRender doc) && p.barrier?.isNone with
    | false => rfl
    | true =>
      cases ha : p.isAwaited <;> simp [Step.ofAwait, ha, Document.awaitEdit_place]

theorem describes_routePlan (hw : doc.WellFormed)
    (hasked : ∀ f ∈ doc.asked (routeMove doc) [], f ∈ doc.places) :
    (routePlan doc).Describes doc (routeMove doc) [] := by
  show ({ routePlan doc with promotes := (doc.queue (routeMove doc) []).contains } : Plan).Describes
    doc (routeMove doc) []
  exact .of_edits hw (fun p _ => edits_routeMove doc p) (by simp [routePlan])
    (by simp [routePlan]) hasked

theorem isTidy_routePlan (doc : Document) : (routePlan doc).IsTidy doc where
  call p _ ha := by
    simp only [routePlan, Bool.and_eq_true] at ha
    exact kind_of_isSubscribe ha.1.2.1.1
  renamed := by simp [routePlan]

/-- The first pass gives every handler of all routes the keyword. -/
theorem keywords_handler (hw : doc.WellFormed)
    (hasked : ∀ f ∈ doc.asked (routeMove doc) [], f ∈ doc.places) (hp : p ∈ doc.places)
    (hr : isOnAllRoutes doc p) {f : Place} (hf : p.callArguments.head? = some f)
    (hl : f.isFunctionLiteral) :
    f.isAsync ∨ 0 < (Mark.ofEdits (doc.afterPass (routeMove doc) []).edits f.node).keywords := by
  cases ha : f.isAsync with
  | true => exact Or.inl rfl
  | false =>
    right
    have hpromoted : f ∈ (routeMove doc p).promoted := by
      rw [routeMove, if_pos hr]
      simp [hf, hl, ha, Option.filter]
    have hqueue : f ∈ doc.queue (routeMove doc) [] := by
      rw [Document.queue, Queue.mem_addAll_iff hw hasked, Document.asked, List.append_nil]
      exact List.mem_flatMap.2 ⟨p, hp, hpromoted⟩
    have hanchor : f.asyncAnchor? = some f := by
      rcases Place.kind_of_isFunctionLiteral hl with hk | hk <;>
        simp [Place.asyncAnchor?, Place.asyncTarget?, hk]
    exact (describes_routePlan hw hasked).keywords_pos hw hqueue hanchor

theorem not_isOnFastRender_of_isSubscribe (h : isSubscribe doc p) :
    isOnFastRender doc p = false := by
  cases hc : p.memberCall? with
  | none => simp [isSubscribe, hc] at h
  | some x =>
    rw [isSubscribe, hc] at h
    have hk : x.1.kind = .thisObject := of_decide_eq_true (Bool.and_eq_true_iff.1 h).1
    simp [isOnFastRender, Document.receiverName?, hc, hk]

/-- The first pass awaits every subscription for a route. -/
theorem isAwait_subscribe (hw : doc.WellFormed)
    (hasked : ∀ f ∈ doc.asked (routeMove doc) [], f ∈ doc.places) (hp : p ∈ doc.places)
    (hs : isSubscribe doc p) (hr : p.ancestors.any (isOnFastRender doc)) (hb : p.barrier? = none) :
    p.isAwaited ∨ (Mark.ofEdits (doc.afterPass (routeMove doc) []).edits p.node).isAwait := by
  cases ha : p.isAwaited with
  | true => exact Or.inl rfl
  | false =>
    right
    have hno : isOnAllRoutes doc p = false := by
      rw [isOnAllRoutes, not_isOnFastRender_of_isSubscribe hs]
      rfl
    refine (describes_routePlan hw hasked).isAwait hw hp ?_
    simp only [routePlan, hno, hs, hr, hb, ha]
    rfl

end Rule

namespace Sweep

variable {s : Sweep} {pass : Pass} {g : Place → Step} {late : Draft → Except Fault (List Place)}

/-- A pass that takes no step leaves no edit and gives back no text. -/
theorem Follows.idle (h : s.Follows pass g late) (hg : ∀ p ∈ pass.doc.places, g p = {})
    (hl : late { doc := pass.doc } = .ok []) :
    (∃ k, (s.draft pass).value = .ok ({ doc := pass.doc }, k)) ∧
      (s.rule.visit pass).value.map Outcome.output = .ok none := by
  have hsteps : pass.doc.afterSteps g = { doc := pass.doc } := by
    rw [Document.afterSteps]
    congr 1
    exact List.flatMap_eq_nil_iff.2 fun p hp => by rw [hg p hp]
  have hqueue : pass.doc.queue g [] = [] := by
    have hasked : pass.doc.asked g [] = [] := by
      rw [Document.asked, List.append_nil]
      exact List.flatMap_eq_nil_iff.2 fun p hp => by rw [hg p hp]
    rw [Document.queue, hasked]
    rfl
  have hpass : pass.doc.afterPass g [] = { doc := pass.doc } := by
    rw [Document.afterPass, hqueue, hsteps]
    rfl
  obtain ⟨k, hk⟩ := h.exists_draft (hsteps ▸ hl) (by rw [hqueue]; rfl)
  rw [hpass] at hk
  refine ⟨⟨k, hk⟩, ?_⟩
  rw [s.value_visit, hk]
  rfl

/-- The draft is written out to the text of its tree. On that tree the rule records no edit and
gives back no text. -/
structure IsDoneWith (s : Sweep) (pass : Pass) (d : Draft) : Prop where
  source : d.source = .ok d.regrown.text
  wellFormed : d.regrown.WellFormed
  draft : ∃ k, (s.draft { pass with doc := d.regrown }).value = .ok ({ doc := d.regrown }, k)
  visit : (s.rule.visit { pass with doc := d.regrown }).value.map Outcome.output = .ok none

/-- A pass that a tidy plan describes is the last one, if the rule takes no step on the tree that it
leaves. -/
theorem isDoneWith_of_follows {plan : Plan} {l : List Place} {g' : Document → Place → Step}
    {late' : Document → Draft → Except Fault (List Place)} (hw : pass.doc.WellFormed)
    (hp : plan.Describes pass.doc g l) (ht : plan.IsTidy pass.doc)
    (h : ∀ doc, s.Follows { pass with doc } (g' doc) (late' doc))
    (hg : ∀ p ∈ (pass.doc.afterPass g l).regrown.places, g' (pass.doc.afterPass g l).regrown p = {})
    (hl : ∀ doc, late' doc { doc } = .ok []) : s.IsDoneWith pass (pass.doc.afterPass g l) := by
  obtain ⟨hdraft, hvisit⟩ := (h (pass.doc.afterPass g l).regrown).idle hg (hl _)
  exact ⟨hp.source_eq_regrown hw ht, Document.wellFormed_grown _ _, hdraft, hvisit⟩

end Sweep

namespace Rule

open Mirror

variable {pass : Pass} {d : Draft} {k : Nat}

theorem Rewrite.isDoneWith {w : Rewrite} {late : Document → Draft → Except Fault (List Place)}
    (hr : w.IsSeparate) (hf : w.IsFresh) (hw : pass.doc.WellFormed)
    (h : ∀ doc, w.sweep.Follows { pass with doc } (w.step doc) (late doc))
    (hl : ∀ doc, late doc { doc } = .ok [])
    (haccepts : ∀ marks, pass.doc.Marked marks → ∀ r r', Stands pass.doc marks r r' →
      w.accepts (pass.doc.grown marks) r' → w.accepts pass.doc r)
    (hd : (w.sweep.draft pass).value = .ok (d, k)) : w.sweep.IsDoneWith pass d := by
  have hfollows : w.sweep.Follows pass (w.step pass.doc) (late pass.doc) := h pass.doc
  obtain ⟨l, hl', rfl, -⟩ := hfollows.draft_inv hd
  have hplan := describes_planOf hr hw fun f hf => hfollows.asked_mem_places hl' hf
  have htidy : (w.planOf pass.doc l).IsTidy pass.doc :=
    ⟨(isTidy_plan hf).call, (isTidy_plan hf).renamed⟩
  have hmarked := hplan.marked hw htidy
  refine Sweep.isDoneWith_of_follows hw hplan htidy h (fun p hp => ?_) hl
  exact step_grown hf hw hmarked (fun q hq x hx => hplan.isSome_new hw hq hx)
    (haccepts _ hmarked) hp

theorem isDoneWith_of_mem_rewrites {w : Rewrite} (hr : w ∈ rewrites) (ho : pass.IsStandard w.sweep)
    (hw : pass.doc.WellFormed) (hd : (w.sweep.draft pass).value = .ok (d, k)) :
    w.sweep.IsDoneWith pass d :=
  Rewrite.isDoneWith (Rewrite.isSeparate_of_mem hr)
    (Rewrite.isFresh_of_mem (List.mem_cons_of_mem _ hr)) hw
    (fun _ => Rewrite.follows hr ho) (fun _ => rfl)
    (fun _ hm => Rewrite.accepts_grown hr hw hm) hd

theorem cursorAsync_isDoneWith (ho : pass.IsStandard cursorAsync) (hw : pass.doc.WellFormed)
    (hi : pass.doc.IdentifiersPlain) (hd : (cursorAsync.draft pass).value = .ok (d, k)) :
    cursorAsync.IsDoneWith pass d := by
  have hsep : Rewrite.cursor.IsSeparate := fun h => nomatch h
  exact Rewrite.isDoneWith hsep (Rewrite.isFresh_of_mem List.mem_cons_self) hw
    (fun _ => Rewrite.cursor_follows ho) Rewrite.waitingCallbacks_eq_nil
    (fun _ hm _ _ => permits_of_stands hw hm hi) hd

theorem fastRenderAsync_isDoneWith (hw : pass.doc.WellFormed)
    (hd : (fastRenderAsync.draft pass).value = .ok (d, k)) : fastRenderAsync.IsDoneWith pass d := by
  obtain ⟨l, hl, rfl, -⟩ := fastRenderAsync_follows.draft_inv hd
  cases hl
  have hasked : ∀ f ∈ pass.doc.asked (routeMove pass.doc) [], f ∈ pass.doc.places :=
    fun f hf => fastRenderAsync_follows.asked_mem_places rfl hf
  have hplan := describes_routePlan hw hasked
  have hmarked := hplan.marked hw (isTidy_routePlan pass.doc)
  refine Sweep.isDoneWith_of_follows hw hplan (isTidy_routePlan pass.doc)
    (fun _ => fastRenderAsync_follows) (fun p hp => ?_) (fun _ => rfl)
  exact routeMove_grown hw hmarked
    (fun q hq hr f hf hl => keywords_handler hw hasked hq hr hf hl)
    (fun q hq hs hr hb => isAwait_subscribe hw hasked hq hs hr hb) hp

end Rule

/-- A rule that renames, awaits or promotes is done after one pass. Only the rule for cursors needs
to know that identifiers are plain, for it compares their texts with one another. -/
theorem Sweep.isDoneWith_draft {s : Sweep} {pass : Pass} {d : Draft} {k : Nat}
    (hs : s ∈ [Rule.asyncApi, Rule.cursorAsync, Rule.userAsync, Rule.indexAsync,
      Rule.fastRenderAsync, Rule.rolesMigration])
    (ho : pass.IsStandard s) (hw : pass.doc.WellFormed)
    (hi : s = Rule.cursorAsync → pass.doc.IdentifiersPlain)
    (hd : (s.draft pass).value = .ok (d, k)) : s.IsDoneWith pass d := by
  simp only [List.mem_cons, List.not_mem_nil, or_false] at hs
  rcases hs with rfl | rfl | rfl | rfl | rfl | rfl
  · exact Rule.isDoneWith_of_mem_rewrites (w := .api) (by simp [Rule.rewrites]) ho hw hd
  · exact Rule.cursorAsync_isDoneWith ho hw (hi rfl) hd
  · exact Rule.isDoneWith_of_mem_rewrites (w := .user) (by simp [Rule.rewrites]) ho hw hd
  · exact Rule.isDoneWith_of_mem_rewrites (w := .index) (by simp [Rule.rewrites]) ho hw hd
  · exact Rule.fastRenderAsync_isDoneWith hw hd
  · exact Rule.isDoneWith_of_mem_rewrites (w := .roles) (by simp [Rule.rewrites]) ho hw hd

namespace CursorSample

open Sketch

def find (field : Field) : Sketch := callOn [field] "Links" "find" []

/-- A callback that returns the length of some documents. -/
def callback (before : List Sketch) (documents : Sketch) : Sketch :=
  functionTree [] "function_expression" before [] []
    (block [.body] " " " " [returning [] (member [] documents "length")])

/-- A cursor in a variable, and a function that goes through it. -/
def script (before : List Sketch) (through : Sketch) : Document :=
  program
    [tree "variable_declaration" []
      [token "var", gap " ",
        tree "variable_declarator" []
          [leaf "identifier" [.name] "links", gap " ", token "=", gap " ", find .value],
        token ";"],
      gap "\n",
      functionTree [] "function_declaration" before [leaf "identifier" [.name] "f"] []
        (block [.body] " " " " [statement [] through])]

def doc : Document :=
  script [] (callOn [] "links" "map" [callback [] (methodCall [.object] (find .object) "fetch" [])])

/-- The script once it waits for its documents. -/
def after : Document :=
  script [token "async", gap " "]
    (awaited [] (callOn [] "links" "mapAsync"
      [callback [token "async", gap " "]
        (grouped [.object] (awaited [] (methodCall [] (find .object) "fetchAsync" [])))]))

def pass : Pass := { path := "a.js", doc, options := .empty }

end CursorSample

theorem Sweep.isDoneWith_draft_cursors :
    CursorSample.pass.IsStandard Rule.cursorAsync ∧ CursorSample.doc.WellFormed ∧
      CursorSample.doc.IdentifiersPlain ∧
      ∃ d k, (Rule.cursorAsync.draft CursorSample.pass).value = .ok (d, k) ∧
        d.regrown = CursorSample.after ∧ Rule.cursorAsync.IsDoneWith CursorSample.pass d := by
  have ho : CursorSample.pass.IsStandard Rule.cursorAsync := Or.inl rfl
  have hw : CursorSample.doc.WellFormed := Sketch.wellFormed_program _
  have hi : CursorSample.doc.IdentifiersPlain := by
    unfold Document.IdentifiersPlain
    decide +kernel
  have hafter :
      (Rule.cursorAsync.draft CursorSample.pass).value.toOption.map (fun x => x.1.regrown) =
        some CursorSample.after := by decide +kernel
  obtain ⟨⟨d, k⟩, hd, hgrown⟩ := Option.map_eq_some_iff.1 hafter
  have hdraft := Except.toOption_eq_some.1 hd
  exact ⟨ho, hw, hi, d, k, hdraft, hgrown, isDoneWith_draft (by simp) ho hw (fun _ => hi) hdraft⟩

end Asyncify
