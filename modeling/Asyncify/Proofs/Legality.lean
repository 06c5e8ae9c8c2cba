import Asyncify.Proofs.Keywords
import Asyncify.Proofs.Occurrence
import Asyncify.Proofs.Rewrites

/-! Where awaited calls stand in the text that a draft writes, and that every function in the queue
gets its keyword. A statement that moves out of a folded callback is judged by where it ends up. -/
namespace Asyncify

namespace Place

variable {p q f : Place} {ps : List Place}

/-- Class fields and static blocks, parameter lists and functions settle whether `await` may stand
below them. -/
def isDecisive (p : Place) : Bool := p.kind = .field || p.kind = .parameters || p.isFunctionLike

theorem isDecisive_of_isFunctionLike (h : p.isFunctionLike) : p.isDecisive := by
  simp [isDecisive, h]

theorem kind_ne_of_isFunctionLike (h : p.isFunctionLike) :
    p.kind ≠ .field ∧ p.kind ≠ .parameters := by
  rw [isFunctionLike] at h
  constructor <;> intro hk <;> simp [hk, Kind.isFunction] at h

theorem verdict_of_isDecisive (h : p.isDecisive = false) : p.verdict = .undecided := by
  simp only [isDecisive, Bool.or_eq_false_iff, decide_eq_false_iff_not] at h
  simp [verdict, h.1.1, h.1.2, h.2]

/-- Under no barrier, the nearest decisive place is a function that may become async, and any other
place leaves the question to the next one. -/
theorem firstBarrier?_cons (h : firstBarrier? (p :: ps) = none) :
    (p.isDecisive → p.isFunctionLike ∧ p.refusesAsync = false) ∧
      (p.isDecisive = false → firstBarrier? ps = none) := by
  rw [firstBarrier?] at h
  have hv : ∀ b, p.verdict ≠ .refused b := by
    intro b hb
    rw [hb] at h
    cases h
  constructor
  · intro hd
    have hl : p.isFunctionLike := by
      by_contra hn
      have hk : p.kind = .field ∨ p.kind = .parameters := by simpa [isDecisive, hn] using hd
      rcases hk with hk | hk <;> simp [verdict, hk] at hv
    exact ⟨hl, refusesAsync_of_verdict hl hv⟩
  · intro hd
    rwa [verdict_of_isDecisive hd] at h

theorem isAccessor_of_refusesAsync (h : f.refusesAsync = false) :
    ¬ (f.kind = .method ∧ f.isAccessor) := by
  rintro ⟨hk, ha⟩
  simp [refusesAsync, asyncTarget?, hk, ha, Option.filter] at h

end Place

namespace Draft

variable (d : Draft)

/-- The statement in whose place a node is written when it moves out of a folded callback. -/
def movedTo? (n : Node) : Option Place :=
  d.edits.findSome? fun e =>
    match e.action with
    | .replace (.folded f) =>
      if (Fold.nodesOf f.body).any fun m => m.id = n.id then some e.place else none
    | _ => none

/-- The places passed going up from a node in the text that the draft writes. The way from a
statement that moves goes on at the one it moves to, its `goal`, and what lies between the two is
passed over. -/
def rise (goal : Option Place) (n : Node) : List Node → List Place
  | [] => []
  | m :: ms =>
    match goal <|> d.movedTo? n with
    | none => ⟨m, ms⟩ :: rise none m ms
    | some s => if m.id = s.id then ⟨m, ms⟩ :: rise none m ms else rise (some s) m ms

/-- The nearest decisive place above a call, once the draft is written. -/
def governor? (c : Place) : Option Place := (d.rise none c.node c.above).find? Place.isDecisive

/-- `await` may stand at the place, and some awaited call has the same nearest function. -/
def Covers (p : Place) : Prop :=
  p.barrier? = none ∧ ∃ c, d.AddsAwait c ∧ c.enclosingFunction? = p.enclosingFunction?

/-- A statement that is folded away settles nothing, and its own place is covered. -/
def Lands (s : Place) : Prop := s ∈ d.doc.places ∧ s.isDecisive = false ∧ d.Covers s

variable {d} {n m : Node} {ms : List Node} {f s : Place} {goal : Option Place}

theorem Covers.up (h : d.Covers ⟨n, m :: ms⟩) (hd : (Place.mk m ms).isDecisive = false) :
    d.Covers ⟨m, ms⟩ := by
  obtain ⟨hb, c, hc, he⟩ := h
  have hn : ¬ (Place.mk m ms).isFunctionLike := fun hl => by
    simp [Place.isDecisive_of_isFunctionLike hl] at hd
  refine ⟨(Place.firstBarrier?_cons hb).2 hd, c, hc, he.trans ?_⟩
  exact List.find?_cons_of_neg hn

theorem Covers.here (h : d.Covers ⟨n, m :: ms⟩) (hd : (Place.mk m ms).isDecisive) :
    (Place.mk m ms).refusesAsync = false ∧ ∃ c, d.AddsAwait c ∧
    c.enclosingFunction? = some ⟨m, ms⟩ := by
  obtain ⟨hb, c, hc, he⟩ := h
  obtain ⟨hl, hr⟩ := (Place.firstBarrier?_cons hb).1 hd
  exact ⟨hr, c, hc, he.trans (List.find?_cons_of_pos hl)⟩

/-- The statement of a covered call is a place where statements may land. -/
theorem Covers.lands_of_statement? {p : Place} (h : d.Covers p) (hp : p ∈ d.doc.places)
    (hs : p.statement? = some s) : d.Lands s := by
  obtain ⟨hpar, hk⟩ := Option.filter_eq_some_iff.1 hs
  have hk : s.kind = .expressionStatement := by simpa using hk
  have hd : s.isDecisive = false := by
    simp [Place.isDecisive, Place.isFunctionLike, hk, Kind.isFunction]
  obtain ⟨n, above⟩ := p
  cases above with
  | nil => cases hpar
  | cons m ms =>
    obtain rfl : ⟨m, ms⟩ = s := Option.some.inj hpar
    exact ⟨Document.ancestor_mem_places hp List.mem_cons_self, hd, h.up hd⟩

/-- Whatever governs a covered place is a function that some awaited call asks for. -/
theorem governs_of_covers (hw : d.doc.WellFormed) (hland : ∀ n s, d.movedTo? n = some s → d.Lands s)
    (hp : ⟨n, ms⟩ ∈ d.doc.places) (hcov : goal = none → d.Covers ⟨n, ms⟩)
    (hgoal : ∀ s, goal = some s → d.Lands s)
    (hf : (d.rise goal n ms).find? Place.isDecisive = some f) :
    f.refusesAsync = false ∧ ∃ c, d.AddsAwait c ∧ c.enclosingFunction? = some f := by
  induction ms generalizing n goal with
  | nil => cases hf
  | cons m ms ih =>
    have hup : ⟨m, ms⟩ ∈ d.doc.places := Document.ancestor_mem_places hp List.mem_cons_self
    rw [rise] at hf
    cases hg : goal <|> d.movedTo? n with
    | none =>
      obtain rfl : goal = none := by
        cases goal with
        | none => rfl
        | some t => cases hg
      rw [hg] at hf
      dsimp only at hf
      by_cases hd : (Place.mk m ms).isDecisive
      · rw [List.find?_cons_of_pos hd] at hf
        cases hf
        exact (hcov rfl).here hd
      · rw [List.find?_cons_of_neg hd] at hf
        exact ih hup (fun _ => (hcov rfl).up (by simpa using hd)) (by simp) hf
    | some s =>
      have hs : d.Lands s := by
        cases goal with
        | some t => exact hgoal s hg
        | none => exact hland n s hg
      rw [hg] at hf
      dsimp only at hf
      split at hf
      · next hid =>
        -- The way has come to the statement that was folded.
        obtain ⟨hmem, hd, hc⟩ := hs
        obtain rfl : ⟨m, ms⟩ = s := hw.place_eq_of_id hup hmem hid
        rw [List.find?_cons_of_neg (by simp [hd])] at hf
        exact ih hup (fun _ => hc) (by simp) hf
      · exact ih hup (by simp) (by rintro t ⟨⟩; exact hs) hf

end Draft

/-- The step that awaits a call is taken only where `await` may stand. -/
theorem Sweep.Move.barrier?_of_await {s : Sweep} {doc : Document} {p : Place} {step : Step}
    {e : Edit} (h : s.Move doc p step) (he : e ∈ step.edits)
    (hk : e = doc.awaitEdit p ∨ ∃ indent, doc.foldMark? p indent = some e) : p.barrier? = none := by
  cases h with
  | rest => cases he
  | rename hm hb => exact hb
  | fold hm hb hf => exact hb
  | subscribe hm hb => exact hb
  | package hf =>
    obtain rfl := List.mem_singleton.1 he
    exact absurd rfl (Document.action_ne_literal hk _)
  | handler hs hr => cases he

/-- The draft before any function becomes async, and the functions that wait for it. -/
def Traversal.pending (t : Traversal) (doc : Document) : Run Fault (Draft × Queue) := do
  let steps ← doc.places.mapM t.step
  let draft : Draft := { doc, edits := steps.flatMap (·.edits) }
  let late ← t.late draft
  return (draft, Queue.addAll [] (steps.flatMap (·.promoted) ++ late))

def Sweep.pending (s : Sweep) (pass : Pass) : Run Fault (Draft × Queue) := do
  let t ← s.prepare pass
  t.pending pass.doc

/-- A pass ends by making the pending functions async. -/
theorem Sweep.value_draft_eq_pending (s : Sweep) (pass : Pass) :
    (s.draft pass).value = (s.pending pass).value.bind fun x => (x.1.promoteAll x.2).value := by
  have hrun (t : Traversal) : (t.run pass.doc).value =
      (t.pending pass.doc).value.bind fun x => (x.1.promoteAll x.2).value := by
    simp only [Traversal.run, Traversal.pending, Run.value_bind, Run.value_liftExcept]
    cases (pass.doc.places.mapM t.step).value with
    | error e => rfl
    | ok steps =>
      simp only [Except.bind]
      cases t.late { doc := pass.doc, edits := steps.flatMap (·.edits) } <;> rfl
  simp only [draft, pending, Run.value_bind]
  cases (s.prepare pass).value with
  | error e => rfl
  | ok t => exact hrun t

/-- A draft of fixed texts shows of every function whether it waits. -/
theorem Draft.waits_eq_ok {d : Draft} {f : Place} (hw : d.doc.WellFormed)
    (he : ∀ e ∈ d.edits, e.isLiteral ∧ e.node ∈ d.doc.nodes) (hf : f ∈ d.doc.places) :
    ∃ b, d.waits f = .ok b := by
  rw [waits]
  cases hb : f.child? .body with
  | none => exact ⟨false, rfl⟩
  | some body =>
    have hn := Document.node_mem_nodes
      (Document.child_mem_places hf (Place.mem_children_of_child? hb))
    have hr : d.render body.node = _ := renderWithin_eq_splice hw (fun e hm => (he e hm).1)
      (fun e hm => (he e hm).2) hn (Node.size_le_of_mem_preorder hn)
    dsimp only
    rw [hr]
    exact ⟨_, rfl⟩

theorem Rule.waitingCallbacks_eq_ok {r : Renaming} {table : MethodTable} {d : Draft}
    (hr : r.table = .ok table) (hd : ∀ f ∈ d.doc.places, ∃ b, d.waits f = .ok b) :
    ∃ l, waitingCallbacks r d = .ok l := by
  have hall : ∀ p ∈ d.doc.places, ∃ x, waitingCallback? r d p = .ok x := by
    intro p hp
    rw [waitingCallback?_eq hr]
    cases hi : iteratingCallback? r table d p with
    | none => exact ⟨none, rfl⟩
    | some f =>
      have hf := Place.callArguments_mem_places hp (isFunctionLiteral_of_iteratingCallback? hi).1
      obtain ⟨b, hb⟩ := hd f hf
      dsimp only
      rw [hb]
      exact ⟨_, rfl⟩
  choose! x hx using hall
  rw [waitingCallbacks, Except.mapM_eq_map hx]
  exact ⟨_, rfl⟩

/-- The search for waiting callbacks only reads what a renaming would write, so it always comes to
an end. -/
theorem Renaming.exists_waitingCallbacks {r : Renaming} {table : MethodTable}
    (hr : r.table = .ok table) (hw : r.doc.WellFormed) :
    ∃ l, Rule.waitingCallbacks r (r.doc.afterSteps (r.move table)) = .ok l := by
  refine Rule.waitingCallbacks_eq_ok hr fun f hf => Draft.waits_eq_ok hw (fun e he => ?_) hf
  obtain ⟨p, hp, he⟩ := Document.mem_afterSteps.1 he
  obtain ⟨x, hx, rfl⟩ | rfl := mem_edits_move he
  · obtain ⟨-, receiver, hm, -⟩ := found?_eq_some hx
    exact ⟨rfl, Document.node_mem_nodes (Place.memberCall?_mem_places hp hm).2⟩
  · constructor
    · obtain ha | ha := Document.awaitEdit_action r.doc p <;> simp [Edit.isLiteral, ha]
    · rw [Edit.node, Document.awaitEdit_place]
      exact Document.node_mem_nodes hp

namespace Sweep.Follows

variable {s : Sweep} {pass : Pass} {g : Place → Step} {late : Draft → Except Fault (List Place)}
  {l : List Place} {c f : Place}

theorem value_pending (h : s.Follows pass g late) (hl : late (pass.doc.afterSteps g) = .ok l) :
    (s.pending pass).value = .ok (pass.doc.afterSteps g, pass.doc.queue g l) := by
  obtain ⟨t, ht, hg, rfl⟩ := h.does
  have hl' : t.late { doc := pass.doc, edits := pass.doc.places.flatMap fun p => (g p).edits } =
      .ok l := hl
  simp only [pending, Traversal.pending, Run.value_bind, ht, Run.value_mapM fun p _ => hg p,
    Except.bind, Run.value_liftExcept, List.flatMap_map, hl']
  rfl

theorem late_eq_ok (h : s.Follows pass g late) (hw : pass.doc.WellFormed) :
    ∃ l, late (pass.doc.afterSteps g) = .ok l := by
  obtain ⟨-, rfl⟩ | ⟨-, rfl, rfl⟩ := h.search
  · exact ⟨[], rfl⟩
  exact Renaming.exists_waitingCallbacks rfl hw

/-- A call that receives an `await` covers its own place. -/
theorem covers_of_addsAwait (h : s.Follows pass g late) (hw : pass.doc.WellFormed)
    (hc : (pass.doc.afterPass g l).AddsAwait c) : (pass.doc.afterPass g l).Covers c := by
  obtain ⟨-, e, he, hk⟩ := (h.addsAwait_iff hw).1 hc
  exact ⟨(h.move c).barrier?_of_await he hk, c, hc, rfl⟩

theorem lands_of_movedTo? (h : s.Follows pass g late) (hw : pass.doc.WellFormed) {n : Node}
    {q : Place}
    (hm : (pass.doc.afterPass g l).movedTo? n = some q) : (pass.doc.afterPass g l).Lands q := by
  obtain ⟨e, he, hx⟩ := List.exists_of_findSome?_eq_some hm
  split at hx
  · next fold ha =>
    obtain rfl : e.place = q := by
      split at hx
      · exact Option.some.inj hx
      · cases hx
    have hne : e ∈ (pass.doc.afterSteps g).edits := by
      obtain he | ⟨f, -, hf⟩ := Document.mem_afterPass.1 he
      · exact he
      · rw [(Document.asyncMark?_eq_some hf).1] at ha
        cases ha
    obtain ⟨p, hp, hstep⟩ := Document.mem_afterSteps.1 hne
    obtain ⟨new, hn⟩ | ⟨rfl | ⟨-, indent, hf⟩, -⟩ := (h.move p).edit hstep
    · rw [hn] at ha
      cases ha
    · obtain hw | hw := pass.doc.awaitEdit_action p <;> rw [hw] at ha <;> cases ha
    · obtain ⟨cb, -, hs, -⟩ := Document.foldMark?_eq_some hf
      have hc := h.covers_of_addsAwait (l := l) hw
        ((h.addsAwait_iff hw).2 ⟨hp, e, hstep, Or.inr ⟨indent, hf⟩⟩)
      exact hc.lands_of_statement? hp hs
  · cases hx

/-- What governs an awaited call in the end is a function that the pass asks for. -/
theorem asked_of_governor? (h : s.Follows pass g late) (hw : pass.doc.WellFormed)
    (hc : (pass.doc.afterPass g l).AddsAwait c)
    (hf : (pass.doc.afterPass g l).governor? c = some f) :
    f.refusesAsync = false ∧ (pass.doc.afterPass g l).Asked s f := by
  have hp : c ∈ pass.doc.places := ((h.addsAwait_iff hw).1 hc).1
  obtain ⟨hr, c', hc', he⟩ :=
    Draft.governs_of_covers hw (fun n q hm => h.lands_of_movedTo? hw hm) hp
      (fun _ => h.covers_of_addsAwait hw hc) (by simp) hf
  exact ⟨hr, .call hc' he⟩

theorem queue_accepts (h : s.Follows pass g late) (hl : late (pass.doc.afterSteps g) = .ok l)
    (hf : f ∈ pass.doc.queue g l) : f.isAsync = false ∧ f.refusesAsync = false := by
  obtain hf | hf := Queue.mem_addAll hf
  · cases hf
  · exact h.asked_accepts hl hf

theorem asyncAnchor?_isSome_of_mem_queue (h : s.Follows pass g late) (hw : pass.doc.WellFormed)
    (hm : pass.doc.MethodsNamed) (hl : late (pass.doc.afterSteps g) = .ok l)
    (hf : f ∈ pass.doc.queue g l) : f.asyncAnchor?.isSome :=
  Place.asyncAnchor?_isSome ((h.mem_queue_iff hw hl).1 hf).1.isFunctionLike
    (hm f (h.queue_mem_places hl hf))

/-- Making a pending function async is never refused. -/
theorem value_asyncEdit_of_mem_queue (h : s.Follows pass g late)
    (hl : late (pass.doc.afterSteps g) = .ok l) (hf : f ∈ pass.doc.queue g l) {e : Edit}
    (he : pass.doc.asyncMark? f = some e) : (pass.doc.asyncEdit f).value = .ok (some e) := by
  obtain ⟨ha, hr⟩ := h.queue_accepts hl hf
  rw [pass.doc.value_asyncEdit ha hr, he]

/-- The keyword goes before a getter or setter only if its name is itself a pending function. -/
theorem mem_queue_of_accessor (h : s.Follows pass g late) (hw : pass.doc.WellFormed)
    (hl : late (pass.doc.afterSteps g) = .ok l) (hf : f ∈ pass.doc.queue g l) {a m : Place}
    (hfa : f.asyncAnchor? = some a) (hk : m.kind = .method) (hacc : m.isAccessor)
    (hma : m.asyncAnchor? = some a) : a ∈ pass.doc.queue g l := by
  have hlike := ((h.mem_queue_iff hw hl).1 hf).1.isFunctionLike
  obtain rfl | hpar := Place.eq_or_parent?_of_asyncAnchor? hlike hfa
  · exact hf
  · obtain rfl : f = m := Option.some.inj (hpar.symm.trans (Place.parent?_of_asyncAnchor? hk hma))
    exact absurd ⟨hk, hacc⟩ (Place.isAccessor_of_refusesAsync (h.queue_accepts hl hf).2)

end Sweep.Follows

/-- A pass of a built-in rule comes to an end, and none of the pending functions is refused. Going
up from an awaited call, past callbacks that are folded away, the first field, parameter list or
function is a function that is async in the end and no getter or setter. Only pending functions get
the keyword. -/
theorem Sweep.promotes_all_pending {s : Sweep} {pass : Pass} (hs : s ∈ Rule.sweeps)
    (ho : pass.IsStandard s) (hw : pass.doc.WellFormed) (hm : pass.doc.MethodsNamed) :
    ∃ before q d k, (s.pending pass).value = .ok (before, q) ∧
      (before.promoteAll q).value = .ok (d, k) ∧ (s.draft pass).value = .ok (d, k) ∧
      (∀ c f, d.AddsAwait c → d.governor? c = some f →
        f.kind ≠ .field ∧ f.kind ≠ .parameters ∧ ¬ (f.kind = .method ∧ f.isAccessor) ∧
          d.AsyncAfter f) ∧
      (∀ f ∈ q, ∃ e ∈ d.edits, (pass.doc.asyncEdit f).value = .ok (some e) ∧
        e.action = .insert "async " ∧ f.asyncAnchor? = some e.place) ∧
      (∀ e ∈ d.edits, e.action = .insert "async " →
        (∃ f ∈ q, ¬ (f.kind = .method ∧ f.isAccessor) ∧
          (pass.doc.asyncEdit f).value = .ok (some e)) ∧
          ∀ m : Place, m.kind = .method → m.isAccessor → m.asyncAnchor? = some e.place →
            e.place ∈ q) := by
  obtain ⟨g, late, h⟩ := Rule.exists_follows hs ho
  obtain ⟨l, hl⟩ := h.late_eq_ok hw
  have hanchor := fun f => h.asyncAnchor?_isSome_of_mem_queue (f := f) hw hm hl
  obtain ⟨k, hd⟩ := h.exists_draft hl (List.all_eq_true.2 hanchor)
  have hp := h.value_pending hl
  have hrun := s.value_draft_eq_pending pass
  rw [hp, Except.bind, hd] at hrun
  refine ⟨_, _, _, k, hp, hrun.symm, hd, ?_, ?_, ?_⟩
  · intro c f hc hf
    obtain ⟨hr, hasked⟩ := h.asked_of_governor? hw hc hf
    obtain ⟨h1, h2⟩ := Place.kind_ne_of_isFunctionLike hasked.isFunctionLike
    refine ⟨h1, h2, Place.isAccessor_of_refusesAsync hr, (h.asyncAfter_iff hw hl hanchor).2 ?_⟩
    cases ha : f.isAsync with
    | true => exact Or.inl rfl
    | false => exact Or.inr ⟨f, hasked, ha, rfl⟩
  · intro f hf
    obtain ⟨e, he, hmark⟩ := Document.exists_asyncMark?_of_mem_queue hf (hanchor f hf)
    exact ⟨e, he, h.value_asyncEdit_of_mem_queue hl hf hmark, Document.asyncMark?_eq_some hmark⟩
  · intro e he ha
    obtain he | ⟨f, hf, hmark⟩ := Document.mem_afterPass.1 he
    · exact absurd ha (h.step_action_ne_async he)
    have hnot := Place.isAccessor_of_refusesAsync (h.queue_accepts hl hf).2
    refine ⟨⟨f, hf, hnot, h.value_asyncEdit_of_mem_queue hl hf hmark⟩, ?_⟩
    intro m hk hacc hma
    exact h.mem_queue_of_accessor hw hl hf (Document.asyncMark?_eq_some hmark).2 hk hacc hma

/-- The function around and the folded callback are pending, and the call in the callback ends up
under the function around. -/
theorem Sweep.promotes_all_pending_folding :
    Rule.callAsync ∈ Rule.sweeps ∧ Folding.pass.IsStandard Rule.callAsync ∧ Folding.doc.WellFormed ∧
      Folding.doc.MethodsNamed ∧ Folding.draft.AddsAwait Folding.inner ∧
      Folding.draft.governor? Folding.inner = some Folding.function ∧
      ∃ before k, (Rule.callAsync.pending Folding.pass).value =
          .ok (before, [Folding.function, Folding.callback.function]) ∧
        (before.promoteAll [Folding.function, Folding.callback.function]).value =
          .ok (Folding.draft, k) ∧
        Folding.draft.AsyncAfter Folding.function := by
  have hs : Rule.callAsync ∈ Rule.sweeps := by simp [Rule.sweeps]
  have ho : Folding.pass.IsStandard Rule.callAsync := Or.inl rfl
  have hall : Folding.doc.MethodsNamed ∧
      Folding.draft.governor? Folding.inner = some Folding.function ∧
      Folding.doc.queue
        (Rule.callMove (Rule.renameOn Folding.doc Rule.callTable "Meteor") Rule.callTable
          (.ok "  ")) [] = [Folding.function, Folding.callback.function] ∧
      [Folding.function, Folding.callback.function].all fun f => f.asyncAnchor?.isSome := by
    unfold Document.MethodsNamed
    decide +kernel
  obtain ⟨hm, hgov, hqueue, hanchor⟩ := hall
  obtain ⟨before, q, d, k, hp, hrun, hd, hlegal, -⟩ :=
    promotes_all_pending hs ho Folding.wellFormed hm
  obtain ⟨k', hk⟩ := Folding.follows.exists_draft rfl (hqueue ▸ hanchor)
  obtain ⟨rfl, rfl⟩ := Prod.mk.inj (Except.ok.inj (hk.symm.trans hd))
  obtain ⟨rfl, rfl⟩ :=
    Prod.mk.inj (Except.ok.inj ((Folding.follows.value_pending rfl).symm.trans hp))
  rw [← hqueue]
  exact ⟨hs, ho, Folding.wellFormed, hm, Folding.addsAwait, hgov, _, k', hp, hrun,
    (hlegal _ _ Folding.addsAwait hgov).2.2.2⟩

end Asyncify
