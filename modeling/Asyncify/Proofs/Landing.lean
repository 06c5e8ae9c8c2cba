import Asyncify.Proofs.Moves
import Asyncify.Proofs.Depiction

/-! Where awaited calls end up: in the body of which function, once callbacks are folded, and
whether that function is async afterwards. -/
namespace Asyncify

namespace Place

/-- Going up from a node, the functions that hold it in their body. -/
def holdersFrom (n : Node) : List Node → List Place
  | [] => []
  | m :: ms =>
    if m.kind.isFunction && (m.child? .body).map Node.id = some n.id then
      ⟨m, ms⟩ :: holdersFrom m ms
    else holdersFrom m ms

/-- The functions, arrows and methods whose body holds the place, the innermost first. -/
def holders (p : Place) : List Place := holdersFrom p.node p.above

theorem holders_eq_of_cons {p f : Place} {fs : List Place} (h : p.holders = f :: fs) :
    f.holders = fs := by
  obtain ⟨n, above⟩ := p
  rw [holders] at h
  induction above generalizing n with
  | nil => cases h
  | cons m ms ih =>
    rw [holdersFrom] at h
    split at h
    · cases h
      rfl
    · exact ih m h

end Place

namespace Edit

def addsAsync (e : Edit) : Bool :=
  match e.action with
  | .insert text => text = "async "
  | _ => false

theorem addsAsync_iff (e : Edit) : e.addsAsync ↔ e.action = .insert "async " := by
  rw [addsAsync]
  cases e.action <;> simp

end Edit

namespace Draft

variable (d : Draft)

/-- The draft replaces the statement of the call by a `try` statement with the callback's body. -/
def Folds (c : Place) (cb : Callback) : Prop :=
  c ∈ d.doc.places ∧ Callback.of? d.doc c = some cb ∧ ∃ e ∈ d.edits, c.statement? = some e.place ∧
    ∃ indent, e.action = .replace (.folded (d.doc.fold e.place c cb indent))

/-- The statements of the function end up in the function around it. -/
def FoldsAway (f : Place) : Prop := ∃ c cb, d.Folds c cb ∧ cb.function = f

/-- The draft puts an `await` before the call, or into the `try` statement that it makes of it. -/
def AddsAwait (c : Place) : Prop :=
  (∃ e ∈ d.edits, e.place = c ∧ (e.action = .insert "await " ∨ e.action = .wrap "(await " ")")) ∨
    ∃ cb, d.Folds c cb

/-- `f` is the innermost function with the call in its body, callbacks that are folded away
apart. -/
def Hosts (c f : Place) : Prop :=
  ∃ inner outer, c.holders = inner ++ f :: outer ∧ (∀ g ∈ inner, d.FoldsAway g) ∧ ¬ d.FoldsAway f

/-- The function has the keyword, or the draft puts it there. -/
def AsyncAfter (f : Place) : Prop :=
  f.isAsync ∨ ∃ e ∈ d.edits, e.action = .insert "async " ∧ f.asyncAnchor? = some e.place

/-- The nearest function around the call has it in its body, rather than in a computed name or key.
Inside a callback that is folded away, the same holds of the folded call. -/
inductive Seated : Place → Prop
  | stays {c : Place} (hb : c.holders.head? = c.enclosingFunction?)
      (hf : ∀ f, c.enclosingFunction? = some f → ¬ d.FoldsAway f) : Seated c
  | moves {c outer : Place} {cb : Callback} (hb : c.holders.head? = some cb.function)
      (hf : d.Folds outer cb) (hh : cb.function.holders = outer.holders) (hs : Seated outer) :
        Seated c

/-- The draft without the keywords that the pass adds at its end. -/
def beforePromotion : Draft := { d with edits := d.edits.filter fun e => !e.addsAsync }

/-- What makes a rule ask for a function: an awaited call that has it as its nearest function, a
route that it handles, or a renamed iteration whose callback waits for something. -/
inductive Asked (s : Sweep) : Place → Prop
  | call {c f : Place} (hc : d.AddsAwait c) (hf : c.enclosingFunction? = some f) : Asked s f
  | handler {c f : Place} (hs : s = Rule.fastRenderAsync) (hc : c ∈ d.doc.places)
      (hr : Rule.isOnAllRoutes d.doc c) (ha : c.callArguments.head? = some f)
      (hf : f.isFunctionLiteral) : Asked s f
  | callback {c receiver name f : Place} (hs : s = Rule.cursorAsync) (hc : c ∈ d.doc.places)
      (hm : c.memberCall? = some (receiver, name)) (hr : d.beforePromotion.isReplaced name.node)
      (hi : Rule.iteratingMethods.contains (d.doc.textOf name.node))
      (ha : Place.firstFunction? c.callArguments = some f)
      (hw : d.beforePromotion.waits f = .ok true) : Asked s f

end Draft

namespace Document

variable {doc : Document}

/-- A folded statement shows which call it was made of. -/
theorem WellFormed.eq_of_fold (hw : doc.WellFormed) {p c q r : Place} {cb cb' : Callback}
    {indent indent' : Except Fault String} (hp : p ∈ doc.places) (hc : c ∈ doc.places)
    (hm : p.memberCall?.isSome) (he : doc.fold q c cb indent = doc.fold r p cb' indent') :
    c = p := by
  obtain ⟨⟨receiver, name⟩, hm⟩ := Option.isSome_iff_exists.1 hm
  obtain ⟨-, callee, hf, -⟩ := Place.memberCall?_eq_some.1 hm
  have hcallee := congrArg Fold.callee he
  simp only [fold, hf] at hcallee
  cases hg : c.child? .function with
  | none => simp [hg] at hcallee
  | some callee' =>
    rw [hg] at hcallee
    have hn : callee'.node = callee.node := Except.ok.inj hcallee
    have heq : callee' = callee :=
      hw.place_eq_of_id (child_mem_places hc (Place.mem_children_of_child? hg))
        (child_mem_places hp (Place.mem_children_of_child? hf)) (congrArg Node.id hn)
    subst heq
    exact Option.some.inj ((Place.parent?_of_child? hg).symm.trans (Place.parent?_of_child? hf))

/-- The keywords that a pass adds are all that its end adds. -/
theorem beforePromotion_afterPass {g : Place → Step}
    (h : ∀ e ∈ (doc.afterSteps g).edits, e.action ≠ .insert "async ") (l : List Place) :
    (doc.afterPass g l).beforePromotion = doc.afterSteps g := by
  rw [Draft.beforePromotion, afterPass, Draft.recordAll, List.filter_append]
  have hs : (doc.afterSteps g).edits.filter (fun e => !e.addsAsync) = (doc.afterSteps g).edits := by
    refine List.filter_eq_self.2 fun e he => ?_
    have hn := h e he
    rw [ne_eq, ← Edit.addsAsync_iff] at hn
    simpa using hn
  have hq : ((doc.queue g l).filterMap doc.asyncMark?).filter (fun e => !e.addsAsync) = [] := by
    refine List.filter_eq_nil_iff.2 fun e he => ?_
    obtain ⟨f, -, hf⟩ := List.mem_filterMap.1 he
    simp [(Edit.addsAsync_iff e).2 (asyncMark?_eq_some hf).1]
  rw [hs, hq, List.append_nil]

end Document

/-- A renaming replaces the names of the calls that it finds and nothing else. -/
theorem Renaming.isReplaced_iff {r : Renaming} {table : MethodTable} (hw : r.doc.WellFormed)
    {p : Place} (hp : p ∈ r.doc.places) :
    (r.doc.afterSteps (r.move table)).isReplaced p.node ↔
      ∃ c ∈ r.doc.places, ∃ new, r.found? table c = some (p, new) := by
  rw [Draft.isReplaced_iff]
  constructor
  · rintro ⟨e, he, hid, hrep⟩
    obtain ⟨c, hc, he⟩ := Document.mem_afterSteps.1 he
    obtain ⟨x, hx, rfl⟩ | rfl := mem_edits_move he
    · obtain ⟨-, receiver, hm, -⟩ := found?_eq_some hx
      obtain rfl := hw.place_eq_of_id (Place.memberCall?_mem_places hc hm).2 hp hid
      exact ⟨c, hc, x.2, hx⟩
    · obtain ha | ha := r.doc.awaitEdit_action c <;> simp [Edit.replacement?, ha] at hrep
  · rintro ⟨c, hc, new, hx⟩
    refine ⟨r.renameEdit p new, Document.mem_afterSteps.2 ⟨c, hc, ?_⟩, rfl, rfl⟩
    simp [move, hx]

namespace Sweep.Follows

variable {s : Sweep} {pass : Pass} {g : Place → Step} {late : Draft → Except Fault (List Place)}
  {l : List Place} {c f : Place}

theorem step_action_ne_async (h : s.Follows pass g late) {e : Edit}
    (he : e ∈ (pass.doc.afterSteps g).edits) : e.action ≠ .insert "async " := by
  intro ha
  obtain ⟨p, -, he⟩ := Document.mem_afterSteps.1 he
  obtain ⟨new, hn⟩ | ⟨rfl | ⟨-, indent, hf⟩, -⟩ := (h.move p).edit he
  · rw [hn] at ha
    cases ha
  · obtain hw | hw := pass.doc.awaitEdit_action p <;> rw [hw] at ha <;> simp at ha
  · obtain ⟨cb, -, -, hr⟩ := Document.foldMark?_eq_some hf
    rw [hr] at ha
    cases ha

theorem beforePromotion_afterPass (h : s.Follows pass g late) (l : List Place) :
    (pass.doc.afterPass g l).beforePromotion = pass.doc.afterSteps g :=
  Document.beforePromotion_afterPass (fun _ he => h.step_action_ne_async he) l

/-- A call receives an `await` just where the step at the call itself says so. -/
theorem addsAwait_iff (h : s.Follows pass g late) (hw : pass.doc.WellFormed) :
    (pass.doc.afterPass g l).AddsAwait c ↔ c ∈ pass.doc.places ∧
      ∃ e ∈ (g c).edits, e = pass.doc.awaitEdit c ∨
        ∃ indent, pass.doc.foldMark? c indent = some e := by
  constructor
  · rintro (⟨e, he, rfl, ha⟩ | ⟨cb, hc, -, e, he, -, indent, ha⟩)
    · obtain he | ⟨f, -, hf⟩ := Document.mem_afterPass.1 he
      · obtain ⟨p, hp, he⟩ := Document.mem_afterSteps.1 he
        obtain ⟨new, hn⟩ | ⟨hf | ⟨-, indent, hf⟩, -⟩ := (h.move p).edit he
        · simp [hn] at ha
        · have hp' : e.place = p := by rw [hf, Document.awaitEdit_place]
          rw [hp']
          exact ⟨hp, e, he, Or.inl hf⟩
        · obtain ⟨cb, -, -, hr⟩ := Document.foldMark?_eq_some hf
          simp [hr] at ha
      · simp [(Document.asyncMark?_eq_some hf).1] at ha
    · obtain he | ⟨f, -, hf⟩ := Document.mem_afterPass.1 he
      · obtain ⟨p, hp, he⟩ := Document.mem_afterSteps.1 he
        obtain ⟨new, hn⟩ | ⟨rfl | ⟨hm, indent', hf⟩, -⟩ := (h.move p).edit he
        · rw [hn] at ha
          cases ha
        · obtain hw | hw := pass.doc.awaitEdit_action p <;> rw [hw] at ha <;> cases ha
        · obtain ⟨cb', -, -, hr⟩ := Document.foldMark?_eq_some hf
          rw [hr] at ha
          injection ha with ha
          injection ha with ha
          obtain rfl := hw.eq_of_fold hp hc hm ha.symm
          exact ⟨hp, e, he, Or.inr ⟨indent', hf⟩⟩
      · rw [(Document.asyncMark?_eq_some hf).1] at ha
        cases ha
  · rintro ⟨hc, e, he, rfl | ⟨indent, hf⟩⟩
    · refine Or.inl ⟨_, ?_, pass.doc.awaitEdit_place c, pass.doc.awaitEdit_action c⟩
      exact Document.mem_afterPass.2 (Or.inl (Document.mem_afterSteps.2 ⟨c, hc, he⟩))
    · obtain ⟨cb, hcb, hs, ha⟩ := Document.foldMark?_eq_some hf
      refine Or.inr ⟨cb, hc, hcb, e, ?_, hs, indent, ha⟩
      exact Document.mem_afterPass.2 (Or.inl (Document.mem_afterSteps.2 ⟨c, hc, he⟩))

/-- A cursor call whose name is replaced has been found by the rule. -/
theorem renamed_of_isReplaced (hg : g = (Rule.renameCursors pass.doc).move Rule.cursorTable)
    (hw : pass.doc.WellFormed) {receiver name : Place} (hc : c ∈ pass.doc.places)
    (hm : c.memberCall? = some (receiver, name))
    (hr : (pass.doc.afterSteps g).isReplaced name.node) :
    ∃ new, (Rule.renameCursors pass.doc).found? Rule.cursorTable c = some (name, new) := by
  subst hg
  obtain ⟨p, -, new, hfound⟩ :=
    (Renaming.isReplaced_iff hw (Place.memberCall?_mem_places hc hm).2).1 hr
  obtain ⟨-, receiver', hm', -⟩ := Renaming.found?_eq_some hfound
  rw [← Place.eq_of_memberCall? hm' hm]
  exact ⟨new, hfound⟩

/-- The pass asks for just these functions. -/
theorem mem_asked_iff (h : s.Follows pass g late) (hw : pass.doc.WellFormed)
    (hl : late (pass.doc.afterSteps g) = .ok l) :
    f ∈ pass.doc.asked g l ↔ (pass.doc.afterPass g l).Asked s f ∧ f.isAsync = false := by
  constructor
  · intro hf
    refine ⟨?_, (h.asked_accepts hl hf).1⟩
    obtain hf | hf := List.mem_append.1 hf
    · obtain ⟨p, hp, hf⟩ := List.mem_flatMap.1 hf
      obtain ⟨-, hpr, he⟩ | ⟨hs, hr, ha, hlit, -⟩ := (h.move p).promoted hf
      · exact .call ((h.addsAwait_iff hw).2 ⟨hp, he⟩) (Place.promotion?_eq_some.1 hpr).1
      · exact .handler hs hp hr ha hlit
    · obtain ⟨-, rfl⟩ | ⟨hs, -, rfl⟩ := h.search
      · cases hl
        cases hf
      · obtain ⟨p, hp, hi, hwaits⟩ := (Rule.mem_waitingCallbacks rfl hl).1 hf
        obtain ⟨receiver, name, hm, -, -, hr, hit, ha, -⟩ := Rule.iteratingCallback?_eq_some.1 hi
        rw [← h.beforePromotion_afterPass l] at hr hwaits
        exact .callback hs hp hm hr hit ha hwaits
  · rintro ⟨hf, ha⟩
    rw [Document.asked, List.mem_append, List.mem_flatMap]
    cases hf with
    | call hc hf =>
      obtain ⟨hc, e, he, hk⟩ := (h.addsAwait_iff hw).1 hc
      refine Or.inl ⟨_, hc, ?_⟩
      obtain ⟨new, hn⟩ | ⟨-, hq⟩ := (h.move _).edit he
      · exact absurd hn (Document.action_ne_literal hk new)
      · exact hq f (Place.promotion?_eq_some.2 ⟨hf, ha⟩)
    | handler hs hc hr hh hlit =>
      refine Or.inl ⟨_, hc, ?_⟩
      rw [Document.doc_afterPass] at hr
      rw [h.routes hs, Rule.routeMove, if_pos hr]
      simp [hh, hlit, ha, Option.filter]
    | callback hs hc hm hr hit hh hwaits =>
      refine Or.inr ?_
      obtain ⟨hn, -⟩ | ⟨-, hg, rfl⟩ := h.search
      · exact absurd hs hn
      · rw [h.beforePromotion_afterPass l] at hr hwaits
        refine (Rule.mem_waitingCallbacks rfl hl).2 ⟨_, hc, ?_, hwaits⟩
        obtain ⟨new, hnew⟩ := renamed_of_isReplaced hg hw hc hm hr
        obtain ⟨-, receiver', hm', hacc, htab⟩ := Renaming.found?_eq_some hnew
        obtain ⟨rfl, -⟩ := Prod.mk.inj (Option.some.inj (hm.symm.trans hm'))
        exact Rule.iteratingCallback?_eq_some.2 ⟨_, _, hm, hacc, by simp [htab], hr, hit, hh, ha⟩

/-- Just the functions that the pass asks for get the keyword. -/
theorem asyncAfter_iff (h : s.Follows pass g late) (hw : pass.doc.WellFormed)
    (hl : late (pass.doc.afterSteps g) = .ok l)
    (hq : ∀ f ∈ pass.doc.queue g l, f.asyncAnchor?.isSome) :
    (pass.doc.afterPass g l).AsyncAfter f ↔ f.isAsync ∨
      ∃ f', (pass.doc.afterPass g l).Asked s f' ∧ f'.isAsync = false ∧
        f'.asyncAnchor? = f.asyncAnchor? := by
  have hmem (f' : Place) : f' ∈ pass.doc.queue g l ↔
      (pass.doc.afterPass g l).Asked s f' ∧ f'.isAsync = false :=
    (Queue.mem_addAll_iff hw fun p hp => h.asked_mem_places hl hp).trans (h.mem_asked_iff hw hl)
  refine or_congr_right ⟨?_, ?_⟩
  · rintro ⟨e, he, ha, hf⟩
    obtain he | ⟨f', hf', hm⟩ := Document.mem_afterPass.1 he
    · exact absurd ha (h.step_action_ne_async he)
    · obtain ⟨hasked, hn⟩ := (hmem f').1 hf'
      exact ⟨f', hasked, hn, (Document.asyncMark?_eq_some hm).2.trans hf.symm⟩
  · rintro ⟨f', hasked, hn, hanchor⟩
    have hf' := (hmem f').2 ⟨hasked, hn⟩
    obtain ⟨a, ha⟩ := Option.isSome_iff_exists.1 (hq f' hf')
    have hm : pass.doc.asyncMark? f' =
        some ⟨a, .insert "async ", "Made " ++ pass.doc.functionLabel f' ++ " async"⟩ := by
      simp [Document.asyncMark?, ha]
    exact ⟨_, Document.mem_afterPass.2 (Or.inr ⟨f', hf', hm⟩), rfl, by rw [← hanchor, ha]⟩

end Sweep.Follows

namespace Draft

variable {d : Draft} {c f : Place}

/-- A call in a callback that is folded away ends up where the folded call does. -/
theorem Hosts.of_folds {cb : Callback} {outer : Place} (h : d.Hosts c f)
    (hb : c.holders.head? = some cb.function) (hf : d.Folds outer cb)
    (hh : cb.function.holders = outer.holders) : d.Hosts outer f := by
  obtain ⟨inner, fs, he, hin, hn⟩ := h
  obtain ⟨gs, hgs⟩ := List.head?_eq_some_iff.1 hb
  have hrest := Place.holders_eq_of_cons hgs
  cases inner with
  | nil =>
    rw [hgs, List.nil_append] at he
    injection he with he _
    exact absurd ⟨outer, cb, hf, he⟩ hn
  | cons a inner =>
    rw [hgs, List.cons_append] at he
    injection he with _ he
    refine ⟨inner, fs, ?_, fun g hg => hin g (List.mem_cons_of_mem _ hg), hn⟩
    rw [← hh, hrest, he]

/-- The nearest function of a call in its body is the one that the call ends up in. -/
theorem Hosts.enclosingFunction? (h : d.Hosts c f) (hb : c.holders.head? = c.enclosingFunction?)
    (hf : ∀ g, c.enclosingFunction? = some g → ¬ d.FoldsAway g) :
    c.enclosingFunction? = some f := by
  obtain ⟨inner, fs, he, hin, -⟩ := h
  rw [he] at hb
  cases inner with
  | nil => exact hb.symm
  | cons a inner => exact absurd (hin a List.mem_cons_self) (hf a hb.symm)

end Draft

/-- A function with an awaited call in its body is async after the pass just if it was before or if
something in it, or in the property that it is the value of, asked for it. An awaited call asks for
its nearest function, so the function is async wherever that one has the call in its body. -/
theorem Sweep.asyncAfter_of_hosts {s : Sweep} {pass : Pass} {d : Draft} {k : Nat} {c f : Place}
    (hs : s ∈ Rule.sweeps) (ho : pass.IsStandard s) (hw : pass.doc.WellFormed)
    (hd : (s.draft pass).value = .ok (d, k)) (hc : d.AddsAwait c) (hf : d.Hosts c f) :
    (d.AsyncAfter f ↔ f.isAsync ∨
        ∃ f', d.Asked s f' ∧ f'.isAsync = false ∧ f'.asyncAnchor? = f.asyncAnchor?) ∧
      (d.Seated c → d.AsyncAfter f) := by
  obtain ⟨g, late, h⟩ := Rule.exists_follows hs ho
  obtain ⟨l, hl, rfl, hq⟩ := h.draft_inv hd
  have hiff (f : Place) := h.asyncAfter_iff (f := f) hw hl hq
  refine ⟨hiff f, fun hseat => ?_⟩
  -- Each folded callback around the call passes the question on to the call it is folded with.
  induction hseat with
  | stays hb hn =>
    have he := hf.enclosingFunction? hb hn
    cases ha : f.isAsync with
    | true => exact Or.inl ha
    | false => exact (hiff f).2 (Or.inr ⟨f, .call hc he, ha, rfl⟩)
  | moves hb hfold hh _ ih => exact ih (Or.inr ⟨_, hfold⟩) (hf.of_folds hb hfold hh)

namespace Folding

open Sketch

/-- A call with a number. -/
def numbered (number : String) (more : List Sketch) : Sketch :=
  statement [] (callOn [] "Meteor" "call" (leaf "number" [] number :: more))

/-- A function with a call that is folded with its callback, and in the callback another call. -/
def doc : Document :=
  program
    [functionNamed [] "f" (block [.body] " " " "
        [numbered "1" [functionWith [] ["err", "res"] (block [.body] " " " " [numbered "2" []])]]),
      gap "\n"]

def pass : Pass := { path := "a.js", doc, options := .empty }

def outer : Place := doc.placeAt 10

def callback : Callback := ⟨doc.placeAt 19, "err", "res"⟩

def inner : Place := doc.placeAt 30

def function : Place := doc.placeAt 1

def draft : Draft :=
  doc.afterPass
    (Rule.callMove (Rule.renameOn doc Rule.callTable "Meteor") Rule.callTable (.ok "  ")) []

theorem follows : Rule.callAsync.Follows pass
    (Rule.callMove (Rule.renameOn doc Rule.callTable "Meteor") Rule.callTable (.ok "  "))
    fun _ => .ok [] :=
  Rule.callAsync_follows (Or.inl rfl)

theorem wellFormed : doc.WellFormed := wellFormed_program _

/-- Where the two calls stand. The document is evaluated once for all of it. -/
theorem layout :
    outer ∈ doc.places ∧ inner ∈ doc.places ∧ inner.isAwaited = false ∧
      inner.holders = [callback.function, function] ∧ callback.function.holders = [function] ∧
      outer.holders = [function] ∧ outer.enclosingFunction? = some function := by
  decide +kernel

/-- What the rule finds in them: both are renamed, and only the outer one has a callback to fold. -/
theorem findings :
    Callback.of? doc outer = some callback ∧
      (∀ p ∈ doc.places, ∀ x ∈ Callback.of? doc p, x.function ≠ function) ∧
      (∀ p ∈ [outer, inner],
        ((Rule.renameOn doc Rule.callTable "Meteor").found? Rule.callTable p).isSome) ∧
      (doc.foldMark? outer (.ok "  ")).isSome ∧ (doc.foldMark? inner (.ok "  ")).isNone := by
  decide +kernel

theorem folds : draft.Folds outer callback := by
  obtain ⟨hc, -⟩ := layout
  obtain ⟨hcb, -, hfound, hfold, -⟩ := findings
  obtain ⟨e, he⟩ := Option.isSome_iff_exists.1 hfold
  obtain ⟨cb, hcb', hs, ha⟩ := Document.foldMark?_eq_some he
  obtain rfl : callback = cb := Option.some.inj (hcb.symm.trans hcb')
  have hm := Rule.mem_edits_callMove_of_fold (hfound outer (by simp)) he
  exact ⟨hc, hcb, e,
    Document.mem_afterPass.2 (Or.inl (Document.mem_afterSteps.2 ⟨outer, hc, hm⟩)), hs, _, ha⟩

theorem not_foldsAway : ¬ draft.FoldsAway function := by
  rintro ⟨c, cb, ⟨hc, hcb, -⟩, hf⟩
  exact findings.2.1 c hc cb hcb hf

theorem addsAwait : draft.AddsAwait inner := by
  obtain ⟨-, hc, ha, -⟩ := layout
  obtain ⟨-, -, hfound, -, hfold⟩ := findings
  refine (follows.addsAwait_iff wellFormed).2 ⟨hc, _, ?_, Or.inl rfl⟩
  exact Rule.mem_edits_callMove_of_await (hfound inner (by simp)) hfold ha

theorem hosts : draft.Hosts inner function := by
  obtain ⟨-, -, -, hholders, -⟩ := layout
  refine ⟨[callback.function], [], hholders, ?_, not_foldsAway⟩
  intro f hf
  obtain rfl := List.mem_singleton.1 hf
  exact ⟨outer, callback, folds, rfl⟩

theorem seated : draft.Seated inner := by
  obtain ⟨-, -, -, hinner, hcallback, houter, he⟩ := layout
  have hb : inner.holders.head? = some callback.function := by rw [hinner]; rfl
  refine .moves hb folds (hcallback.trans houter.symm) (.stays ?_ ?_)
  · rw [houter, he]
    rfl
  · intro f hf
    obtain rfl : function = f := Option.some.inj (he.symm.trans hf)
    exact not_foldsAway

end Folding

/-- The call in the folded callback ends up in the function around, which becomes async. -/
theorem Sweep.asyncAfter_of_hosts_folding :
    Rule.callAsync ∈ Rule.sweeps ∧ Folding.pass.IsStandard Rule.callAsync ∧ Folding.doc.WellFormed ∧
      ∃ k, (Rule.callAsync.draft Folding.pass).value = .ok (Folding.draft, k) ∧
        Folding.draft.AddsAwait Folding.inner ∧ Folding.draft.Hosts Folding.inner Folding.function ∧
        Folding.draft.Seated Folding.inner ∧ Folding.draft.AsyncAfter Folding.function := by
  have hs : Rule.callAsync ∈ Rule.sweeps := by simp [Rule.sweeps]
  obtain ⟨k, hk⟩ := Folding.follows.exists_draft rfl (by decide +kernel)
  have h := asyncAfter_of_hosts hs (Or.inl rfl) Folding.wellFormed hk Folding.addsAwait
    Folding.hosts
  exact ⟨hs, Or.inl rfl, Folding.wellFormed, k, hk, Folding.addsAwait, Folding.hosts,
    Folding.seated, h.2 Folding.seated⟩

namespace ComputedKey

open Sketch

/-- An object with one property, in whose key there is a call. -/
def object (value : Sketch) : Sketch :=
  tree "object" []
    [token "\x7b", gap " ",
      tree "pair" []
        [tree "computed_property_name" [.key]
          [token "[", callOn [] "Links" "findOne" [leaf "number" [] "1"], token "]"],
          token ":", gap " ", value],
      gap " ", token "\x7d"]

/-- A function with a call in the key of a property, whose value is a function. -/
def doc : Document :=
  program
    [functionNamed [] "f" (block [.body] " " " "
      [returning [] (object (functionWith [.value] [] (block [.body] "" "" [])))])]

def pass : Pass := { path := "a.js", doc, options := .empty }

def call : Place := doc.placeAt 16

def function : Place := doc.placeAt 1

def draft : Draft := doc.afterPass ((Rule.renameAll doc Rule.apiTable).move Rule.apiTable) []

end ComputedKey

/-- A call in a computed key is awaited in the function around the object, but the function that
becomes async is the value of the property. -/
theorem Sweep.not_asyncAfter_computedKey :
    ComputedKey.doc.WellFormed ∧ ComputedKey.pass.IsStandard Rule.asyncApi ∧
      ∃ k, (Rule.asyncApi.draft ComputedKey.pass).value = .ok (ComputedKey.draft, k) ∧
        ComputedKey.draft.AddsAwait ComputedKey.call ∧
        ComputedKey.draft.Hosts ComputedKey.call ComputedKey.function ∧
        ¬ ComputedKey.draft.AsyncAfter ComputedKey.function := by
  have hw : ComputedKey.doc.WellFormed := Sketch.wellFormed_program _
  have ho : ComputedKey.pass.IsStandard Rule.asyncApi := Or.inl rfl
  have h := Rule.asyncApi_follows ho
  obtain ⟨k, hk⟩ := h.exists_draft rfl (by decide +kernel)
  refine ⟨hw, ho, k, hk, ?_, ?_, ?_⟩
  · refine (h.addsAwait_iff hw).2 ⟨by decide +kernel, _, ?_, Or.inl rfl⟩
    exact Renaming.mem_edits_move_of_await (by decide +kernel) (by decide +kernel)
  · refine ⟨[], [], by decide +kernel, by simp, ?_⟩
    rintro ⟨c, cb, ⟨hc, hcb, -⟩, -⟩
    have hall : ∀ p ∈ ComputedKey.doc.places, Callback.of? ComputedKey.doc p = none := by
      decide +kernel
    cases (hall c hc).symm.trans hcb
  · rintro (ha | ⟨e, he, ha, hf⟩)
    · revert ha
      decide +kernel
    · have hall : ∀ e ∈ ComputedKey.draft.edits, e.addsAsync →
          ComputedKey.function.asyncAnchor? ≠ some e.place := by decide +kernel
      exact hall e he ((Edit.addsAsync_iff e).2 ha) hf

end Asyncify
