import Asyncify.Proofs.Descent
import Asyncify.Proofs.Legality
import Asyncify.Proofs.Markers
import Asyncify.Proofs.Revisit
import Asyncify.Proofs.Rewrites

/-! The pass over cursor methods, whichever methods count as queries: the calls that it rewrites,
and the functions that it makes async. -/
namespace Asyncify

/-- The given methods are the queries of the pass, and its cursor methods are the default ones. -/
structure Pass.Queries (pass : Pass) (queries : List String) : Prop where
  methods : pass.methods Rule.cursorTable = .ok Rule.cursorTable
  queries : (pass.option "query_methods" (.list (Cursors.defaultQueryMethods.map .text))).names =
    .ok queries

/-- The place declares the target with the value, or assigns the value to it. -/
def Place.Binds (p target value : Place) : Prop :=
  p.kind = .variableDeclarator ∧ p.child? .name = some target ∧ p.child? .value = some value ∨
    p.kind = .assignment ∧ p.child? .left = some target ∧ p.child? .right = some value

namespace Document

variable (doc : Document) (queries : List String)

/-- A call of a query method on any receiver. -/
def IsQuery (p : Place) : Prop :=
  ∃ receiver name, p.memberCall? = some (receiver, name) ∧ doc.textOf name.node ∈ queries

/-- Somewhere in the document an identifier of this name is bound to a query. -/
def BindsQuery (name : String) : Prop :=
  ∃ p ∈ doc.places, ∃ target value, p.Binds target value ∧ target.kind = .identifier ∧
    doc.textOf target.node = name ∧ doc.IsQuery queries value

/-- A call of a cursor method, where `await` may stand, on a query or on an identifier that is bound
to one. -/
def IsCursorCall (c name : Place) : Prop :=
  c ∈ doc.places ∧ c.barrier? = none ∧ ∃ receiver, c.memberCall? = some (receiver, name) ∧
    doc.textOf name.node ∈ ["count", "fetch", "forEach", "map"] ∧
    (doc.IsQuery queries receiver ∨
      receiver.kind = .identifier ∧ doc.BindsQuery queries (doc.textOf receiver.node))

end Document

namespace Draft

/-- The body of the function, as the draft has it, waits for something. -/
def Waits (d : Draft) (f : Place) : Prop :=
  ∃ body text, f.child? .body = some body ∧ d.render body.node = .ok text ∧ Text.Waits text.toList

/-- What the pass makes async: the function around a call that it awaits, and the callback of an
iteration that it rewrites, if the callback waits for something even without the keywords that come
in. -/
inductive NeedsAsync (d : Draft) (queries : List String) (f : Place) : Prop
  | around {c : Place} (hc : d.doc.awaitMark c ∈ d.edits) (hf : c.enclosingFunction? = some f)
  | callback {c name : Place} (hc : d.doc.IsCursorCall queries c name)
      (hi : d.doc.textOf name.node ∈ ["map", "forEach"])
      (hf : Place.firstFunction? c.callArguments = some f) (hw : d.beforePromotion.Waits f)

end Draft

namespace Cursors

variable {c : Cursors} {doc : Document} {p target value : Place} {name : String}

theorem isQuery_iff : c.isQuery doc p ↔ doc.IsQuery c.queryMethods p := by
  rw [isQuery, Document.methodName?, Document.IsQuery]
  cases p.memberCall? with
  | none => simp
  | some x => simp [Prod.ext_iff]

theorem binding?_eq_some : binding? p = some (target, value) ↔ p.Binds target value := by
  rw [binding?, Place.Binds]
  split
  · next hk => simp [hk, bind, Option.bind_eq_some_iff]
  · next hk => simp [hk, bind, Option.bind_eq_some_iff]
  · next h1 h2 =>
    simp only [reduceCtorEq, false_iff, not_or]
    exact ⟨fun h => h1 h.1, fun h => h2 h.1⟩

theorem mem_boundNames_iff : name ∈ c.boundNames doc ↔ doc.BindsQuery c.queryMethods name := by
  rw [mem_boundNames, Document.BindsQuery]
  refine exists_congr fun p => and_congr_right fun _ => ?_
  rw [boundName?]
  cases hb : binding? p with
  | none =>
    simp only [reduceCtorEq, false_iff]
    rintro ⟨target, value, hbind, -⟩
    rw [binding?_eq_some.2 hbind] at hb
    cases hb
  | some x =>
    obtain ⟨target, value⟩ := x
    dsimp only
    constructor
    · intro h
      split at h
      · next hcond =>
        obtain ⟨hk, hq⟩ := Bool.and_eq_true_iff.1 hcond
        exact ⟨target, value, binding?_eq_some.1 hb, of_decide_eq_true hk, Option.some.inj h,
          isQuery_iff.1 hq⟩
      · cases h
    · rintro ⟨t, v, hbind, hk, rfl, hq⟩
      obtain ⟨rfl, rfl⟩ := Prod.mk.inj (Option.some.inj (hb.symm.trans (binding?_eq_some.2 hbind)))
      rw [if_pos (by simp [hk, isQuery_iff.2 hq])]

end Cursors

namespace Rule

/-- What the pass does at each place. -/
def cursorMove (queries : List String) (doc : Document) : Place → Step :=
  (renameCursorsFor queries doc).move cursorTable

variable {queries : List String} {doc : Document} {c name : Place}

theorem permits_iff : (cursorsFor queries doc).permits doc c ↔
    doc.IsQuery queries c ∨ c.kind = .identifier ∧ doc.BindsQuery queries (doc.textOf c.node) := by
  have hquery : (cursorsFor queries doc).isQuery doc c ↔ doc.IsQuery queries c :=
    Cursors.isQuery_iff
  have hname : doc.textOf c.node ∈ (cursorsFor queries doc).names ↔
      doc.BindsQuery queries (doc.textOf c.node) := Cursors.mem_boundNames_iff
  rw [Cursors.permits, Bool.or_eq_true, Bool.and_eq_true, decide_eq_true_eq,
    List.contains_iff_mem, hquery, hname]

/-- The rule finds just the cursor calls. -/
theorem found?_cursor_iff {new : Value} (hc : c ∈ doc.places) :
    (renameCursorsFor queries doc).found? cursorTable c = some (name, new) ↔
      doc.IsCursorCall queries c name ∧ new = .text (asyncName (doc.textOf name.node)) := by
  have hdoc : (renameCursorsFor queries doc).doc = doc := rfl
  have htable : cursorTable.get? (.text (doc.textOf name.node)) = _ :=
    MethodTable.get?_ofNames (by decide) _
  constructor
  · intro h
    obtain ⟨hb, receiver, hm, hacc, hget⟩ := Renaming.found?_eq_some h
    rw [hdoc, htable] at hget
    split at hget
    · next hmem =>
      exact ⟨⟨hc, hb, receiver, hm, hmem, permits_iff.1 hacc⟩, (Option.some.inj hget).symm⟩
    · cases hget
  · rintro ⟨⟨-, hb, receiver, hm, hmem, hacc⟩, rfl⟩
    have hacc' : (renameCursorsFor queries doc).accepts receiver = true := permits_iff.2 hacc
    rw [Renaming.found?, hm, hdoc]
    simp [hacc', hb, htable, hmem]

end Rule

theorem Draft.waits_eq_true_iff {d : Draft} {f : Place} : d.waits f = .ok true ↔ d.Waits f := by
  rw [waits, Waits]
  cases hb : f.child? .body with
  | none => simp
  | some body =>
    cases hr : d.render body.node with
    | error e => simp [hr, Except.map]
    | ok text => simp [hr, Except.map, Text.waits_iff]

namespace Renaming

variable {r : Renaming} {table : MethodTable} {c f : Place}

theorem awaitEdit_ne_renameEdit (r : Renaming) (c name : Place) (new : Value) :
    r.doc.awaitEdit c ≠ r.renameEdit name new := by
  intro h
  obtain ha | ha := r.doc.awaitEdit_action c <;> rw [h] at ha <;> cases ha

/-- A renaming awaits the calls that it finds, unless they are awaited already. -/
theorem mem_afterSteps_await : r.doc.awaitEdit c ∈ (r.doc.afterSteps (r.move table)).edits ↔
    c ∈ r.doc.places ∧ (r.found? table c).isSome ∧ c.isAwaited = false := by
  rw [Document.mem_afterSteps]
  constructor
  · rintro ⟨p, hp, he⟩
    rw [move] at he
    cases hx : r.found? table p with
    | none => simp [hx] at he
    | some x =>
      rw [hx] at he
      obtain he | he := List.mem_cons.1 he
      · exact absurd he (awaitEdit_ne_renameEdit r c _ _)
      · obtain ⟨ha, he⟩ := Step.mem_edits_ofAwait.1 he
        have hplace := congrArg Edit.place he
        rw [Document.awaitEdit_place, Document.awaitEdit_place] at hplace
        subst hplace
        exact ⟨hp, by simp [hx], ha⟩
  · rintro ⟨hc, hf, ha⟩
    exact ⟨c, hc, mem_edits_move_of_await hf ha⟩

theorem mem_promoted_move : f ∈ (r.move table c).promoted ↔
    (r.found? table c).isSome ∧ c.isAwaited = false ∧ c.promotion? = some f := by
  rw [move]
  cases r.found? table c with
  | none => simp
  | some x => simp [Step.mem_promoted_ofAwait]

theorem action_ne_async {e : Edit} (he : e ∈ (r.doc.afterSteps (r.move table)).edits) :
    e.action ≠ .insert "async " := by
  obtain ⟨p, -, he⟩ := Document.mem_afterSteps.1 he
  obtain ⟨x, -, rfl⟩ | rfl := mem_edits_move he
  · exact nofun
  · obtain ha | ha := r.doc.awaitEdit_action p <;> simp [ha]

end Renaming

namespace Rule

variable {doc : Document} {queries : List String} {l : List Place} {c f : Place}

theorem exists_found?_iff (hc : c ∈ doc.places) :
    ((renameCursorsFor queries doc).found? cursorTable c).isSome ↔
    ∃ name, doc.IsCursorCall queries c name := by
  rw [Option.isSome_iff_exists]
  constructor
  · rintro ⟨⟨name, new⟩, h⟩
    exact ⟨name, ((found?_cursor_iff hc).1 h).1⟩
  · rintro ⟨name, h⟩
    exact ⟨_, (found?_cursor_iff hc).2 ⟨h, rfl⟩⟩

theorem isReplaced_cursor_iff (hw : doc.WellFormed) {name : Place} (hp : name ∈ doc.places) :
    (doc.afterSteps (cursorMove queries doc)).isReplaced name.node ↔
      ∃ c, doc.IsCursorCall queries c name := by
  refine (Renaming.isReplaced_iff (r := renameCursorsFor queries doc) hw hp).trans ⟨?_, ?_⟩
  · rintro ⟨c, hc, new, h⟩
    exact ⟨c, ((found?_cursor_iff hc).1 h).1⟩
  · rintro ⟨c, h⟩
    exact ⟨c, h.1, _, (found?_cursor_iff h.1).2 ⟨h, rfl⟩⟩

/-- The keywords at the end of the pass await nothing. -/
theorem awaitMark_mem_iff : doc.awaitMark c ∈ (doc.afterPass (cursorMove queries doc) l).edits ↔
    (∃ name, doc.IsCursorCall queries c name) ∧ c.isAwaited = false := by
  rw [← doc.awaitEdit_eq]
  have hsteps : doc.awaitEdit c ∈ (doc.afterSteps (cursorMove queries doc)).edits ↔ _ :=
    Renaming.mem_afterSteps_await (r := renameCursorsFor queries doc)
  rw [Document.mem_afterPass, hsteps]
  constructor
  · rintro (⟨hc, hf, ha⟩ | ⟨f, -, hf⟩)
    · exact ⟨(exists_found?_iff hc).1 hf, ha⟩
    · have hasync := (Document.asyncMark?_eq_some hf).1
      obtain ha | ha := doc.awaitEdit_action c <;> rw [ha] at hasync <;> simp at hasync
  · rintro ⟨⟨name, h⟩, ha⟩
    exact Or.inl ⟨h.1, (exists_found?_iff h.1).2 ⟨name, h⟩, ha⟩

/-- The steps of the pass edit the names of cursor calls and the calls. -/
theorem edits_cursor {e : Edit} (he : e ∈ (doc.afterSteps (cursorMove queries doc)).edits) :
    ∃ c name, doc.IsCursorCall queries c name ∧ (e.place = name ∨ e = doc.awaitMark c) := by
  obtain ⟨p, hp, hmove⟩ := Document.mem_afterSteps.1 he
  obtain ⟨x, hx, rfl⟩ | rfl := Renaming.mem_edits_move hmove
  · exact ⟨p, x.1, ((found?_cursor_iff hp).1 hx).1, Or.inl rfl⟩
  · have hmem : doc.awaitMark p ∈ (doc.afterPass (cursorMove queries doc) []).edits := by
      rw [← doc.awaitEdit_eq]
      exact Document.mem_afterPass.2 (Or.inl he)
    obtain ⟨⟨name, hc⟩, -⟩ := awaitMark_mem_iff.1 hmem
    exact ⟨p, name, hc, Or.inr (doc.awaitEdit_eq p)⟩

theorem beforePromotion_cursor (l : List Place) :
    (doc.afterPass (cursorMove queries doc) l).beforePromotion =
      doc.afterSteps (cursorMove queries doc) :=
  Document.beforePromotion_afterPass
    (fun _ he => Renaming.action_ne_async (r := renameCursorsFor queries doc) he) l

/-- The callback that the late search looks at belongs to a call that the pass rewrites. -/
theorem iteratingCallback?_cursor_iff (hw : doc.WellFormed) (hc : c ∈ doc.places) :
    iteratingCallback? (renameCursorsFor queries doc) cursorTable
      (doc.afterSteps (cursorMove queries doc)) c = some f ↔
      (∃ name, doc.IsCursorCall queries c name ∧ doc.textOf name.node ∈ ["map", "forEach"]) ∧
        Place.firstFunction? c.callArguments = some f ∧ f.isAsync = false := by
  rw [iteratingCallback?_eq_some]
  constructor
  · rintro ⟨receiver, name, hm, -, -, hr, hi, hf, ha⟩
    obtain ⟨c', h⟩ := (isReplaced_cursor_iff hw (Place.memberCall?_mem_places hc hm).2).1 hr
    obtain ⟨-, -, receiver', hm', -⟩ := id h
    -- the replaced name belongs to one call only, so the search and the rewriting speak of the same
    -- call
    rw [Place.eq_of_memberCall? hm' hm] at h
    exact ⟨⟨name, h, List.contains_iff_mem.1 hi⟩, hf, ha⟩
  · rintro ⟨⟨name, h, hi⟩, hf, ha⟩
    have hfound := (found?_cursor_iff hc).2 ⟨h, rfl⟩
    obtain ⟨-, receiver, hm, hacc, hget⟩ := Renaming.found?_eq_some hfound
    have hr := (isReplaced_cursor_iff hw (Place.memberCall?_mem_places hc hm).2).2 ⟨c, h⟩
    exact ⟨receiver, name, hm, hacc, by simp [hget], hr, List.contains_iff_mem.2 hi, hf, ha⟩

/-- The pass asks for just the functions that need the keyword. -/
theorem mem_asked_cursor_iff (hw : doc.WellFormed)
    (hl : waitingCallbacks (renameCursorsFor queries doc)
      (doc.afterSteps (cursorMove queries doc)) = .ok l) :
    f ∈ doc.asked (cursorMove queries doc) l ↔
      f.isAsync = false ∧ (doc.afterPass (cursorMove queries doc) l).NeedsAsync queries f := by
  have hstep (c : Place) : f ∈ (cursorMove queries doc c).promoted ↔ _ :=
    Renaming.mem_promoted_move (r := renameCursorsFor queries doc)
  have hlate : f ∈ l ↔ _ := mem_waitingCallbacks rfl hl
  rw [Document.asked, List.mem_append, List.mem_flatMap, hlate]
  constructor
  · rintro (⟨c, hc, hf⟩ | ⟨c, hc, hf, hwaits⟩)
    · obtain ⟨hfound, ha, hp⟩ := (hstep c).1 hf
      obtain ⟨he, hn⟩ := Place.promotion?_eq_some.1 hp
      exact ⟨hn, .around (awaitMark_mem_iff.2 ⟨(exists_found?_iff hc).1 hfound, ha⟩) he⟩
    · obtain ⟨⟨name, h, hi⟩, hf, hn⟩ := (iteratingCallback?_cursor_iff hw hc).1 hf
      refine ⟨hn, .callback h hi hf ?_⟩
      rw [beforePromotion_cursor]
      exact Draft.waits_eq_true_iff.1 hwaits
  · rintro ⟨hn, @⟨c, hc, hf⟩ | @⟨c, name, h, hi, hf, hwaits⟩⟩
    · obtain ⟨⟨name, h⟩, ha⟩ := awaitMark_mem_iff.1 hc
      refine Or.inl ⟨c, h.1, (hstep c).2 ⟨(exists_found?_iff h.1).2 ⟨name, h⟩, ha, ?_⟩⟩
      exact Place.promotion?_eq_some.2 ⟨hf, hn⟩
    · rw [beforePromotion_cursor] at hwaits
      exact Or.inr ⟨c, h.1, (iteratingCallback?_cursor_iff hw h.1).2 ⟨⟨name, h, hi⟩, hf, hn⟩,
        Draft.waits_eq_true_iff.2 hwaits⟩

/-- None of these functions refuses the keyword. -/
theorem asked_cursor_accepts
    (hl : waitingCallbacks (renameCursorsFor queries doc)
      (doc.afterSteps (cursorMove queries doc)) = .ok l)
    (hf : f ∈ doc.asked (cursorMove queries doc) l) :
    f ∈ doc.places ∧ f.isAsync = false ∧ f.refusesAsync = false := by
  obtain hf | hf := List.mem_append.1 hf
  · obtain ⟨c, hc, hf⟩ := List.mem_flatMap.1 hf
    have hmove : cursorAsync.Move doc c (cursorMove queries doc c) :=
      Renaming.move_move (r := renameCursorsFor queries doc) rfl c
    exact ⟨hmove.promoted_mem_places hc hf, hmove.promoted_accepts hf⟩
  · obtain ⟨c, hc, hi, -⟩ := (mem_waitingCallbacks rfl hl).1 hf
    obtain ⟨hmem, hlit, ha⟩ := isFunctionLiteral_of_iteratingCallback? hi
    exact ⟨Place.callArguments_mem_places hc hmem, ha, Place.refusesAsync_of_isFunctionLiteral hlit⟩

/-- The keywords at the end of the pass replace nothing. -/
theorem isReplaced_afterPass_iff (hw : doc.WellFormed) {name : Place} (hp : name ∈ doc.places) :
    (doc.afterPass (cursorMove queries doc) l).isReplaced name.node ↔
      ∃ c, doc.IsCursorCall queries c name := by
  rw [← isReplaced_cursor_iff hw hp, Draft.isReplaced_iff, Draft.isReplaced_iff]
  constructor
  · rintro ⟨e, he, hid, hr⟩
    obtain he | ⟨f, -, hf⟩ := Document.mem_afterPass.1 he
    · exact ⟨e, he, hid, hr⟩
    · simp [Edit.replacement?, (Document.asyncMark?_eq_some hf).1] at hr
  · rintro ⟨e, he, hid, hr⟩
    exact ⟨e, Document.mem_afterPass.2 (Or.inl he), hid, hr⟩

/-- A cursor call gets the name with `Async` behind it. -/
theorem replacement?_cursor (hw : doc.WellFormed) {name : Place}
    (h : doc.IsCursorCall queries c name) :
    (doc.afterPass (cursorMove queries doc) l).replacement? name.id =
      some (.literal (.text (doc.textOf name.node ++ "Async"))) := by
  have hname : name ∈ doc.places := by
    obtain ⟨hc, -, receiver, hm, -⟩ := h
    exact (Place.memberCall?_mem_places hc hm).2
  obtain ⟨r, hr⟩ := Option.isSome_iff_exists.1
    ((isReplaced_afterPass_iff (l := l) hw hname).2 ⟨c, h⟩)
  have hr' : (doc.afterPass (cursorMove queries doc) l).replacement? name.id = some r := hr
  rw [hr']
  obtain ⟨e, he, hid, ha⟩ := Draft.exists_of_replacement? hr'
  obtain he | ⟨f, -, hf⟩ := Document.mem_afterPass.1 he
  · obtain ⟨p, hp, he⟩ := Document.mem_afterSteps.1 he
    obtain ⟨x, hx, rfl⟩ | rfl := Renaming.mem_edits_move he
    · obtain ⟨hcall, hnew⟩ := (found?_cursor_iff hp).1 hx
      obtain ⟨-, receiver, hm, -⟩ := Renaming.found?_eq_some hx
      have hsame := hw.place_eq_of_id (Place.memberCall?_mem_places hp hm).2 hname hid
      rw [hsame] at hnew
      have htext : x.2 = .text (doc.textOf name.node ++ "Async") := hnew
      rw [← htext]
      injection ha with ha
      rw [ha]
    · obtain hact | hact := doc.awaitEdit_action p <;>
        exact absurd (ha.symm.trans hact) (by simp)
  · rw [(Document.asyncMark?_eq_some hf).1] at ha
    cases ha

end Rule

theorem Draft.NeedsAsync.isFunctionLike {d : Draft} {queries : List String} {f : Place}
    (h : d.NeedsAsync queries f) : f.isFunctionLike := by
  cases h with
  | around hc hf => exact Place.isFunctionLike_of_enclosingFunction? hf
  | callback hc hi hf hw => exact Place.isFunctionLike_of_isFunctionLiteral (List.find?_some hf)

/-- Whichever methods count as queries, the pass succeeds. It puts `Async` behind the names of the
cursor calls, awaits those of them that are not awaited yet, and touches no other node but for
keywords. Each function that needs the keyword gets it once, and no other function does. -/
theorem Rule.cursorAsync_promotes_iff {pass : Pass} {queries : List String}
    (ho : pass.Queries queries) (hw : pass.doc.WellFormed) (hm : pass.doc.MethodsNamed) :
    ∃ d k, (cursorAsync.draft pass).value = .ok (d, k) ∧ d.doc = pass.doc ∧
      (∀ p ∈ pass.doc.places, d.isReplaced p.node ↔ ∃ c, pass.doc.IsCursorCall queries c p) ∧
      (∀ c name, pass.doc.IsCursorCall queries c name → d.replacement? name.id =
        some (.literal (.text (pass.doc.textOf name.node ++ "Async")))) ∧
      (∀ c, pass.doc.awaitMark c ∈ d.edits ↔
        (∃ name, pass.doc.IsCursorCall queries c name) ∧ c.isAwaited = false) ∧
      (∀ e ∈ d.beforePromotion.edits, ∃ c name, pass.doc.IsCursorCall queries c name ∧
        (e.place = name ∨ e = pass.doc.awaitMark c)) ∧
      ∃ fs : List Place, (fs.map Place.id).Nodup ∧
        d.edits = d.beforePromotion.edits ++ fs.filterMap pass.doc.asyncMark? ∧
        (∀ f ∈ fs, f.asyncAnchor?.isSome) ∧ ∀ f, f ∈ fs ↔ f.isAsync = false ∧
        d.NeedsAsync queries f := by
  obtain ⟨l, hl⟩ := Renaming.exists_waitingCallbacks (r := renameCursorsFor queries pass.doc) rfl hw
  have hasked {f : Place} : f ∈ pass.doc.asked (cursorMove queries pass.doc) l ↔ _ :=
    mem_asked_cursor_iff hw hl
  have hplaces : ∀ f ∈ pass.doc.asked (cursorMove queries pass.doc) l, f ∈ pass.doc.places :=
    fun f hf => (asked_cursor_accepts hl hf).1
  have hqueue {f : Place} : f ∈ pass.doc.queue (cursorMove queries pass.doc) l ↔ _ :=
    (Queue.mem_addAll_iff hw hplaces).trans hasked
  have hanchored : ∀ f ∈ pass.doc.queue (cursorMove queries pass.doc) l, f.asyncAnchor?.isSome := by
    intro f hf
    have hmem := (Queue.mem_addAll_iff hw hplaces).1 hf
    exact Place.asyncAnchor?_isSome (hqueue.1 hf).2.isFunctionLike (hm f (hplaces f hmem))
  have hdoes : cursorAsync.Does pass (cursorMove queries pass.doc) _ :=
    cursorAsync_does_for ho.methods ho.queries
  obtain ⟨k, hk⟩ := hdoes.exists_draft hl (fun f hf => (asked_cursor_accepts hl hf).2)
    (List.all_eq_true.2 hanchored)
  refine ⟨_, k, hk, rfl, fun p hp => isReplaced_afterPass_iff hw hp,
    fun c name h => replacement?_cursor hw h, fun c => awaitMark_mem_iff, ?_,
    pass.doc.queue (cursorMove queries pass.doc) l, Queue.nodup_addAll List.nodup_nil, ?_,
    hanchored, fun f => hqueue⟩
  · intro e he
    rw [beforePromotion_cursor] at he
    exact edits_cursor he
  · rw [beforePromotion_cursor]
    rfl

namespace Feed

open Sketch

/-- A function goes through a cursor that is bound below it. What the last line goes through is no
cursor. -/
def doc : Document :=
  program
    [functionNamed [] "f" (block [.body] " " " " [statement [] (callOn [] "links" "forEach"
        [functionWith [] [] (block [.body] " " " " [statement [] (call [] "saveAsync" [])])])]),
      gap "\n",
      statement [] (tree "assignment_expression" []
        [leaf "identifier" [.left] "links", gap " ", token "=", gap " ",
          callOn [.right] "Links" "search" []]),
      gap "\n", statement [] (callOn [] "items" "map" []), gap "\n"]

def pass : Pass :=
  { path := "a.js", doc, options := .ofList [(.text "query_methods", .list [.text "search"])] }

theorem queries : pass.Queries ["search"] := ⟨rfl, rfl⟩

theorem isCursorCall : doc.IsCursorCall ["search"] (doc.placeAt 10) (doc.placeAt 14) := by
  have hcall : doc.placeAt 10 ∈ doc.places ∧ (doc.placeAt 10).barrier?.isNone ∧
      (doc.placeAt 10).memberCall? = some (doc.placeAt 12, doc.placeAt 14) ∧
      doc.textOf (doc.placeAt 14).node = "forEach" ∧ (doc.placeAt 12).kind = .identifier := by
    decide +kernel
  have hbound : doc.placeAt 36 ∈ doc.places ∧ (doc.placeAt 36).kind = .assignment ∧
      (doc.placeAt 36).child? .left = some (doc.placeAt 37) ∧
      (doc.placeAt 36).child? .right = some (doc.placeAt 39) ∧ (doc.placeAt 37).kind = .identifier ∧
      doc.textOf (doc.placeAt 37).node = doc.textOf (doc.placeAt 12).node ∧
      (doc.placeAt 39).memberCall? = some (doc.placeAt 41, doc.placeAt 43) ∧
      doc.textOf (doc.placeAt 43).node = "search" := by
    decide +kernel
  obtain ⟨hc, hb, hm, ht, hk⟩ := hcall
  obtain ⟨hp, hkind, hl, hr, hid, htext, hquery, hsearch⟩ := hbound
  exact ⟨hc, Option.isNone_iff_eq_none.1 hb, _, hm, by simp [ht], Or.inr ⟨hk, _, hp, _, _,
    Or.inr ⟨hkind, hl, hr⟩, hid, htext, _, _, hquery, by simp [hsearch]⟩⟩

def output : String :=
  "async function f() \x7b " ++
    "await links.forEachAsync(async function () \x7b saveAsync(); \x7d); \x7d\n" ++
    "links = Links.search();\nitems.map();\n"

/-- The call with the function around it, its callback, and what the pass writes. -/
theorem findings : (doc.placeAt 10).isAwaited = false ∧
    (doc.placeAt 10).enclosingFunction? = some (doc.placeAt 1) ∧ (doc.placeAt 1).isAsync = false ∧
    doc.textOf (doc.placeAt 14).node = "forEach" ∧
    Place.firstFunction? (doc.placeAt 10).callArguments = some (doc.placeAt 17) ∧
    (doc.placeAt 17).isAsync = false ∧ (doc.placeAt 17).child? .body = some (doc.placeAt 22) ∧
    (Rule.cursorAsync.draft pass).value.toOption.map
        (fun x => (x.1.beforePromotion.render (doc.placeAt 22).node).toOption) =
      some (some "\x7b saveAsync(); \x7d") ∧
    (Rule.cursorAsync.rule.visit pass).value.map Outcome.output = .ok (some output) := by
  decide +kernel

theorem waits : Text.Waits "\x7b saveAsync(); \x7d".toList :=
  (Text.waits_iff _).1 (by decide +kernel)

end Feed

/-- The call is rewritten though the cursor is bound behind it. Both the function around it and its
callback, which calls an `Async` function already, become async. -/
theorem Rule.cursorAsync_promotes_iff_feed :
    Feed.pass.Queries ["search"] ∧ Feed.doc.WellFormed ∧ Feed.doc.MethodsNamed ∧
      Feed.doc.IsCursorCall ["search"] (Feed.doc.placeAt 10) (Feed.doc.placeAt 14) ∧
      (cursorAsync.rule.visit Feed.pass).value.map Outcome.output = .ok (some Feed.output) ∧
      ∃ d k, (cursorAsync.draft Feed.pass).value = .ok (d, k) ∧
        d.replacement? (Feed.doc.placeAt 14).id = some (.literal (.text "forEachAsync")) ∧
        ∃ fs : List Place, d.edits = d.beforePromotion.edits ++ fs.filterMap Feed.doc.asyncMark? ∧
          Feed.doc.placeAt 1 ∈ fs ∧ Feed.doc.placeAt 17 ∈ fs := by
  have hw : Feed.doc.WellFormed := Sketch.wellFormed_program _
  have hm : Feed.doc.MethodsNamed := by
    unfold Document.MethodsNamed
    decide +kernel
  obtain ⟨hawaited, haround, houter, htext, hfirst, hinner, hbody, hrender, houtput⟩ :=
    Feed.findings
  obtain ⟨d, k, hd, hdoc, -, hrenamed, hawait, -, fs, -, hedits, -, hfs⟩ :=
    cursorAsync_promotes_iff Feed.queries hw hm
  have hdoc : d.doc = Feed.doc := hdoc
  have hsome : (d.beforePromotion.render (Feed.doc.placeAt 22).node).toOption =
      some "\x7b saveAsync(); \x7d" := by
    rw [hd] at hrender
    exact Option.some.inj hrender
  have hwaits : d.beforePromotion.Waits (Feed.doc.placeAt 17) := by
    cases hr : d.beforePromotion.render (Feed.doc.placeAt 22).node with
    | error e =>
      rw [hr] at hsome
      cases hsome
    | ok text =>
      rw [hr] at hsome
      obtain rfl := Option.some.inj hsome
      exact ⟨_, _, hbody, hr, Feed.waits⟩
  have hcall := Feed.isCursorCall
  have hnew : d.replacement? (Feed.doc.placeAt 14).id = some (.literal (.text "forEachAsync")) := by
    have htext : Feed.pass.doc.textOf (Feed.doc.placeAt 14).node = "forEach" := htext
    rw [hrenamed _ _ hcall, htext]
    rfl
  refine ⟨Feed.queries, hw, hm, hcall, houtput, d, k, hd, hnew, fs, hedits, (hfs _).2 ⟨houter, ?_⟩,
    (hfs _).2 ⟨hinner, ?_⟩⟩
  · have hadded : d.doc.awaitMark (Feed.doc.placeAt 10) ∈ d.edits := by
      rw [hdoc]
      exact (hawait _).2 ⟨⟨_, hcall⟩, hawaited⟩
    exact .around hadded haround
  · have hsame : d.doc.IsCursorCall ["search"] (Feed.doc.placeAt 10) (Feed.doc.placeAt 14) := by
      rw [hdoc]
      exact hcall
    exact .callback hsame (by simp [hdoc, htext]) hfirst hwaits

end Asyncify
