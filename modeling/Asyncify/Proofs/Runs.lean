import Asyncify.Proofs.Lists
import Asyncify.Proofs.WellFormed
import Asyncify.Rule

/-! What a run ends with, and the draft that a traversal leaves: first the edits of its steps, then
one keyword for each function in the queue. -/
namespace Asyncify

namespace Run

variable {ε α β : Type}

/-- What a run ends with, without its trace. -/
def value (m : Run ε α) : Except ε α := (ExceptT.run m).value

@[simp] theorem value_pure (a : α) : value (pure a : Run ε α) = .ok a := rfl

@[simp] theorem value_throw (e : ε) : value (throw e : Run ε α) = .error e := rfl

@[simp] theorem value_bind (m : Run ε α) (f : α → Run ε β) :
    value (m >>= f) = (value m).bind fun a => value (f a) := by
  show (ExceptT.run (m >>= f)).value = _
  rw [ExceptT.run_bind, Traced.value_bind, value]
  cases (ExceptT.run m).value <;> rfl

@[simp] theorem value_lift (m : Traced α) : value (liftM m : Run ε α) = .ok m.value := rfl

@[simp] theorem value_liftExcept (r : Except ε α) : value (liftM r : Run ε α) = r := rfl

theorem value_mapM_eq (f : α → Run ε β) (l : List α) :
    value (l.mapM f) = l.mapM fun a => value (f a) := by
  induction l with
  | nil => rfl
  | cons a l ih =>
    rw [List.mapM_cons, List.mapM_cons, value_bind]
    simp only [value_bind, ih, value_pure]
    rfl

theorem run_tryCatch_ok {m : Run ε α} {a : α} {es : List Event} (h : m.run = ⟨.ok a, es⟩)
    (handle : ε → Run ε α) : (tryCatch m handle).run = ⟨.ok a, es⟩ := by
  obtain rfl : m = ExceptT.mk ⟨.ok a, es⟩ := h
  exact congrArg (Traced.mk _) (List.append_nil es)

theorem run_tryCatch_error {m : Run ε α} {e : ε} {es : List Event} (h : m.run = ⟨.error e, es⟩)
    (handle : ε → Run ε α) :
    (tryCatch m handle).run = ⟨(handle e).run.value, es ++ (handle e).run.events⟩ := by
  obtain rfl : m = ExceptT.mk ⟨.error e, es⟩ := h
  rfl

/-- Steps that all succeed give the list of their results. -/
theorem value_mapM {f : α → Run ε β} {g : α → β} {l : List α}
    (h : ∀ a ∈ l, value (f a) = .ok (g a)) : value (l.mapM f) = .ok (l.map g) := by
  rw [value_mapM_eq, Except.mapM_eq_ok_iff, List.map_map]
  exact List.map_congr_left h

end Run

namespace Queue

variable {q : Queue} {ps : List Place} {p : Place}

theorem mem_add {a : Place} (h : p ∈ q.add a) : p ∈ q ∨ p = a := by
  rw [add] at h
  split at h
  · exact Or.inl h
  · simpa using h

theorem mem_addAll (h : p ∈ q.addAll ps) : p ∈ q ∨ p ∈ ps := by
  induction ps generalizing q with
  | nil => exact Or.inl h
  | cons a ps ih =>
    obtain h | h := ih h
    · obtain h | rfl := mem_add h
      · exact Or.inl h
      · exact Or.inr List.mem_cons_self
    · exact Or.inr (List.mem_cons_of_mem _ h)

theorem subset_add {a : Place} (h : p ∈ q) : p ∈ q.add a := by
  rw [add]
  split
  · exact h
  · exact List.mem_append_left _ h

theorem exists_id_add (q : Queue) (a : Place) : ∃ x ∈ q.add a, x.id = a.id := by
  rw [add]
  split
  · next h =>
    obtain ⟨x, hx, he⟩ := List.any_eq_true.1 h
    exact ⟨x, hx, by simpa using he⟩
  · exact ⟨a, List.mem_append_right _ List.mem_cons_self, rfl⟩

theorem subset_addAll (ps : List Place) (h : p ∈ q) : p ∈ q.addAll ps := by
  induction ps generalizing q with
  | nil => exact h
  | cons a ps ih => exact ih (subset_add h)

theorem exists_id_addAll (h : p ∈ ps) : ∃ x ∈ q.addAll ps, x.id = p.id := by
  induction ps generalizing q with
  | nil => cases h
  | cons a ps ih =>
    obtain rfl | h := List.mem_cons.1 h
    · obtain ⟨x, hx, he⟩ := exists_id_add q p
      exact ⟨x, subset_addAll ps hx, he⟩
    · exact ih h

theorem nodup_add {a : Place} (h : (q.map Place.id).Nodup) : ((q.add a).map Place.id).Nodup := by
  rw [add]
  split
  · exact h
  · next hc =>
    have hn : ∀ x ∈ q, x.id ≠ a.id := by simpa [contains] using hc
    rw [List.map_append, List.nodup_append]
    refine ⟨h, by simp, ?_⟩
    intro i hi j hj
    obtain ⟨x, hx, rfl⟩ := List.mem_map.1 hi
    obtain rfl : j = a.id := by simpa using hj
    exact hn x hx

/-- No function is queued twice. -/
theorem nodup_addAll (h : (q.map Place.id).Nodup) : ((q.addAll ps).map Place.id).Nodup := by
  induction ps generalizing q with
  | nil => exact h
  | cons a ps ih => exact ih (nodup_add h)

/-- The queue holds just the places that were added to it. -/
theorem mem_addAll_iff {doc : Document} (hw : doc.WellFormed) (hps : ∀ p ∈ ps, p ∈ doc.places) :
    p ∈ addAll [] ps ↔ p ∈ ps := by
  constructor
  · intro h
    obtain h | h := mem_addAll h
    · cases h
    · exact h
  · intro h
    obtain ⟨x, hx, he⟩ := exists_id_addAll (q := []) h
    obtain hq | hx' := mem_addAll hx
    · cases hq
    · rwa [← hw.place_eq_of_id (hps x hx') (hps p h) he]

end Queue

namespace Place

/-- Getters and setters are never made async. -/
def refusesAsync (f : Place) : Bool :=
  (f.asyncTarget?.filter fun t => t.kind = .method && t.isAccessor).isSome

end Place

namespace Document

variable (doc : Document)

/-- The edit that puts the keyword before a function. -/
def asyncMark? (f : Place) : Option Edit :=
  f.asyncAnchor?.map fun a => ⟨a, .insert "async ", "Made " ++ doc.functionLabel f ++ " async"⟩

/-- The edit that awaits a call, in parentheses where it needs them. -/
def awaitMark (c : Place) : Edit :=
  ⟨c, if doc.needsParentheses c then .wrap "(await " ")" else .insert "await ", "Added await"⟩

theorem awaitEdit_eq (c : Place) : doc.awaitEdit c = doc.awaitMark c := by
  rw [awaitEdit, awaitMark]
  split <;> rfl

theorem value_asyncEdit {f : Place} (ha : f.isAsync = false) (hr : f.refusesAsync = false) :
    (doc.asyncEdit f).value =
      match doc.asyncMark? f with
      | some e => .ok (some e)
      | none => .error .missingNode := by
  have hn : (f.asyncTarget?.filter fun t => t.kind = .method && t.isAccessor) = none := by
    rw [Place.refusesAsync, Option.isSome_eq_false_iff, Option.isNone_iff_eq_none] at hr
    exact hr
  rw [asyncEdit, ha, hn, asyncMark?]
  cases f.asyncAnchor? <;> rfl

end Document

theorem Draft.isReplaced_iff (d : Draft) (n : Node) :
    d.isReplaced n ↔ ∃ e ∈ d.edits, e.node.id = n.id ∧ e.replacement?.isSome := by
  rw [isReplaced, replacement?, List.getLast?_isSome, ne_eq, List.filterMap_eq_nil_iff, editsOf]
  simp [Option.isSome_iff_ne_none]

namespace Draft

/-- Functions that may become async get the keyword one after the other, unless one of them has no
place for it. -/
theorem value_promoteAll (d : Draft) {fs : List Place}
    (hf : ∀ f ∈ fs, f.isAsync = false ∧ f.refusesAsync = false) :
    (d.promoteAll fs).value.map Prod.fst =
      if fs.all fun f => f.asyncAnchor?.isSome then
        .ok (d.recordAll (fs.filterMap d.doc.asyncMark?))
      else .error .missingNode := by
  induction fs generalizing d with
  | nil => simp [promoteAll, Except.map, recordAll]
  | cons f fs ih =>
    obtain ⟨ha, hr⟩ := hf f List.mem_cons_self
    have hrest : ∀ f ∈ fs, f.isAsync = false ∧ f.refusesAsync = false :=
      fun g hg => hf g (List.mem_cons_of_mem _ hg)
    cases hm : f.asyncAnchor? with
    | none =>
      rw [promoteAll, Run.value_bind, d.doc.value_asyncEdit ha hr]
      simp [Document.asyncMark?, hm, Except.bind, Except.map]
    | some a =>
      obtain ⟨e, he⟩ : ∃ e, d.doc.asyncMark? f = some e := by simp [Document.asyncMark?, hm]
      have hstep : (d.promoteAll (f :: fs)).value.map Prod.fst =
          ((d.record e).promoteAll fs).value.map Prod.fst := by
        rw [promoteAll, Run.value_bind, d.doc.value_asyncEdit ha hr, he]
        simp only [Except.bind, Run.value_bind]
        cases ((d.record e).promoteAll fs).value <;> rfl
      rw [hstep, ih (d.record e) hrest]
      simp [hm, he, record, recordAll]

end Draft

namespace Document

variable (doc : Document) (g : Place → Step)

/-- The draft once every step is taken, before any function becomes async. -/
def afterSteps : Draft := { doc, edits := doc.places.flatMap fun p => (g p).edits }

/-- The functions that the steps ask for, then those found late. -/
def asked (late : List Place) : List Place := doc.places.flatMap (fun p => (g p).promoted) ++ late

def queue (late : List Place) : Queue := Queue.addAll [] (doc.asked g late)

def afterPass (late : List Place) : Draft :=
  (doc.afterSteps g).recordAll ((doc.queue g late).filterMap doc.asyncMark?)

end Document

namespace Traversal

variable {t : Traversal} {doc : Document} {g : Place → Step}

theorem value_run_eq_bind (hg : ∀ p ∈ doc.places, (t.step p).value = .ok (g p)) :
    (t.run doc).value = (t.late (doc.afterSteps g)).bind fun late =>
      ((doc.afterSteps g).promoteAll (doc.queue g late)).value := by
  rw [run, Run.value_bind, Run.value_mapM hg]
  simp only [Except.bind, Run.value_bind, Run.value_liftExcept, List.flatMap_map]
  rfl

/-- A traversal whose steps and late search succeed leaves the edits of the steps in document order,
followed by the keywords. -/
theorem value_run {late : List Place} (hg : ∀ p ∈ doc.places, (t.step p).value = .ok (g p))
    (hl : t.late (doc.afterSteps g) = .ok late)
    (hq : ∀ f ∈ doc.asked g late, f.isAsync = false ∧ f.refusesAsync = false) :
    (t.run doc).value.map Prod.fst =
      if (doc.queue g late).all fun f => f.asyncAnchor?.isSome then .ok (doc.afterPass g late)
      else .error .missingNode := by
  rw [value_run_eq_bind hg, hl, Except.bind, Draft.value_promoteAll]
  · rfl
  · intro f hf
    obtain hf | hf := Queue.mem_addAll hf
    · cases hf
    · exact hq f hf

end Traversal
end Asyncify
