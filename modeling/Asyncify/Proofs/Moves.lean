import Asyncify.Proofs.Passes

/-! Every step that a built-in rule can take, and the draft that a pass of such steps leaves. -/
namespace Asyncify

namespace Place

variable {p f a : Place} {doc : Document}

theorem promotion?_eq_some :
    p.promotion? = some f ↔ p.enclosingFunction? = some f ∧ f.isAsync = false := by
  simp [promotion?, Option.filter_eq_some_iff]

theorem kind_of_isFunctionLiteral (h : f.isFunctionLiteral) :
    f.kind = .functionExpression ∨ f.kind = .arrowFunction := by
  rw [isFunctionLiteral] at h
  cases hk : f.kind <;> simp [hk, Kind.isFunctionLiteral] at h ⊢

theorem isFunctionLike_of_isFunctionLiteral (h : f.isFunctionLiteral) : f.isFunctionLike := by
  rw [isFunctionLike, Kind.isFunction_of_isFunctionLiteral h, Bool.true_or]

theorem refusesAsync_of_isFunctionLiteral (h : f.isFunctionLiteral) : f.refusesAsync = false := by
  rcases kind_of_isFunctionLiteral h with hk | hk <;>
    simp [refusesAsync, asyncTarget?, hk, Option.filter]

theorem exists_value_of_isFunctionLike (hk : f.kind = .property) (hf : f.isFunctionLike) :
    ∃ v, f.child? .value = some v ∧ v.isFunctionLiteral := by
  have hv : ((f.child? .value).map isFunctionLiteral).getD false = true := by
    simpa [isFunctionLike, hk, Kind.isFunction] using hf
  cases hc : f.child? .value with
  | none => simp [hc] at hv
  | some v => exact ⟨v, rfl, by simpa [hc] using hv⟩

theorem refusesAsync_of_verdict (hl : f.isFunctionLike) (hv : ∀ b, f.verdict ≠ .refused b) :
    f.refusesAsync = false := by
  rw [verdict, if_pos hl] at hv
  split at hv
  · exact absurd rfl (hv _)
  split at hv
  · exact absurd rfl (hv _)
  rw [refusesAsync]
  cases ht : f.asyncTarget? with
  | none => rfl
  | some t =>
    rw [ht] at hv
    by_cases hr : (t.kind = .method && t.isAccessor) = true
    · simp [hr] at hv
    · simp [Option.filter, hr]

/-- Where `await` may stand, the function around it is no getter or setter. -/
theorem refusesAsync_of_barrier? (hb : p.barrier? = none) (hf : p.enclosingFunction? = some f) :
    f.refusesAsync = false := by
  rw [barrier?] at hb
  rw [enclosingFunction?] at hf
  generalize p.ancestors = qs at hb hf
  induction qs with
  | nil => cases hf
  | cons q qs ih =>
    rw [firstBarrier?] at hb
    by_cases hq : q.isFunctionLike
    · rw [List.find?_cons_of_pos hq] at hf
      cases hf
      refine refusesAsync_of_verdict hq fun b hv => ?_
      rw [hv] at hb
      cases hb
    · rw [List.find?_cons_of_neg hq] at hf
      cases hv : q.verdict with
      | undecided => exact ih (by rwa [hv] at hb) hf
      | refused b => rw [hv] at hb; cases hb
      | allowed =>
        have hn : q.verdict ≠ .allowed := by
          rw [verdict]
          split
          · simp
          · split <;> simp
        exact absurd hv hn

theorem enclosingFunction?_mem_places (hp : p ∈ doc.places) (hf : p.enclosingFunction? = some f) :
    f ∈ doc.places :=
  Document.ancestor_mem_places hp (List.mem_of_find?_eq_some hf)

theorem isFunctionLike_of_enclosingFunction? (hf : p.enclosingFunction? = some f) :
    f.isFunctionLike :=
  List.find?_some hf

theorem memberCall?_eq_some {receiver name : Place} :
    p.memberCall? = some (receiver, name) ↔
      p.kind = .call ∧ ∃ callee, p.child? .function = some callee ∧ callee.kind = .member ∧
        callee.child? .object = some receiver ∧ callee.child? .property = some name ∧
        name.kind = .propertyName := by
  rw [memberCall?]
  constructor
  · intro h
    repeat' split at h
    all_goals simp_all
  · rintro ⟨hp, callee, hc, hk, ho, hn, hnk⟩
    simp [hp, hc, hk, ho, hn, hnk]

theorem memberCall?_mem_places {receiver name : Place} (hp : p ∈ doc.places)
    (h : p.memberCall? = some (receiver, name)) : receiver ∈ doc.places ∧ name ∈ doc.places := by
  obtain ⟨-, callee, hf, -, ho, hn, -⟩ := memberCall?_eq_some.1 h
  have hc := Document.child_mem_places hp (mem_children_of_child? hf)
  exact ⟨Document.child_mem_places hc (mem_children_of_child? ho),
    Document.child_mem_places hc (mem_children_of_child? hn)⟩

/-- The name of the method leads back to the call. -/
theorem eq_of_memberCall? {q receiver receiver' name : Place}
    (hp : p.memberCall? = some (receiver, name)) (hq : q.memberCall? = some (receiver', name)) :
    p = q := by
  obtain ⟨-, c, hpc, -, -, hcn, -⟩ := memberCall?_eq_some.1 hp
  obtain ⟨-, c', hqc, -, -, hcn', -⟩ := memberCall?_eq_some.1 hq
  have hc : c = c' := Option.some.inj ((parent?_of_child? hcn).symm.trans (parent?_of_child? hcn'))
  subst hc
  exact Option.some.inj ((parent?_of_child? hpc).symm.trans (parent?_of_child? hqc))

/-- The keyword goes before the function itself, the value of a property, or a part of a method. -/
theorem asyncAnchor?_mem_places (hf : f ∈ doc.places) (ha : f.asyncAnchor? = some a) :
    a ∈ doc.places := by
  have htarget {t : Place} (ht : f.asyncTarget? = some t) : t ∈ doc.places := by
    rw [asyncTarget?] at ht
    split at ht
    · exact Document.child_mem_places hf (mem_children_of_child? ht)
    · rwa [← Option.some.inj ht]
  rw [asyncAnchor?] at ha
  cases ht : f.asyncTarget? with
  | none => simp [ht] at ha
  | some t =>
    have hm := htarget ht
    rw [ht] at ha
    dsimp only at ha
    split at ha
    · cases hs : t.children.find? fun c => c.node.symbol = "*" with
      | some b =>
        rw [hs] at ha
        cases ha
        exact Document.child_mem_places hm (List.mem_of_find?_eq_some hs)
      | none =>
        rw [hs] at ha
        exact Document.child_mem_places hm (mem_children_of_child? ha)
    · rwa [← Option.some.inj ha]

theorem asyncAnchor?_isSome (hf : f.isFunctionLike)
    (hm : f.kind = .method → (f.child? .name).isSome) : f.asyncAnchor?.isSome := by
  by_cases hp : f.kind = .property
  · obtain ⟨v, hv, hl⟩ := exists_value_of_isFunctionLike hp hf
    rcases kind_of_isFunctionLiteral hl with hk | hk <;>
      simp [asyncAnchor?, asyncTarget?, hp, hv, hk]
  · have ht : f.asyncTarget? = some f := by simp [asyncTarget?, hp]
    rw [asyncAnchor?, ht]
    dsimp only
    split
    · next hk =>
      obtain ⟨n, hn⟩ := Option.isSome_iff_exists.1 (hm hk)
      rw [hn]
      cases f.children.find? fun c => c.node.symbol = "*" <;> rfl
    · rfl

/-- An argument stands below the list of arguments, which stands below the call. -/
theorem exists_of_mem_callArguments (ha : a ∈ p.callArguments) :
    ∃ args, p.child? .arguments = some args ∧ a ∈ args.children := by
  rw [callArguments] at ha
  cases hc : p.child? .arguments with
  | none => simp [hc] at ha
  | some args =>
    rw [hc] at ha
    exact ⟨args, rfl, List.mem_of_mem_filter (List.mem_of_mem_filter ha)⟩

theorem callArguments_mem_places (hp : p ∈ doc.places) (ha : a ∈ p.callArguments) :
    a ∈ doc.places := by
  obtain ⟨args, hargs, ha⟩ := exists_of_mem_callArguments ha
  have hp' := Document.child_mem_places hp (mem_children_of_child? hargs)
  exact Document.child_mem_places hp' ha

end Place

/-- What a rule can do at a place: nothing, rename a call and await it or fold it with its callback,
await a subscription, rename a package, or ask for a route handler. -/
inductive Sweep.Move (s : Sweep) (doc : Document) (p : Place) : Step → Prop
  | rest : s.Move doc p {}
  | rename {receiver name : Place} {new : Value} {why : String}
      (hm : p.memberCall? = some (receiver, name)) (hb : p.barrier? = none) :
      s.Move doc p (⟨[⟨name, .replace (.literal new), why⟩], []⟩ ++ Step.ofAwait doc p)
  | fold {receiver name : Place} {new : Value} {why : String} {indent : Except Fault String}
      {e : Edit}
      (hm : p.memberCall? = some (receiver, name)) (hb : p.barrier? = none)
      (he : doc.foldMark? p indent = some e) :
      s.Move doc p (⟨[⟨name, .replace (.literal new), why⟩], []⟩ ++ ⟨[e], p.promotion?.toList⟩)
  | subscribe {receiver name : Place} (hm : p.memberCall? = some (receiver, name))
      (hb : p.barrier? = none) : s.Move doc p (Step.ofAwait doc p)
  | package {fragment : Place} (hf : Rule.oldPackageName? doc p = some fragment) :
      s.Move doc p ⟨[Rule.packageEdit fragment], []⟩
  | handler (hs : s = Rule.fastRenderAsync) (hr : Rule.isOnAllRoutes doc p) :
      s.Move doc p
        { promoted := (p.callArguments.head?.filter fun f => f.isFunctionLiteral &&
          !f.isAsync).toList }

namespace Renaming

variable {r : Renaming} {table : MethodTable} {p : Place} {x : Place × Value}

theorem found?_eq_some (h : r.found? table p = some x) :
    p.barrier? = none ∧ ∃ receiver, p.memberCall? = some (receiver, x.1) ∧ r.accepts receiver ∧
      table.get? (.text (r.doc.textOf x.1.node)) = some x.2 := by
  rw [found?] at h
  cases hm : p.memberCall? with
  | none => simp [hm] at h
  | some c =>
    rw [hm] at h
    dsimp only at h
    split at h
    · next ha =>
      obtain ⟨ha, hb⟩ := Bool.and_eq_true_iff.1 ha
      obtain ⟨new, hn, rfl⟩ := Option.map_eq_some_iff.1 h
      exact ⟨Option.isNone_iff_eq_none.1 hb, c.1, rfl, ha, hn⟩
    · cases h

theorem mem_edits_move_of_await (hf : (r.found? table p).isSome) (ha : p.isAwaited = false) :
    r.doc.awaitEdit p ∈ (r.move table p).edits := by
  obtain ⟨x, hx⟩ := Option.isSome_iff_exists.1 hf
  have he : r.doc.awaitEdit p ∈ (Step.ofAwait r.doc p).edits := by simp [Step.ofAwait, ha]
  simp [move, hx, he]

theorem mem_edits_move {e : Edit} (he : e ∈ (r.move table p).edits) :
    (∃ x, r.found? table p = some x ∧ e = r.renameEdit x.1 x.2) ∨ e = r.doc.awaitEdit p := by
  rw [move] at he
  cases hx : r.found? table p with
  | none => simp [hx] at he
  | some x =>
    rw [hx] at he
    obtain he | he := List.mem_cons.1 he
    · exact Or.inl ⟨x, rfl, he⟩
    · rw [Step.ofAwait] at he
      split at he
      · cases he
      · exact Or.inr (List.mem_singleton.1 he)

theorem move_move {s : Sweep} {doc : Document} (hr : r.doc = doc) (p : Place) :
    s.Move doc p (r.move table p) := by
  subst hr
  rw [move]
  cases h : r.found? table p with
  | none => exact .rest
  | some x =>
    obtain ⟨hb, receiver, hm, -, -⟩ := found?_eq_some h
    exact .rename hm hb

end Renaming

namespace Rule

variable {r : Renaming} {table : MethodTable} {s : Sweep}

theorem callMove_move {indent : Except Fault String} {doc : Document} (hr : r.doc = doc)
    (p : Place) :
    s.Move doc p (callMove r table indent p) := by
  subst hr
  rw [callMove]
  cases h : r.found? table p with
  | none => exact .rest
  | some x =>
    obtain ⟨hb, receiver, hm, -, -⟩ := Renaming.found?_eq_some h
    cases he : r.doc.foldMark? p indent with
    | none => exact .rename hm hb
    | some e => exact .fold hm hb he

theorem mem_edits_callMove_of_fold {indent : Except Fault String} {p : Place} {e : Edit}
    (hf : (r.found? table p).isSome) (he : r.doc.foldMark? p indent = some e) :
    e ∈ (callMove r table indent p).edits := by
  obtain ⟨x, hx⟩ := Option.isSome_iff_exists.1 hf
  simp [callMove, hx, he]

theorem mem_edits_callMove_of_await {indent : Except Fault String} {p : Place}
    (hf : (r.found? table p).isSome) (hn : (r.doc.foldMark? p indent).isNone)
    (ha : p.isAwaited = false) : r.doc.awaitEdit p ∈ (callMove r table indent p).edits := by
  obtain ⟨x, hx⟩ := Option.isSome_iff_exists.1 hf
  have hm : r.doc.foldMark? p indent = none := Option.isNone_iff_eq_none.1 hn
  have he : r.doc.awaitEdit p ∈ (Step.ofAwait r.doc p).edits := by simp [Step.ofAwait, ha]
  simp [callMove, hx, hm, he]

theorem rolesMove_move {doc : Document} (hr : r.doc = doc) (p : Place) :
    s.Move doc p (rolesMove r table p) := by
  subst hr
  rw [rolesMove]
  cases h : oldPackageName? r.doc p with
  | none => exact Renaming.move_move rfl p
  | some fragment => exact .package h

theorem routeMove_move (doc : Document) (p : Place) :
    fastRenderAsync.Move doc p (routeMove doc p) := by
  rw [routeMove]
  split
  · next h => exact .handler rfl h
  · split
    · next h =>
      simp only [Bool.and_eq_true, Option.isNone_iff_eq_none] at h
      obtain ⟨⟨hs, -⟩, hb⟩ := h
      cases hm : p.memberCall? with
      | none => simp [isSubscribe, hm] at hs
      | some c => exact .subscribe hm hb
    · exact .rest

end Rule

namespace Step

variable {doc : Document} {p f : Place} {e : Edit}

theorem mem_edits_ofAwait :
    e ∈ (ofAwait doc p).edits ↔ p.isAwaited = false ∧ e = doc.awaitEdit p := by
  rw [ofAwait]
  cases p.isAwaited <;> simp

theorem mem_promoted_ofAwait :
    f ∈ (ofAwait doc p).promoted ↔ p.isAwaited = false ∧ p.promotion? = some f := by
  rw [ofAwait]
  cases p.isAwaited <;> simp

end Step

namespace Sweep

variable {s : Sweep} {doc : Document} {p f : Place} {step : Step}

/-- An edit of a step renames, or it awaits the call at the place in one of the two ways. In these
the step also asks for the function around the call. -/
theorem Move.edit (h : s.Move doc p step) {e : Edit} (he : e ∈ step.edits) :
    (∃ new, e.action = .replace (.literal new)) ∨
      ((e = doc.awaitEdit p ∨ p.memberCall?.isSome ∧ ∃ indent, doc.foldMark? p indent = some e) ∧
        ∀ f, p.promotion? = some f → f ∈ step.promoted) := by
  cases h with
  | rest => cases he
  | rename hm hb =>
    rw [Step.edits_append, List.singleton_append, List.mem_cons] at he
    obtain rfl | he := he
    · exact Or.inl ⟨_, rfl⟩
    · obtain ⟨ha, rfl⟩ := Step.mem_edits_ofAwait.1 he
      refine Or.inr ⟨Or.inl rfl, fun f hf => ?_⟩
      rw [Step.promoted_append]
      exact List.mem_append_right _ (Step.mem_promoted_ofAwait.2 ⟨ha, hf⟩)
  | fold hm hb hf =>
    rw [Step.edits_append, List.singleton_append, List.mem_cons] at he
    obtain rfl | he := he
    · exact Or.inl ⟨_, rfl⟩
    · obtain rfl := List.mem_singleton.1 he
      refine Or.inr ⟨Or.inr ⟨by simp [hm], _, hf⟩, fun f hf => ?_⟩
      simp [hf]
  | subscribe hm hb =>
    obtain ⟨ha, rfl⟩ := Step.mem_edits_ofAwait.1 he
    exact Or.inr ⟨Or.inl rfl, fun f hf => Step.mem_promoted_ofAwait.2 ⟨ha, hf⟩⟩
  | package hp =>
    obtain rfl := List.mem_singleton.1 he
    exact Or.inl ⟨_, rfl⟩
  | handler hs hr => cases he

/-- A step asks only for the function around a call that it awaits, where `await` may stand, or for
the handler of all routes. -/
theorem Move.promoted (h : s.Move doc p step) (hf : f ∈ step.promoted) :
    (p.barrier? = none ∧ p.promotion? = some f ∧
        ∃ e ∈ step.edits, e = doc.awaitEdit p ∨ ∃ indent, doc.foldMark? p indent = some e) ∨
      (s = Rule.fastRenderAsync ∧ Rule.isOnAllRoutes doc p ∧ p.callArguments.head? = some f ∧
        f.isFunctionLiteral ∧ f.isAsync = false) := by
  cases h with
  | rest => cases hf
  | rename hm hb =>
    rw [Step.promoted_append, List.nil_append, Step.mem_promoted_ofAwait] at hf
    exact Or.inl ⟨hb, hf.2, doc.awaitEdit p, by simp [Step.mem_edits_ofAwait, hf.1], Or.inl rfl⟩
  | fold hm hb he => exact Or.inl ⟨hb, by simpa using hf, _, by simp, Or.inr ⟨_, he⟩⟩
  | subscribe hm hb =>
    obtain ⟨ha, hf⟩ := Step.mem_promoted_ofAwait.1 hf
    exact Or.inl ⟨hb, hf, doc.awaitEdit p, Step.mem_edits_ofAwait.2 ⟨ha, rfl⟩, Or.inl rfl⟩
  | package hp => cases hf
  | handler hs hr =>
    obtain ⟨hh, hl⟩ := Option.filter_eq_some_iff.1 (Option.mem_toList.1 hf)
    exact Or.inr ⟨hs, hr, hh, by simpa using hl⟩

theorem Move.promoted_accepts (h : s.Move doc p step) (hf : f ∈ step.promoted) :
    f.isAsync = false ∧ f.refusesAsync = false := by
  obtain ⟨hb, hp, -⟩ | ⟨-, -, -, hl, ha⟩ := h.promoted hf
  · obtain ⟨he, ha⟩ := Place.promotion?_eq_some.1 hp
    exact ⟨ha, Place.refusesAsync_of_barrier? hb he⟩
  · exact ⟨ha, Place.refusesAsync_of_isFunctionLiteral hl⟩

theorem Move.promoted_mem_places (h : s.Move doc p step) (hp : p ∈ doc.places)
    (hf : f ∈ step.promoted) : f ∈ doc.places := by
  obtain ⟨-, hf, -⟩ | ⟨-, -, ha, -⟩ := h.promoted hf
  · exact Place.enclosingFunction?_mem_places hp (Place.promotion?_eq_some.1 hf).1
  · exact Place.callArguments_mem_places hp (List.mem_of_mem_head? ha)

end Sweep

namespace Rule

variable {r : Renaming} {table : MethodTable} {d : Draft} {p f : Place}

/-- The callback of a renamed iterating call, if it is not async yet. -/
def iteratingCallback? (r : Renaming) (table : MethodTable) (d : Draft) (p : Place) :
    Option Place :=
  match p.memberCall? with
  | some (receiver, name) =>
    if r.accepts receiver && (table.get? (.text (r.doc.textOf name.node))).isSome &&
        d.isReplaced name.node && iteratingMethods.contains (d.doc.textOf name.node) then
      (Place.firstFunction? p.callArguments).filter fun f => !f.isAsync
    else none
  | none => none

theorem waitingCallback?_eq (h : r.table = .ok table) (d : Draft) (p : Place) :
    waitingCallback? r d p =
      match iteratingCallback? r table d p with
      | none => .ok none
      | some f => (d.waits f).map fun b => if b then some f else none := by
  rw [waitingCallback?, Renaming.candidate?_eq h, iteratingCallback?]
  cases hm : p.memberCall? with
  | none => rfl
  | some c =>
    cases ha : r.accepts c.1 with
    | false => simp [bind, Except.bind, pure, Except.pure, ha]
    | true =>
      cases ht : table.get? (.text (r.doc.textOf c.2.node)) with
      | none => simp [bind, Except.bind, pure, Except.pure, ha, ht]
      | some new =>
        simp only [bind, Except.bind, ha, ht, if_true, Option.bind_some, Option.map_some,
          Option.isSome_some, Bool.true_and]
        cases d.isReplaced c.2.node && iteratingMethods.contains (d.doc.textOf c.2.node) with
        | false => rfl
        | true =>
          cases Place.firstFunction? p.callArguments with
          | none => rfl
          | some f =>
            cases hf : f.isAsync with
            | true => simp [Option.filter, hf, pure, Except.pure]
            | false =>
              cases hd : d.waits f <;>
                simp [Option.filter, hf, hd, Except.map, pure, Except.pure]

theorem iteratingCallback?_eq_some :
    iteratingCallback? r table d p = some f ↔
      ∃ receiver name, p.memberCall? = some (receiver, name) ∧ r.accepts receiver ∧
        (table.get? (.text (r.doc.textOf name.node))).isSome ∧ d.isReplaced name.node ∧
        iteratingMethods.contains (d.doc.textOf name.node) ∧
        Place.firstFunction? p.callArguments = some f ∧ f.isAsync = false := by
  rw [iteratingCallback?]
  cases p.memberCall? with
  | none => simp
  | some c =>
    simp only [Option.some.injEq]
    constructor
    · intro h
      split at h
      · next hc =>
        obtain ⟨h1, h2⟩ := Option.filter_eq_some_iff.1 h
        simp only [Bool.and_eq_true] at hc
        obtain ⟨⟨⟨ha, ht⟩, hr⟩, hi⟩ := hc
        exact ⟨c.1, c.2, rfl, ha, ht, hr, hi, h1, by simpa using h2⟩
      · cases h
    · rintro ⟨receiver, name, rfl, ha, ht, hr, hi, h1, h2⟩
      simp [ha, ht, hr, List.contains_iff_mem.1 hi, h1, h2, Option.filter]

theorem isFunctionLiteral_of_iteratingCallback? (h : iteratingCallback? r table d p = some f) :
    f ∈ p.callArguments ∧ f.isFunctionLiteral ∧ f.isAsync = false := by
  obtain ⟨-, -, -, -, -, -, -, hf, ha⟩ := iteratingCallback?_eq_some.1 h
  exact ⟨List.mem_of_find?_eq_some hf, List.find?_some hf, ha⟩

theorem mem_waitingCallbacks (hr : r.table = .ok table) {l : List Place}
    (h : waitingCallbacks r d = .ok l) :
    f ∈ l ↔ ∃ p ∈ d.doc.places, iteratingCallback? r table d p = some f ∧ d.waits f = .ok true := by
  rw [waitingCallbacks] at h
  cases hm : d.doc.places.mapM (waitingCallback? r d) with
  | error e => rw [hm] at h; cases h
  | ok cs =>
    rw [hm] at h
    cases h
    rw [List.mem_filterMap]
    simp only [Except.mem_of_mapM hm, waitingCallback?_eq hr]
    constructor
    · rintro ⟨_, ⟨p, hp, hw⟩, rfl⟩
      refine ⟨p, hp, ?_⟩
      cases hi : iteratingCallback? r table d p with
      | none => simp [hi] at hw
      | some g =>
        rw [hi] at hw
        cases hd : d.waits g with
        | error e => simp [hd, Except.map] at hw
        | ok b => cases b <;> simp_all [Except.map]
    · rintro ⟨p, hp, hi, hw⟩
      exact ⟨some f, ⟨p, hp, by simp [hi, hw, Except.map]⟩, rfl⟩

end Rule

/-- A pass of a built-in rule: its steps, and for the two rules that promote more than the functions
around awaited calls, which these are. -/
structure Sweep.Follows (s : Sweep) (pass : Pass) (g : Place → Step)
    (late : Draft → Except Fault (List Place)) : Prop where
  does : s.Does pass g late
  move : ∀ p, s.Move pass.doc p (g p)
  routes : s = Rule.fastRenderAsync → g = Rule.routeMove pass.doc
  search : (s ≠ Rule.cursorAsync ∧ late = fun _ => .ok []) ∨
    (s = Rule.cursorAsync ∧ g = (Rule.renameCursors pass.doc).move Rule.cursorTable ∧
      late = Rule.waitingCallbacks (Rule.renameCursors pass.doc))

namespace Rule

variable {s : Sweep} {pass : Pass} {g : Place → Step}

/-- Six of the rules promote nothing but the functions around awaited calls. -/
theorem follows_of_does (hd : s.Does pass g fun _ => .ok []) (hm : ∀ p, s.Move pass.doc p (g p))
    (hc : s.info.id ≠ cursorAsync.info.id) (hr : s.info.id ≠ fastRenderAsync.info.id) :
    s.Follows pass g fun _ => .ok [] where
  does := hd
  move := hm
  routes he := absurd (congrArg (fun s => s.info.id) he) hr
  search := .inl ⟨fun he => hc (congrArg (fun s => s.info.id) he), rfl⟩

theorem callAsync_follows (h : pass.IsStandard callAsync) :
    callAsync.Follows pass (callMove (renameOn pass.doc callTable "Meteor") callTable (.ok "  "))
      fun _ => .ok [] :=
  follows_of_does (callAsync_does h) (callMove_move rfl) (by decide) (by decide)

theorem rolesMigration_follows (h : pass.IsStandard rolesMigration) :
    rolesMigration.Follows pass (rolesMove (renameOn pass.doc rolesTable "Roles") rolesTable)
      fun _ => .ok [] :=
  follows_of_does (rolesMigration_does h) (rolesMove_move rfl) (by decide) (by decide)

theorem asyncApi_follows (h : pass.IsStandard asyncApi) :
    asyncApi.Follows pass ((renameAll pass.doc apiTable).move apiTable) fun _ => .ok [] :=
  follows_of_does (renaming_does (h.methods_eq (by simp [sweeps]) _)) (Renaming.move_move rfl)
    (by decide) (by decide)

theorem indexAsync_follows (h : pass.IsStandard indexAsync) :
    indexAsync.Follows pass ((renameAll pass.doc indexTable).move indexTable) fun _ => .ok [] :=
  follows_of_does (renaming_does (h.methods_eq (by simp [sweeps]) _)) (Renaming.move_move rfl)
    (by decide) (by decide)

theorem userAsync_follows (h : pass.IsStandard userAsync) :
    userAsync.Follows pass ((renameOn pass.doc userTable "Meteor").move userTable) fun _ =>
      .ok [] :=
  follows_of_does (renamingOn_does (h.methods_eq (by simp [sweeps]) _)) (Renaming.move_move rfl)
    (by decide) (by decide)

theorem fastRenderAsync_follows :
    fastRenderAsync.Follows pass (routeMove pass.doc) fun _ => .ok [] where
  does := fastRenderAsync_does
  move := routeMove_move pass.doc
  routes _ := rfl
  search := .inl ⟨fun he => absurd (congrArg (fun s => s.info.id) he) (by decide), rfl⟩

theorem cursorAsync_follows (h : pass.IsStandard cursorAsync) :
    cursorAsync.Follows pass ((renameCursors pass.doc).move cursorTable)
      (waitingCallbacks (renameCursors pass.doc)) where
  does := cursorAsync_does h
  move := Renaming.move_move rfl
  routes he := absurd (congrArg (fun s => s.info.id) he) (by decide)
  search := .inr ⟨rfl, rfl, rfl⟩

theorem exists_follows (hs : s ∈ Rule.sweeps) (h : pass.IsStandard s) :
    ∃ g late, s.Follows pass g late := by
  simp only [sweeps, List.mem_cons, List.not_mem_nil, or_false] at hs
  rcases hs with rfl | rfl | rfl | rfl | rfl | rfl | rfl | rfl
  · exact ⟨_, _, asyncApi_follows h⟩
  · exact ⟨_, _, cursorAsync_follows h⟩
  · exact ⟨_, _, callAsync_follows h⟩
  · exact ⟨_, _, userAsync_follows h⟩
  · exact ⟨_, _, indexAsync_follows h⟩
  · exact ⟨_, _, fastRenderAsync_follows⟩
  · exact ⟨_, _, rolesMigration_follows h⟩
  · exact ⟨_, _, follows_of_does callbackReport_does (fun _ => .rest) (by decide) (by decide)⟩

end Rule

namespace Sweep.Does

variable {s : Sweep} {pass : Pass} {g : Place → Step} {late : Draft → Except Fault (List Place)}
  {l : List Place}

/-- Once the late search has given its functions, the pass ends in one known draft, unless some
function has no place for the keyword. -/
theorem draft_of_late (h : s.Does pass g late) (hl : late (pass.doc.afterSteps g) = .ok l)
    (ha : ∀ f ∈ pass.doc.asked g l, f.isAsync = false ∧ f.refusesAsync = false) :
    (s.draft pass).value.map Prod.fst =
      if (pass.doc.queue g l).all fun f => f.asyncAnchor?.isSome then .ok (pass.doc.afterPass g l)
      else .error .missingNode := by
  obtain ⟨t, ht, hg, rfl⟩ := h
  rw [Sweep.draft, Run.value_bind, ht, Except.bind]
  exact Traversal.value_run (fun p _ => hg p) hl ha

theorem exists_draft (h : s.Does pass g late) (hl : late (pass.doc.afterSteps g) = .ok l)
    (ha : ∀ f ∈ pass.doc.asked g l, f.isAsync = false ∧ f.refusesAsync = false)
    (hq : (pass.doc.queue g l).all fun f => f.asyncAnchor?.isSome) :
    ∃ k, (s.draft pass).value = .ok (pass.doc.afterPass g l, k) := by
  have he := h.draft_of_late hl ha
  rw [if_pos hq] at he
  cases hd : (s.draft pass).value with
  | error e => rw [hd] at he; cases he
  | ok x =>
    rw [hd] at he
    exact ⟨x.2, by rw [← Except.ok.inj he]⟩

end Sweep.Does

namespace Sweep.Follows

variable {s : Sweep} {pass : Pass} {g : Place → Step} {late : Draft → Except Fault (List Place)}
  {d : Draft} {l : List Place} {f : Place} {k : Nat}

/-- What is found late is an argument of some call, and a function that is not async. -/
theorem mem_late (h : s.Follows pass g late) (hl : late d = .ok l) (hf : f ∈ l) :
    (∃ p ∈ d.doc.places, f ∈ p.callArguments) ∧ f.isFunctionLiteral ∧ f.isAsync = false := by
  obtain ⟨-, rfl⟩ | ⟨-, -, rfl⟩ := h.search
  · cases hl
    cases hf
  · obtain ⟨p, hp, hi, -⟩ := (Rule.mem_waitingCallbacks rfl hl).1 hf
    obtain ⟨ha, hf⟩ := Rule.isFunctionLiteral_of_iteratingCallback? hi
    exact ⟨⟨p, hp, ha⟩, hf⟩

theorem asked_accepts (h : s.Follows pass g late) (hl : late d = .ok l)
    (hf : f ∈ pass.doc.asked g l) : f.isAsync = false ∧ f.refusesAsync = false := by
  obtain hf | hf := List.mem_append.1 hf
  · obtain ⟨p, -, hf⟩ := List.mem_flatMap.1 hf
    exact (h.move p).promoted_accepts hf
  · obtain ⟨-, hlit, ha⟩ := h.mem_late hl hf
    exact ⟨ha, Place.refusesAsync_of_isFunctionLiteral hlit⟩

theorem asked_mem_places (h : s.Follows pass g late) (hl : late (pass.doc.afterSteps g) = .ok l)
    (hf : f ∈ pass.doc.asked g l) : f ∈ pass.doc.places := by
  obtain hf | hf := List.mem_append.1 hf
  · obtain ⟨p, hp, hf⟩ := List.mem_flatMap.1 hf
    exact (h.move p).promoted_mem_places hp hf
  · obtain ⟨⟨p, hp, ha⟩, -⟩ := h.mem_late hl hf
    exact Place.callArguments_mem_places hp ha

theorem draft_of_late (h : s.Follows pass g late) (hl : late (pass.doc.afterSteps g) = .ok l) :
    (s.draft pass).value.map Prod.fst =
      if (pass.doc.queue g l).all fun f => f.asyncAnchor?.isSome then .ok (pass.doc.afterPass g l)
      else .error .missingNode :=
  h.does.draft_of_late hl fun _ hf => h.asked_accepts hl hf

theorem exists_late (h : s.Follows pass g late) (hd : (s.draft pass).value = .ok (d, k)) :
    ∃ l, late (pass.doc.afterSteps g) = .ok l := by
  obtain ⟨t, ht, hg, rfl⟩ := h.does
  rw [Sweep.draft, Run.value_bind, ht, Except.bind,
    Traversal.value_run_eq_bind fun p _ => hg p] at hd
  cases hl : t.late (pass.doc.afterSteps g) with
  | ok l => exact ⟨l, rfl⟩
  | error e => rw [hl] at hd; cases hd

theorem draft_inv (h : s.Follows pass g late) (hd : (s.draft pass).value = .ok (d, k)) :
    ∃ l, late (pass.doc.afterSteps g) = .ok l ∧ d = pass.doc.afterPass g l ∧
      ∀ f ∈ pass.doc.queue g l, f.asyncAnchor?.isSome := by
  obtain ⟨l, hl⟩ := h.exists_late hd
  have he := h.draft_of_late hl
  rw [hd] at he
  split at he
  · next ha => exact ⟨l, hl, Except.ok.inj he, List.all_eq_true.1 ha⟩
  · cases he

theorem exists_draft (h : s.Follows pass g late) (hl : late (pass.doc.afterSteps g) = .ok l)
    (hq : (pass.doc.queue g l).all fun f => f.asyncAnchor?.isSome) :
    ∃ k, (s.draft pass).value = .ok (pass.doc.afterPass g l, k) :=
  h.does.exists_draft hl (fun _ hf => h.asked_accepts hl hf) hq

end Sweep.Follows

namespace Document

variable {doc : Document} {g : Place → Step} {l : List Place} {e : Edit}

@[simp] theorem doc_afterPass : (doc.afterPass g l).doc = doc := rfl

theorem mem_afterSteps : e ∈ (doc.afterSteps g).edits ↔ ∃ p ∈ doc.places, e ∈ (g p).edits :=
  List.mem_flatMap

theorem mem_afterPass : e ∈ (doc.afterPass g l).edits ↔
    e ∈ (doc.afterSteps g).edits ∨ ∃ f ∈ doc.queue g l, doc.asyncMark? f = some e := by
  rw [afterPass, Draft.recordAll, List.mem_append, List.mem_filterMap]

theorem awaitEdit_action (doc : Document) (p : Place) :
    (doc.awaitEdit p).action = .insert "await " ∨ (doc.awaitEdit p).action =
      .wrap "(await " ")" := by
  rw [awaitEdit]
  split
  · exact Or.inr rfl
  · exact Or.inl rfl

theorem awaitEdit_place (doc : Document) (p : Place) : (doc.awaitEdit p).place = p := by
  rw [awaitEdit]
  split <;> rfl

theorem foldMark?_eq_some {p : Place} {indent : Except Fault String}
    (h : doc.foldMark? p indent = some e) :
    ∃ cb, Callback.of? doc p = some cb ∧ p.statement? = some e.place ∧
      e.action = .replace (.folded (doc.fold e.place p cb indent)) := by
  obtain ⟨cb, hc, h⟩ := Option.bind_eq_some_iff.1 h
  obtain ⟨q, hq, rfl⟩ := Option.map_eq_some_iff.1 h
  exact ⟨cb, hc, hq, rfl⟩

theorem action_ne_literal {p : Place}
    (h : e = doc.awaitEdit p ∨ ∃ indent, doc.foldMark? p indent = some e) (new : Value) :
    e.action ≠ .replace (.literal new) := by
  intro ha
  obtain rfl | ⟨indent, hf⟩ := h
  · obtain hw | hw := doc.awaitEdit_action p <;> rw [hw] at ha <;> cases ha
  · obtain ⟨cb, -, -, hr⟩ := foldMark?_eq_some hf
    rw [hr] at ha
    cases ha

theorem asyncMark?_eq_some {f : Place} (h : doc.asyncMark? f = some e) :
    e.action = .insert "async " ∧ f.asyncAnchor? = some e.place := by
  obtain ⟨a, ha, rfl⟩ := Option.map_eq_some_iff.1 h
  exact ⟨rfl, ha⟩

/-- A pending function with a place for its keyword gets it. -/
theorem exists_asyncMark?_of_mem_queue {f : Place} (hf : f ∈ doc.queue g l)
    (ha : f.asyncAnchor?.isSome) :
    ∃ e ∈ (doc.afterPass g l).edits, doc.asyncMark? f = some e := by
  obtain ⟨a, ha⟩ := Option.isSome_iff_exists.1 ha
  obtain ⟨e, he⟩ : ∃ e, doc.asyncMark? f = some e := by simp [asyncMark?, ha]
  exact ⟨e, mem_afterPass.2 (Or.inr ⟨f, hf, he⟩), he⟩

end Document
end Asyncify
