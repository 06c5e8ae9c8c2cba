import Asyncify.Proofs.Rewrites
import Asyncify.Proofs.Survivors
import Asyncify.Proofs.Turns

/-! A text that a built-in rule has changed comes with a report, whichever options are set: all
edits are recorded at places of the document, so the outermost of them show. -/
namespace Asyncify

namespace Renaming

variable {r : Renaming} {p : Place} {s : Sweep} {step : Step}

/-- A table that cannot be read fails at the first member call. -/
theorem candidate?_of_error {f : Fault} (h : r.table = .error f) (p : Place) :
    r.candidate? p = if p.memberCall?.isSome then .error f else .ok none := by
  rw [candidate?, h]
  cases p.memberCall? <;> rfl

/-- What is renamed is the name in a member call, where `await` may stand. -/
theorem rename?_inv {x : Option Edit} (h : (r.rename? p).value = .ok x) :
    x = none ∨ ∃ receiver name new, p.memberCall? = some (receiver, name) ∧ p.barrier? = none ∧
      x = some (r.renameEdit name new) := by
  cases ht : r.table with
  | ok table =>
    rw [value_rename? ht] at h
    obtain rfl := Except.ok.inj h
    cases hf : r.found? table p with
    | none => exact Or.inl rfl
    | some y =>
      obtain ⟨hb, receiver, hm, -⟩ := found?_eq_some hf
      exact Or.inr ⟨receiver, y.1, y.2, hm, hb, rfl⟩
  | error f =>
    rw [rename?, Run.value_bind, Run.value_liftExcept, candidate?_of_error ht] at h
    split at h
    · cases h
    · exact Or.inl (Except.ok.inj h).symm

theorem move_of_step (h : (r.step p).value = .ok step) : s.Move r.doc p step := by
  rw [Renaming.step, Run.value_bind] at h
  obtain ⟨x, hx, h⟩ := Except.bind_eq_ok.1 h
  obtain rfl | ⟨receiver, name, new, hm, hb, rfl⟩ := rename?_inv hx
  · cases h
    exact .rest
  · cases h
    exact .rename hm hb

end Renaming

namespace Rule

variable {r : Renaming} {p f : Place} {s : Sweep} {step : Step} {d : Draft} {pass : Pass}

/-- Where a call is renamed, it is folded with its callback or else awaited. -/
theorem methodCallStep_inv {folds : Bool} {indent : Value}
    (h : (methodCallStep r folds indent p).value = .ok step) :
    step = {} ∨ ∃ receiver name new, p.memberCall? = some (receiver, name) ∧ p.barrier? = none ∧
      (step = ⟨[r.renameEdit name new], []⟩ ++ Step.ofAwait r.doc p ∨
        ∃ e, r.doc.foldMark? p indent.indentUnit = some e ∧
          step = ⟨[r.renameEdit name new], []⟩ ++ ⟨[e], p.promotion?.toList⟩) := by
  rw [methodCallStep, Run.value_bind] at h
  obtain ⟨x, hx, h⟩ := Except.bind_eq_ok.1 h
  obtain rfl | ⟨receiver, name, new, hm, hb, rfl⟩ := Renaming.rename?_inv hx
  · cases h
    exact Or.inl rfl
  · refine Or.inr ⟨receiver, name, new, hm, hb, ?_⟩
    dsimp only at h
    cases hcb : (if folds then Callback.of? r.doc p else none) with
    | none =>
      rw [hcb] at h
      cases h
      exact Or.inl rfl
    | some cb =>
      have hof : Callback.of? r.doc p = some cb := by
        cases folds with
        | false => cases hcb
        | true => exact hcb
      have hv : (r.doc.foldEdit p cb indent.indentUnit).value =
          r.doc.foldMark? p indent.indentUnit := by
        rw [Document.value_foldEdit, Document.foldMark?, hof, Option.bind_some]
      simp only [hcb, Run.value_bind, Run.value_lift, hv, Except.bind] at h
      cases hf : r.doc.foldMark? p indent.indentUnit with
      | none =>
        rw [hf] at h
        cases h
        exact Or.inl rfl
      | some e =>
        rw [hf] at h
        cases h
        exact Or.inr ⟨e, rfl, rfl⟩

theorem move_of_methodCallStep {folds : Bool} {indent : Value}
    (h : (methodCallStep r folds indent p).value = .ok step) : s.Move r.doc p step := by
  obtain rfl | ⟨receiver, name, new, hm, hb, rfl | ⟨e, he, rfl⟩⟩ := methodCallStep_inv h
  · exact .rest
  · exact .rename hm hb
  · exact .fold hm hb he

theorem move_of_rolesStep (h : (rolesStep r p).value = .ok step) : s.Move r.doc p step := by
  rw [rolesStep] at h
  cases hp : oldPackageName? r.doc p with
  | some fragment =>
    rw [hp] at h
    cases h
    exact .package hp
  | none =>
    rw [hp] at h
    exact Renaming.move_of_step h

theorem mem_callArguments_of_waitingCallback? (h : waitingCallback? r d p = .ok (some f)) :
    f ∈ p.callArguments := by
  cases ht : r.table with
  | ok table =>
    rw [waitingCallback?_eq ht] at h
    cases hi : iteratingCallback? r table d p with
    | none => simp [hi] at h
    | some g =>
      rw [hi] at h
      obtain ⟨b, -, hg⟩ := Except.map_eq_ok.1 h
      split at hg
      · exact Option.some.inj hg ▸ (isFunctionLiteral_of_iteratingCallback? hi).1
      · cases hg
  | error e =>
    rw [waitingCallback?, Renaming.candidate?_of_error ht] at h
    split at h
    · cases h
    · cases h

theorem mem_places_of_waitingCallbacks {l : List Place} (h : waitingCallbacks r d = .ok l)
    (hf : f ∈ l) :
    f ∈ d.doc.places := by
  obtain ⟨cs, hm, rfl⟩ := Except.map_eq_ok.1 h
  obtain ⟨_, hx, rfl⟩ := List.mem_filterMap.1 hf
  obtain ⟨p, hp, hw⟩ := (Except.mem_of_mapM hm _).1 hx
  exact Place.callArguments_mem_places hp (mem_callArguments_of_waitingCallback? hw)

/-- Whatever options are set, every step of a built-in rule is one of the moves, and what it finds
late are functions of the document. -/
theorem prepare_inv {t : Traversal} (hs : s ∈ sweeps) (h : (s.prepare pass).value = .ok t) :
    (∀ p step, (t.step p).value = .ok step → s.Move pass.doc p step) ∧
      ∀ d l, d.doc = pass.doc → t.late d = .ok l → ∀ f ∈ l, f ∈ pass.doc.places := by
  have hnone : ∀ (d : Draft) (l : List Place), d.doc = pass.doc →
      (.ok [] : Except Fault (List Place)) = .ok l → ∀ f ∈ l, f ∈ pass.doc.places := by
    intro d l _ hl f hf
    cases hl
    cases hf
  simp only [sweeps, List.mem_cons, List.not_mem_nil, or_false] at hs
  rcases hs with rfl | rfl | rfl | rfl | rfl | rfl | rfl | rfl
  · cases h
    exact ⟨fun p step => Renaming.move_of_step, hnone⟩
  · obtain ⟨queries, -, h⟩ := Except.bind_eq_ok.1 ((Run.value_bind _ _).symm.trans h)
    cases h
    refine ⟨fun p step => Renaming.move_of_step, fun d l hd hl f hf => ?_⟩
    rw [← hd]
    exact mem_places_of_waitingCallbacks hl hf
  · cases h
    exact ⟨fun p step => move_of_methodCallStep, hnone⟩
  · cases h
    exact ⟨fun p step => Renaming.move_of_step, hnone⟩
  · cases h
    exact ⟨fun p step => Renaming.move_of_step, hnone⟩
  · obtain ⟨_, ht, hg, hl⟩ := @fastRenderAsync_does pass
    cases ht.symm.trans h
    refine ⟨fun p step hstep => ?_, hl ▸ hnone⟩
    rw [← Except.ok.inj ((hg p).symm.trans hstep)]
    exact routeMove_move pass.doc p
  · cases h
    exact ⟨fun p step => move_of_rolesStep, hnone⟩
  · obtain ⟨_, ht, hg, hl⟩ := @callbackReport_does pass
    cases ht.symm.trans h
    refine ⟨fun p step hstep => ?_, hl ▸ hnone⟩
    rw [← Except.ok.inj ((hg p).symm.trans hstep)]
    exact .rest

end Rule

/-- A step edits places of the document only. -/
theorem Sweep.Move.place_mem_places {s : Sweep} {doc : Document} {p : Place} {step : Step}
    {e : Edit}
    (h : s.Move doc p step) (hp : p ∈ doc.places) (he : e ∈ step.edits) : e.place ∈ doc.places := by
  have hawait (he : e ∈ (Step.ofAwait doc p).edits) : e.place ∈ doc.places := by
    obtain ⟨-, rfl⟩ := Step.mem_edits_ofAwait.1 he
    rwa [Document.awaitEdit_place]
  cases h with
  | rest => cases he
  | rename hm hb =>
    obtain rfl | he := List.mem_cons.1 he
    · exact (Place.memberCall?_mem_places hp hm).2
    · exact hawait he
  | fold hm hb hf =>
    obtain rfl | he := List.mem_cons.1 he
    · exact (Place.memberCall?_mem_places hp hm).2
    · obtain rfl := List.mem_singleton.1 he
      obtain ⟨cb, -, hs, -⟩ := Document.foldMark?_eq_some hf
      exact (Document.mem_children_of_parent? hp (Option.filter_eq_some_iff.1 hs).1).1
  | subscribe hm hb => exact hawait he
  | package hf =>
    obtain rfl := List.mem_singleton.1 he
    exact Rule.oldPackageName?_mem_places hp hf
  | handler hs hr => cases he

theorem Document.asyncEdit_inv {doc : Document} {f : Place} {e : Edit}
    (h : (doc.asyncEdit f).value = .ok (some e)) : doc.asyncMark? f = some e := by
  rw [asyncEdit] at h
  split at h
  · cases h
  · cases hr : f.asyncTarget?.filter fun t => t.kind = .method && t.isAccessor with
    | some t =>
      rw [hr] at h
      cases h
    | none =>
      rw [hr] at h
      cases ha : f.asyncAnchor? with
      | none => rw [ha] at h; cases h
      | some a => rw [ha] at h; cases h; rw [asyncMark?, ha]; rfl

/-- Making functions async records the marks of these functions and nothing else. -/
theorem Draft.promoteAll_inv {d d' : Draft} {fs : List Place} {k : Nat}
    (h : (d.promoteAll fs).value = .ok (d', k)) :
    d'.doc = d.doc ∧ ∀ e ∈ d'.edits, e ∈ d.edits ∨ ∃ f ∈ fs, d.doc.asyncMark? f = some e := by
  induction fs generalizing d k with
  | nil =>
    cases h
    exact ⟨rfl, fun e he => Or.inl he⟩
  | cons f fs ih =>
    rw [promoteAll, Run.value_bind] at h
    obtain ⟨x, hx, h⟩ := Except.bind_eq_ok.1 h
    cases x with
    | none =>
      obtain ⟨hdoc, hedits⟩ := ih h
      refine ⟨hdoc, fun e he => (hedits e he).imp_right ?_⟩
      rintro ⟨g, hg, ha⟩
      exact ⟨g, List.mem_cons_of_mem _ hg, ha⟩
    | some e =>
      obtain ⟨⟨d'', j⟩, hrest, h⟩ := Except.bind_eq_ok.1 ((Run.value_bind _ _).symm.trans h)
      cases h
      obtain ⟨hdoc, hedits⟩ := ih hrest
      refine ⟨hdoc, fun y hy => ?_⟩
      obtain hy | ⟨g, hg, ha⟩ := hedits y hy
      · obtain hy | rfl := by simpa [record] using hy
        · exact Or.inl hy
        · exact Or.inr ⟨f, List.mem_cons_self, Document.asyncEdit_inv hx⟩
      · exact Or.inr ⟨g, List.mem_cons_of_mem _ hg, ha⟩

/-- An edit of a traversal comes from one of its steps, or it marks a function that a step or the
late search has asked for. -/
theorem Traversal.run_inv {t : Traversal} {doc : Document} {d : Draft} {k : Nat}
    (h : (t.run doc).value = .ok (d, k)) :
    d.doc = doc ∧ ∀ e ∈ d.edits, (∃ p ∈ doc.places, ∃ step, (t.step p).value = .ok step ∧
      e ∈ step.edits) ∨
      ∃ f, doc.asyncMark? f = some e ∧
        ((∃ p ∈ doc.places, ∃ step, (t.step p).value = .ok step ∧ f ∈ step.promoted) ∨
          ∃ before late, before.doc = doc ∧ t.late before = .ok late ∧ f ∈ late) := by
  rw [run, Run.value_bind, Run.value_mapM_eq] at h
  obtain ⟨steps, hsteps, h⟩ := Except.bind_eq_ok.1 h
  obtain ⟨late, hl, h⟩ := Except.bind_eq_ok.1 ((Run.value_bind _ _).symm.trans h)
  obtain ⟨hdoc, hedits⟩ := Draft.promoteAll_inv h
  refine ⟨hdoc, fun e he => ?_⟩
  obtain he | ⟨f, hf, ha⟩ := hedits e he
  · obtain ⟨step, hm, he⟩ := List.mem_flatMap.1 he
    obtain ⟨p, hp, hv⟩ := (Except.mem_of_mapM hsteps step).1 hm
    exact Or.inl ⟨p, hp, step, hv, he⟩
  · refine Or.inr ⟨f, ha, ?_⟩
    obtain hf | hf := Queue.mem_addAll hf
    · cases hf
    · obtain hf | hf := List.mem_append.1 hf
      · obtain ⟨step, hm, hf⟩ := List.mem_flatMap.1 hf
        obtain ⟨p, hp, hv⟩ := (Except.mem_of_mapM hsteps step).1 hm
        exact Or.inl ⟨p, hp, step, hv, hf⟩
      · exact Or.inr ⟨_, late, rfl, hl, hf⟩

/-- Whatever options are set, a built-in rule edits places of the document only. -/
theorem Rule.draft_placed {s : Sweep} {pass : Pass} {d : Draft} {k : Nat} (hs : s ∈ sweeps)
    (h : (s.draft pass).value = .ok (d, k)) :
    d.doc = pass.doc ∧ ∀ e ∈ d.edits, e.place ∈ pass.doc.places := by
  rw [Sweep.draft, Run.value_bind] at h
  obtain ⟨t, ht, h⟩ := Except.bind_eq_ok.1 h
  obtain ⟨hmove, hlate⟩ := prepare_inv hs ht
  obtain ⟨hdoc, hedits⟩ := Traversal.run_inv h
  refine ⟨hdoc, fun e he => ?_⟩
  obtain ⟨p, hp, step, hv, he⟩ | ⟨f, ha, hf⟩ := hedits e he
  · exact (hmove p step hv).place_mem_places hp he
  · refine Place.asyncAnchor?_mem_places ?_ (Document.asyncMark?_eq_some ha).2
    obtain ⟨p, hp, step, hv, hf⟩ | ⟨before, late, hb, hl, hf⟩ := hf
    · exact (hmove p step hv).promoted_mem_places hp hf
    · exact hlate before late hb hl f hf

theorem Rule.outcome_inv {d : Draft} {o : Outcome} (h : (outcome d).value = .ok o) :
    o.changes = d.changes ∧ (o.output.isSome → d.edits ≠ []) := by
  rw [outcome] at h
  split at h
  · cases h
    exact ⟨rfl, fun hs => by cases hs⟩
  · next hne =>
    obtain ⟨text, -, h⟩ := Except.bind_eq_ok.1 ((Run.value_bind _ _).symm.trans h)
    cases h
    exact ⟨rfl, fun _ => by simpa using hne⟩

/-- A built-in rule that gives back a text reports some change, if it can report at all. -/
theorem Rule.changes_ne_nil_of_visit {s : Sweep} {pass : Pass} {o : Outcome} {cs : List Change}
    (hs : s ∈ sweeps) (hids : (pass.doc.nodes.map Node.id).Nodup)
    (hv : (s.rule.visit pass).value = .ok o) (ho : o.output.isSome) (hc : o.changes = .ok cs) :
    cs ≠ [] := by
  rw [s.value_visit_eq] at hv
  obtain ⟨d, hd, hout⟩ := Except.bind_eq_ok.1 hv
  obtain ⟨x, hx, rfl⟩ := Except.map_eq_ok.1 hd
  obtain ⟨hchanges, hedits⟩ := outcome_inv hout
  obtain ⟨hdoc, hplaced⟩ := draft_placed hs hx
  rw [← hdoc] at hids hplaced
  have hnil := Draft.changes_eq_nil_iff hids hplaced (hchanges ▸ hc)
  exact fun hcs => hedits ho (hnil.1 hcs)

/-- A registry without any rules but the built-in ones. -/
structure Registry.IsBuiltIn (r : Registry) : Prop where
  rules : ∀ rule ∈ r.rules, rule ∈ Rule.catalogue
  index : ∀ id rule, r.get? id = some rule → rule ∈ Rule.catalogue

theorem Registry.isBuiltIn_registerAll {rules : List Rule}
    (h : ∀ rule ∈ rules, rule ∈ Rule.catalogue) :
    (registerAll {} rules).value.IsBuiltIn := by
  have hindex : ∀ id rule, (registerAll {} rules).value.get? id = some rule →
      rule ∈ Rule.catalogue := by
    intro id rule hg
    rw [sound_empty.get?_registerAll] at hg
    exact h rule (List.mem_of_find?_eq_some hg)
  exact ⟨fun rule hm => hindex _ rule ((sound_empty.registerAll rules).get?_eq_some.2 ⟨hm, rfl⟩),
    hindex⟩

namespace Engine

variable {e : Engine} {path source text id : String} {rule : Rule} {rules : List Rule}
  {cs : List Change}

theorem settle_inv {o : Outcome} (h : e.settle path source o = .ok (text, cs))
    (hn : text ≠ source) :
    o.output = some text ∧ o.changes = .ok cs := by
  rw [settle] at h
  split at h
  · cases h
    exact absurd rfl hn
  · next out hout =>
    split at h
    · cases h
      exact absurd rfl hn
    · split at h
      · obtain ⟨cs', hc, heq⟩ := Except.map_eq_ok.1 h
        cases heq
        exact ⟨hout, hc⟩
      · cases h

/-- A built-in rule that leaves another text says why. -/
theorem changes_ne_nil_of_applyRule (hr : rule ∈ Rule.catalogue)
    (h : (e.applyRule rule source path).value = .ok (text, cs)) (hn : text ≠ source) : cs ≠ [] := by
  obtain ⟨s, hs, rfl⟩ := List.mem_map.1 hr
  rw [value_applyRule] at h
  obtain ⟨options, -, h⟩ := Except.bind_eq_ok.1 h
  obtain ⟨o, hv, h⟩ := Except.bind_eq_ok.1 h
  obtain ⟨hout, hc⟩ := settle_inv h hn
  have hids : ((e.passFor path source options).doc.nodes.map Node.id).Nodup :=
    Node.nodup_ids_number _
  exact Rule.changes_ne_nil_of_visit hs hids hv (by rw [hout]; rfl) hc

theorem changes_ne_nil_of_applyRules (hr : ∀ rule ∈ rules, rule ∈ Rule.catalogue)
    (h : (e.applyRules path source rules).value.1 ≠ source) :
    (e.applyRules path source rules).value.2 ≠ [] := by
  induction rules generalizing source with
  | nil => exact absurd rfl h
  | cons rule rules ih =>
    rw [value_applyRules_cons] at h ⊢
    by_cases ht : (e.turn path source rule).1 = source
    · -- Nothing happened at the first turn, so the change came later.
      rw [ht] at h ⊢
      exact fun hnil => ih (fun x hx => hr x (List.mem_cons_of_mem _ hx)) h
        (List.append_eq_nil_iff.1 hnil).2
    · have hturn : (e.turn path source rule).2 ≠ [] := by
        rw [turn] at ht ⊢
        split at ht
        · next r hv => exact changes_ne_nil_of_applyRule (hr rule List.mem_cons_self) hv ht
        · exact absurd rfl ht
      exact fun hnil => hturn (List.append_eq_nil_iff.1 hnil).1

theorem runRule_inv {r : Result} (h : (e.runRule id source path).value = .ok r) :
    ∃ rule, e.registry.get? id = some rule ∧ r.hasChanges = (r.source != source) ∧
      (e.applyRule rule source path).value = .ok (r.source, r.changes) := by
  rw [runRule, Run.value_bind, Run.value_liftExcept, Registry.require] at h
  cases hg : e.registry.get? id with
  | none => rw [hg] at h; cases h
  | some rule =>
    rw [hg] at h
    obtain ⟨-, -, h⟩ := Except.bind_eq_ok.1 ((Run.value_bind _ _).symm.trans h)
    rw [Run.value_bind, Run.value_attempt, Except.bind] at h
    cases ha : (e.applyRule rule source path).value with
    | error f => rw [ha] at h; cases h
    | ok x =>
      rw [ha] at h
      cases h
      exact ⟨rule, rfl, rfl, ha⟩

theorem transform_inv {r : Result} (h : (e.transform source path).value = .ok r) :
    ∃ rules, e.enabledRules = .ok rules ∧ r.hasChanges = (r.source != source) ∧
      (e.applyRules path source rules).value = (r.source, r.changes) := by
  cases hs : e.parses path source with
  | false =>
    obtain ⟨pos, hp⟩ := value_transform_of_not_parses hs
    rw [hp] at h
    cases h
  | true =>
    cases hr : e.enabledRules with
    | error f =>
      rw [transform, Run.value_bind, value_checkSource_of_parses hs, Except.bind, Run.value_bind,
        Run.value_ofExcept, hr] at h
      cases h
    | ok rules =>
      rw [value_transform hr hs] at h
      cases h
      exact ⟨rules, rfl, rfl, rfl⟩

end Engine

/-- However edits are nested, their report is empty only if there are none. So a text that built-in
rules have changed, one or all selected ones, never comes without a report. -/
theorem changes_nonempty_of_edits :
    (∀ (doc : Document) (es : List Edit), doc.WellFormed → (∀ e ∈ es, e.place ∈ doc.places) →
      ((∀ e ∈ es, doc.Draws e) → ∃ cs, (es.foldl Draft.record { doc }).changes = .ok cs) ∧
        ∀ cs, (es.foldl Draft.record { doc }).changes = .ok cs → (cs = [] ↔ es = [])) ∧
      ∀ (e : Engine) (source path : String), e.registry.IsBuiltIn →
        (∀ id r, (e.runRule id source path).value = .ok r → r.hasChanges → r.changes ≠ []) ∧
          ∀ r, (e.transform source path).value = .ok r → r.hasChanges → r.changes ≠ [] := by
  refine ⟨fun doc es hw hes => ?_, fun e source path hb => ⟨fun id r h hc => ?_, fun r h hc => ?_⟩⟩
  · simp only [Draft.foldl_record_fresh]
    exact ⟨fun hdraws => Draft.exists_changes hw hdraws,
      fun cs hcs => Draft.changes_eq_nil_iff hw.ids hes hcs⟩
  · obtain ⟨rule, hg, hsource, ha⟩ := Engine.runRule_inv h
    rw [hsource] at hc
    exact Engine.changes_ne_nil_of_applyRule (hb.index id rule hg) ha (by simpa using hc)
  · obtain ⟨rules, hr, hsource, ha⟩ := Engine.transform_inv h
    rw [hsource] at hc
    have hbuilt : ∀ rule ∈ rules, rule ∈ Rule.catalogue :=
      fun rule hm => hb.rules rule ((e.enabledRules_sublist hr).subset hm)
    have hne : (e.applyRules path source rules).value.2 ≠ [] :=
      Engine.changes_ne_nil_of_applyRules hbuilt (by rw [ha]; simpa using hc)
    rwa [ha] at hne

namespace RolesSample

/-- All rules, over a parser that knows one text. -/
def engine : Engine where
  registry := (Registry.registerAll {} Rule.catalogue).value
  config := .standard
  parse _ text := if text = doc.text then doc.root else Turns.parse .javascript ""

end RolesSample

theorem changes_nonempty_roles :
    (Sample.doc.WellFormed ∧ (∀ e ∈ Sample.nested, e.place ∈ Sample.doc.places) ∧
      (∀ e ∈ Sample.nested, Sample.doc.Draws e) ∧
      ∃ cs, (Sample.nested.foldl Draft.record { doc := Sample.doc }).changes = .ok cs ∧ cs ≠ []) ∧
      RolesSample.engine.registry.IsBuiltIn ∧
      (∃ r, (RolesSample.engine.runRule "roles-migration" RolesSample.doc.text "a.js").value =
        .ok r ∧
        r.hasChanges ∧ r.changes ≠ []) ∧
      ∃ r, (RolesSample.engine.transform RolesSample.doc.text "a.js").value = .ok r ∧
        r.hasChanges ∧ r.changes ≠ [] := by
  obtain ⟨hdraft, hengine⟩ := changes_nonempty_of_edits
  have hb : RolesSample.engine.registry.IsBuiltIn := Registry.isBuiltIn_registerAll fun _ h => h
  obtain ⟨hone, hall⟩ := hengine RolesSample.engine RolesSample.doc.text "a.js" hb
  refine ⟨?_, hb, ?_, ?_⟩
  · have hes := Sample.nested_mem_places
    have hl : ∀ e ∈ Sample.nested, e.isLiteral := by decide +kernel
    have hdraws : ∀ e ∈ Sample.nested, Sample.doc.Draws e :=
      fun e he => .of_isLiteral (Document.node_mem_nodes (hes e he)) (hl e he)
    obtain ⟨hexists, hnil⟩ := hdraft Sample.doc Sample.nested Sample.wellFormed hes
    obtain ⟨cs, hcs⟩ := hexists hdraws
    exact ⟨Sample.wellFormed, hes, hdraws, cs, hcs, fun h => absurd ((hnil cs hcs).1 h)
      (by decide +kernel)⟩
  · have hv : (RolesSample.engine.runRule "roles-migration" RolesSample.doc.text "a.js").value.map
        Result.hasChanges = .ok true := by decide +kernel
    obtain ⟨r, hr, hc⟩ := Except.map_eq_ok.1 hv
    exact ⟨r, hr, hc, hone _ r hr hc⟩
  · have hv : (RolesSample.engine.transform RolesSample.doc.text "a.js").value.map
        Result.hasChanges = .ok true := by decide +kernel
    obtain ⟨r, hr, hc⟩ := Except.map_eq_ok.1 hv
    exact ⟨r, hr, hc, hall r hr hc⟩

end Asyncify
