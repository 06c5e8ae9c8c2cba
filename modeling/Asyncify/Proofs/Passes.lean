import Asyncify.Config
import Asyncify.Proofs.Runs
import Asyncify.Rule.Catalogue

/-! What the built-in rules do at each place of a document when none of their options is set. -/
namespace Asyncify

/-- The pass has no options, or those of the standard configuration. -/
def Pass.IsStandard (pass : Pass) (s : Sweep) : Prop :=
  pass.options = .empty ∨ Config.standard.optionsFor s.info.id = .ok pass.options

namespace Pass

variable {pass : Pass}

theorem option_unset {name : String} (h : pass.options.get? (.text name) = none) (v : Value) :
    pass.option name v = v := by
  rw [option, h, Option.getD_none]

/-- No built-in rule is given methods of its own. -/
theorem IsStandard.methods_eq {s : Sweep} (h : pass.IsStandard s) (hs : s ∈ Rule.sweeps)
    (table : MethodTable) : pass.methods table = .ok table := by
  have hn : pass.options.get? (.text "methods") = none := by
    obtain h | h := h
    · rw [h]
      rfl
    · simp only [Rule.sweeps, List.mem_cons, List.not_mem_nil, or_false] at hs
      rcases hs with rfl | rfl | rfl | rfl | rfl | rfl | rfl | rfl <;>
        rw [← Except.ok.inj h] <;> rfl
  rw [methods, option_unset hn]
  rfl

theorem IsStandard.queryMethods_eq (h : pass.IsStandard Rule.cursorAsync) :
    (pass.option "query_methods" (.list (Cursors.defaultQueryMethods.map .text))).names =
      .ok Cursors.defaultQueryMethods := by
  obtain h | h := h
  · rw [option_unset (by rw [h]; rfl)]
    rfl
  · rw [option, ← Except.ok.inj h]
    rfl

theorem IsStandard.folds (h : pass.IsStandard Rule.callAsync) :
    (pass.option "decompose_callbacks" (.bool true)).isSet = true := by
  obtain h | h := h
  · rw [option_unset (by rw [h]; rfl)]
    rfl
  · rw [option, ← Except.ok.inj h]
    rfl

theorem IsStandard.indent_eq (h : pass.IsStandard Rule.callAsync) :
    pass.option "indent" (.text "  ") = .text "  " := by
  obtain h | h := h
  · rw [option_unset (by rw [h]; rfl)]
  · rw [option, ← Except.ok.inj h]
    rfl

end Pass

@[simp] theorem Document.value_awaitAllowed (doc : Document) (p : Place) :
    (doc.awaitAllowed p).value = p.barrier?.isNone := by
  rw [awaitAllowed]
  cases p.barrier? <;> rfl

namespace Renaming

variable (r : Renaming)

/-- The property and its new name where a call is renamed: the table has the method, the receiver is
accepted, and `await` may stand there. -/
def found? (table : MethodTable) (p : Place) : Option (Place × Value) :=
  match p.memberCall? with
  | some (receiver, name) =>
    if r.accepts receiver && p.barrier?.isNone then
      (table.get? (.text (r.doc.textOf name.node))).map (name, ·)
    else none
  | none => none

/-- What the pass does at one place. -/
def move (table : MethodTable) (p : Place) : Step :=
  match r.found? table p with
  | some (name, new) => ⟨[r.renameEdit name new], []⟩ ++ Step.ofAwait r.doc p
  | none => {}

variable {r} {table : MethodTable}

theorem candidate?_eq (h : r.table = .ok table) (p : Place) :
    r.candidate? p = .ok (p.memberCall?.bind fun c =>
      if r.accepts c.1 then (table.get? (.text (r.doc.textOf c.2.node))).map (c.2, ·)
      else none) := by
  rw [candidate?, h]
  cases p.memberCall? with
  | none => rfl
  | some c => rfl

theorem value_rename? (h : r.table = .ok table) (p : Place) :
    (r.rename? p).value = .ok ((r.found? table p).map fun x => r.renameEdit x.1 x.2) := by
  rw [rename?, Run.value_bind, Run.value_liftExcept, candidate?_eq h, found?]
  cases hm : p.memberCall? with
  | none => rfl
  | some c =>
    cases ha : r.accepts c.1 with
    | false => simp [Except.bind, ha]
    | true =>
      cases ht : table.get? (.text (r.doc.textOf c.2.node)) with
      | none => simp [Except.bind, ha, ht]
      | some new =>
        cases hb : p.barrier?.isNone <;> simp [Except.bind, ha, ht, hb]

theorem value_step (h : r.table = .ok table) (p : Place) :
    (r.step p).value = .ok (r.move table p) := by
  rw [step, Run.value_bind, value_rename? h, move]
  cases r.found? table p <;> rfl

end Renaming

namespace Step

@[simp] theorem edits_append (a b : Step) : (a ++ b).edits = a.edits ++ b.edits := rfl

@[simp] theorem promoted_append (a b : Step) : (a ++ b).promoted = a.promoted ++ b.promoted := rfl

end Step

namespace Document

/-- The edit that folds a call with its callback, where the call is a statement of its own. -/
def foldMark? (doc : Document) (p : Place) (indent : Except Fault String) : Option Edit :=
  (Callback.of? doc p).bind fun cb => p.statement?.map fun s =>
    ⟨s, .replace (.folded (doc.fold s p cb indent)),
      "Converted (" ++ cb.errorName ++ ", " ++ cb.resultName ++ ") callback to try/catch"⟩

theorem value_foldEdit (doc : Document) (p : Place) (cb : Callback) (indent : Except Fault String) :
    (doc.foldEdit p cb indent).value = p.statement?.map fun s =>
      ⟨s, .replace (.folded (doc.fold s p cb indent)),
        "Converted (" ++ cb.errorName ++ ", " ++ cb.resultName ++ ") callback to try/catch"⟩ := by
  rw [foldEdit]
  cases p.statement? <;> rfl

end Document

namespace Rule

variable {r : Renaming} {table : MethodTable}

/-- What the rule for method calls does at one place. -/
def callMove (r : Renaming) (table : MethodTable) (indent : Except Fault String) (p : Place) :
    Step :=
  match r.found? table p with
  | some (name, new) =>
    ⟨[r.renameEdit name new], []⟩ ++
      match r.doc.foldMark? p indent with
      | some e => ⟨[e], p.promotion?.toList⟩
      | none => Step.ofAwait r.doc p
  | none => {}

theorem value_methodCallStep (h : r.table = .ok table) (indent : Value) (p : Place) :
    (methodCallStep r true indent p).value = .ok (callMove r table indent.indentUnit p) := by
  rw [methodCallStep, Run.value_bind, Renaming.value_rename? h, callMove]
  cases r.found? table p with
  | none => rfl
  | some x =>
    rw [Document.foldMark?]
    cases hc : Callback.of? r.doc p with
    | none => simp [Except.bind]
    | some cb =>
      have hv := r.doc.value_foldEdit p cb indent.indentUnit
      simp only [Option.map_some, Except.bind, if_true, Run.value_bind, Run.value_lift, hv,
        Option.bind_some]
      cases p.statement? <;> rfl

/-- What the rule for route handlers does at one place. -/
def routeMove (doc : Document) (p : Place) : Step :=
  if isOnAllRoutes doc p then
    { promoted := (p.callArguments.head?.filter fun f => f.isFunctionLiteral && !f.isAsync).toList }
  else if isSubscribe doc p && p.ancestors.any (isOnFastRender doc) && p.barrier?.isNone then
    Step.ofAwait doc p
  else {}

theorem value_fastRenderStep (doc : Document) (p : Place) :
    (fastRenderStep doc p).value = routeMove doc p := by
  rw [fastRenderStep, routeMove]
  cases isOnAllRoutes doc p with
  | true => rfl
  | false =>
    cases isSubscribe doc p && p.ancestors.any (isOnFastRender doc) with
    | false => rfl
    | true =>
      have hv := doc.value_awaitAllowed p
      cases hb : p.barrier?.isNone <;> simp [hb] at hv ⊢

/-- What the rule for user roles does at one place. -/
def rolesMove (r : Renaming) (table : MethodTable) (p : Place) : Step :=
  match oldPackageName? r.doc p with
  | some fragment => ⟨[packageEdit fragment], []⟩
  | none => r.move table p

theorem value_rolesStep (h : r.table = .ok table) (p : Place) :
    (rolesStep r p).value = .ok (rolesMove r table p) := by
  rw [rolesStep, rolesMove]
  cases oldPackageName? r.doc p with
  | none => exact Renaming.value_step h p
  | some fragment => rfl

end Rule

/-- In this pass the rule takes the step `g` at every place, and `late` finds the functions that it
promotes besides. -/
def Sweep.Does (s : Sweep) (pass : Pass) (g : Place → Step)
    (late : Draft → Except Fault (List Place)) : Prop :=
  ∃ t, (s.prepare pass).value = .ok t ∧ (∀ p, (t.step p).value = .ok (g p)) ∧ t.late = late

namespace Rule

variable {pass : Pass} {table : MethodTable}

def renameAll (doc : Document) (table : MethodTable) : Renaming := { doc, table := .ok table }

def renameOn (doc : Document) (table : MethodTable) (receiver : String) : Renaming :=
  { doc, table := .ok table, accepts := doc.isIdentifier receiver }

theorem renaming_does {info : RuleInfo} (h : pass.methods table = .ok table) :
    (Sweep.renaming info table).Does pass ((renameAll pass.doc table).move table) fun _ =>
      .ok [] := by
  refine ⟨_, rfl, fun p => ?_, rfl⟩
  rw [h]
  exact Renaming.value_step rfl p

theorem renamingOn_does {info : RuleInfo} {receiver : String} (h : pass.methods table = .ok table) :
    (Sweep.renamingOn info table receiver).Does pass
      ((renameOn pass.doc table receiver).move table) fun _ => .ok [] := by
  refine ⟨_, rfl, fun p => ?_, rfl⟩
  rw [h]
  exact Renaming.value_step rfl p

def apiTable : MethodTable := .ofNames ["findOne", "insert", "update", "upsert", "remove"]

def indexTable : MethodTable := .ofList [("_ensureIndex", "createIndexAsync")]

def userTable : MethodTable := .ofNames ["user"]

def rolesTable : MethodTable := .ofNames rolesMethods

theorem rolesMigration_does (h : pass.IsStandard rolesMigration) :
    rolesMigration.Does pass (rolesMove (renameOn pass.doc rolesTable "Roles") rolesTable)
      fun _ => .ok [] := by
  refine ⟨_, rfl, fun p => ?_, rfl⟩
  rw [h.methods_eq (by simp [sweeps])]
  exact value_rolesStep rfl p

theorem fastRenderAsync_does : fastRenderAsync.Does pass (routeMove pass.doc) fun _ => .ok [] := by
  refine ⟨_, rfl, fun p => ?_, rfl⟩
  rw [← value_fastRenderStep]
  rfl

def callTable : MethodTable := .ofNames ["call"]

theorem callAsync_does (h : pass.IsStandard callAsync) :
    callAsync.Does pass (callMove (renameOn pass.doc callTable "Meteor") callTable (.ok "  "))
      fun _ => .ok [] := by
  refine ⟨_, rfl, fun p => ?_, rfl⟩
  rw [h.methods_eq (by simp [sweeps]), h.folds, h.indent_eq]
  exact value_methodCallStep rfl (.text "  ") p

theorem callbackReport_does : callbackReport.Does pass (fun _ => {}) fun _ => .ok [] := by
  refine ⟨_, rfl, fun p => ?_, rfl⟩
  show Run.value (if _ then _ else _) = _
  split <;> rfl

/-- The cursors of a document, by the methods that return one unless others are configured. -/
def cursorsOf (doc : Document) : Cursors :=
  let c : Cursors := { queryMethods := Cursors.defaultQueryMethods }
  { c with names := c.boundNames doc }

def cursorTable : MethodTable := .ofNames ["count", "fetch", "forEach", "map"]

def renameCursors (doc : Document) : Renaming :=
  { doc, table := .ok cursorTable, accepts := (cursorsOf doc).permits doc }

/-- The cursors of a document, whichever methods count as queries. -/
def cursorsFor (queries : List String) (doc : Document) : Cursors where
  queryMethods := queries
  names := Cursors.boundNames { queryMethods := queries } doc

def renameCursorsFor (queries : List String) (doc : Document) : Renaming :=
  { doc, table := .ok cursorTable, accepts := (cursorsFor queries doc).permits doc }

theorem value_collect (queries : List String) (doc : Document) :
    (Cursors.collect queries doc).value = cursorsFor queries doc := by
  rw [Cursors.collect, cursorsFor]
  dsimp only
  split <;> rfl

/-- The functions that wait for something inside a renamed iterating call. -/
def waitingCallbacks (r : Renaming) (d : Draft) : Except Fault (List Place) :=
  (d.doc.places.mapM (waitingCallback? r d)).map fun cs => cs.filterMap (·)

theorem cursorAsync_does_for {queries : List String}
    (hm : pass.methods cursorTable = .ok cursorTable)
    (hq : (pass.option "query_methods" (.list (Cursors.defaultQueryMethods.map .text))).names =
      .ok queries) :
    cursorAsync.Does pass ((renameCursorsFor queries pass.doc).move cursorTable)
      (waitingCallbacks (renameCursorsFor queries pass.doc)) := by
  refine ⟨⟨(renameCursorsFor queries pass.doc).step,
    waitingCallbacks (renameCursorsFor queries pass.doc)⟩, ?_, Renaming.value_step rfl, rfl⟩
  show Run.value (_ >>= _) = _
  rw [Run.value_bind, Run.value_liftExcept, hq, Except.bind, Run.value_bind, Run.value_lift,
    value_collect, show pass.methods (.ofNames ["count", "fetch", "forEach", "map"]) = _ from hm]
  rfl

theorem cursorAsync_does (h : pass.IsStandard cursorAsync) :
    cursorAsync.Does pass ((renameCursors pass.doc).move cursorTable)
      (waitingCallbacks (renameCursors pass.doc)) :=
  cursorAsync_does_for (h.methods_eq (by simp [sweeps]) cursorTable) h.queryMethods_eq

end Rule
end Asyncify
