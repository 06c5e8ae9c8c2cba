import Asyncify.Proofs.Registrations
import Asyncify.Proofs.Runs

/-! Rules one after the other: what a rule's turn does to the text, and why a turn that fails does
nothing. -/
namespace Asyncify

namespace Run

variable {ε δ α : Type}

@[simp] theorem value_ofExcept (f : ε → δ) (r : Except ε α) : value (ofExcept f r) = r.mapError f :=
  rfl

@[simp] theorem value_attempt (m : Run ε α) :
    value (attempt m : Run δ (Except ε α)) = .ok m.value := rfl

end Run

namespace Engine

variable (e : Engine) (path : String)

/-- The text parses without a defect. -/
def parses (text : String) : Bool := !(e.parse (.ofPath path) text).info.hasError

/-- What a rule is given at its turn. -/
def passFor (source : String) (options : Entries Value) : Pass :=
  { path, doc := .ofParse source (e.parse (.ofPath path) source), options }

/-- The ways for a rule to fail at its turn. -/
inductive Fails (source : String) (rule : Rule) : Prop
  | options {f : Fault} (ho : e.config.optionsFor rule.info.id = .error f)
  | visit {options : Entries Value} {f : Fault}
      (ho : e.config.optionsFor rule.info.id = .ok options)
      (hv : (rule.visit (e.passFor path source options)).value = .error f)
  | output {options : Entries Value} {outcome : Outcome} {text : String}
      (ho : e.config.optionsFor rule.info.id = .ok options)
      (hv : (rule.visit (e.passFor path source options)).value = .ok outcome)
      (ht : outcome.output = some text) (hn : text ≠ source) (hp : e.parses path text = false)
  | changes {options : Entries Value} {outcome : Outcome} {text : String} {f : Fault}
      (ho : e.config.optionsFor rule.info.id = .ok options)
      (hv : (rule.visit (e.passFor path source options)).value = .ok outcome)
      (ht : outcome.output = some text) (hn : text ≠ source) (hp : e.parses path text = true)
      (hc : outcome.changes = .error f)

/-- What a rule leaves behind once its visit is over: nothing new, or a text that parses with the
report of its changes. -/
def settle (source : String) (outcome : Outcome) : Except Fault (String × List Change) :=
  match outcome.output with
  | none => .ok (source, [])
  | some text =>
    if text = source then .ok (source, [])
    else if e.parses path text then outcome.changes.map (text, ·)
    else .error .brokenOutput

variable {e path} {source : String} {rule : Rule} {rules : List Rule}

theorem value_applyRule : (e.applyRule rule source path).value =
    (e.config.optionsFor rule.info.id).bind fun options =>
      (rule.visit (e.passFor path source options)).value.bind (e.settle path source) := by
  rw [applyRule, Run.value_bind, Run.value_liftExcept]
  congr 1
  funext options
  rw [Run.value_bind, Parse.run]
  show (Run.value (_ >>= _)) = _
  rw [Run.value_bind]
  congr 1
  funext outcome
  rw [settle]
  cases outcome.output with
  | none => rfl
  | some text =>
    dsimp only
    split
    · rfl
    · rw [Run.value_bind]
      show Run.value (if (e.parse (.ofPath path) text).firstDefect?.isSome then _ else _) = _
      rw [Node.firstDefect?_isSome, parses]
      cases (e.parse (.ofPath path) text).info.hasError with
      | true => rfl
      | false => cases outcome.changes <;> rfl

/-- These are all the ways to fail. -/
theorem fails_iff :
    e.Fails path source rule ↔ ∃ f, (e.applyRule rule source path).value = .error f := by
  rw [value_applyRule]
  constructor
  · intro h
    cases h with
    | options ho => exact ⟨_, by rw [ho]; rfl⟩
    | visit ho hv => exact ⟨_, by rw [ho, Except.bind, hv]; rfl⟩
    | output ho hv ht hn hp =>
      exact ⟨.brokenOutput, by simp [ho, hv, Except.bind, settle, ht, hn, hp]⟩
    | changes ho hv ht hn hp hc =>
      exact ⟨_, by simp [ho, hv, Except.bind, settle, ht, hn, hp, hc, Except.map]; rfl⟩
  · rintro ⟨f, h⟩
    cases ho : e.config.optionsFor rule.info.id with
    | error f' => exact .options ho
    | ok options =>
      cases hv : (rule.visit (e.passFor path source options)).value with
      | error f' => exact .visit ho hv
      | ok outcome =>
        simp only [ho, hv, Except.bind, settle] at h
        split at h
        · cases h
        · next text ht =>
          split at h
          · cases h
          · next hn =>
            cases hp : e.parses path text with
            | false => exact .output ho hv ht hn hp
            | true =>
              cases hc : outcome.changes with
              | error f' => exact .changes ho hv ht hn hp hc
              | ok cs => simp [hp, hc, Except.map] at h

/-- A turn that succeeds keeps the text, or leaves one that parses. -/
theorem parses_of_applyRule {text : String} {changes : List Change}
    (h : (e.applyRule rule source path).value = .ok (text, changes)) (hs : e.parses path source) :
    e.parses path text := by
  rw [value_applyRule] at h
  cases ho : e.config.optionsFor rule.info.id with
  | error f => simp [ho, Except.bind] at h
  | ok options =>
    cases hv : (rule.visit (e.passFor path source options)).value with
    | error f => simp [ho, hv, Except.bind] at h
    | ok outcome =>
      simp only [ho, hv, Except.bind, settle] at h
      split at h
      · cases h
        exact hs
      · split at h
        · cases h
          exact hs
        · split at h
          · next hp =>
            cases hc : outcome.changes with
            | error f => simp [hc, Except.map] at h
            | ok cs =>
              rw [hc] at h
              cases h
              exact hp
          · cases h

variable (e path) in
/-- What a rule's turn leaves: its text and changes, or the text as it was if the rule fails. -/
def turn (source : String) (rule : Rule) : String × List Change :=
  match (e.applyRule rule source path).value with
  | .ok r => r
  | .error _ => (source, [])

theorem turn_of_fails (h : e.Fails path source rule) : e.turn path source rule = (source, []) := by
  obtain ⟨f, hf⟩ := fails_iff.1 h
  rw [turn, hf]

theorem parses_turn (rule : Rule) (hs : e.parses path source) :
    e.parses path (e.turn path source rule).1 := by
  rw [turn]
  split
  · next r h => exact parses_of_applyRule h hs
  · exact hs

theorem value_applyRules_cons : (e.applyRules path source (rule :: rules)).value =
    ((e.applyRules path (e.turn path source rule).1 rules).value.1,
      (e.turn path source rule).2 ++
        (e.applyRules path (e.turn path source rule).1 rules).value.2) := by
  rw [applyRules, Traced.value_bind, turn, Run.value]
  cases (ExceptT.run (e.applyRule rule source path)).value with
  | error f => rfl
  | ok r =>
    show Traced.value (if _ then _ else _) = _
    split <;> rfl

theorem value_applyRules_append {more : List Rule} :
    (e.applyRules path source (rules ++ more)).value =
      ((e.applyRules path (e.applyRules path source rules).value.1 more).value.1,
        (e.applyRules path source rules).value.2 ++
          (e.applyRules path (e.applyRules path source rules).value.1 more).value.2) := by
  induction rules generalizing source with
  | nil => rfl
  | cons rule rules ih => simp only [List.cons_append, value_applyRules_cons, ih, List.append_assoc]

/-- However many rules take their turn, the text parses. -/
theorem parses_applyRules (rules : List Rule) (hs : e.parses path source) :
    e.parses path (e.applyRules path source rules).value.1 := by
  induction rules generalizing source with
  | nil => exact hs
  | cons rule rules ih =>
    rw [value_applyRules_cons]
    exact ih (parses_turn rule hs)

/-- A rule that fails at its turn may as well be left out. -/
theorem applyRules_of_fails {more : List Rule}
    (h : e.Fails path (e.applyRules path source rules).value.1 rule) :
    (e.applyRules path source (rules ++ rule :: more)).value =
      (e.applyRules path source (rules ++ more)).value := by
  rw [value_applyRules_append, value_applyRules_append, value_applyRules_cons, turn_of_fails h]
  rfl

theorem value_checkSource_of_parses (hs : e.parses path source) :
    (e.checkSource source path).value = .ok () := by
  have hd : (e.parse (.ofPath path) source).firstDefect? = none := by
    rw [← Option.not_isSome_iff_eq_none, Node.firstDefect?_isSome]
    simpa [parses] using hs
  rw [checkSource, Run.value_bind, Parse.run, Run.value_lift]
  simp only [Except.bind, hd]
  rfl

theorem value_checkSource_of_not_parses (hs : e.parses path source = false) :
    ∃ pos, (e.checkSource source path).value = .error (.badSource path pos) := by
  have hd : (e.parse (.ofPath path) source).firstDefect?.isSome := by
    rw [Node.firstDefect?_isSome]
    simpa [parses] using hs
  obtain ⟨n, hn⟩ := Option.isSome_iff_exists.1 hd
  refine ⟨.ofOffsetBytes source.toList n.start, ?_⟩
  rw [checkSource, Run.value_bind, Parse.run, Run.value_lift]
  simp only [Except.bind, hn]
  rfl

/-- The result of a text that parses, once the selected rules are known. -/
theorem value_transform (hr : e.enabledRules = .ok rules) (hs : e.parses path source) :
    (e.transform source path).value =
      .ok { path
            source := (e.applyRules path source rules).value.1
            hasChanges := (e.applyRules path source rules).value.1 != source
            changes := (e.applyRules path source rules).value.2 } := by
  rw [transform, Run.value_bind, value_checkSource_of_parses hs, Except.bind, Run.value_bind,
    Run.value_ofExcept, hr]
  rfl

theorem value_transform_of_not_parses (hs : e.parses path source = false) :
    ∃ pos, (e.transform source path).value = .error (.badSource path pos) := by
  obtain ⟨pos, hc⟩ := value_checkSource_of_not_parses hs
  exact ⟨pos, by rw [transform, Run.value_bind, hc, Except.bind]⟩

end Engine

namespace Registry

variable {keep : String → Except Fault Bool} {xs ys rules : List Rule}

theorem filterRules_append : filterRules keep (xs ++ ys) =
    (filterRules keep xs).bind fun as => (filterRules keep ys).map (as ++ ·) := by
  induction xs with
  | nil => cases h : filterRules keep ys <;> simp [filterRules, Except.bind, Except.map, h]
  | cons x xs ih =>
    rw [List.cons_append, filterRules, filterRules, ih]
    cases keep x.info.id with
    | error f => rfl
    | ok kept =>
      cases filterRules keep xs with
      | error f => rfl
      | ok as => cases filterRules keep ys <;> cases kept <;> rfl

theorem filterRules_sublist (h : filterRules keep xs = .ok rules) : rules.Sublist xs := by
  induction xs generalizing rules with
  | nil =>
    cases h
    exact .slnil
  | cons x xs ih =>
    rw [filterRules] at h
    cases hk : keep x.info.id with
    | error f => rw [hk] at h; cases h
    | ok kept =>
      cases hr : filterRules keep xs with
      | error f => rw [hk, hr] at h; cases h
      | ok rest =>
        rw [hk, hr] at h
        cases h
        cases kept with
        | true => exact (ih hr).cons_cons x
        | false => exact (ih hr).cons x

/-- Either no rule is looked at, or each is judged by its own id. -/
theorem enabled_eq (patterns disabled : Value) :
    (∃ f, ∀ r : Registry, r.enabled patterns disabled = .error f) ∨
      (∀ r : Registry, r.enabled patterns disabled = .ok []) ∨
        ∃ keep, ∀ r : Registry, r.enabled patterns disabled = filterRules keep r.rules := by
  cases hp : patterns.isSet with
  | false => exact .inr (.inl fun r => by simp [enabled, hp])
  | true =>
    cases hm : disabled.members with
    | error f => exact .inl ⟨f, fun r => by simp [enabled, hp, hm, bind, Except.bind]⟩
    | ok off =>
      cases hk : off.mapM Value.key with
      | error f => exact .inl ⟨f, fun r => by simp [enabled, hp, hm, hk, bind, Except.bind]⟩
      | ok ks =>
        exact .inr (.inr ⟨selects patterns ks,
          fun r => by simp [enabled, hp, hm, hk, bind, Except.bind]⟩)

end Registry

namespace Engine

variable (e : Engine) {path source : String} {xs ys rules : List Rule}

/-- The engine with other rules. -/
def withRules (rules : List Rule) : Engine :=
  { e with registry := { rules, index := rules.map fun x => (x.info.id, x) } }

theorem applyRules_withRules (xs : List Rule) (path source : String) (rules : List Rule) :
    (e.withRules xs).applyRules path source rules = e.applyRules path source rules := by
  induction rules generalizing source with
  | nil => rfl
  | cons rule rules ih => simp only [applyRules, ih]; rfl

/-- Rules are selected one by one. -/
theorem enabledRules_append : (e.withRules (xs ++ ys)).enabledRules = .ok rules ↔
    ∃ as bs, (e.withRules xs).enabledRules = .ok as ∧ (e.withRules ys).enabledRules = .ok bs ∧
      rules = as ++ bs := by
  simp only [enabledRules, withRules]
  cases e.config.disabledRules with
  | error f => simp [bind, Except.bind]
  | ok off =>
    simp only [bind, Except.bind]
    obtain ⟨f, h⟩ | h | ⟨keep, h⟩ :=
      Registry.enabled_eq e.config.enabledRules (.list (off.map .scalar))
    · simp [h]
    · simp [h, eq_comm]
    · simp only [h, Registry.filterRules_append]
      cases Registry.filterRules keep xs with
      | error f => simp [Except.bind]
      | ok as => cases Registry.filterRules keep ys <;> simp [Except.bind, Except.map, eq_comm]

theorem enabledRules_sublist (h : e.enabledRules = .ok rules) : rules.Sublist e.registry.rules := by
  rw [enabledRules] at h
  cases hd : e.config.disabledRules with
  | error f => rw [hd] at h; cases h
  | ok off =>
    simp only [hd, bind, Except.bind] at h
    obtain ⟨f, he⟩ | he | ⟨keep, he⟩ :=
      Registry.enabled_eq e.config.enabledRules (.list (off.map .scalar))
    · rw [he] at h
      cases h
    · rw [he] at h
      cases h
      exact List.nil_sublist _
    · rw [he] at h
      exact Registry.filterRules_sublist h

end Engine

/-- A text with a defect is refused and any other text has a result, which parses. A rule that fails
at its turn, on what the rules before it left, is not seen in the result. -/
theorem Engine.transform_isolates (e : Engine) (path source : String) {rules : List Rule}
    (hr : e.enabledRules = .ok rules) :
    ((∃ pos, (e.transform source path).value = .error (.badSource path pos)) ↔
        (e.parse (.ofPath path) source).info.hasError) ∧
      ((e.parse (.ofPath path) source).info.hasError = false →
        ∃ r, (e.transform source path).value = .ok r ∧
          (e.parse (.ofPath path) r.source).info.hasError = false) ∧
      ∀ before rule after r, e.registry.rules = before ++ rule :: after →
        ((e.withRules before).transform source path).value = .ok r → e.Fails path r.source rule →
          (e.transform source path).value =
            ((e.withRules (before ++ after)).transform source path).value := by
  cases hs : e.parses path source with
  | false =>
    obtain ⟨pos, hp⟩ := value_transform_of_not_parses hs
    have herr : (e.parse (.ofPath path) source).info.hasError = true := by simpa [parses] using hs
    refine ⟨iff_of_true ⟨pos, hp⟩ herr, fun h => by simp [herr] at h, ?_⟩
    intro before rule after r _ hb _
    obtain ⟨pos', hp'⟩ := value_transform_of_not_parses (e := e.withRules before) hs
    rw [hp'] at hb
    cases hb
  | true =>
    have herr : (e.parse (.ofPath path) source).info.hasError = false := by simpa [parses] using hs
    have ht := value_transform hr hs
    refine ⟨iff_of_false ?_ (by simp [herr]), fun _ => ⟨_, ht, ?_⟩, ?_⟩
    · rintro ⟨pos, hp⟩
      rw [ht] at hp
      cases hp
    · simpa [parses] using parses_applyRules rules hs
    · intro before rule after r he hb hf
      -- The selected rules split at the failing one, which may or may not be among them.
      have hr' : (e.withRules (before ++ ([rule] ++ after))).enabledRules = .ok rules := by
        rw [List.singleton_append, ← he]
        exact hr
      obtain ⟨as, _, ha, hmore, rfl⟩ := (e.enabledRules_append).1 hr'
      obtain ⟨cs, bs, hc, hbs, rfl⟩ := (e.enabledRules_append).1 hmore
      have hwithout := (e.enabledRules_append).2 ⟨as, bs, ha, hbs, rfl⟩
      have hparses : (e.withRules (before ++ after)).parses path source := hs
      have hfinal := value_transform hwithout hparses
      rw [value_transform (e := e.withRules before) ha hs] at hb
      cases hb
      rw [ht, hfinal]
      simp only [applyRules_withRules] at hf ⊢
      obtain rfl | rfl := List.sublist_singleton.1 ((e.withRules [rule]).enabledRules_sublist hc)
      · rfl
      · rw [List.singleton_append, applyRules_of_fails hf]

namespace Turns

/-- A rule that writes a text behind the source. -/
def appending (id text : String) : Rule where
  info := { id, description := "Append " ++ text }
  visit pass := return {
    output := some (pass.doc.text ++ text)
    changes := .ok [⟨.add, "Appended " ++ text, ⟨1, 1⟩, none, .text text⟩] }

def crashing (id : String) : Rule where
  info := { id, description := "Fail" }
  visit _ := throw .missingNode

/-- Every text parses that has no exclamation mark. -/
def parse : Parse := fun _ text =>
  .mk { symbol := "program", named := true, missing := false, hasError := text.toList.contains '!',
        fields := [], start := 0, stop := 0 } []

/-- One rule writes a text that does not parse, one fails, and one has an id that is taken. -/
def registered : List Rule :=
  [appending "first" "x", appending "loud" "!", crashing "stuck", appending "first" "y",
    appending "last" "z"]

def engine : Engine where
  registry := (Registry.registerAll {} registered).value
  config := .standard
  parse

theorem enabledRules_withRules (rules : List Rule)
    (h : ∀ rule ∈ rules, rule.info.id ∈ ["first", "loud", "stuck", "last"]) :
    (engine.withRules rules).enabledRules = .ok rules := by
  have hm : ∀ id ∈ ["first", "loud", "stuck", "last"], Wildcard.isMatch "*" id = true := by
    decide +kernel
  show Registry.filterRules (Registry.selects (.list [.text "*"]) []) rules = _
  induction rules with
  | nil => rfl
  | cons rule rules ih =>
    have hkeep : Registry.selects (.list [.text "*"]) [] rule.info.id = .ok true := by
      show Registry.matchesAny rule.info.id [.text "*"] = .ok true
      rw [Registry.matchesAny, if_pos (hm _ (h rule List.mem_cons_self))]
    rw [Registry.filterRules, hkeep, ih fun x hx => h x (List.mem_cons_of_mem _ hx)]
    rfl

theorem enabledRules : engine.enabledRules =
    .ok [appending "first" "x", appending "loud" "!", crashing "stuck", appending "last" "z"] :=
  enabledRules_withRules _ (by decide)

end Turns

/-- The output of the second rule does not parse, and the result is as if there were no such
rule. -/
theorem Engine.transform_isolates_loud :
    ((Turns.engine.withRules [Turns.appending "first" "x"]).transform "s" "a.js").value.map
      (·.source) = .ok "sx" ∧
      Turns.engine.Fails "a.js" "sx" (Turns.appending "loud" "!") ∧
      (∃ r, (Turns.engine.transform "s" "a.js").value = .ok r ∧
        (Turns.parse (.ofPath "a.js") r.source).info.hasError = false) ∧
      (Turns.engine.transform "s" "a.js").value =
        ((Turns.engine.withRules [Turns.appending "first" "x", Turns.crashing "stuck",
          Turns.appending "last" "z"]).transform "s" "a.js").value := by
  have hf : Turns.engine.Fails "a.js" "sx" (Turns.appending "loud" "!") :=
    .output rfl rfl rfl (by decide) rfl
  have h := transform_isolates Turns.engine "a.js" "s" Turns.enabledRules
  have hfirst := Turns.enabledRules_withRules [Turns.appending "first" "x"] (by decide)
  have hparses : (Turns.engine.withRules [Turns.appending "first" "x"]).parses "a.js" "s" := rfl
  have hb := value_transform hfirst hparses
  refine ⟨by rw [hb]; rfl, hf, h.2.1 rfl, h.2.2 [_] _ [_, _] _ rfl hb hf⟩

namespace Engine

/-- The text to go on with after a run: its result, or the text before it if the run failed. -/
def kept (source : String) : Except Error Result → String
  | .ok r => r.source
  | .error _ => source

def finalSource (source : String) (runs : List (Except Error Result)) : String :=
  runs.foldl kept source

def changesOf : Except Error Result → List Change
  | .ok r => r.changes
  | .error _ => []

variable {e : Engine} {path source : String} {rule : Rule} {rules : List Rule}

theorem value_runRule (hg : e.registry.get? rule.info.id = some rule) (hs : e.parses path source) :
    (e.runRule rule.info.id source path).value =
      match (e.applyRule rule source path).value with
      | .ok r => .ok { path, source := r.1, hasChanges := r.1 != source, changes := r.2 }
      | .error f => .error (.ruleFailed rule.info.id f) := by
  rw [runRule, Run.value_bind, Run.value_liftExcept, Registry.require, hg]
  dsimp only [Except.bind]
  rw [Run.value_bind, value_checkSource_of_parses hs, Except.bind, Run.value_bind,
    Run.value_attempt, Except.bind]
  cases (e.applyRule rule source path).value <;> rfl

theorem value_stages_cons (id : String) (more : List Stage) :
    (e.stages path source (.one id :: more)).value =
      (e.runRule id source path).value ::
        (e.stages path (kept source (e.runRule id source path).value) more).value := by
  rw [stages]
  simp only [Traced.value_bind, Traced.value_pure, Run.value]
  cases (ExceptT.run (e.runRule id source path)).value <;> rfl

theorem length_stages (rules : List Rule) :
    (e.stages path source (rules.map fun x => .one x.info.id)).value.length = rules.length := by
  induction rules generalizing source with
  | nil => rfl
  | cons rule rules ih =>
    rw [List.map_cons, value_stages_cons, List.length_cons, ih, List.length_cons]

/-- A run of one rule keeps what its turn leaves. -/
theorem kept_runRule (hg : e.registry.get? rule.info.id = some rule) (hs : e.parses path source) :
    (kept source (e.runRule rule.info.id source path).value,
      changesOf (e.runRule rule.info.id source path).value) = e.turn path source rule := by
  rw [value_runRule hg hs, turn]
  cases (e.applyRule rule source path).value <;> rfl

/-- Rules that run alone, one after the other, leave what they leave when they run together. -/
theorem stages_eq_applyRules (hg : ∀ rule ∈ rules, e.registry.get? rule.info.id = some rule)
    (hs : e.parses path source) :
    (finalSource source (e.stages path source (rules.map fun x => .one x.info.id)).value,
      (e.stages path source (rules.map fun x => .one x.info.id)).value.flatMap changesOf) =
        (e.applyRules path source rules).value := by
  induction rules generalizing source with
  | nil => rfl
  | cons rule rules ih =>
    have hk := kept_runRule (hg rule List.mem_cons_self) hs
    have hrest := ih (fun x hx => hg x (List.mem_cons_of_mem _ hx)) (parses_turn rule hs)
    rw [List.map_cons, value_stages_cons, value_applyRules_cons, ← hrest, ← hk]
    rfl

/-- Rules that run alone on texts that parse fail only by themselves. -/
theorem stages_fail_alone (hg : ∀ rule ∈ rules, e.registry.get? rule.info.id = some rule)
    (hs : e.parses path source) {err : Error}
    (h : .error err ∈ (e.stages path source (rules.map fun x => .one x.info.id)).value) :
    ∃ rule ∈ rules, ∃ f, err = .ruleFailed rule.info.id f := by
  induction rules generalizing source with
  | nil => cases h
  | cons rule rules ih =>
    have hrule := hg rule List.mem_cons_self
    rw [List.map_cons, value_stages_cons] at h
    obtain h | h := List.mem_cons.1 h
    · rw [value_runRule hrule hs] at h
      cases ha : (e.applyRule rule source path).value with
      | ok r => rw [ha] at h; cases h
      | error f =>
        rw [ha] at h
        cases h
        exact ⟨rule, List.mem_cons_self, f, rfl⟩
    · have hk : kept source (e.runRule rule.info.id source path).value =
          (e.turn path source rule).1 :=
        congrArg Prod.fst (kept_runRule hrule hs)
      rw [hk] at h
      obtain ⟨x, hx, hf⟩ :=
        ih (fun x hx => hg x (List.mem_cons_of_mem _ hx)) (parses_turn rule hs) h
      exact ⟨x, List.mem_cons_of_mem _ hx, hf⟩

end Engine

/-- Running the selected rules one at a time, by their ids and each on what the last successful run
left, gives the same text and changes as running them all. None of these runs misses its rule or
refuses its text. -/
theorem Engine.transform_eq_stages (e : Engine) (path source : String)
    {registered rules : List Rule} (hreg : e.registry = (Registry.registerAll {} registered).value)
    (hr : e.enabledRules = .ok rules) (hs : (e.parse (.ofPath path) source).info.hasError = false) :
    let runs := (e.stages path source (rules.map fun x => .one x.info.id)).value
    ∃ r, (e.transform source path).value = .ok r ∧ r.source = finalSource source runs ∧
      r.changes = runs.flatMap changesOf ∧ r.hasChanges = (finalSource source runs != source) ∧
      runs.length = rules.length ∧
      ∀ err, .error err ∈ runs → ∃ rule ∈ rules, ∃ f, err = .ruleFailed rule.info.id f := by
  intro runs
  have hparses : e.parses path source := by simpa [parses] using hs
  have hsound : e.registry.Sound := by
    rw [hreg]
    exact Registry.sound_empty.registerAll registered
  have hg : ∀ rule ∈ rules, e.registry.get? rule.info.id = some rule := fun rule hm =>
    hsound.get?_eq_some.2 ⟨(e.enabledRules_sublist hr).subset hm, rfl⟩
  have heq := stages_eq_applyRules hg hparses
  refine ⟨_, value_transform hr hparses, ?_, ?_, ?_, ?_,
    fun err h => stages_fail_alone hg hparses h⟩
  · rw [← heq]
  · rw [← heq]
  · rw [← heq]
  · exact length_stages rules

/-- Two of the four rules fail, alone as well as together. -/
theorem Engine.transform_eq_stages_failing :
    (Turns.parse (.ofPath "a.js") "s").info.hasError = false ∧
      ∃ r, (Turns.engine.transform "s" "a.js").value = .ok r ∧ r.source = "sxz" ∧
        r.source = finalSource "s" (Turns.engine.stages "a.js" "s"
          [.one "first", .one "loud", .one "stuck", .one "last"]).value := by
  have hreg : Turns.engine.registry = (Registry.registerAll {} Turns.registered).value := rfl
  obtain ⟨r, hr, hsource, -⟩ :=
    transform_eq_stages Turns.engine "a.js" "s" hreg Turns.enabledRules rfl
  refine ⟨rfl, r, hr, ?_, hsource⟩
  rw [hsource]
  rfl

end Asyncify
