import Asyncify.Config.Load
import Asyncify.Proofs.Lookup
import Asyncify.Proofs.Runs

/-! Loading a configuration. A document is laid over the standard configuration key by key and rule
by rule, or it leaves no trace at all in the configuration. -/
namespace Asyncify

namespace Config

variable {base merged doc : Entries Value} {rest : List (Key × Value)} {rule : Key}
  {options v : Value}

/-- The options that a value stands for: none if it is not set. -/
def optionsIn (v : Value) : Except Fault (Entries Value) :=
  if v.isSet then v.entries else .ok .empty

theorem optionsIn_map (es : Entries Value) : optionsIn (.map es) = .ok es := by
  rw [optionsIn, Value.isSet]
  cases h : es.keys.toList with
  | nil => rw [Entries.eq_empty h]; rfl
  | cons k ks => rfl

theorem entries_orEmpty (v : Value) : (orEmpty v).entries = optionsIn v := by
  rw [orEmpty, optionsIn]
  split <;> rfl

theorem optionsIn_orEmpty (v : Value) : optionsIn (orEmpty v) = optionsIn v := by
  cases h : v.isSet with
  | true => rw [orEmpty, if_pos h]
  | false => rw [orEmpty, if_neg (by simp [h]), optionsIn, optionsIn, h]; rfl

theorem orEmpty_map (es : Entries Value) : orEmpty (.map es) = .map es := by
  rw [orEmpty, Value.isSet]
  cases h : es.keys.toList with
  | nil => rw [Entries.eq_empty h]; rfl
  | cons k ks => rfl

/-- What a rule has once options are set for it: they are laid over what it had, if that is a
map. -/
def laidOver (old : Option Value) (options : Value) : Except Fault Value :=
  match old with
  | some (.map es) => (optionsIn options).map fun more => .map (es.putAll more.toList)
  | _ => .ok (orEmpty options)

theorem mergeRule_eq (base : Entries Value) (rule : Key) (options : Value) :
    mergeRule base rule options = (laidOver (base.get? rule) options).map (base.put rule) := by
  rw [mergeRule]
  cases base.get? rule with
  | none => rfl
  | some old =>
    cases old with
    | map es =>
      dsimp only [laidOver]
      rw [entries_orEmpty]
      cases optionsIn options <;> rfl
    | _ => rfl

theorem mergeRules_cons {e : Key × Value} (h : mergeRules base (e :: rest) = .ok merged) :
    ∃ w, laidOver (base.get? e.1) e.2 = .ok w ∧ mergeRules (base.put e.1 w) rest = .ok merged := by
  obtain ⟨b, hb, hm⟩ := Except.bind_eq_ok.1 h
  rw [mergeRule_eq] at hb
  cases hw : laidOver (base.get? e.1) e.2 with
  | error f => rw [hw] at hb; cases hb
  | ok w =>
    rw [hw] at hb
    cases hb
    exact ⟨w, rfl, hm⟩

/-- Each rule is merged with what the document says of it, and with nothing else. -/
theorem get?_mergeRules (hd : Entries.Distinct rest) (h : mergeRules base rest = .ok merged)
    (q : Key) :
    (Entries.find? rest q = none ∧ merged.get? q = base.get? q) ∨
      ∃ options w, Entries.find? rest q = some options ∧ laidOver (base.get? q) options = .ok w ∧
        merged.get? q = some w := by
  induction rest generalizing base with
  | nil =>
    cases h
    exact Or.inl ⟨rfl, rfl⟩
  | cons e rest ih =>
    obtain ⟨rule, options⟩ := e
    obtain ⟨w, hw, hm⟩ := mergeRules_cons h
    have hlater := ih (List.pairwise_cons.1 hd).2 hm
    rw [Entries.get?_put] at hlater
    rw [Entries.find?_cons]
    by_cases hq : rule.same q
    · obtain ⟨-, hget⟩ | ⟨options', w', hsome, -, -⟩ := hlater
      · rw [if_pos hq] at hget
        rw [Entries.get?_congr hq] at hw
        exact Or.inr ⟨options, w, if_pos hq, hw, hget⟩
      · rw [hd.find?_tail hq] at hsome
        cases hsome
    · rw [if_neg hq] at hlater ⊢
      exact hlater

/-- The merge succeeds just if it does so for each rule alone. -/
theorem exists_mergeRules_iff (hd : Entries.Distinct rest) :
    (∃ merged, mergeRules base rest = .ok merged) ↔
      ∀ e ∈ rest, ∃ w, laidOver (base.get? e.1) e.2 = .ok w := by
  induction rest generalizing base with
  | nil => exact iff_of_true ⟨base, rfl⟩ (by simp)
  | cons e rest ih =>
    obtain ⟨hrule, hrest⟩ := List.pairwise_cons.1 hd
    -- Setting one rule does not touch what the others have.
    have hsame : ∀ w, (∀ f ∈ rest, ∃ x, laidOver ((base.put e.1 w).get? f.1) f.2 = .ok x) ↔
        ∀ f ∈ rest, ∃ x, laidOver (base.get? f.1) f.2 = .ok x := by
      intro w
      refine forall₂_congr fun f hf => ?_
      rw [Entries.get?_put, if_neg (by simp [hrule f hf])]
    rw [List.forall_mem_cons]
    constructor
    · rintro ⟨merged, h⟩
      obtain ⟨w, hw, hm⟩ := mergeRules_cons h
      exact ⟨⟨w, hw⟩, (hsame w).1 ((ih hrest).1 ⟨merged, hm⟩)⟩
    · rintro ⟨⟨w, hw⟩, hall⟩
      obtain ⟨merged, hm⟩ := (@ih (base.put e.1 w) hrest).2 ((hsame w).2 hall)
      refine ⟨merged, Except.bind_eq_ok.2 ⟨base.put e.1 w, ?_, hm⟩⟩
      rw [mergeRule_eq, hw]
      rfl

/-- The options that a rule has without a document. -/
def standardOptions? (rule : Key) : Option (Entries Value) :=
  match standardRuleConfigs.get? rule with
  | some (.map es) => some es
  | _ => none

/-- What a document says of a rule. -/
def given? (doc : Entries Value) (rule : String) : Option Value :=
  match doc.get? (.text "rule_configs") with
  | some (.map es) => es.get? (.text rule)
  | _ => none

def unknownKeys (doc : Entries Value) : List Key := doc.keys.toList.filter fun k => !isKnown k

/-- The document can be laid over the standard configuration: its unknown keys can be listed in
order, and what it says of the rules is a map in which the rules that have options are given further
ones. -/
structure Mergeable (doc : Entries Value) : Prop where
  comparable : Key.Comparable (unknownKeys doc)
  rules : ∀ v, doc.get? (.text "rule_configs") = some v → v.isSet → ∃ es, v = .map es ∧
    ∀ e ∈ es.toList, (standardOptions? e.1).isSome → ∃ more, optionsIn e.2 = .ok more

/-- The configuration is the standard one with the whole document laid over it. -/
structure Merges (doc : Entries Value) (c : Config) : Prop where
  enabledRules : c.enabledRules = match doc.get? (.text "enabled_rules") with
    | none => standard.enabledRules
    | some (.text s) => .list [.text s]
    | some v => v
  transforms : c.transforms = match doc.get? (.text "transforms") with
    | none | some .null => standard.transforms
    | some v => v
  plugins : c.plugins = match doc.get? (.text "plugins") with
    | none | some .null => standard.plugins
    | some v => v
  verbose : c.verbose = (doc.get? (.text "verbose")).getD standard.verbose
  /-- A rule that the document does not mention keeps its options. -/
  kept : ∀ rule, given? doc rule = none → c.optionsFor rule = standard.optionsFor rule
  /-- The options in the document are laid over those that a rule has. -/
  laid : ∀ rule options own, given? doc rule = some options →
    standardOptions? (.text rule) = some own →
    ∃ more os, optionsIn options = .ok more ∧ c.optionsFor rule = .ok os ∧
      ∀ key, os.get? key = (more.get? key).or (own.get? key)
  /-- A rule without any takes those in the document. -/
  taken : ∀ rule options, given? doc rule = some options → standardOptions? (.text rule) = none →
    c.optionsFor rule = optionsIn options

theorem optionsFor_eq {c : Config} (h : c.ruleConfigs = .map merged) (rule : String) :
    c.optionsFor rule = optionsIn ((merged.get? (.text rule)).getD .null) := by
  rw [optionsFor, h]
  rfl

theorem laidOver_of_some {own : Entries Value} {w : Value} (hown : standardOptions? rule = some own)
    (h : laidOver (standardRuleConfigs.get? rule) options = .ok w) :
    ∃ more, optionsIn options = .ok more ∧ w = .map (own.putAll more.toList) := by
  rw [standardOptions?] at hown
  split at hown
  · next es hes =>
    cases hown
    rw [hes, laidOver] at h
    cases hmore : optionsIn options with
    | error f => rw [hmore] at h; cases h
    | ok more =>
      rw [hmore] at h
      cases h
      exact ⟨more, rfl, rfl⟩
  · cases hown

theorem laidOver_of_none (hown : standardOptions? rule = none) (options : Value) :
    laidOver (standardRuleConfigs.get? rule) options = .ok (orEmpty options) := by
  rw [standardOptions?] at hown
  split at hown
  · cases hown
  · next hnot =>
    rw [laidOver]
    exact hnot

theorem exists_laidOver_iff : (∃ w, laidOver (standardRuleConfigs.get? rule) options = .ok w) ↔
    ((standardOptions? rule).isSome → ∃ more, optionsIn options = .ok more) := by
  cases hown : standardOptions? rule with
  | none => exact iff_of_true ⟨_, laidOver_of_none hown options⟩ (by simp)
  | some own =>
    constructor
    · rintro ⟨w, hw⟩ -
      obtain ⟨more, hmore, -⟩ := laidOver_of_some hown hw
      exact ⟨more, hmore⟩
    · intro h
      obtain ⟨more, hmore⟩ := h rfl
      rw [standardOptions?] at hown
      split at hown
      · next es hes => exact ⟨_, by rw [hes, laidOver, hmore]; rfl⟩
      · cases hown

/-- The section on rules is a map, or it is not set and says nothing; anything else is refused. -/
theorem mergedRuleConfigs_cases (doc : Entries Value) :
    (∃ es, doc.get? (.text "rule_configs") = some (.map es) ∧
        mergedRuleConfigs doc = (mergeRules standardRuleConfigs es.toList).map .map) ∨
      ((∀ v, doc.get? (.text "rule_configs") = some v → v.isSet = false) ∧
        (∀ rule, given? doc rule = none) ∧
        mergedRuleConfigs doc = .ok (.map standardRuleConfigs)) ∨
      ∃ v f, doc.get? (.text "rule_configs") = some v ∧ v.isSet ∧ (∀ es, v ≠ .map es) ∧
        mergedRuleConfigs doc = .error f := by
  cases hv : doc.get? (.text "rule_configs") with
  | none =>
    refine Or.inr (Or.inl ⟨nofun, fun rule => by simp only [given?, hv], ?_⟩)
    simp only [mergedRuleConfigs, hv]
  | some v =>
    by_cases hmap : ∃ es, v = .map es
    · obtain ⟨es, rfl⟩ := hmap
      refine Or.inl ⟨es, rfl, ?_⟩
      simp only [mergedRuleConfigs, hv, orEmpty_map]
    · right
      cases hset : v.isSet with
      | false =>
        left
        refine ⟨?_, ?_, ?_⟩
        · rintro w ⟨⟩
          exact hset
        · intro rule
          rw [given?, hv]
          cases v with
          | map es => exact (hmap ⟨es, rfl⟩).elim
          | _ => rfl
        · simp only [mergedRuleConfigs, hv, orEmpty, hset]
          rfl
      | true =>
        right
        refine ⟨v, .notMap v.shape "items", rfl, hset, fun es he => hmap ⟨es, he⟩, ?_⟩
        simp only [mergedRuleConfigs, hv, orEmpty, hset, if_true]
        cases v with
        | map es => exact (hmap ⟨es, rfl⟩).elim
        | _ => rfl

theorem exists_mergedRuleConfigs_iff :
    (∃ w, mergedRuleConfigs doc = .ok w) ↔
      ∀ v, doc.get? (.text "rule_configs") = some v → v.isSet → ∃ es, v = .map es ∧
        ∀ e ∈ es.toList, (standardOptions? e.1).isSome → ∃ more, optionsIn e.2 = .ok more := by
  obtain ⟨es, hv, hm⟩ | ⟨hunset, -, hm⟩ | ⟨v, f, hv, hset, hnot, hm⟩ := mergedRuleConfigs_cases doc
  · have hall : (∃ w, mergedRuleConfigs doc = .ok w) ↔
        ∀ e ∈ es.toList, (standardOptions? e.1).isSome → ∃ more, optionsIn e.2 = .ok more := by
      rw [hm]
      have hmap : (∃ w, (mergeRules standardRuleConfigs es.toList).map Value.map = .ok w) ↔
          ∃ merged, mergeRules standardRuleConfigs es.toList = .ok merged := by
        cases mergeRules standardRuleConfigs es.toList <;> simp [Except.map]
      rw [hmap, exists_mergeRules_iff es.distinct_toList]
      exact forall₂_congr fun e _ => exists_laidOver_iff
    rw [hall, hv]
    constructor
    · rintro h v hv' -
      cases hv'
      exact ⟨es, rfl, h⟩
    · intro h e he
      have hset : (Value.map es).isSet := by
        rw [Value.isSet]
        cases hk : es.keys.toList with
        | nil => rw [Entries.eq_empty hk] at he; cases he
        | cons => rfl
      obtain ⟨es', hes', hall⟩ := h _ rfl hset
      cases hes'
      exact hall e he
  · refine iff_of_true ⟨_, hm⟩ fun v hv hset => ?_
    rw [hunset v hv] at hset
    cases hset
  · refine iff_of_false ?_ ?_
    · rintro ⟨w, hw⟩
      rw [hm] at hw
      cases hw
    · intro h
      obtain ⟨es, he, -⟩ := h v hv hset
      exact hnot es he

/-- What the merged section says of each rule. -/
theorem get?_mergedRuleConfigs (h : mergedRuleConfigs doc = .ok v) :
    ∃ merged : Entries Value, v = .map merged ∧ ∀ rule,
      (given? doc rule = none ∧ merged.get? (.text rule) = standardRuleConfigs.get? (.text rule)) ∨
        ∃ options w, given? doc rule = some options ∧
          laidOver (standardRuleConfigs.get? (.text rule)) options = .ok w ∧
          merged.get? (.text rule) = some w := by
  obtain ⟨es, hv, hm⟩ | ⟨-, hgiven, hm⟩ | ⟨-, f, -, -, -, hm⟩ := mergedRuleConfigs_cases doc
  · cases hr : mergeRules standardRuleConfigs es.toList with
    | error f =>
      rw [hm, hr] at h
      cases h
    | ok merged =>
      rw [hm, hr] at h
      cases h
      refine ⟨merged, rfl, fun rule => ?_⟩
      have hgiven : given? doc rule = es.get? (.text rule) := by rw [given?, hv]
      rw [hgiven]
      exact get?_mergeRules es.distinct_toList hr (.text rule)
  · rw [hm] at h
    cases h
    exact ⟨_, rfl, fun rule => Or.inl ⟨hgiven rule, rfl⟩⟩
  · rw [hm] at h
    cases h

/-- The configuration of a document, once the section on rules is merged. -/
def assembled (doc : Entries Value) (ruleConfigs : Value) : Config where
  enabledRules := asPatterns (field doc "enabled_rules" standard.enabledRules)
  transforms := orUnset (field doc "transforms" standard.transforms) standard.transforms
  ruleConfigs
  plugins := orUnset (field doc "plugins" standard.plugins) standard.plugins
  verbose := field doc "verbose" standard.verbose

theorem orUnset_self (v : Value) : orUnset v v = v := by
  fun_cases orUnset v v <;> rfl

theorem merges_assembled (h : mergedRuleConfigs doc = .ok v) : Merges doc (assembled doc v) := by
  obtain ⟨merged, rfl, hget⟩ := get?_mergedRuleConfigs h
  have hfor : ∀ rule, (assembled doc (.map merged)).optionsFor rule =
      optionsIn ((merged.get? (.text rule)).getD .null) := optionsFor_eq rfl
  have horUnset : ∀ (name : String) (unset : Value),
      orUnset (field doc name unset) unset = match doc.get? (.text name) with
        | none | some .null => unset
        | some v => v := by
    intro name unset
    rw [field]
    cases doc.get? (.text name) with
    | none => exact orUnset_self unset
    | some v =>
      cases v with
      | scalar k => cases k <;> rfl
      | _ => rfl
  constructor
  · show asPatterns (field doc "enabled_rules" standard.enabledRules) = _
    rw [field]
    cases doc.get? (.text "enabled_rules") with
    | none => rfl
    | some v =>
      cases v with
      | scalar k => cases k <;> rfl
      | _ => rfl
  · exact horUnset "transforms" standard.transforms
  · exact horUnset "plugins" standard.plugins
  · rfl
  · intro rule hnone
    obtain ⟨-, hkept⟩ | ⟨options, -, hsome, -⟩ := hget rule
    · rw [hfor, hkept, optionsFor_eq rfl]
    · rw [hnone] at hsome
      cases hsome
  · intro rule options own hgiven hown
    obtain ⟨hnone, -⟩ | ⟨options', w, hsome, hw, hmerged⟩ := hget rule
    · rw [hgiven] at hnone
      cases hnone
    · obtain rfl := Option.some.inj (hgiven.symm.trans hsome)
      obtain ⟨more, hmore, rfl⟩ := laidOver_of_some hown hw
      refine ⟨more, own.putAll more.toList, hmore, ?_, Entries.get?_putAll own more⟩
      rw [hfor, hmerged]
      exact optionsIn_map _
  · intro rule options hgiven hown
    obtain ⟨hnone, -⟩ | ⟨options', w, hsome, hw, hmerged⟩ := hget rule
    · rw [hgiven] at hnone
      cases hnone
    · obtain rfl := Option.some.inj (hgiven.symm.trans hsome)
      rw [laidOver_of_none hown] at hw
      cases hw
      rw [hfor, hmerged]
      exact optionsIn_orEmpty options

/-- The warning that names the unknown keys of a document, if they can be put in order. -/
def notice (path : String) (doc : Entries Value) : List Event :=
  match Key.sort (unknownKeys doc) with
  | .error _ | .ok [] => []
  | .ok keys =>
    [.log ⟨.warning, "Ignoring unknown config keys in " ++ path ++ ": " ++
      (Value.list (keys.map .scalar)).quoted⟩]

/-- The two warnings after a document that was not taken. -/
def fallback (path why : String) : List Event :=
  [.log ⟨.warning, "Failed to load config from " ++ path ++ ": " ++ why⟩,
    .log ⟨.warning, "Using default configuration."⟩]

theorem run_ofEntries (path : String) (doc : Entries Value) :
    (ofEntries path doc).run.events = notice path doc ∧
      (ofEntries path doc).value = (Key.sort (unknownKeys doc)).bind fun _ =>
        (mergedRuleConfigs doc).map (assembled doc) := by
  rw [ofEntries, notice, ← unknownKeys]
  cases Key.sort (unknownKeys doc) with
  | error f => exact ⟨rfl, rfl⟩
  | ok keys =>
    cases keys with
    | nil => cases mergedRuleConfigs doc <;> exact ⟨rfl, rfl⟩
    | cons key keys => cases mergedRuleConfigs doc <;> exact ⟨rfl, rfl⟩

theorem value_ofEntries_of_mergeable (path : String) (hm : Mergeable doc) :
    ∃ c, (ofEntries path doc).value = .ok c ∧ Merges doc c := by
  obtain ⟨keys, hkeys⟩ := Key.exists_sort_iff.2 hm.comparable
  obtain ⟨w, hw⟩ := exists_mergedRuleConfigs_iff.2 hm.rules
  refine ⟨assembled doc w, ?_, merges_assembled hw⟩
  rw [(run_ofEntries path doc).2, hkeys, hw]
  rfl

theorem value_ofEntries_of_not_mergeable (path : String) (hm : ¬ Mergeable doc) :
    ∃ f, (ofEntries path doc).value = .error f := by
  rw [(run_ofEntries path doc).2]
  cases hkeys : Key.sort (unknownKeys doc) with
  | error f => exact ⟨f, rfl⟩
  | ok keys =>
    cases hw : mergedRuleConfigs doc with
    | error f => exact ⟨f, rfl⟩
    | ok w =>
      exact (hm ⟨Key.exists_sort_iff.1 ⟨keys, hkeys⟩, exists_mergedRuleConfigs_iff.1 ⟨w, hw⟩⟩).elim

end Config

/-- Fails only in ways after which the standard configuration is used. -/
abbrev Fault.Handled {α : Type} (x : Except Fault α) :
    Prop := Except.FailsOnly (fun f => Config.handles f.kind) x

namespace Fault.Handled

theorem members (v : Value) : Handled v.members := by
  fun_cases Value.members v <;> first | exact .ok _ | exact .error rfl

theorem key (v : Value) : Handled v.key := by
  fun_cases Value.key v with
  | case1 k => exact .ok k
  | case2 v => exact .error rfl

theorem entryAt (index : Nat) (v : Value) : Handled (v.entryAt index) := by
  fun_cases Value.entryAt index v with
  | case1 => exact .error rfl
  | case2 k w => exact (key k).map _
  | case3 => exact .error rfl

theorem entries (v : Value) : Handled v.entries := by
  have hfrom (index : Nat) (vs : List Value) : Handled (Value.entriesFrom index vs) := by
    induction vs generalizing index with
    | nil => exact .ok []
    | cons v vs ih => exact (entryAt index v).bind fun e _ =>
      (ih (index + 1)).bind fun es _ => .ok _
  fun_cases Value.entries v with
  | case1 es => exact .ok es
  | case2 v => exact (members v).bind fun vs _ => (hfrom 0 vs).bind fun es _ => .ok _

theorem sort (ks : List Key) : Handled (Key.sort ks) := by
  cases ks with
  | nil => exact .ok []
  | cons first rest =>
    refine Except.FailsOnly.bind (.forM fun k _ => ?_) fun _ _ => .ok _
    cases k.lt? first with
    | some b => exact .ok ()
    | none => exact .error rfl

end Fault.Handled

namespace Config

variable {base doc : Entries Value} {rest : List (Key × Value)}

theorem handled_mergeRules : Fault.Handled (mergeRules base rest) := by
  induction rest generalizing base with
  | nil => exact .ok base
  | cons e rest ih =>
    refine Except.FailsOnly.bind ?_ fun merged _ => ih
    fun_cases mergeRule base e.1 e.2 with
    | case1 es => exact (Fault.Handled.entries _).bind fun more _ => .ok _
    | case2 => exact .ok _

theorem handled_mergedRuleConfigs (doc : Entries Value) :
    Fault.Handled (mergedRuleConfigs doc) := by
  fun_cases mergedRuleConfigs doc with
  | case1 => exact .ok _
  | case2 v _ es => exact handled_mergeRules.map _
  | case3 => exact .error rfl

/-- Whatever the document, taking it fails only in ways that are handled. -/
theorem handled_ofDocument (path : String) (doc : Value) :
    Fault.Handled (ofDocument path doc).value := by
  rw [ofDocument]
  split
  · rw [(run_ofEntries path _).2]
    exact (Fault.Handled.sort _).bind fun _ _ => (handled_mergedRuleConfigs _).map _
  · exact .error rfl

theorem load_error (path : String) (f : Fault) : (load path (.error f)).run =
    if handles f.kind then ⟨.ok standard, fallback path f.message⟩ else ⟨.error f, []⟩ := by
  show (ExceptT.run (if handles f.kind then _ else _)) = _
  split <;> rfl

/-- What loading makes of the run over a document. -/
theorem load_ok (path : String) (doc : Value) : (load path (.ok doc)).run =
    match (ofDocument path doc).value with
    | .ok c => ⟨.ok c, (ofDocument path doc).run.events⟩
    | .error f => ⟨.ok standard, (ofDocument path doc).run.events ++ fallback path f.message⟩ := by
  have hfails := handled_ofDocument path doc
  have hrun : (ofDocument path doc).run = ⟨(ofDocument path doc).value,
      (ofDocument path doc).run.events⟩ := rfl
  cases hv : (ofDocument path doc).value with
  | ok c => exact Run.run_tryCatch_ok (hv ▸ hrun) _
  | error f =>
    rw [load, Run.run_tryCatch_error (hv ▸ hrun), if_pos (hfails f hv)]
    rfl

/-- A document that can be merged is merged as a whole, and any other leaves the standard
configuration and two warnings more. Whatever the document, a configuration comes out. If there is
none, that is passed on or leaves the standard configuration as well, by the kind of the failure. -/
theorem load_all_or_nothing (path : String) (doc : Value) :
    (∀ es, orEmpty doc = .map es →
      (Mergeable es → ∃ c, (load path (.ok doc)).run = ⟨.ok c, notice path es⟩ ∧ Merges es c) ∧
      (¬ Mergeable es →
        ∃ why, (load path (.ok doc)).run = ⟨.ok standard, notice path es ++ fallback path why⟩)) ∧
    ((∀ es, orEmpty doc ≠ .map es) →
      (load path (.ok doc)).run = ⟨.ok standard, fallback path "top level must be a mapping"⟩) ∧
    ∀ f, (load path (.error f)).run =
      if handles f.kind then ⟨.ok standard, fallback path f.message⟩ else ⟨.error f, []⟩ := by
  refine ⟨fun es hes => ?_, fun hnot => ?_, load_error path⟩
  · have hdoc : ofDocument path doc = ofEntries path es := by rw [ofDocument, hes]
    rw [load_ok, hdoc, (run_ofEntries path es).1]
    constructor
    · intro hm
      obtain ⟨c, hc, hmerges⟩ := value_ofEntries_of_mergeable path hm
      rw [hc]
      exact ⟨c, rfl, hmerges⟩
    · intro hm
      obtain ⟨f, hf⟩ := value_ofEntries_of_not_mergeable path hm
      rw [hf]
      exact ⟨f.message, rfl⟩
  · have hdoc : ofDocument path doc = throw .notDocument := by
      rw [ofDocument]
      cases he : orEmpty doc with
      | map es => exact (hnot es he).elim
      | _ => rfl
    rw [load_ok, hdoc]
    rfl

end Config

namespace SettingsSample

/-- A document with a key that nobody knows, and a section on two rules. -/
def doc (folding cursors : Value) : Entries Value :=
  .ofList [(.text "enabled_rules", .text "*-async"), (.text "plugins", .null),
    (.text "rule_configs",
      .map (.ofList [(.text "meteor-call-async", folding), (.text "cursor-async", cursors)])),
    (.text "write", .bool true)]

def folding : Value := .map (.ofList [(.text "indent", .text "    ")])

def day : Value := .scalar (.day ⟨2020, 1, 2, by decide, by decide, by decide⟩)

theorem mergeable : Config.Mergeable (doc folding .null) := by
  refine ⟨Or.inl (by decide), ?_⟩
  rintro v ⟨⟩ -
  refine ⟨_, rfl, fun e he _ => ?_⟩
  obtain rfl | rfl : e = (.text "meteor-call-async", folding) ∨ e = (.text "cursor-async", .null) :=
    List.mem_pair.1 he
  · exact ⟨_, Config.optionsIn_map _⟩
  · exact ⟨.empty, rfl⟩

/-- A day gives no options. The other rule comes first and can be merged. -/
theorem not_mergeable : ¬ Config.Mergeable (doc folding day) := by
  intro h
  obtain ⟨es, he, hall⟩ := h.rules _ rfl rfl
  cases he
  obtain ⟨more, hmore⟩ := hall (.text "cursor-async", day) (List.mem_pair.2 (Or.inr rfl)) rfl
  cases hmore

end SettingsSample

/-- Of two documents that differ in one option, one is merged and the other leaves nothing
behind. -/
theorem Config.load_all_or_nothing_sample :
    (∃ c os, (load "c.yml" (.ok (.map (SettingsSample.doc SettingsSample.folding .null)))).value =
      .ok c ∧
        c.optionsFor "meteor-call-async" = .ok os ∧
        os.get? (.text "indent") = some (.text "    ") ∧
        os.get? (.text "decompose_callbacks") = some (.bool true)) ∧
      (load "c.yml" (.ok (.map
        (SettingsSample.doc SettingsSample.folding SettingsSample.day)))).value =
        .ok standard := by
  obtain ⟨c, hload, hmerges⟩ :=
    ((load_all_or_nothing "c.yml" (.map (SettingsSample.doc SettingsSample.folding .null))).1
      _ rfl).1
      SettingsSample.mergeable
  obtain ⟨why, hstandard⟩ :=
    ((load_all_or_nothing "c.yml"
      (.map (SettingsSample.doc SettingsSample.folding SettingsSample.day))).1
      _ rfl).2 SettingsSample.not_mergeable
  obtain ⟨more, os, hmore, hos, hget⟩ :=
    hmerges.laid "meteor-call-async" SettingsSample.folding _ rfl rfl
  cases hmore
  exact ⟨⟨c, os, congrArg Traced.value hload, hos, hget _, hget _⟩, congrArg Traced.value hstandard⟩

end Asyncify
