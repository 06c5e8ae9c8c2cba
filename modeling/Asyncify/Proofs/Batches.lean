import Mathlib.Data.List.Forall2
import Asyncify.Cli.Run
import Asyncify.Proofs.Lookup
import Asyncify.Proofs.Turns

/-! Many files, one after the other: which of them have a result, what is logged of the others, and
that the command line prints the same results. -/
namespace Asyncify

namespace Run

variable {ε δ α β : Type}

/-- What a run leaves behind, up to its end or its failure. -/
def events (m : Run ε α) : List Event := (ExceptT.run m).events

@[simp] theorem events_pure (a : α) : events (pure a : Run ε α) = [] := rfl

@[simp] theorem events_attempt (m : Run ε α) : events (attempt m : Run δ (Except ε α)) = m.events :=
  rfl

@[simp] theorem value_mapError (f : ε → δ) (m : Run ε α) :
    value (mapError f m) = m.value.mapError f := rfl

theorem events_bind {m : Run ε α} {a : α} (h : value m = .ok a) (f : α → Run ε β) :
    events (m >>= f) = events m ++ events (f a) := by
  have hv : (ExceptT.run m).value = .ok a := h
  show (ExceptT.run (m >>= f)).events = _
  rw [ExceptT.run_bind, Traced.events_bind, hv]
  rfl

/-- Steps that all succeed leave behind what each of them does. -/
theorem events_mapM {f : α → Run ε β} {g : α → β} {l : List α}
    (h : ∀ a ∈ l, value (f a) = .ok (g a)) :
    events (l.mapM f) = l.flatMap fun a => events (f a) := by
  induction l with
  | nil => rfl
  | cons a l ih =>
    have hrest : ∀ b ∈ l, value (f b) = .ok (g b) := fun b hb => h b (List.mem_cons_of_mem _ hb)
    rw [List.mapM_cons, events_bind (h a List.mem_cons_self), events_bind (value_mapM hrest),
      ih hrest, events_pure, List.append_nil, List.flatMap_cons]

/-- A list of steps fails as its first failing step does. -/
theorem value_mapM_of_error {f : α → Run ε β} {x : ε} {l : List α}
    (h : ∀ a ∈ l, (∃ b, value (f a) = .ok b) ∨ value (f a) = .error x) {a : α} (ha : a ∈ l)
    (hx : value (f a) = .error x) : value (l.mapM f) = .error x := by
  induction l with
  | nil => cases ha
  | cons c l ih =>
    rw [List.mapM_cons, value_bind]
    obtain ⟨b, hb⟩ | hc := h c List.mem_cons_self
    · have ha : a ∈ l := by
        obtain rfl | ha := List.mem_cons.1 ha
        · rw [hx] at hb
          cases hb
        · exact ha
      rw [hb, Except.bind, value_bind, ih (fun d hd => h d (List.mem_cons_of_mem _ hd)) ha]
      rfl
    · rw [hc]
      rfl

end Run

namespace Engine

variable (e : Engine) (fs : Files) (path : String)

/-- Why a file has no result: it cannot be read, or its text has a defect. -/
def refusal? : Option String :=
  match fs.read path with
  | .error r => some (r.message path)
  | .ok source =>
    (e.parse (.ofPath path) source).firstDefect?.map fun n =>
      (Error.badSource path (.ofOffsetBytes source.toList n.start)).message

/-- The file can be read and its text parses. -/
def accepts : Bool := (e.refusal? fs path).isNone

/-- What is left behind by the work on one file: that of transforming its text, if it has one, and a
record if there is no result. -/
def trace : List Event :=
  (match fs.read path with
    | .ok source => (e.transform source path).events
    | .error _ => []) ++
    (e.refusal? fs path).toList.map fun why =>
      .log ⟨.error, "Error processing " ++ path ++ ": " ++ why⟩

/-- The file with its result, if it has one. -/
def processed? : Option Processed :=
  match fs.read path with
  | .error _ => none
  | .ok source =>
    match (e.transform source path).value with
    | .ok result => some ⟨source, result⟩
    | .error _ => none

variable {e fs path} {rules : List Rule} {source : String}

theorem value_transform_of_defect {n : Node}
    (h : (e.parse (.ofPath path) source).firstDefect? = some n) :
    (e.transform source path).value =
      .error (.badSource path (.ofOffsetBytes source.toList n.start)) := by
  rw [transform, Run.value_bind, checkSource, Run.value_bind, Parse.run, Run.value_lift]
  simp only [Except.bind, h]
  rfl

theorem exists_result_of_firstDefect? (hr : e.enabledRules = .ok rules)
    (h : (e.parse (.ofPath path) source).firstDefect? = none) :
    ∃ r, (e.transform source path).value = .ok r ∧ r.path = path := by
  have hs : e.parses path source := by
    have hd := (e.parse (.ofPath path) source).firstDefect?_isSome
    simpa [parses, h] using hd.symm
  exact ⟨_, value_transform hr hs, rfl⟩

theorem processFile_of_null (h : '\x00' ∈ path.toList) :
    (e.processFile fs path).value = .error (.fault .nullPath) := by
  have hc : path.toList.contains '\x00' := List.contains_iff_mem.2 h
  rw [processFile, if_pos hc]
  rfl

/-- Without a null character in its path, a file is processed to the end. -/
theorem processFile_of_not_null (hr : e.enabledRules = .ok rules) (h : '\x00' ∉ path.toList) :
    (e.processFile fs path).value = .ok (e.processed? fs path) ∧
      (e.processFile fs path).events = e.trace fs path := by
  have hc : ¬ path.toList.contains '\x00' := fun hc => h (List.contains_iff_mem.1 hc)
  rw [processFile, if_neg hc, processed?, trace, refusal?]
  cases hread : fs.read path with
  | error r => exact ⟨rfl, rfl⟩
  | ok source =>
    have hv : Run.value (Run.attempt (e.transform source path) : Run Error (Except Error Result)) =
        .ok (e.transform source path).value := rfl
    dsimp only
    rw [Run.value_bind, hv, Run.events_bind hv, Run.events_attempt]
    cases hd : (e.parse (.ofPath path) source).firstDefect? with
    | some n =>
      rw [value_transform_of_defect hd]
      exact ⟨rfl, rfl⟩
    | none =>
      obtain ⟨r, ht, -⟩ := exists_result_of_firstDefect? hr hd
      rw [ht]
      exact ⟨rfl, rfl⟩

theorem processed?_eq_some {p : Processed} : e.processed? fs path = some p ↔
    fs.read path = .ok p.source ∧ (e.transform p.source path).value = .ok p.result := by
  rw [processed?]
  cases hread : fs.read path with
  | error r => simp
  | ok source =>
    dsimp only
    split
    · next result ht =>
      constructor
      · intro h
        obtain rfl := Option.some.inj h
        exact ⟨rfl, ht⟩
      · rintro ⟨hs, hp⟩
        obtain rfl := Except.ok.inj hs
        rw [Except.ok.inj (ht.symm.trans hp)]
    · next err ht =>
      constructor
      · intro h
        cases h
      · rintro ⟨hs, hp⟩
        obtain rfl := Except.ok.inj hs
        cases ht.symm.trans hp

/-- Just the files that can be read and parsed have a result. -/
theorem isSome_processed? (hr : e.enabledRules = .ok rules) :
    (e.processed? fs path).isSome = e.accepts fs path := by
  rw [processed?, accepts, refusal?]
  cases fs.read path with
  | error r => rfl
  | ok source =>
    cases hd : (e.parse (.ofPath path) source).firstDefect? with
    | some n => simp [value_transform_of_defect hd, hd]
    | none =>
      obtain ⟨r, ht, -⟩ := exists_result_of_firstDefect? hr hd
      simp [ht, hd]

theorem path_of_processed? (hr : e.enabledRules = .ok rules) {p : Processed}
    (h : e.processed? fs path = some p) : p.result.path = path := by
  obtain ⟨-, ht⟩ := processed?_eq_some.1 h
  cases hd : (e.parse (.ofPath path) p.source).firstDefect? with
  | some n => cases (value_transform_of_defect hd).symm.trans ht
  | none =>
    obtain ⟨r, hr, hp⟩ := exists_result_of_firstDefect? hr hd
    rw [← Except.ok.inj (hr.symm.trans ht), hp]

variable {paths : List String}

theorem processFiles_of_not_null (fs : Files) (hr : e.enabledRules = .ok rules)
    (h : ∀ p ∈ paths, '\x00' ∉ p.toList) :
    (e.processFiles fs paths).value = .ok (paths.filterMap (e.processed? fs)) ∧
      (e.processFiles fs paths).events = paths.flatMap (e.trace fs) := by
  have hv : ∀ p ∈ paths, (e.processFile fs p).value = .ok (e.processed? fs p) :=
    fun p hp => (processFile_of_not_null hr (h p hp)).1
  have hall := Run.value_mapM hv
  constructor
  · rw [processFiles, Run.value_bind, hall]
    simp [Except.bind, List.filterMap_map]
  · rw [processFiles, Run.events_bind hall, Run.events_mapM hv, Run.events_pure, List.append_nil]
    exact List.flatMap_congr fun p hp => (processFile_of_not_null hr (h p hp)).2

/-- A path with a null character ends the work on all files. -/
theorem processFiles_of_null (fs : Files) (hr : e.enabledRules = .ok rules)
    (h : ∃ p ∈ paths, '\x00' ∈ p.toList) :
    (e.processFiles fs paths).value = .error (.fault .nullPath) := by
  obtain ⟨p, hp, hnull⟩ := h
  have herr : (paths.mapM (e.processFile fs)).value = .error (.fault .nullPath) := by
    refine Run.value_mapM_of_error (fun q _ => ?_) hp (processFile_of_null hnull)
    by_cases hq : '\x00' ∈ q.toList
    · exact Or.inr (processFile_of_null hq)
    · exact Or.inl ⟨_, (processFile_of_not_null hr hq).1⟩
  rw [processFiles, Run.value_bind, herr]
  rfl

/-- The files with a result are in the order of their paths. -/
theorem forall₂_processed? (hr : e.enabledRules = .ok rules) (paths : List String) :
    List.Forall₂ (fun p x => e.processed? fs p = some x) (paths.filter (e.accepts fs))
      (paths.filterMap (e.processed? fs)) := by
  induction paths with
  | nil => exact .nil
  | cons p paths ih =>
    have hp : (e.processed? fs p).isSome = e.accepts fs p := isSome_processed? hr
    cases hx : e.processed? fs p with
    | none =>
      rw [hx] at hp
      rw [List.filter_cons_of_neg (by simp [← hp]), List.filterMap_cons_none hx]
      exact ih
    | some x =>
      rw [hx] at hp
      rw [List.filter_cons_of_pos (by simp [← hp]), List.filterMap_cons_some hx]
      exact .cons hx ih

end Engine

namespace Json

/-- A key that has a form in JSON. -/
def HasForm (k : Key) : Prop := Value.Shape.ofKey k ∉ [.day, .moment, .bytes]

/-- A value that has a form in JSON: no day, moment, bytes or set is in it. -/
inductive Writable : Value → Prop
  | scalar {k : Key} (h : HasForm k) : Writable (.scalar k)
  | list {vs : List Value} (h : ∀ v ∈ vs, Writable v) : Writable (.list vs)
  | map {es : Entries Value} (keys : ∀ e ∈ es.toList, HasForm e.1)
      (values : ∀ e ∈ es.toList, Writable e.2) : Writable (.map es)

theorem forall_hasForm_iff (depth : Nat) (es : Entries Value) :
    (∀ e ∈ entries depth es, HasForm e.1) ↔ ∀ e ∈ es.toList, HasForm e.1 := by
  have hkeys : (entries depth es).map (·.1) = es.toList.map (·.1) := by
    obtain ⟨ks, value⟩ := es
    rw [entries, Entries.toList, Entries.map_fst_row, Entries.map_fst_row]
  rw [← List.forall_mem_map (f := Prod.fst), hkeys, List.forall_mem_map]

theorem exists_scalar_iff {k : Key} : (∃ s, scalar k = .ok s) ↔ HasForm k := by
  cases k <;> simp [scalar, scalar?, HasForm, Value.Shape.ofKey]

theorem exists_key_iff {k : Key} : (∃ s, key k = .ok s) ↔ HasForm k := by
  cases k <;> simp [key, scalar?, HasForm, Value.Shape.ofKey]

theorem writable_scalar {k : Key} : Writable (.scalar k) ↔ HasForm k :=
  ⟨fun | .scalar h => h, .scalar⟩

theorem writable_list {vs : List Value} : Writable (.list vs) ↔ ∀ v ∈ vs, Writable v :=
  ⟨fun | .list h => h, .list⟩

theorem writable_map {es : Entries Value} :
    Writable (.map es) ↔ (∀ e ∈ es.toList, HasForm e.1) ∧ ∀ e ∈ es.toList, Writable e.2 :=
  ⟨fun | .map hk hv => ⟨hk, hv⟩, fun h => .map h.1 h.2⟩

mutual

theorem exists_write_iff (depth : Nat) : ∀ v : Value, (∃ s, write depth v = .ok s) ↔ Writable v
  | .scalar k => by
    rw [write, exists_scalar_iff, writable_scalar]
  | .list vs => by
    rw [write, writable_list, ← exists_items_iff (depth + 1) vs]
    simp [Except.map_eq_ok]
  | .set ks => by
    refine iff_of_false ?_ nofun
    rintro ⟨s, hs⟩
    cases hs
  | .map es => by
    rw [write, writable_map, ← exists_entries_iff (depth + 1) es,
      ← forall_hasForm_iff (depth + 1) es]
    simp only [Except.exists_bind_iff, Except.exists_pure, and_true, Except.exists_mapM_iff,
      exists_key_iff, exists_and_right]
    exact ⟨fun h => ⟨fun e he => (h e he).1, fun e he => (h e he).2⟩,
      fun h e he => ⟨h.1 e he, h.2 e he⟩⟩

theorem exists_items_iff (depth : Nat) :
    ∀ vs : List Value, (∃ ss, items depth vs = .ok ss) ↔ ∀ v ∈ vs, Writable v
  | [] => iff_of_true ⟨[], rfl⟩ (by simp)
  | v :: vs => by
    rw [items, List.forall_mem_cons, ← exists_write_iff depth v, ← exists_items_iff depth vs]
    simp only [Except.exists_bind_iff, Except.exists_pure, and_true, exists_and_right]

theorem exists_entries_iff (depth : Nat) : ∀ es : Entries Value,
    (∀ e ∈ entries depth es, ∃ s, e.2 = .ok s) ↔ ∀ e ∈ es.toList, Writable e.2
  | ⟨ks, value⟩ => by
    calc (∀ e ∈ entries depth ⟨ks, value⟩, ∃ s, e.2 = .ok s)
        ↔ ∀ i, ∃ s, write depth (value i) = .ok s := by
          rw [entries]
          exact Entries.forall_mem_row (p := fun x : Except Fault String => ∃ s, x = .ok s)
      _ ↔ ∀ i, Writable (value i) := forall_congr' fun i => exists_write_iff depth (value i)
      _ ↔ _ := Entries.forall_mem_row.symm

end

theorem writable_ofList {l : List (Key × Value)} (h : Entries.Distinct l) :
    Writable (.map (.ofList l)) ↔ (∀ e ∈ l, HasForm e.1) ∧ ∀ e ∈ l, Writable e.2 := by
  rw [writable_map, Entries.toList_ofList h]

theorem writable_change {c : Change} : Writable c.toValue ↔ Writable c.newCode := by
  rw [Change.toValue, writable_ofList]
  · cases c.oldCode <;> simp [writable_scalar, HasForm, Value.Shape.ofKey]
  · rw [← Entries.pairwise_keys]
    simp only [List.map_cons, List.map_nil]
    decide

theorem writable_result {r : Result} :
    Writable r.toValue ↔ ∀ c ∈ r.changes, Writable c.newCode := by
  rw [Result.toValue, writable_ofList]
  · simp [writable_scalar, writable_list, writable_change, HasForm, Value.Shape.ofKey]
  · rw [← Entries.pairwise_keys]
    simp only [List.map_cons, List.map_nil]
    decide

end Json

namespace Cli

/-- The command line gets as far as its paths, with the rules and the configuration of the
engine. -/
structure Starts (w : World) (words : List String) (a : Arguments) (e : Engine) : Prop where
  parse : Arguments.parse words = .ok a
  lists : a.listRules = false
  given : a.paths ≠ []
  config : ∃ c, (loadConfig w (configFile? w.files a)).value = .ok c ∧ adjust a c = .ok e.config
  registry : (Registry.withPlugins w.packages e.config.plugins).value = .ok e.registry
  parser : e.parse = w.parse

/-- What is printed for a list of results: all of them, what they change in the texts of their
files, or a line for each change and the number of changes. -/
def shown (a : Arguments) (fs : Files) (results : List Result) : Except Fault String :=
  let changed := results.filter (·.hasChanges)
  if a.json then (Json.ofValue (.list (results.map (·.toValue)))).map (· ++ "\n")
  else if a.diff then
    .ok ("".intercalate (changed.map fun r =>
      Diff.unified r.path ((fs.read r.path).toOption.getD "") r.source))
  else
    .ok ("".intercalate (changed.map summaryLine) ++ toString changed.length ++ " of " ++
      toString a.paths.length ++ " files would change\n")

variable {w : World} {words : List String} {a : Arguments} {e : Engine} {rules : List Rule}
  {fs : Files}

theorem report_eq_shown {ps : List Engine.Processed}
    (h : ∀ p ∈ ps, fs.read p.result.path = .ok p.source) :
    report a ps = shown a fs (ps.map (·.result)) := by
  have hdiff : (ps.filter fun p => p.result.hasChanges).map
        (fun p => Diff.unified p.result.path p.source p.result.source) =
      (ps.filter fun p => p.result.hasChanges).map (fun p =>
        Diff.unified p.result.path ((fs.read p.result.path).toOption.getD "") p.result.source) := by
    refine List.map_congr_left fun p hp => ?_
    rw [h p (List.mem_of_mem_filter hp)]
    rfl
  simp only [report, shown, List.filter_map, List.map_map, List.length_map, hdiff,
    Function.comp_def]

/-- There is something to print unless JSON is wanted and some new code has no form in it. -/
theorem exists_shown_iff {results : List Result} : (∃ out, shown a fs results = .ok out) ↔
    (a.json → ∀ r ∈ results, ∀ c ∈ r.changes, Json.Writable c.newCode) := by
  rw [shown]
  cases a.json with
  | true =>
    simp only [if_true, Except.exists_map_iff, forall_true_left, Json.ofValue,
      Json.exists_write_iff, Json.writable_list, List.forall_mem_map, Json.writable_result]
  | false =>
    refine iff_of_true ?_ (by simp)
    cases a.diff with
    | true => exact ⟨_, rfl⟩
    | false => exact ⟨_, rfl⟩

/-- The main part prints what comes of processing the paths with the engine. -/
theorem value_body {config : Config} (h : Starts w words a e) (hc : adjust a config = .ok e.config)
    (hr : e.enabledRules = .ok rules) (name : String) :
    (body w a name config).value = (e.processFiles w.files a.paths).value.bind fun ps =>
      ((report a ps).mapError .fault).map
        (.printed (if ps.length = a.paths.length then 0 else 1)) := by
  obtain ⟨registry, config, parse⟩ := e
  obtain ⟨-, hlists, hgiven, -, hregistry, hparser⟩ := h
  obtain rfl : parse = w.parse := hparser
  have hne : a.paths.isEmpty = false := by simpa using hgiven
  rw [body, Run.value_bind, Run.value_lift, Except.bind, Run.value_bind, Run.value_ofExcept, hc]
  simp only [Except.mapError, Except.bind, Run.value_bind, Run.value_mapError, hregistry,
    hlists, hne, Bool.false_eq_true, if_false, Run.value_ofExcept, hr, Run.value_lift]
  cases Engine.processFiles _ w.files a.paths |>.value with
  | error f => rfl
  | ok ps => cases report a ps <;> rfl

theorem run_of_loaded {c : Config} (hparse : Arguments.parse words = .ok a)
    (hload : (loadConfig w (configFile? w.files a)).run.value = .ok c) :
    ∃ name loading, run w words = runWith w a name loading c := by
  simp only [run, hparse, hload]
  exact ⟨_, _, rfl⟩

theorem value_run (h : Starts w words a e) (hr : e.enabledRules = .ok rules) : ∃ log,
    (run w words).value = (e.processFiles w.files a.paths).value.bind fun ps =>
      ((report a ps).mapError .fault).map fun out =>
        ⟨if ps.length = a.paths.length then 0 else 1, out, log⟩ := by
  obtain ⟨c, hload, hc⟩ := h.config
  obtain ⟨name, loading, hrun⟩ := run_of_loaded h.parse hload
  refine ⟨logText (a.verbose || c.verbose.isSet) loading (body w a name c).run.events, ?_⟩
  rw [hrun]
  show Except.map _ (Run.value (body w a name c)) = _
  rw [value_body h hc hr name]
  cases (e.processFiles w.files a.paths).value with
  | error f => rfl
  | ok ps =>
    simp only [Except.bind]
    cases report a ps <;> rfl

end Cli

namespace Engine

variable {e : Engine} {fs : Files} {rules : List Rule} {paths : List String}

theorem transformFiles_of_not_null (fs : Files) (hr : e.enabledRules = .ok rules)
    (h : ∀ p ∈ paths, '\x00' ∉ p.toList) :
    (e.transformFiles fs paths).value = .ok ((paths.filterMap (e.processed? fs)).map (·.result)) ∧
      (e.transformFiles fs paths).events = paths.flatMap (e.trace fs) := by
  obtain ⟨hv, he⟩ := processFiles_of_not_null fs hr h
  constructor
  · rw [transformFiles, Run.value_bind, hv]
    rfl
  · rw [transformFiles, Run.events_bind hv, he, Run.events_pure, List.append_nil]

theorem transformFiles_of_null (fs : Files) (hr : e.enabledRules = .ok rules)
    (h : ∃ p ∈ paths, '\x00' ∈ p.toList) :
    (e.transformFiles fs paths).value = .error (.fault .nullPath) := by
  rw [transformFiles, Run.value_bind, processFiles_of_null fs hr h]
  rfl

/-- Every file has a result just if all of them are accepted. -/
theorem length_processed?_iff (hr : e.enabledRules = .ok rules) :
    (paths.filterMap (e.processed? fs)).length = paths.length ↔ paths.all (e.accepts fs) := by
  rw [← (forall₂_processed? hr paths).length_eq, List.length_filter_eq_length_iff, List.all_eq_true]

theorem read_of_mem_processed? (hr : e.enabledRules = .ok rules) {p : Processed}
    (hp : p ∈ paths.filterMap (e.processed? fs)) : fs.read p.result.path = .ok p.source := by
  obtain ⟨path, -, h⟩ := List.mem_filterMap.1 hp
  rw [path_of_processed? hr h]
  exact (processed?_eq_some.1 h).1

/-- Unless some path has a null character, there is one result for each file that can be read and
parsed, in the order of the paths, and one record for each of the others. The command line prints
these results, and its exit code tells whether each path has one. A null character in a path ends
both without a result. -/
theorem transformFiles_isolates (e : Engine) (fs : Files) (paths : List String) {rules : List Rule}
    (hr : e.enabledRules = .ok rules) :
    ((∀ p ∈ paths, '\x00' ∉ p.toList) →
      ∃ results, (e.transformFiles fs paths).value = .ok results ∧
        List.Forall₂
          (fun p r => ∃ source, fs.read p = .ok source ∧ (e.transform source p).value = .ok r)
          (paths.filter (e.accepts fs)) results ∧
        (e.transformFiles fs paths).events = paths.flatMap (e.trace fs) ∧
        ∀ w words a, Cli.Starts w words a e → w.files = fs → a.paths = paths →
          (∃ log, (Cli.run w words).value = ((Cli.shown a fs results).mapError .fault).map
            fun out => ⟨if paths.all (e.accepts fs) then 0 else 1, out, log⟩) ∧
          ((∃ out, Cli.shown a fs results = .ok out) ↔
            (a.json → ∀ r ∈ results, ∀ c ∈ r.changes, Json.Writable c.newCode))) ∧
      ((∃ p ∈ paths, '\x00' ∈ p.toList) →
        (e.transformFiles fs paths).value = .error (.fault .nullPath) ∧
        ∀ w words a, Cli.Starts w words a e → w.files = fs → a.paths = paths →
          (Cli.run w words).value = .error (.fault .nullPath)) := by
  constructor
  · intro hp
    obtain ⟨hv, he⟩ := transformFiles_of_not_null fs hr hp
    refine ⟨_, hv, ?_, he, ?_⟩
    · rw [List.forall₂_map_right_iff]
      exact (forall₂_processed? hr paths).imp fun p x hx => ⟨x.source, processed?_eq_some.1 hx⟩
    · rintro w words a hstart rfl rfl
      obtain ⟨log, hrun⟩ := Cli.value_run hstart hr
      refine ⟨⟨log, ?_⟩, Cli.exists_shown_iff⟩
      rw [hrun, (processFiles_of_not_null _ hr hp).1, Except.bind,
        Cli.report_eq_shown fun p hp => read_of_mem_processed? hr hp]
      simp only [length_processed?_iff hr]
  · intro hp
    refine ⟨transformFiles_of_null fs hr hp, ?_⟩
    rintro w words a hstart rfl rfl
    obtain ⟨log, hrun⟩ := Cli.value_run hstart hr
    rw [hrun, processFiles_of_null _ hr hp]
    rfl

end Engine

namespace BatchSample

/-- One file that parses, and one that does not. -/
def files : Files where
  entries := [(["work", "a.js"], .file [120]), (["work", "b.js"], .file [33])]
  workingDirectory := ["work"]

def engine : Engine where
  registry := .builtIn
  config := .standard
  parse := Turns.parse

def world : Cli.World where
  files
  parse := Turns.parse
  readDocument _ := .ok .null
  packages := []

/-- The second file does not parse, the third is not there, and the first is named twice. -/
def paths : List String := ["a.js", "b.js", "c.js", "a.js"]

theorem starts : Cli.Starts world paths { paths } engine where
  parse := by decide +kernel
  lists := rfl
  given := by decide
  config := by
    have hnone : (Cli.configFile? world.files { paths }).isNone := by decide +kernel
    rw [Option.isNone_iff_eq_none.1 hnone]
    exact ⟨_, rfl, rfl⟩
  registry := rfl
  parser := rfl

theorem enabledRules : ∃ rules, engine.enabledRules = .ok rules := by
  have h : engine.enabledRules.toOption.isSome := by decide +kernel
  obtain ⟨rules, hr⟩ := Option.isSome_iff_exists.1 h
  exact ⟨rules, Except.toOption_eq_some.1 hr⟩

end BatchSample

/-- The file that parses has two results, one for each time it is named, and the other two have
none. -/
theorem Engine.transformFiles_isolates_repeated :
    (∃ rules, BatchSample.engine.enabledRules = .ok rules) ∧
      Cli.Starts BatchSample.world BatchSample.paths { paths := BatchSample.paths }
        BatchSample.engine ∧
      ∃ results,
        (BatchSample.engine.transformFiles BatchSample.files BatchSample.paths).value =
          .ok results ∧
        List.Forall₂ (fun p r => ∃ source, BatchSample.files.read p = .ok source ∧
          (BatchSample.engine.transform source p).value = .ok r) ["a.js", "a.js"] results ∧
        ∃ out log, Cli.shown { paths := BatchSample.paths } BatchSample.files results = .ok out ∧
          (Cli.run BatchSample.world BatchSample.paths).value = .ok ⟨1, out, log⟩ := by
  obtain ⟨rules, hr⟩ := BatchSample.enabledRules
  have hnull : ∀ p ∈ BatchSample.paths, '\x00' ∉ p.toList := by decide
  have haccepted : BatchSample.paths.filter (BatchSample.engine.accepts BatchSample.files) =
      ["a.js", "a.js"] := by decide +kernel
  have hnot : BatchSample.paths.all (BatchSample.engine.accepts BatchSample.files) = false := by
    decide +kernel
  obtain ⟨results, hv, hall, -, hcli⟩ :=
    (transformFiles_isolates BatchSample.engine BatchSample.files BatchSample.paths hr).1 hnull
  obtain ⟨⟨log, hrun⟩, hshown⟩ := hcli _ _ _ BatchSample.starts rfl rfl
  obtain ⟨out, hout⟩ := hshown.2 nofun
  rw [haccepted] at hall
  rw [hnot, hout] at hrun
  exact ⟨⟨rules, hr⟩, BatchSample.starts, results, hv, hall, out, log, hout, hrun⟩

/-- A path with a null character keeps even a file that can be read and parsed from having a
result. -/
theorem Engine.transformFiles_nullPath :
    (∃ rules, BatchSample.engine.enabledRules = .ok rules) ∧
      BatchSample.engine.accepts BatchSample.files "a.js" ∧
      (BatchSample.engine.transformFiles BatchSample.files ["a.js", "b\x00.js"]).value =
        .error (.fault .nullPath) := by
  obtain ⟨rules, hr⟩ := BatchSample.enabledRules
  have hnull : ∃ p ∈ ["a.js", "b\x00.js"], '\x00' ∈ p.toList := by decide
  exact ⟨⟨rules, hr⟩, by decide +kernel, transformFiles_of_null _ hr hnull⟩

end Asyncify
