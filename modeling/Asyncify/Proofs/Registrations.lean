import Asyncify.Pipeline
import Asyncify.Proofs.Lists
import Asyncify.Registry.Package
import Mathlib.Data.List.Nodup

/-! Registered rules. The list and the index of a registry stay two views of the same rules,
whatever was registered and wherever a discovery was broken off. -/
namespace Asyncify

namespace Registry

variable {r : Registry} {rule : Rule} {rules : List Rule} {id : String}

/-- The index holds the rules of the list in the same order, each under its id, and no two share
one. -/
structure Sound (r : Registry) : Prop where
  index_eq : r.index = r.rules.map fun x => (x.info.id, x)
  nodup : (r.rules.map (·.info.id)).Nodup

theorem sound_empty : Sound {} := ⟨rfl, List.nodup_nil⟩

theorem Sound.ids_eq (h : r.Sound) : r.ids = r.rules.map (·.info.id) := by
  simp [ids, h.index_eq]

theorem Sound.get?_eq_find? (h : r.Sound) (id : String) :
    r.get? id = r.rules.find? fun x => x.info.id = id := by
  rw [get?, h.index_eq]
  induction r.rules with
  | nil => rfl
  | cons x xs ih =>
    by_cases hx : x.info.id = id
    · simp [hx]
    · have hne : (id == x.info.id) = false := by simpa using fun he : id = x.info.id => hx he.symm
      simp [List.lookup_cons, hne, hx, ih]

/-- Every rule is found by its id, and nothing else is. -/
theorem Sound.get?_eq_some (h : r.Sound) :
    r.get? id = some rule ↔ rule ∈ r.rules ∧ rule.info.id = id := by
  rw [h.get?_eq_find?]
  constructor
  · intro hf
    exact ⟨List.mem_of_find?_eq_some hf, by simpa using List.find?_some hf⟩
  · rintro ⟨hm, rfl⟩
    cases hf : r.rules.find? fun x => x.info.id = rule.info.id with
    | none =>
      have hnone := List.find?_eq_none.1 hf rule hm
      simp at hnone
    | some other =>
      have hid : other.info.id = rule.info.id := by simpa using List.find?_some hf
      rw [List.inj_on_of_nodup_map h.nodup (List.mem_of_find?_eq_some hf) hm hid]

theorem Sound.get?_eq_none (h : r.Sound) : r.get? id = none ↔ ∀ x ∈ r.rules, x.info.id ≠ id := by
  rw [h.get?_eq_find?, List.find?_eq_none]
  simp

theorem Sound.contains_iff (h : r.Sound) : r.contains id ↔ ∃ x ∈ r.rules, x.info.id = id := by
  show (r.get? id).isSome ↔ _
  rw [h.get?_eq_find?]
  simp [List.find?_isSome]

/-- A rule is either dropped, because its id is taken, or put behind all others in both views. -/
theorem register_cases (r : Registry) (rule : Rule) :
    (r.contains rule.info.id ∧ (r.register rule).value = r) ∨
      (r.contains rule.info.id = false ∧ (r.register rule).value =
        { rules := r.rules ++ [rule], index := r.index ++ [(rule.info.id, rule)] }) := by
  rw [register]
  cases hc : r.contains rule.info.id with
  | true => exact Or.inl ⟨rfl, rfl⟩
  | false => exact Or.inr ⟨rfl, rfl⟩

theorem Sound.register (h : r.Sound) (rule : Rule) : (r.register rule).value.Sound := by
  obtain ⟨-, he⟩ | ⟨hc, he⟩ := register_cases r rule
  · rw [he]
    exact h
  · have hfresh : ∀ x ∈ r.rules, x.info.id ≠ rule.info.id := by
      intro x hx hid
      have htaken := h.contains_iff.2 ⟨x, hx, hid⟩
      rw [hc] at htaken
      cases htaken
    rw [he]
    refine ⟨by simp [h.index_eq], ?_⟩
    rw [List.map_append, List.nodup_append]
    refine ⟨h.nodup, by simp, ?_⟩
    intro a ha b hb hab
    obtain ⟨x, hx, rfl⟩ := List.mem_map.1 ha
    obtain rfl : b = rule.info.id := by simpa using hb
    exact hfresh x hx hab

theorem rules_register (r : Registry) (rule : Rule) :
    r.rules <+: (r.register rule).value.rules := by
  obtain ⟨-, he⟩ | ⟨-, he⟩ := register_cases r rule
  · have hsame : (r.register rule).value.rules = r.rules := by rw [he]
    exact ⟨[], by rw [List.append_nil, hsame]⟩
  · rw [he]
    exact List.prefix_append _ _

/-- An id that is taken stays with its rule; one that is free goes to a rule that has it. -/
theorem Sound.get?_register (h : r.Sound) (rule : Rule) (id : String) :
    (r.register rule).value.get? id =
      (r.get? id).or (if rule.info.id = id then some rule else none) := by
  rw [(h.register rule).get?_eq_find?, h.get?_eq_find?]
  obtain ⟨hc, he⟩ | ⟨-, he⟩ := register_cases r rule
  · rw [he]
    by_cases hid : rule.info.id = id
    · obtain ⟨x, hx⟩ := Option.isSome_iff_exists.1 hc
      have hfound : r.rules.find? (fun x => x.info.id = id) = some x := by
        rw [← hid, ← h.get?_eq_find?]
        exact hx
      simp [hfound]
    · simp [hid]
  · rw [he, List.find?_append]
    by_cases hid : rule.info.id = id <;> simp [hid]

theorem Sound.registerAll (h : r.Sound) (rules : List Rule) :
    (r.registerAll rules).value.Sound := by
  induction rules generalizing r with
  | nil => exact h
  | cons rule rules ih => exact ih (h.register rule)

theorem rules_registerAll (r : Registry) (rules : List Rule) :
    r.rules <+: (r.registerAll rules).value.rules := by
  induction rules generalizing r with
  | nil => exact List.prefix_refl _
  | cons rule rules ih => exact (rules_register r rule).trans (ih _)

/-- Of the rules of one id, the first ever registered is the one to find. -/
theorem Sound.get?_registerAll (h : r.Sound) (rules : List Rule) (id : String) :
    (r.registerAll rules).value.get? id = (r.get? id).or (rules.find? fun x => x.info.id = id) := by
  induction rules generalizing r with
  | nil => simp [Registry.registerAll]
  | cons rule rules ih =>
    show ((r.register rule).value.registerAll rules).value.get? id = _
    rw [ih (h.register rule), h.get?_register, Option.or_assoc]
    by_cases hid : rule.info.id = id <;> simp [hid]

theorem registerAll_append (r : Registry) (xs ys : List Rule) :
    (r.registerAll (xs ++ ys)).value = ((r.registerAll xs).value.registerAll ys).value := by
  induction xs generalizing r with
  | nil => rfl
  | cons x xs ih => exact ih _

end Registry

/-- The results before the first failure. -/
def granted {ε α : Type} : List (Except ε α) → List α
  | [] => []
  | .ok a :: rs => a :: granted rs
  | .error _ :: _ => []

def firstFailure? {ε α : Type} : List (Except ε α) → Option ε
  | [] => none
  | .ok _ :: rs => firstFailure? rs
  | .error e :: _ => some e

section Failure

variable {ε α : Type} {xs ys : List (Except ε α)}

theorem granted_append : granted (xs ++ ys) =
    granted xs ++ if (firstFailure? xs).isSome then [] else granted ys := by
  induction xs with
  | nil => rfl
  | cons x xs ih =>
    cases x with
    | error e => rfl
    | ok a => exact congrArg (a :: ·) ih

theorem firstFailure?_append :
    firstFailure? (xs ++ ys) = (firstFailure? xs).or (firstFailure? ys) := by
  induction xs with
  | nil => rfl
  | cons x xs ih =>
    cases x with
    | error e => rfl
    | ok a => exact ih

end Failure

/-- What a step of a discovery gives to register, in order: rules, or why there is none. -/
def Package.LoadStep.attempts : Package.LoadStep → List (Except Fault Rule)
  | .offer (.offers os) => os.map Offer.take
  | .offer (.other _) => []
  | .skip _ _ => []
  | .crash message => [.error (.crashed message)]

namespace Registry

variable (known : List (String × Package))

/-- What a package of that name gives to register. -/
def attemptsAt (name : Value) : List (Except Fault Rule) :=
  match Package.load known name with
  | .error (.unavailable _) => []
  | .error (.fault f) => [.error f]
  | .ok p => (p.steps name.display).flatMap Package.LoadStep.attempts

/-- All that a discovery gives to register. It goes no further than the first failure. -/
def attempts (names : Value) : List (Except Fault Rule) :=
  match names.members with
  | .error f => [.error f]
  | .ok ns => ns.flatMap (attemptsAt known)

/-- A call that adds rules to a registry: one rule, or all that packages offer. -/
inductive Call where
  | register (rule : Rule)
  | discover (known : List (String × Package)) (names : Value)

/-- The rules that a call registers, or tries to, before it returns or breaks off. -/
def Call.offered : Call → List Rule
  | register rule => [rule]
  | discover known names => granted (attempts known names)

/-- The registry after a call, which need not have returned. -/
def perform (r : Registry) : Call → Registry
  | .register rule => (r.register rule).value
  | .discover known names => (r.discover known names).value.1

variable {known} {r : Registry}

theorem value_registerOffers (os : List Offer) :
    (r.registerOffers os).value =
      ((r.registerAll (granted (os.map Offer.take))).value, firstFailure? (os.map Offer.take)) := by
  induction os generalizing r with
  | nil => rfl
  | cons o os ih =>
    rw [registerOffers]
    cases ho : o.take with
    | error f => simp [granted, firstFailure?, registerAll, ho]
    | ok rule =>
      rw [List.map_cons, ho]
      exact ih

theorem value_takeSteps (ss : List Package.LoadStep) :
    (r.takeSteps ss).value =
      ((r.registerAll (granted (ss.flatMap Package.LoadStep.attempts))).value,
        firstFailure? (ss.flatMap Package.LoadStep.attempts)) := by
  induction ss generalizing r with
  | nil => rfl
  | cons s ss ih =>
    rw [List.flatMap_cons, granted_append, firstFailure?_append]
    cases s with
    | skip name message => exact ih
    | crash message => rfl
    | offer listing =>
      cases listing with
      | other shape => exact ih
      | offers os =>
        rw [takeSteps, Traced.value_bind, registerListing, value_registerOffers,
          Package.LoadStep.attempts]
        cases hf : firstFailure? (os.map Offer.take) with
        | some f => simp
        | none =>
          dsimp only
          rw [ih]
          simp [registerAll_append]

theorem value_discoverIn (names : List Value) :
    (r.discoverIn known names).value =
      ((r.registerAll (granted (names.flatMap (attemptsAt known)))).value,
        firstFailure? (names.flatMap (attemptsAt known))) := by
  induction names generalizing r with
  | nil => rfl
  | cons name names ih =>
    rw [List.flatMap_cons, granted_append, firstFailure?_append, discoverIn, attemptsAt]
    cases hl : Package.load known name with
    | error absence =>
      cases absence with
      | unavailable message => exact ih
      | fault f => rfl
    | ok p =>
      dsimp only
      rw [Traced.value_bind, value_takeSteps]
      cases hf : firstFailure? ((p.steps name.display).flatMap Package.LoadStep.attempts) with
      | some f => simp
      | none =>
        dsimp only
        rw [ih]
        simp [registerAll_append]

/-- A discovery registers what it comes upon before the first failure, and counts it if there is
none. -/
theorem value_discover (names : Value) :
    (r.discover known names).value =
      ((r.registerAll (granted (attempts known names))).value,
        match firstFailure? (attempts known names) with
        | some f => .error f
        | none => .ok ((r.registerAll (granted (attempts known names))).value.size - r.size)) := by
  rw [discover, attempts]
  cases names.members with
  | error f => rfl
  | ok ns =>
    dsimp only
    rw [Traced.value_bind, value_discoverIn]
    cases firstFailure? (ns.flatMap (attemptsAt known)) <;> rfl

/-- Whatever the call, it registers what it was offered. -/
theorem perform_eq (r : Registry) (call : Call) :
    r.perform call = (r.registerAll call.offered).value := by
  cases call with
  | register rule => rfl
  | discover known names => rw [perform, value_discover, Call.offered]

theorem foldl_perform (r : Registry) (calls : List Call) :
    calls.foldl perform r = (r.registerAll (calls.flatMap Call.offered)).value := by
  induction calls generalizing r with
  | nil => rfl
  | cons call calls ih =>
    rw [List.foldl_cons, ih, perform_eq, List.flatMap_cons, registerAll_append]

/-- After any calls, no two rules have the same id, the ids are those of the rules in their order, a
rule is found by its id just if it is in the list, and it is the first that was ever registered
under this id. A further call adds behind the list what it adds, and a discovery that returns gives
the number of these. -/
theorem lookup_after_calls (calls : List Call) :
    let r := calls.foldl perform {}
    (r.rules.map (·.info.id)).Nodup ∧ r.ids = r.rules.map (·.info.id) ∧ r.size = r.ids.length ∧
      (∀ id rule, r.get? id = some rule ↔ rule ∈ r.rules ∧ rule.info.id = id) ∧
      (∀ id, r.get? id = (calls.flatMap Call.offered).find? fun x => x.info.id = id) ∧
      (∀ id rule, r.require id = .ok rule ↔ rule ∈ r.rules ∧ rule.info.id = id) ∧
      (∀ id, r.require id = .error (.unknownRule id) ↔ ∀ x ∈ r.rules, x.info.id ≠ id) ∧
      (∀ id, r.contains id ↔ ∃ x ∈ r.rules, x.info.id = id) ∧
      ∀ call, ∃ added, (r.perform call).rules = r.rules ++ added ∧
        ∀ known names n, call = .discover known names →
          (r.discover known names).value.2 = .ok n → n = added.length := by
  intro r
  have hr : r = (registerAll {} (calls.flatMap Call.offered)).value := foldl_perform {} calls
  have hs : r.Sound := by
    rw [hr]
    exact sound_empty.registerAll _
  refine ⟨hs.nodup, hs.ids_eq, by simp [size, hs.ids_eq], fun id rule => hs.get?_eq_some,
    ?_, ?_, ?_, fun id => hs.contains_iff, ?_⟩
  · intro id
    rw [hr, sound_empty.get?_registerAll]
    rfl
  · intro id rule
    rw [← hs.get?_eq_some, require]
    cases r.get? id <;> simp
  · intro id
    rw [← hs.get?_eq_none, require]
    cases r.get? id <;> simp
  · intro call
    obtain ⟨added, ha⟩ := rules_registerAll r call.offered
    refine ⟨added, by rw [perform_eq, ha], ?_⟩
    rintro known names n rfl hn
    rw [value_discover] at hn
    have hlen : (r.registerAll (granted (attempts known names))).value.size =
        r.size + added.length := by
      show (r.registerAll (Call.discover known names).offered).value.rules.length = _
      rw [← ha, List.length_append, size]
    cases hf : firstFailure? (attempts known names) with
    | some f => simp [hf] at hn
    | none =>
      simp only [hf, Except.ok.injEq] at hn
      omega

end Registry

namespace RegistrySample

def rule (id description : String) : Rule := .idle { id, description }

/-- A package without a list of rules. Inside it are one with a class whose id is taken, and one
that crashes. -/
def tools : Package :=
  .mk .loaded (.other .int) (some [
    ("b", .mk (.crashed "stop") (.offers [.rule (rule "late" "never")]) none),
    ("a", .mk .loaded (.offers [.rule (rule "beta" "rule"), .maker (.ok (rule "alpha" "class"))])
      none)])

def known : List (String × Package) :=
  [("tools", tools),
    ("more", .mk .loaded (.offers [.maker (.ok (rule "gamma" "class")),
      .rule (rule "beta" "again")]) none)]

/-- The discovery breaks off inside the first package. -/
def calls : List Registry.Call :=
  [.register (rule "alpha" "first"), .discover known (.list [.text "tools", .text "more"])]

def after : Registry := calls.foldl Registry.perform {}

/-- The packages inside are entered in the order of their names. -/
theorem steps_tools : tools.steps "tools" =
    [.offer (.other .int),
      .offer (.offers [.rule (rule "beta" "rule"), .maker (.ok (rule "alpha" "class"))]),
      .crash "stop"] := by
  have hle : ("b" ≤ "a") = False := by decide
  simp [tools, Package.steps, Package.stepsInside, List.mergeSort,
    List.MergeSort.Internal.splitInTwo, hle]

theorem after_eq :
    after = (Registry.registerAll {} [rule "alpha" "first", rule "beta" "rule",
      rule "alpha" "class"]).value := by
  have htools : Registry.attemptsAt known (.text "tools") =
      [.ok (rule "beta" "rule"), .ok (rule "alpha" "class"), .error (.crashed "stop")] :=
    congrArg (·.flatMap Package.LoadStep.attempts) steps_tools
  have hoffered : calls.flatMap Registry.Call.offered =
      [rule "alpha" "first", rule "beta" "rule", rule "alpha" "class"] := by
    show rule "alpha" "first" ::
      (granted (Registry.attemptsAt known (.text "tools") ++ _) ++ []) = _
    rw [htools]
    rfl
  rw [after, Registry.foldl_perform, hoffered]

def names : Value := .list [.text "absent", .text "more"]

end RegistrySample

/-- After a discovery that broke off, another one adds the one rule whose id is not taken yet. -/
theorem Registry.lookup_after_calls_aborted :
    (RegistrySample.after.discover RegistrySample.known RegistrySample.names).value.2 = .ok 1 ∧
      RegistrySample.after.get? "alpha" = some (RegistrySample.rule "alpha" "first") ∧
      ∃ added, (RegistrySample.after.perform
        (.discover RegistrySample.known RegistrySample.names)).rules =
        RegistrySample.after.rules ++ added ∧ added.length = 1 := by
  have hn : (RegistrySample.after.discover RegistrySample.known RegistrySample.names).value.2 =
      .ok 1 := by
    rw [RegistrySample.after_eq]
    rfl
  obtain ⟨-, -, -, -, hfirst, -, -, -, hcall⟩ := lookup_after_calls RegistrySample.calls
  obtain ⟨added, ha, hcount⟩ := hcall (.discover RegistrySample.known RegistrySample.names)
  exact ⟨hn, hfirst "alpha", added, ha, (hcount _ _ 1 rfl hn).symm⟩

end Asyncify
