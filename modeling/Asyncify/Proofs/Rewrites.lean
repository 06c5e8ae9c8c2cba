import Asyncify.Proofs.Plans
import Asyncify.Proofs.Depiction
import Asyncify.Proofs.Lookup

/-! The rules that rename calls and await them, each as a plan for the printer. -/
namespace Asyncify

namespace Rule

/-- A rule that renames calls and awaits them: its methods with their new names, the receivers that
it accepts, and whether it renames the old package as well. -/
structure Rewrite where
  sweep : Sweep
  methods : List (String × String)
  accepts : Document → Place → Bool := fun _ _ => true
  packages : Bool := false
  nodup : (methods.map (·.1)).Nodup := by decide

namespace Rewrite

def api : Rewrite where
  sweep := asyncApi
  methods := ["findOne", "insert", "update", "upsert", "remove"].map fun n => (n, asyncName n)

def user : Rewrite where
  sweep := userAsync
  methods := ["user"].map fun n => (n, asyncName n)
  accepts := fun doc => doc.isIdentifier "Meteor"

def index : Rewrite where
  sweep := indexAsync
  methods := [("_ensureIndex", "createIndexAsync")]

def roles : Rewrite where
  sweep := rolesMigration
  methods := rolesMethods.map fun n => (n, asyncName n)
  accepts := fun doc => doc.isIdentifier "Roles"
  packages := true

def cursor : Rewrite where
  sweep := cursorAsync
  methods := ["count", "fetch", "forEach", "map"].map fun n => (n, asyncName n)
  accepts := fun doc => (cursorsOf doc).permits doc

end Rewrite

/-- The rules whose result is all in their table. -/
def rewrites : List Rewrite := [.api, .user, .index, .roles]

namespace Rewrite

variable (w : Rewrite) (doc : Document)

/-- The property of a call and its new name: the method is in the table, the receiver is accepted,
and `await` may stand there. -/
def renamed? (p : Place) : Option (Place × String) :=
  match p.memberCall? with
  | some (receiver, name) =>
    if w.accepts doc receiver && p.barrier?.isNone then
      (w.methods.lookup (doc.textOf name.node)).map (name, ·)
    else none
  | none => none

/-- The name of the old package in an import or a `require`. -/
def fragment? (p : Place) : Option Place := if w.packages then oldPackageName? doc p else none

def isMatch (p : Place) : Bool := (w.renamed? doc p).isSome || (w.fragment? doc p).isSome

/-- A renamed call that has no `await` yet. -/
def awaits (p : Place) : Bool := (w.renamed? doc p).isSome && !p.isAwaited

/-- Renamed calls get an `await`, and the nearest function of each becomes async. -/
def plan : Plan where
  renamed p := (w.renamed? doc p).toList ++ (w.fragment? doc p).toList.map (·, newRolesPackage)
  awaited p := w.awaits doc p
  promotes f := !f.isAsync && doc.places.any fun c =>
    w.awaits doc c && c.enclosingFunction?.any fun q => q.id = f.id

/-- What the rule does at one place. -/
def step (p : Place) : Step :=
  match w.fragment? doc p with
  | some fragment => ⟨[packageEdit fragment], []⟩
  | none =>
    match w.renamed? doc p with
    | some (name, new) =>
      ⟨[⟨name, .replace (.literal (.text new)),
        "Renamed " ++ doc.textOf name.node ++ " to " ++ new⟩], []⟩ ++ Step.ofAwait doc p
    | none => {}

end Rewrite
end Rule

namespace MethodTable

theorem get?_ofList {methods : List (String × String)} (h : (methods.map (·.1)).Nodup)
    (name : String) :
    (ofList methods).get? (.text name) = (methods.lookup name).map .text := by
  have hdistinct : Entries.Distinct (methods.map fun m => (Key.text m.1, Value.text m.2)) := by
    refine List.pairwise_map.2 ((List.pairwise_map.1 h).imp fun hne => ?_)
    rw [Bool.eq_false_iff, ne_eq, Key.same_text_iff, Key.text.injEq]
    exact hne
  rw [ofList, Entries.get?_ofList hdistinct]
  clear h hdistinct
  induction methods with
  | nil => rfl
  | cons m methods ih =>
    rw [List.map_cons, Entries.find?_cons, List.lookup_cons, ih]
    by_cases h : m.1 = name
    · simp [Key.same_text_iff, h]
    · have hne : (name == m.1) = false := by simpa using fun he => h he.symm
      rw [if_neg (by simpa [Key.same_text_iff] using h), hne]

theorem get?_ofNames {names : List String} (h : names.Nodup) (s : String) :
    (ofNames names).get? (.text s) = if s ∈ names then some (.text (asyncName s)) else none := by
  rw [ofNames, get?_ofList (by simpa [Function.comp_def] using h)]
  clear h
  induction names with
  | nil => rfl
  | cons n names ih =>
    rw [List.map_cons, List.lookup_cons]
    by_cases h : s = n
    · simp [h]
    · simpa [h, beq_eq_false_iff_ne.2 h] using ih

end MethodTable

namespace Rule.Rewrite

variable {w : Rewrite} {doc : Document} {r : Renaming} {pass : Pass} {p : Place}

/-- The rename of a rule whose table could be read is that of its list of methods. -/
theorem found?_eq (hd : r.doc = doc) (ha : r.accepts = w.accepts doc) :
    r.found? (.ofList w.methods) p = (w.renamed? doc p).map fun x => (x.1, .text x.2) := by
  subst hd
  rw [Renaming.found?, renamed?]
  cases p.memberCall? with
  | none => rfl
  | some c =>
    simp only [ha, MethodTable.get?_ofList w.nodup]
    split
    · simp [Function.comp_def]
    · rfl

theorem move_eq (hd : r.doc = doc) (ha : r.accepts = w.accepts doc) :
    r.move (.ofList w.methods) p =
      match w.renamed? doc p with
      | some (name, new) =>
        ⟨[⟨name, .replace (.literal (.text new)),
          "Renamed " ++ doc.textOf name.node ++ " to " ++ new⟩], []⟩ ++ Step.ofAwait doc p
      | none => {} := by
  rw [Renaming.move, found?_eq hd ha]
  subst hd
  cases w.renamed? r.doc p <;> rfl

theorem step_eq_move {table : MethodTable} (ht : table = .ofList w.methods) (hd : r.doc = doc)
    (ha : r.accepts = w.accepts doc) (hp : w.packages = false) : r.move table = w.step doc := by
  funext p
  subst ht
  rw [move_eq hd ha, step, fragment?, hp]
  rfl

theorem step_eq_rolesMove {table : MethodTable} (ht : table = .ofList w.methods) (hd : r.doc = doc)
    (ha : r.accepts = w.accepts doc) (hp : w.packages = true) : rolesMove r table = w.step doc := by
  funext p
  subst ht
  rw [rolesMove, move_eq hd ha, step, fragment?, hp, hd]
  rfl

/-- In a pass with standard options each rule takes the steps read off its table. -/
theorem follows (hr : w ∈ rewrites) (ho : pass.IsStandard w.sweep) :
    w.sweep.Follows pass (w.step pass.doc) fun _ => .ok [] := by
  simp only [rewrites, List.mem_cons, List.not_mem_nil, or_false] at hr
  rcases hr with rfl | rfl | rfl | rfl
  · have h : (renameAll pass.doc apiTable).move apiTable = api.step pass.doc :=
      step_eq_move rfl rfl rfl rfl
    exact h ▸ asyncApi_follows ho
  · have h : (renameOn pass.doc userTable "Meteor").move userTable = user.step pass.doc :=
      step_eq_move rfl rfl rfl rfl
    exact h ▸ userAsync_follows ho
  · have h : (renameAll pass.doc indexTable).move indexTable = index.step pass.doc :=
      step_eq_move rfl rfl rfl rfl
    exact h ▸ indexAsync_follows ho
  · have h : rolesMove (renameOn pass.doc rolesTable "Roles") rolesTable = roles.step pass.doc :=
      step_eq_rolesMove rfl rfl rfl rfl
    exact h ▸ rolesMigration_follows ho

theorem renamed?_eq_some {x : Place × String} :
    w.renamed? doc p = some x ↔ ∃ receiver, p.memberCall? = some (receiver, x.1) ∧
      w.accepts doc receiver ∧ p.barrier? = none ∧
      w.methods.lookup (doc.textOf x.1.node) = some x.2 := by
  rw [renamed?]
  constructor
  · intro h
    cases hm : p.memberCall? with
    | none => simp [hm] at h
    | some c =>
      rw [hm] at h
      dsimp only at h
      split at h
      · next hc =>
        obtain ⟨ha, hb⟩ := Bool.and_eq_true_iff.1 hc
        obtain ⟨new, hn, rfl⟩ := Option.map_eq_some_iff.1 h
        exact ⟨c.1, rfl, ha, Option.isNone_iff_eq_none.1 hb, hn⟩
      · cases h
  · rintro ⟨receiver, hm, ha, hb, hn⟩
    simp [hm, ha, hb, hn]

/-- A rule that renames the package looks for calls on the roles. -/
def IsSeparate (w : Rewrite) : Prop :=
  w.packages → w.accepts = fun doc => doc.isIdentifier "Roles"

theorem isSeparate_of_mem (hr : w ∈ rewrites) : w.IsSeparate := by
  intro hp
  simp only [rewrites, List.mem_cons, List.not_mem_nil, or_false] at hr
  rcases hr with rfl | rfl | rfl | rfl
  · cases hp
  · cases hp
  · cases hp
  · rfl

/-- A call that loads the package is no call on the roles: the text of what is called would have to
hold the name of the receiver. -/
theorem renamed?_eq_none_of_fragment? (hr : w.IsSeparate) (hw : doc.WellFormed)
    (hp : p ∈ doc.places)
    {f : Place} (hf : w.fragment? doc p = some f) : w.renamed? doc p = none := by
  rw [Option.eq_none_iff_forall_ne_some]
  intro x hx
  obtain ⟨receiver, hm, ha, -, -⟩ := renamed?_eq_some.1 hx
  obtain ⟨hk, callee, hc, -, ho, -, -⟩ := Place.memberCall?_eq_some.1 hm
  have hpack : w.packages := by
    by_contra hn
    simp [fragment?, hn] at hf
  rw [hr hpack] at ha
  obtain ⟨-, hroles⟩ := Bool.and_eq_true_iff.1 ha
  have hroles : doc.textOf receiver.node = "Roles" := by simpa using hroles
  have hrequire : doc.textOf callee.node = "require" := by
    rw [fragment?, if_pos hpack] at hf
    obtain ⟨hf, -⟩ := Option.filter_eq_some_iff.1 hf
    obtain ⟨q, hq, -⟩ := Option.bind_eq_some_iff.1 hf
    rw [loadedSource?, if_neg (by simp [hk]), hc] at hq
    split at hq
    · next h => exact of_decide_eq_true (Bool.and_eq_true_iff.1 h).2
    · cases hq
  have hcallee := Document.child_mem_places hp (Place.mem_children_of_child? hc)
  have hin := hw.textOf_infix (Document.node_mem_nodes hcallee)
    (Node.mem_preorder_child (Place.node_mem_of_mem_children (Place.mem_children_of_child? ho)).1
      receiver.node.mem_preorder_self)
  rw [hroles, hrequire] at hin
  exact absurd hin (by decide +kernel)

theorem mem_promoted_step (hr : w.IsSeparate) (hw : doc.WellFormed) (hp : p ∈ doc.places)
    {f : Place} :
    f ∈ (w.step doc p).promoted ↔ w.awaits doc p ∧ p.promotion? = some f := by
  rw [step, awaits]
  cases hf : w.fragment? doc p with
  | some fragment => simp [renamed?_eq_none_of_fragment? hr hw hp hf]
  | none =>
    cases hx : w.renamed? doc p with
    | none => simp
    | some x => simp [Step.mem_promoted_ofAwait]

theorem edits_step (hr : w.IsSeparate) (hw : doc.WellFormed) (hp : p ∈ doc.places) :
    (w.step doc p).edits.map (fun e => (e.place, e.action)) =
      ((w.plan doc).renamed p).map (fun x => (x.1, .replace (.literal (.text x.2)))) ++
        if (w.plan doc).awaited p then [(p, (doc.awaitEdit p).action)] else [] := by
  rw [step, plan]
  cases hf : w.fragment? doc p with
  | some fragment => simp [awaits, hf, renamed?_eq_none_of_fragment? hr hw hp hf, packageEdit]
  | none =>
    cases hx : w.renamed? doc p with
    | none => simp [awaits, hx, hf]
    | some x =>
      cases ha : p.isAwaited <;> simp [awaits, hx, hf, ha, Step.ofAwait, Document.awaitEdit_place]

theorem mem_queue_step (hr : w.IsSeparate) (hw : doc.WellFormed) (f : Place) :
    f ∈ doc.queue (w.step doc) [] ↔ f ∈ doc.places ∧ (w.plan doc).promotes f := by
  have hmem {p f : Place} (hp : p ∈ doc.places) (h : p.promotion? = some f) : f ∈ doc.places :=
    Place.enclosingFunction?_mem_places hp (Place.promotion?_eq_some.1 h).1
  have hasked (f : Place) : f ∈ doc.asked (w.step doc) [] ↔
      ∃ p ∈ doc.places, w.awaits doc p ∧ p.promotion? = some f := by
    rw [Document.asked, List.append_nil, List.mem_flatMap]
    exact exists_congr fun p => and_congr_right fun hp => mem_promoted_step hr hw hp
  have hq : ∀ f ∈ doc.asked (w.step doc) [], f ∈ doc.places := by
    intro f hf
    obtain ⟨p, hp, -, h⟩ := (hasked f).1 hf
    exact hmem hp h
  rw [Document.queue, Queue.mem_addAll_iff hw hq, hasked]
  simp only [plan, Bool.and_eq_true, Bool.not_eq_true', List.any_eq_true, Option.any_eq_true,
    decide_eq_true_eq]
  constructor
  · rintro ⟨p, hp, ha, h⟩
    obtain ⟨he, hn⟩ := Place.promotion?_eq_some.1 h
    exact ⟨hmem hp h, hn, p, hp, ha, f, he, rfl⟩
  · rintro ⟨hf, hn, p, hp, ha, q, he, hid⟩
    obtain rfl : q = f := hw.place_eq_of_id (Place.enclosingFunction?_mem_places hp he) hf hid
    exact ⟨p, hp, ha, Place.promotion?_eq_some.2 ⟨he, hn⟩⟩

theorem mem_renamed_plan {x : Place × String} :
    x ∈ (w.plan doc).renamed p ↔
      w.renamed? doc p = some x ∨ (w.fragment? doc p = some x.1 ∧ x.2 = newRolesPackage) := by
  rw [plan, List.mem_append, Option.mem_toList, List.mem_map]
  refine or_congr_right ⟨?_, ?_⟩
  · rintro ⟨f, hf, rfl⟩
    exact ⟨Option.mem_toList.1 hf, rfl⟩
  · rintro ⟨hf, hx⟩
    exact ⟨x.1, Option.mem_toList.2 hf, by rw [← hx]⟩

theorem fragment?_eq_some {f : Place} (h : w.fragment? doc p = some f) :
    oldPackageName? doc p = some f := by
  rw [fragment?] at h
  split at h
  · exact h
  · cases h

end Rule.Rewrite

namespace Rule

variable {doc : Document} {p q f : Place}

theorem loadedSource?_mem_places (hp : p ∈ doc.places) (h : loadedSource? doc p = some q) :
    q ∈ doc.places := by
  rw [loadedSource?] at h
  split at h
  · exact Document.child_mem_places hp (Place.mem_children_of_child? h)
  · split at h
    · split at h
      · next x hx =>
        cases h
        exact Place.callArguments_mem_places hp (by simp [hx])
      · cases h
    · cases h

/-- The name of the package is a piece of a string literal. -/
theorem oldPackageName?_eq_some (h : oldPackageName? doc p = some f) :
    f.node.symbol = "string_fragment" ∧ doc.textOf f.node = oldRolesPackage ∧
      ∃ q, loadedSource? doc p = some q ∧ f ∈ q.children := by
  obtain ⟨h, ht⟩ := Option.filter_eq_some_iff.1 h
  obtain ⟨q, hq, hf⟩ := Option.bind_eq_some_iff.1 h
  rw [stringFragment?] at hf
  split at hf
  · have hs := List.find?_some hf
    have hm := List.mem_of_mem_filter (List.mem_of_find?_eq_some hf)
    exact ⟨of_decide_eq_true hs, of_decide_eq_true ht, q, hq, hm⟩
  · cases hf

theorem oldPackageName?_mem_places (hp : p ∈ doc.places) (h : oldPackageName? doc p = some f) :
    f ∈ doc.places := by
  obtain ⟨-, -, q, hq, hf⟩ := oldPackageName?_eq_some h
  exact Document.child_mem_places (loadedSource?_mem_places hp hq) hf

end Rule

/-- The grammar gives every method a name. -/
def Document.MethodsNamed (doc : Document) : Prop :=
  ∀ p ∈ doc.places, p.kind = .method → (p.child? .name).isSome

namespace Rule.Rewrite

variable {w : Rewrite} {doc : Document} {pass : Pass} {p q : Place} {x y : Place × String}

theorem renamed_mem_places (hp : p ∈ doc.places) (hx : x ∈ (w.plan doc).renamed p) :
    x.1 ∈ doc.places := by
  obtain hx | ⟨hx, -⟩ := mem_renamed_plan.1 hx
  · obtain ⟨receiver, hm, -⟩ := renamed?_eq_some.1 hx
    exact (Place.memberCall?_mem_places hp hm).2
  · exact oldPackageName?_mem_places hp (fragment?_eq_some hx)

theorem kind_ne_of_fragment? {f : Place} (h : w.fragment? doc p = some f) :
    f.kind ≠ .propertyName := by
  obtain ⟨hs, -⟩ := oldPackageName?_eq_some (fragment?_eq_some h)
  rw [Place.kind, Node.kind, hs]
  decide

theorem kind_of_renamed? (h : w.renamed? doc p = some x) : x.1.kind = .propertyName := by
  obtain ⟨receiver, hm, -⟩ := renamed?_eq_some.1 h
  obtain ⟨-, callee, -, -, -, -, hk⟩ := Place.memberCall?_eq_some.1 hm
  exact hk

/-- No node is given two different texts. -/
theorem renamed_eq (hx : x ∈ (w.plan doc).renamed p) (hy : y ∈ (w.plan doc).renamed q)
    (he : x.1 = y.1) : x.2 = y.2 := by
  obtain hx | ⟨hx, hxn⟩ := mem_renamed_plan.1 hx <;> obtain hy | ⟨hy, hyn⟩ := mem_renamed_plan.1 hy
  · obtain ⟨receiver, hm, -, -, hn⟩ := renamed?_eq_some.1 hx
    obtain ⟨receiver', hm', -, -, hn'⟩ := renamed?_eq_some.1 hy
    rw [← he, hn] at hn'
    exact Option.some.inj hn'
  · exact absurd (he ▸ kind_of_renamed? hx) (kind_ne_of_fragment? hy)
  · exact absurd (he ▸ kind_of_renamed? hy) (kind_ne_of_fragment? hx)
  · rw [hxn, hyn]

theorem describes (hr : w.IsSeparate) (hw : doc.WellFormed) :
    (w.plan doc).Describes doc (w.step doc) [] where
  edits _ hp := edits_step hr hw hp
  queue := mem_queue_step hr hw
  renamed_mem _ hp _ hx := renamed_mem_places hp hx
  renamed_eq _ hp _ hx _ hq _ hy hid :=
    renamed_eq hx hy (hw.place_eq_of_id (renamed_mem_places hp hx) (renamed_mem_places hq hy) hid)

/-- A plan has nothing to do just where nothing matches. -/
theorem isIdle_eq (w : Rewrite) (doc : Document) :
    (w.plan doc).isIdle doc = !doc.places.any (w.isMatch doc) := by
  rw [Bool.eq_iff_iff, Plan.isIdle, List.all_eq_true, Bool.not_eq_true', List.any_eq_false]
  constructor
  · intro h p hp
    have hi := h p hp
    simp only [plan, Bool.and_eq_true, List.isEmpty_iff, List.append_eq_nil_iff] at hi
    simp_all [isMatch]
  · intro h p hp
    have hnone : ∀ q ∈ doc.places, w.renamed? doc q = none ∧ w.fragment? doc q = none := by
      intro q hq
      simpa [isMatch] using h q hq
    have hnot : ∀ q ∈ doc.places, w.awaits doc q = false := by
      intro q hq
      simp [awaits, (hnone q hq).1]
    have hpromotes : (w.plan doc).promotes p = false := by
      have hany : (doc.places.any fun c =>
          w.awaits doc c && c.enclosingFunction?.any fun q => q.id = p.id) = false :=
        List.any_eq_false.2 fun c hc => by simp [hnot c hc]
      simp [plan, hany]
    rw [hpromotes]
    simp [plan, hnone p hp, hnot p hp]

/-- Every function that a plan promotes has a place for the keyword, if methods have names. -/
theorem isAnchored_of_methodsNamed (hw : doc.WellFormed) (hm : doc.MethodsNamed) :
    (w.plan doc).isAnchored doc := by
  refine List.all_eq_true.2 fun f hf => ?_
  cases hp : (w.plan doc).promotes f with
  | false => rfl
  | true =>
    simp only [plan, Bool.and_eq_true, List.any_eq_true, Option.any_eq_true,
      decide_eq_true_eq] at hp
    obtain ⟨-, c, hc, -, q, he, hid⟩ := hp
    obtain rfl : q = f := hw.place_eq_of_id (Place.enclosingFunction?_mem_places hc he) hf hid
    have hs := Place.asyncAnchor?_isSome (Place.isFunctionLike_of_enclosingFunction? he) (hm q hf)
    rw [hs]
    rfl

/-- The rule gives back nothing just where no place matches, and else what the printer prints for
its plan, unless a method that is to become async has no name. -/
theorem visit_eq_print {w : Rewrite} {pass : Pass} (hr : w ∈ rewrites)
    (ho : pass.IsStandard w.sweep) (hw : pass.doc.WellFormed) :
    ((w.sweep.rule.visit pass).value.map Outcome.output =
        if pass.doc.places.any (w.isMatch pass.doc) then
          if (w.plan pass.doc).isAnchored pass.doc then
            .ok (some (pass.doc.print ((w.plan pass.doc).mark pass.doc)))
          else .error .missingNode
        else .ok none) ∧
      (pass.doc.MethodsNamed → (w.plan pass.doc).isAnchored pass.doc) := by
  refine ⟨?_, isAnchored_of_methodsNamed hw⟩
  have hv := (describes (isSeparate_of_mem hr) hw).value_visit (follows hr ho) rfl hw
  rw [isIdle_eq] at hv
  rw [hv]
  cases pass.doc.places.any (w.isMatch pass.doc) <;> rfl

end Rule.Rewrite

namespace RolesSample

open Sketch

def load : Sketch :=
  tree "import_statement" []
    [token "import", gap " ",
      tree "string" [.source] [token "'", leaf "string_fragment" [] "meteor/alanning:roles",
      token "'"], token ";"]

/-- In a function, a call is the object of a member access. -/
def doc : Document :=
  program
    [load, gap "\n",
      functionNamed [] "f" (block [.body] " " " "
        [returning [] (member [] (callOn [.object] "Roles" "getAllRoles" []) "x")])]

def pass : Pass := { path := "a.js", doc, options := .empty }

end RolesSample

theorem Rule.Rewrite.visit_eq_print_roles :
    Rewrite.roles ∈ rewrites ∧ RolesSample.pass.IsStandard Rewrite.roles.sweep ∧
      RolesSample.doc.WellFormed ∧
      (Rewrite.roles.sweep.rule.visit RolesSample.pass).value.map Outcome.output =
        .ok (some ("import 'meteor/roles';\n" ++
          "async function f() \x7b return (await Roles.getAllRolesAsync()).x; \x7d")) := by
  have hr : Rewrite.roles ∈ rewrites := by simp [rewrites]
  have ho : RolesSample.pass.IsStandard Rewrite.roles.sweep := Or.inl rfl
  have hw : RolesSample.doc.WellFormed := Sketch.wellFormed_program _
  have h := visit_eq_print hr ho hw
  have hmatch : RolesSample.doc.places.any (Rewrite.roles.isMatch RolesSample.doc) := by
    decide +kernel
  have hanchor : (Rewrite.roles.plan RolesSample.doc).isAnchored RolesSample.doc := by
    decide +kernel
  have hprint : RolesSample.doc.print ((Rewrite.roles.plan RolesSample.doc).mark RolesSample.doc) =
      "import 'meteor/roles';\n" ++
        "async function f() \x7b return (await Roles.getAllRolesAsync()).x; \x7d" := by
          decide +kernel
  refine ⟨hr, ho, hw, h.1.trans ((if_pos hmatch).trans ((if_pos hanchor).trans ?_))⟩
  exact congrArg (fun text => Except.ok (some text)) hprint

end Asyncify
