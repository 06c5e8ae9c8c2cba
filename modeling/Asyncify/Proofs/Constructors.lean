import Asyncify.Proofs.Legality

/-! Constructors of classes. Nothing sets them apart from other methods: an awaited call makes the
constructor around it async. -/
namespace Asyncify

/-- A method of a class, not a static one, with the name of a constructor. -/
def Document.isConstructor (doc : Document) (m : Place) : Bool :=
  m.kind = .method && (m.parent?.map fun q => q.node.symbol) = some "class_body" &&
    !(m.node.children.any fun c => c.symbol = "static") &&
    match m.child? .name with
    | some n =>
      (n.kind = .propertyName || n.kind = .string) &&
        ["constructor", "'constructor'", "\"constructor\""].contains (doc.textOf n.node)
    | none => false

namespace Place

variable {p m a : Place} {doc : Document}

/-- Where `await` may stand, the nearest decisive place is the nearest function. -/
theorem find?_isDecisive_of_barrier? (h : p.barrier? = none) :
    p.ancestors.find? isDecisive = p.enclosingFunction? := by
  rw [barrier?] at h
  rw [enclosingFunction?]
  generalize p.ancestors = qs at h
  induction qs with
  | nil => rfl
  | cons q qs ih =>
    obtain ⟨hpos, hneg⟩ := firstBarrier?_cons h
    by_cases hd : q.isDecisive
    · rw [List.find?_cons_of_pos hd, List.find?_cons_of_pos (hpos hd).1]
    · have hl : ¬ q.isFunctionLike := fun hl => hd (isDecisive_of_isFunctionLike hl)
      rw [List.find?_cons_of_neg hd, List.find?_cons_of_neg hl]
      exact ih (hneg (by simpa using hd))

/-- A method lets `await` stand below it unless it is a getter or setter. -/
theorem barrier?_eq_none_iff (h : p.ancestors.find? isDecisive = some m) (hk : m.kind = .method) :
    p.barrier? = none ↔ m.isAccessor = false := by
  rw [barrier?]
  generalize p.ancestors = qs at h
  induction qs with
  | nil => cases h
  | cons q qs ih =>
    by_cases hd : q.isDecisive
    · rw [List.find?_cons_of_pos hd] at h
      obtain rfl := Option.some.inj h
      cases ha : q.isAccessor <;>
        simp [firstBarrier?, verdict, hk, isFunctionLike, Kind.isFunction, asyncTarget?, ha]
    · rw [List.find?_cons_of_neg hd] at h
      rw [firstBarrier?, verdict_of_isDecisive (by simpa using hd)]
      exact ih h

theorem kind_of_isConstructor (h : doc.isConstructor m) : m.kind = .method := by
  simp only [Document.isConstructor, Bool.and_eq_true, decide_eq_true_eq] at h
  exact h.1.1.1

/-- The keyword of a constructor would go before its name or the star, which is no function. -/
theorem isFunctionLike_of_isConstructor (h : doc.isConstructor m) (ha : m.asyncAnchor? = some a) :
    a.isFunctionLike = false := by
  have hnot : a.kind.isFunction = false ∧ a.kind ≠ .property := by
    obtain ⟨-, hs⟩ | hn := asyncAnchor?_of_method (kind_of_isConstructor h) ha
    · have hk : a.kind = .other := by
        rw [kind, Node.kind, hs]
        rfl
      simp [hk, Kind.isFunction]
    · simp only [Document.isConstructor, hn, Bool.and_eq_true, Bool.or_eq_true,
        decide_eq_true_eq] at h
      rcases h.2.1 with hk | hk <;> simp [hk, Kind.isFunction]
  simp [isFunctionLike, hnot]

end Place

namespace Sweep.Follows

variable {s : Sweep} {pass : Pass} {g : Place → Step} {late : Draft → Except Fault (List Place)}
  {l : List Place} {m : Place}

/-- A constructor is pending just where an awaited call has it as its nearest function. -/
theorem constructor_mem_queue_iff (h : s.Follows pass g late) (hw : pass.doc.WellFormed)
    (hl : late (pass.doc.afterSteps g) = .ok l) (hk : m.kind = .method) :
    m ∈ pass.doc.queue g l ↔ m.isAsync = false ∧
      ∃ c, (pass.doc.afterPass g l).AddsAwait c ∧ c.enclosingFunction? = some m := by
  have hlit : ¬ m.isFunctionLiteral := by simp [Place.isFunctionLiteral, hk, Kind.isFunctionLiteral]
  rw [h.mem_queue_iff hw hl]
  constructor
  · rintro ⟨hasked, ha⟩
    refine ⟨ha, ?_⟩
    cases hasked with
    | call hc hf => exact ⟨_, hc, hf⟩
    | handler _ _ _ _ hf => exact absurd hf hlit
    | callback _ _ _ _ _ hf _ => exact absurd (List.find?_some hf) hlit
  · rintro ⟨ha, c, hc, hf⟩
    exact ⟨.call hc hf, ha⟩

/-- No other function shares the keyword of a constructor. -/
theorem keyword_of_isConstructor_iff (h : s.Follows pass g late) (hw : pass.doc.WellFormed)
    (hl : late (pass.doc.afterSteps g) = .ok l)
    (hq : ∀ f ∈ pass.doc.queue g l, f.asyncAnchor?.isSome) (hm : pass.doc.isConstructor m) :
    (∃ e ∈ (pass.doc.afterPass g l).edits, e.action = .insert "async " ∧
        m.asyncAnchor? = some e.place) ↔ m ∈ pass.doc.queue g l := by
  constructor
  · rintro ⟨e, he, ha, hme⟩
    obtain he | ⟨f, hf, hmark⟩ := Document.mem_afterPass.1 he
    · exact absurd ha (h.step_action_ne_async he)
    have hlike := ((h.mem_queue_iff hw hl).1 hf).1.isFunctionLike
    obtain rfl | hpar :=
      Place.eq_or_parent?_of_asyncAnchor? hlike (Document.asyncMark?_eq_some hmark).2
    · simp [Place.isFunctionLike_of_isConstructor hm hme] at hlike
    · have hpar' := Place.parent?_of_asyncAnchor? (Place.kind_of_isConstructor hm) hme
      rwa [← Option.some.inj (hpar.symm.trans hpar')]
  · intro hf
    obtain ⟨e, he, hmark⟩ := Document.exists_asyncMark?_of_mem_queue hf (hq m hf)
    exact ⟨e, he, Document.asyncMark?_eq_some hmark⟩

end Sweep.Follows

/-- A constructor becomes async just where an awaited call has it as its nearest function. Such a
call stands in no parameter list or field inside the constructor, and wherever that is so the
constructor lets `await` stand, unless it is written as a getter or setter. -/
theorem Sweep.keyword_constructor_iff {s : Sweep} {pass : Pass} {d : Draft} {k : Nat} {m : Place}
    (hs : s ∈ Rule.sweeps) (ho : pass.IsStandard s) (hw : pass.doc.WellFormed)
    (hd : (s.draft pass).value = .ok (d, k)) (hm : pass.doc.isConstructor m) :
    ((∃ e ∈ d.edits, e.action = .insert "async " ∧ m.asyncAnchor? = some e.place) ↔
        m.isAsync = false ∧ ∃ c, d.AddsAwait c ∧ c.enclosingFunction? = some m) ∧
      (∀ c, d.AddsAwait c → c.enclosingFunction? = some m →
        c.ancestors.find? Place.isDecisive = some m ∧ m.isAccessor = false) ∧
      ∀ c : Place, c.ancestors.find? Place.isDecisive = some m →
        (c.barrier? = none ↔ m.isAccessor = false) := by
  obtain ⟨g, late, h⟩ := Rule.exists_follows hs ho
  obtain ⟨l, hl, rfl, hq⟩ := h.draft_inv hd
  have hk := Place.kind_of_isConstructor hm
  refine ⟨?_, ?_, fun c hc => Place.barrier?_eq_none_iff hc hk⟩
  · rw [h.keyword_of_isConstructor_iff hw hl hq hm, h.constructor_mem_queue_iff hw hl hk]
  · intro c hc hf
    obtain ⟨hb, -⟩ := h.covers_of_addsAwait hw hc
    have hnear := (Place.find?_isDecisive_of_barrier? hb).trans hf
    exact ⟨hnear, (Place.barrier?_eq_none_iff hnear hk).1 hb⟩

namespace ClassSample

open Sketch

/-- A class with a call in its constructor. -/
def doc : Document :=
  program
    [tree "class_declaration" []
      [token "class", gap " ", leaf "identifier" [.name] "A", gap " ",
        tree "class_body" [.body]
          [token "\x7b", gap " ",
            tree "method_definition" []
              [leaf "property_identifier" [.name] "constructor",
                parameters [], gap " ",
                block [.body] " " " " [statement []
                  (callOn [] "Links" "findOne" [leaf "number" [] "1"])]],
            gap " ", token "\x7d"]]]

def pass : Pass := { path := "a.js", doc, options := .empty }

def method : Place := doc.placeAt 6

def awaited : Place := doc.placeAt 14

def draft : Draft := doc.afterPass ((Rule.renameAll doc Rule.apiTable).move Rule.apiTable) []

theorem wellFormed : doc.WellFormed := wellFormed_program _

theorem follows : Rule.asyncApi.Follows pass ((Rule.renameAll doc Rule.apiTable).move Rule.apiTable)
    fun _ => .ok [] :=
  Rule.asyncApi_follows (Or.inl rfl)

/-- The call is found in the constructor, and the functions pending at the end have room for a
keyword. -/
theorem findings :
    doc.isConstructor method ∧ method.isAsync = false ∧ awaited ∈ doc.places ∧
      awaited.isAwaited = false ∧ awaited.enclosingFunction? = some method ∧
      ((Rule.renameAll doc Rule.apiTable).found? Rule.apiTable awaited).isSome ∧
      (doc.queue ((Rule.renameAll doc Rule.apiTable).move Rule.apiTable) []).all
        fun f => f.asyncAnchor?.isSome := by
  decide +kernel

theorem addsAwait : draft.AddsAwait awaited := by
  obtain ⟨-, -, hc, ha, -, hfound, -⟩ := findings
  exact (follows.addsAwait_iff wellFormed).2
    ⟨hc, _, Renaming.mem_edits_move_of_await hfound ha, Or.inl rfl⟩

theorem exists_draft : ∃ k, (Rule.asyncApi.draft pass).value = .ok (draft, k) := by
  obtain ⟨-, -, -, -, -, -, hanchor⟩ := findings
  exact follows.exists_draft rfl hanchor

end ClassSample

/-- The call in the constructor is awaited, so the constructor gets the keyword. -/
theorem Sweep.keyword_constructor_classSample :
    Rule.asyncApi ∈ Rule.sweeps ∧ ClassSample.pass.IsStandard Rule.asyncApi ∧
      ClassSample.doc.WellFormed ∧ ClassSample.doc.isConstructor ClassSample.method ∧
      ∃ k, (Rule.asyncApi.draft ClassSample.pass).value = .ok (ClassSample.draft, k) ∧
        ∃ e ∈ ClassSample.draft.edits, e.action = .insert "async " ∧
          ClassSample.method.asyncAnchor? = some e.place := by
  have hs : Rule.asyncApi ∈ Rule.sweeps := by simp [Rule.sweeps]
  have ho : ClassSample.pass.IsStandard Rule.asyncApi := Or.inl rfl
  obtain ⟨hm, ha, -, -, hf, -⟩ := ClassSample.findings
  obtain ⟨k, hk⟩ := ClassSample.exists_draft
  refine ⟨hs, ho, ClassSample.wellFormed, hm, k, hk, ?_⟩
  have h := keyword_constructor_iff hs ho ClassSample.wellFormed hk hm
  exact h.1.2 ⟨ha, ClassSample.awaited, ClassSample.addsAwait, hf⟩

/-- So the rule writes an async constructor, which no class can have, with an `await` in it. -/
theorem Sweep.draft_async_constructor :
    ClassSample.doc.text = "class A \x7b constructor() \x7b Links.findOne(1); \x7d \x7d" ∧
      ClassSample.doc.MethodsNamed ∧ ClassSample.draft.AddsAwait ClassSample.awaited ∧
      ClassSample.awaited.enclosingFunction? = some ClassSample.method ∧
      ClassSample.doc.isConstructor ClassSample.method ∧
      ∃ k, (Rule.asyncApi.draft ClassSample.pass).value = .ok (ClassSample.draft, k) ∧
        ClassSample.draft.source.toOption =
          some "class A \x7b async constructor() \x7b await Links.findOneAsync(1); \x7d \x7d" := by
  obtain ⟨hm, -, -, -, hf, -⟩ := ClassSample.findings
  obtain ⟨k, hk⟩ := ClassSample.exists_draft
  have hall :
      ClassSample.doc.text = "class A \x7b constructor() \x7b Links.findOne(1); \x7d \x7d" ∧
        ClassSample.doc.MethodsNamed ∧
        ClassSample.draft.source.toOption =
          some "class A \x7b async constructor() \x7b await Links.findOneAsync(1); \x7d \x7d" := by
    unfold Document.MethodsNamed
    decide +kernel
  obtain ⟨htext, hn, hsource⟩ := hall
  exact ⟨htext, hn, ClassSample.addsAwait, hf, hm, k, hk, hsource⟩

end Asyncify
