import Mathlib.Data.List.Perm.Subperm
import Asyncify.Proofs.Landing

/-! How often a pass puts the keyword before one node. The queue holds a function once, but a
function and the property that it is the value of are two entries with one anchor. -/
namespace Asyncify

namespace Place

variable {f a q : Place}

theorem ne_of_parent? (h : a.parent? = some q) : a ≠ q := by
  rintro rfl
  obtain ⟨n, above⟩ := a
  cases above with
  | nil => cases h
  | cons m ms =>
    have hl := congrArg (fun p => p.above.length) (Option.some.inj h)
    simp at hl

/-- The keyword of a method goes before its star, or else before its name. -/
theorem asyncAnchor?_of_method (hk : f.kind = .method) (ha : f.asyncAnchor? = some a) :
    (a ∈ f.children ∧ a.node.symbol = "*") ∨ f.child? .name = some a := by
  have ht : f.asyncTarget? = some f := by simp [asyncTarget?, hk]
  rw [asyncAnchor?, ht] at ha
  dsimp only at ha
  rw [if_pos hk] at ha
  cases hs : f.children.find? fun c => c.node.symbol = "*" with
  | some b =>
    rw [hs] at ha
    cases ha
    exact .inl ⟨List.mem_of_find?_eq_some hs, by simpa using List.find?_some hs⟩
  | none =>
    rw [hs] at ha
    exact .inr ha

theorem parent?_of_asyncAnchor? (hk : f.kind = .method) (ha : f.asyncAnchor? = some a) :
    a.parent? = some f := by
  obtain ⟨h, -⟩ | h := asyncAnchor?_of_method hk ha
  · exact parent?_of_mem_children h
  · exact parent?_of_child? h

/-- The keyword of a function goes before the function itself, before a part of a method, or before
the value of a property. -/
theorem asyncAnchor?_cases (hl : f.isFunctionLike) (ha : f.asyncAnchor? = some a) :
    (f = a ∧ f.asyncTarget? = some a) ∨ (a.parent? = some f ∧ f.kind = .method) ∨
      (a.parent? = some f ∧ f.asyncTarget? = some a) := by
  by_cases hk : f.kind = .method
  · exact .inr (.inl ⟨parent?_of_asyncAnchor? hk ha, hk⟩)
  by_cases hp : f.kind = .property
  · obtain ⟨v, hv, hlit⟩ := exists_value_of_isFunctionLike hp hl
    have ht : f.asyncTarget? = some v := by simp [asyncTarget?, hp, hv]
    have hva : f.asyncAnchor? = some v := by
      rcases kind_of_isFunctionLiteral hlit with hk | hk <;> simp [asyncAnchor?, ht, hk]
    obtain rfl : v = a := Option.some.inj (hva.symm.trans ha)
    exact .inr (.inr ⟨parent?_of_child? hv, ht⟩)
  · have ht : f.asyncTarget? = some f := by simp [asyncTarget?, hp]
    rw [asyncAnchor?, ht] at ha
    dsimp only at ha
    rw [if_neg hk] at ha
    obtain rfl := Option.some.inj ha
    exact .inl ⟨rfl, ht⟩

theorem eq_or_parent?_of_asyncAnchor? (hl : f.isFunctionLike) (ha : f.asyncAnchor? = some a) :
    f = a ∨ a.parent? = some f := by
  obtain ⟨h, -⟩ | ⟨h, -⟩ | ⟨h, -⟩ := asyncAnchor?_cases hl ha
  · exact .inl h
  · exact .inr h
  · exact .inr h

theorem isAsync_eq_of_target (h : f.asyncTarget? = q.asyncTarget?) : f.isAsync = q.isAsync := by
  rw [isAsync, isAsync, h]

/-- Two functions with one anchor are both async or both not, unless the anchor is the name of a
method and a function itself. -/
theorem isAsync_eq_of_asyncAnchor? {g : Place} (hf : f.isFunctionLike) (hg : g.isFunctionLike)
    (hfa : f.asyncAnchor? = some a) (hga : g.asyncAnchor? = some a)
    (hm : ∀ m, a.parent? = some m → m.kind = .method → a.isFunctionLike = false) :
    f.isAsync = g.isAsync := by
  obtain ⟨rfl, hft⟩ | ⟨hfp, hfk⟩ | ⟨hfp, hft⟩ := asyncAnchor?_cases hf hfa
  · obtain ⟨rfl, -⟩ | ⟨hgp, hgk⟩ | ⟨-, hgt⟩ := asyncAnchor?_cases hg hga
    · rfl
    · rw [hm g hgp hgk] at hf
      cases hf
    · exact isAsync_eq_of_target (hft.trans hgt.symm)
  · obtain ⟨rfl, -⟩ | ⟨hgp, -⟩ | ⟨hgp, -⟩ := asyncAnchor?_cases hg hga
    · rw [hm f hfp hfk] at hg
      cases hg
    · rw [Option.some.inj (hfp.symm.trans hgp)]
    · rw [Option.some.inj (hfp.symm.trans hgp)]
  · obtain ⟨rfl, hgt⟩ | ⟨hgp, -⟩ | ⟨hgp, -⟩ := asyncAnchor?_cases hg hga
    · exact isAsync_eq_of_target (hft.trans hgt.symm)
    · rw [Option.some.inj (hfp.symm.trans hgp)]
    · rw [Option.some.inj (hfp.symm.trans hgp)]

end Place

namespace Draft

variable (d : Draft)

/-- How often the draft puts the keyword before a node. -/
def keywordsAt (a : Place) : Nat := d.edits.countP fun e => e.addsAsync && e.node.id == a.id

/-- The pass asks for the function, and the keyword that it still needs goes before `a`. -/
def Promotes (s : Sweep) (f a : Place) : Prop :=
  d.Asked s f ∧ f.isAsync = false ∧ f.asyncAnchor? = some a

theorem Asked.isFunctionLike {d : Draft} {s : Sweep} {f : Place} (h : d.Asked s f) :
    f.isFunctionLike := by
  cases h with
  | call hc hf => exact Place.isFunctionLike_of_enclosingFunction? hf
  | handler hs hc hr ha hf => exact Place.isFunctionLike_of_isFunctionLiteral hf
  | callback hs hc hm hr hi ha hw =>
    exact Place.isFunctionLike_of_isFunctionLiteral (List.find?_some ha)

end Draft

namespace Sweep.Follows

variable {s : Sweep} {pass : Pass} {g : Place → Step} {late : Draft → Except Fault (List Place)}
  {l : List Place} {a f : Place}

theorem mem_queue_iff (h : s.Follows pass g late) (hw : pass.doc.WellFormed)
    (hl : late (pass.doc.afterSteps g) = .ok l) :
    f ∈ pass.doc.queue g l ↔ (pass.doc.afterPass g l).Asked s f ∧ f.isAsync = false :=
  (Queue.mem_addAll_iff hw fun _ hp => h.asked_mem_places hl hp).trans (h.mem_asked_iff hw hl)

theorem queue_mem_places (h : s.Follows pass g late) (hl : late (pass.doc.afterSteps g) = .ok l)
    (hf : f ∈ pass.doc.queue g l) : f ∈ pass.doc.places := by
  obtain hf | hf := Queue.mem_addAll hf
  · cases hf
  · exact h.asked_mem_places hl hf

/-- A node gets one keyword for each queued function that has it as its anchor. -/
theorem keywordsAt_eq (h : s.Follows pass g late) (hw : pass.doc.WellFormed)
    (hl : late (pass.doc.afterSteps g) = .ok l) (ha : a ∈ pass.doc.places) :
    (pass.doc.afterPass g l).keywordsAt a =
      ((pass.doc.queue g l).filter fun f => f.asyncAnchor? = some a).length := by
  have hsteps :
      (pass.doc.afterSteps g).edits.countP (fun e => e.addsAsync && e.node.id == a.id) = 0 := by
    refine List.countP_eq_zero.2 fun e he => ?_
    have hn := h.step_action_ne_async he
    rw [ne_eq, ← Edit.addsAsync_iff] at hn
    simp [hn]
  rw [Draft.keywordsAt, Document.afterPass, Draft.recordAll, List.countP_append, hsteps,
    Nat.zero_add, List.countP_filterMap, ← List.countP_eq_length_filter]
  refine List.countP_congr fun f hf => ?_
  cases hm : pass.doc.asyncMark? f with
  | none =>
    have hn : f.asyncAnchor? = none := Option.map_eq_none_iff.1 hm
    simp [hn]
  | some e =>
    obtain ⟨hact, hanchor⟩ := Document.asyncMark?_eq_some hm
    have hplace := Place.asyncAnchor?_mem_places (h.queue_mem_places hl hf) hanchor
    simp only [Option.map_some, Option.getD_some, (Edit.addsAsync_iff e).2 hact, hanchor,
      Bool.true_and, beq_iff_eq, Option.some.injEq, decide_eq_true_eq]
    constructor
    · exact hw.place_eq_of_id hplace ha
    · rintro rfl
      rfl

end Sweep.Follows

/-- A node gets two keywords just where two functions are promoted that have it as their anchor:
itself and the property or method around it. It never gets more, and none if its function is async
already, as long as no method has a function for its name. -/
theorem Sweep.keywordsAt_le_one_iff {s : Sweep} {pass : Pass} {d : Draft} {k : Nat} {a : Place}
    (hs : s ∈ Rule.sweeps) (ho : pass.IsStandard s) (hw : pass.doc.WellFormed)
    (hd : (s.draft pass).value = .ok (d, k)) (ha : a ∈ pass.doc.places) :
    (d.keywordsAt a ≤ 1 ↔ ∀ q, a.parent? = some q → d.Promotes s q a → ¬ d.Promotes s a a) ∧
      d.keywordsAt a ≤ 2 ∧
      ∀ f : Place, f.isFunctionLike → f.asyncAnchor? = some a → f.isAsync →
        (∀ m, a.parent? = some m → m.kind = .method → a.isFunctionLike = false) →
          d.keywordsAt a = 0 := by
  obtain ⟨g, late, h⟩ := Rule.exists_follows hs ho
  obtain ⟨l, hl, rfl, hq⟩ := h.draft_inv hd
  rw [h.keywordsAt_eq hw hl ha]
  have hmem (f : Place) : f ∈ (pass.doc.queue g l).filter (fun f => f.asyncAnchor? = some a) ↔
      (pass.doc.afterPass g l).Promotes s f a := by
    rw [List.mem_filter, h.mem_queue_iff hw hl, Draft.Promotes, decide_eq_true_eq, and_assoc]
  have hnodup : ((pass.doc.queue g l).filter fun f => f.asyncAnchor? = some a).Nodup :=
    ((Queue.nodup_addAll (by simp)).of_map _).filter _
  have honly {f : Place} (hf : (pass.doc.afterPass g l).Promotes s f a) : f = a ∨
      a.parent? = some f :=
    Place.eq_or_parent?_of_asyncAnchor? hf.1.isFunctionLike hf.2.2
  generalize (pass.doc.queue g l).filter (fun f => f.asyncAnchor? = some a) = fs at hmem hnodup
  have hle (gs : List Place) (hsub : fs ⊆ gs) : fs.length ≤ gs.length :=
    (List.subperm_of_subset hnodup hsub).length_le
  refine ⟨⟨?_, ?_⟩, ?_, ?_⟩
  · intro hone q hpar hqa haa
    have hpair : [a, q].Nodup := by simp [Place.ne_of_parent? hpar]
    have hsub : [a, q] ⊆ fs := by simp [hmem, hqa, haa]
    have := (List.subperm_of_subset hpair hsub).length_le
    simp at this
    omega
  · intro hnot
    by_cases haa : (pass.doc.afterPass g l).Promotes s a a
    · refine hle [a] fun f hf => ?_
      obtain rfl | hpar := honly ((hmem f).1 hf)
      · exact List.mem_cons_self
      · exact absurd haa (hnot f hpar ((hmem f).1 hf))
    · refine le_trans (hle a.parent?.toList fun f hf => ?_) Option.length_toList_le
      obtain rfl | hpar := honly ((hmem f).1 hf)
      · exact absurd ((hmem f).1 hf) haa
      · simp [hpar]
  · refine le_trans (hle (a :: a.parent?.toList) fun f hf => ?_)
      (Nat.succ_le_succ Option.length_toList_le)
    obtain rfl | hpar := honly ((hmem f).1 hf)
    · exact List.mem_cons_self
    · simp [hpar]
  · intro f hf hfa hasync hname
    refine List.length_eq_zero_iff.2 (List.eq_nil_iff_forall_not_mem.2 fun f' hf' => ?_)
    obtain ⟨hasked, hn, hfa'⟩ := (hmem f').1 hf'
    rw [Place.isAsync_eq_of_asyncAnchor? hasked.isFunctionLike hf hfa' hfa hname, hasync] at hn
    cases hn

/-- Both calls of the folded statement ask for the function around, which gets one keyword. -/
theorem Sweep.keywordsAt_le_one_folding :
    Folding.doc.WellFormed ∧ Folding.function ∈ Folding.doc.places ∧
      ∃ k, (Rule.callAsync.draft Folding.pass).value = .ok (Folding.draft, k) ∧
        Folding.draft.keywordsAt Folding.function ≤ 1 := by
  have hf : Folding.function ∈ Folding.doc.places := by decide +kernel
  obtain ⟨k, hk⟩ := Folding.follows.exists_draft rfl (by decide +kernel)
  refine ⟨Folding.wellFormed, hf, k, hk, ?_⟩
  have h := keywordsAt_le_one_iff (by simp [Rule.sweeps]) (Or.inl rfl) Folding.wellFormed hk hf
  refine h.1.2 fun q hq hp => ?_
  have hanchor : ∀ q ∈ Folding.function.parent?, q.asyncAnchor? ≠ some Folding.function := by
    decide +kernel
  exact absurd hp.2.2 (hanchor q hq)

namespace SharedAnchor

open Sketch

/-- A property with one call in its key and another in the function that is its value. -/
def doc : Document :=
  program
    [statement [] (grouped [] (ComputedKey.object (functionWith [.value] []
      (block [.body] " " " " [statement []
        (callOn [] "Links" "findOne" [leaf "number" [] "2"])]))))]

def pass : Pass := { path := "a.js", doc, options := .empty }

def draft : Draft := doc.afterPass ((Rule.renameAll doc Rule.apiTable).move Rule.apiTable) []

def function : Place := doc.placeAt 20

end SharedAnchor

/-- The call in the key asks for the property and the call in the body for the function, so the
function gets two keywords. -/
theorem Sweep.keywordsAt_sharedAnchor :
    SharedAnchor.doc.WellFormed ∧ SharedAnchor.pass.IsStandard Rule.asyncApi ∧
      SharedAnchor.function ∈ SharedAnchor.doc.places ∧
      ∃ k, (Rule.asyncApi.draft SharedAnchor.pass).value = .ok (SharedAnchor.draft, k) ∧
        SharedAnchor.draft.keywordsAt SharedAnchor.function = 2 ∧
        SharedAnchor.draft.source.toOption = some ("(\x7b [await Links.findOneAsync(1)]: " ++
          "async async function () \x7b await Links.findOneAsync(2); \x7d \x7d);") := by
  have ho : SharedAnchor.pass.IsStandard Rule.asyncApi := Or.inl rfl
  obtain ⟨k, hk⟩ := (Rule.asyncApi_follows ho).exists_draft rfl (by decide +kernel)
  exact ⟨Sketch.wellFormed_program _, ho, by decide +kernel, k,
    hk, by decide +kernel, by decide +kernel⟩

end Asyncify
