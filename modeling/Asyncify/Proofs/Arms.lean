import Asyncify.Proofs.Script
import Asyncify.Proofs.Sketch

/-! The statements of an error-first callback, and the half of the `try` statement that each of them
belongs to. Tests of the error are taken apart; the two halves share no node, and each keeps the
order of the source. -/
namespace Asyncify

/-- What the grammar promises of the nodes that a fold takes apart. -/
structure Document.IsComplete (doc : Document) : Prop where
  callees : ∀ p ∈ doc.places, p.kind = .call → (p.child? .function).isSome
  bodies : ∀ p ∈ doc.places, p.isFunctionLiteral → p.functionParameters ≠ [] →
    (p.child? .body).isSome
  /-- An `if` has something to do when the test holds, and it is not what is to be done else. -/
  arms : ∀ p ∈ doc.places, p.kind = .ifStatement →
    (p.child? .consequence).isSome ∧ p.child? .alternative ≠ p.child? .consequence
  elses : ∀ p ∈ doc.places, p.kind = .elseClause → p.parts.length = 1

instance (doc : Document) : Decidable doc.IsComplete :=
  decidable_of_iff ((∀ p ∈ doc.places, p.kind = .call → (p.child? .function).isSome) ∧
      (∀ p ∈ doc.places, p.isFunctionLiteral → p.functionParameters ≠ [] →
        (p.child? .body).isSome) ∧
      (∀ p ∈ doc.places, p.kind = .ifStatement →
        (p.child? .consequence).isSome ∧ p.child? .alternative ≠ p.child? .consequence) ∧
      ∀ p ∈ doc.places, p.kind = .elseClause → p.parts.length = 1)
    ⟨fun h => ⟨h.1, h.2.1, h.2.2.1, h.2.2.2⟩, fun h => ⟨h.callees, h.bodies, h.arms, h.elses⟩⟩

/-- The role of the arm that a test of the error has for a half of the `try` statement. -/
def Branch.field : Branch → Field
  | attempt => .alternative
  | recover => .consequence

namespace Place

/-- The first place ends before the second one begins. -/
def Precedes (p q : Place) : Prop := p.node.stop ≤ q.node.start

/-- The statements that a place stands for: those of a block, or itself. -/
def statements (p : Place) : List Place := if p.kind = .block then p.namedChildren else [p]

/-- The statements of one arm of an `if`. An `else` stands for what comes behind it. -/
def arm (p : Place) : List Place :=
  (if p.kind = .elseClause then p.parts else [p]).flatMap statements

end Place

namespace Document

variable (doc : Document) (errorName : String)

/-- An `if` whose test is the name of the error in parentheses and nothing else. -/
def testsError (p : Place) : Bool :=
  p.kind = .ifStatement && (p.child? .condition).any fun c =>
    c.kind = .parenthesized &&
      c.parts.map (fun x => (x.kind, doc.textOf x.node)) = [(Kind.identifier, errorName)]

/-- What a statement of the callback gives to a half of the `try` statement: a test of the error
gives one of its arms, and all else belongs to the attempt. -/
def sent (branch : Branch) (p : Place) : List Place :=
  if doc.testsError errorName p then (p.child? branch.field).toList.flatMap Place.arm
  else if branch = .attempt then [p] else []

/-- The statements of a half of the `try` statement that is made of the body. -/
def half (branch : Branch) (body : Place) : List Place :=
  body.namedChildren.flatMap (doc.sent errorName branch)

end Document

namespace Node

/-- Siblings stand one behind the other. -/
theorem InRow.pairwise {start stop : Nat} {cs : List Node} (h : InRow start cs stop) :
    cs.Pairwise fun c d => c.stop ≤ d.start := by
  induction cs generalizing start with
  | nil => exact List.Pairwise.nil
  | cons c cs ih =>
    obtain ⟨-, -, hrest⟩ := h
    exact List.pairwise_cons.2 ⟨fun d hd => (hrest.mem hd).1, ih hrest⟩

end Node

namespace Place

variable {doc : Document} {p q : Place}

theorem mem_preorder_of_spreads {qs : List Place} (h : Node.Spreads [p.node] (qs.map node))
    (hq : q ∈ qs) :
    q.node ∈ p.node.preorder := by
  simpa using h.exists_mem (List.mem_map_of_mem hq)

theorem spreads_statements (p : Place) : Node.Spreads [p.node] (p.statements.map node) := by
  rw [statements]
  split
  · exact (Node.Spreads.children p.node).trans (spreads_of_sublist p.namedChildren_sublist)
  · exact .refl _

theorem spreads_flatMap {ps : List Place} {f : Place → List Place}
    (h : ∀ q ∈ ps, Node.Spreads [q.node] ((f q).map node)) :
    Node.Spreads (ps.map node) ((ps.flatMap f).map node) := by
  rw [List.map_flatMap]
  exact .flatMap h

theorem spreads_arm (p : Place) : Node.Spreads [p.node] (p.arm.map node) := by
  have hparts : Node.Spreads [p.node]
      ((if p.kind = .elseClause then p.parts else [p]).map node) := by
    split
    · exact (Node.Spreads.children p.node).trans
        (spreads_of_sublist (p.parts_sublist.trans p.namedChildren_sublist))
    · exact .refl _
  exact hparts.trans (spreads_flatMap fun q _ => q.spreads_statements)

end Place

namespace Document

variable {doc : Document} {errorName : String} {branch : Branch} {p q body : Place}

theorem isErrorCheck_eq : doc.isErrorCheck errorName p = doc.testsError errorName p := by
  rw [Bool.eq_iff_iff, isErrorCheck_iff, testsError, Bool.and_eq_true, decide_eq_true_eq]
  refine and_congr_right fun _ => ?_
  cases p.child? .condition with
  | none => simp
  | some c => simp [List.map_eq_singleton_iff]

/-- The children of a place stand one behind the other. -/
theorem WellFormed.pairwise_children (hw : doc.WellFormed) (hp : p ∈ doc.places) :
    p.children.Pairwise Place.Precedes :=
  List.pairwise_map.2 (hw.rows _ (node_mem_nodes hp)).pairwise

/-- Order is kept where each place gives way to places inside it that are in order. -/
theorem WellFormed.pairwise_flatMap (hw : doc.WellFormed) {ps : List Place} {f : Place → List Place}
    (hps : ps.Pairwise Place.Precedes) (hmem : ∀ p ∈ ps, p ∈ doc.places)
    (hf : ∀ p ∈ ps, (f p).Pairwise Place.Precedes)
    (hin : ∀ p ∈ ps, ∀ q ∈ f p, q.node ∈ p.node.preorder) :
    (ps.flatMap f).Pairwise Place.Precedes := by
  refine List.pairwise_flatMap.2 ⟨hf, ?_⟩
  refine hps.imp_of_mem ?_
  intro p q hp hq hpq x hx y hy
  have hleft := hw.span_of_mem_preorder (node_mem_nodes (hmem p hp)) (hin p hp x hx)
  have hright := hw.span_of_mem_preorder (node_mem_nodes (hmem q hq)) (hin q hq y hy)
  exact hleft.2.trans (hpq.trans hright.1)

theorem WellFormed.pairwise_arm (hw : doc.WellFormed) (hp : p ∈ doc.places) :
    p.arm.Pairwise Place.Precedes := by
  have hchildren {x : Place} (hx : x ∈ doc.places) : x.statements.Pairwise Place.Precedes := by
    rw [Place.statements]
    split
    · exact (hw.pairwise_children hx).sublist x.namedChildren_sublist
    · exact List.pairwise_singleton _ _
  have hsub := p.parts_sublist.trans p.namedChildren_sublist
  rw [Place.arm]
  split
  · have hmem : ∀ x ∈ p.parts, x ∈ doc.places := fun x hx => child_mem_places hp (hsub.subset hx)
    exact hw.pairwise_flatMap ((hw.pairwise_children hp).sublist hsub) hmem
      (fun x hx => hchildren (hmem x hx)) fun x _ y hy =>
        Place.mem_preorder_of_spreads x.spreads_statements hy
  · simpa using hchildren hp

/-- An arm that is there is moved statement by statement. -/
theorem IsComplete.armStatements_eq (hg : doc.IsComplete) (hp : p ∈ doc.places) :
    doc.armStatements branch (some p) = p.arm.map (doc.moved branch) := by
  have hstatements (x : Place) : (if x.kind = .block then x.namedChildren.map (doc.moved branch)
      else [doc.moved branch x]) = x.statements.map (doc.moved branch) := by
    rw [Place.statements]
    split <;> rfl
  rw [armStatements, Place.arm]
  dsimp only
  split
  · next hk =>
    obtain ⟨x, hx⟩ := List.length_eq_one_iff.1 (hg.elses p hp hk)
    rw [hx]
    simpa using hstatements x
  · simpa using hstatements p

theorem branch_of_mem_map {ps : List Place} {m : Moved} (hm : m ∈ ps.map (doc.moved branch)) :
    m.branch = branch := by
  obtain ⟨x, -, rfl⟩ := List.mem_map.1 hm
  rfl

theorem filter_map_moved (ps : List Place) (b : Branch) :
    (ps.map (doc.moved b)).filter (fun m => m.branch = branch) =
      if b = branch then ps.map (doc.moved b) else [] := by
  split
  · next hb =>
    refine List.filter_eq_self.2 fun m hm => ?_
    simp [branch_of_mem_map hm, hb]
  · next hb =>
    refine List.filter_eq_nil_iff.2 fun m hm => ?_
    simp [branch_of_mem_map hm, hb]

theorem kind_of_testsError (h : doc.testsError errorName p) : p.kind = .ifStatement := by
  rw [testsError, Bool.and_eq_true, decide_eq_true_eq] at h
  exact h.1

/-- A test of the error is moved arm by arm. -/
theorem IsComplete.sortStatement_eq (hg : doc.IsComplete) (hp : p ∈ doc.places)
    (ht : doc.testsError errorName p) :
    doc.sortStatement errorName p =
      ((p.child? .consequence).toList.flatMap Place.arm).map (doc.moved .recover) ++
        ((p.child? .alternative).toList.flatMap Place.arm).map (doc.moved .attempt) := by
  obtain ⟨hcons, -⟩ := hg.arms p hp (kind_of_testsError ht)
  obtain ⟨x, hx⟩ := Option.isSome_iff_exists.1 hcons
  have harm {f : Field} {y : Place} (b : Branch) (hy : p.child? f = some y) :
      doc.armStatements b (some y) = y.arm.map (doc.moved b) :=
    hg.armStatements_eq (child_mem_places hp (Place.mem_children_of_child? hy))
  rw [sortStatement, isErrorCheck_eq, if_pos ht, hx, harm .recover hx]
  cases ha : p.child? .alternative with
  | none => simp
  | some y => simp [harm .attempt ha]

/-- Of what a statement is moved as, each half takes what is sent to it. -/
theorem IsComplete.filter_sortStatement (hg : doc.IsComplete) (hp : p ∈ doc.places)
    (branch : Branch) :
    (doc.sortStatement errorName p).filter (fun m => m.branch = branch) =
      (doc.sent errorName branch p).map (doc.moved branch) := by
  rw [sent]
  split
  · next ht =>
    rw [hg.sortStatement_eq hp ht, List.filter_append, filter_map_moved, filter_map_moved]
    cases branch <;> simp [Branch.field]
  · next ht =>
    rw [sortStatement, isErrorCheck_eq, if_neg ht]
    cases branch <;> simp [moved]

theorem IsComplete.filter_callbackBody (hg : doc.IsComplete) (hb : body ∈ doc.places)
    (hk : body.kind = .block) (branch : Branch) :
    (doc.callbackBody errorName (some body)).filter (fun m => m.branch = branch) =
      (doc.half errorName branch body).map (doc.moved branch) := by
  rw [callbackBody]
  simp only [hk, if_true]
  rw [List.filter_flatMap, half, List.map_flatMap]
  refine List.flatMap_congr fun q hq => hg.filter_sortStatement ?_ branch
  exact child_mem_places hb (body.namedChildren_sublist.subset hq)

/-- What a statement gives to the two halves stands apart inside it. -/
theorem IsComplete.spreads_sent (hg : doc.IsComplete) (hp : p ∈ doc.places) (errorName : String) :
    Node.Spreads [p.node]
      ((doc.sent errorName .attempt p ++ doc.sent errorName .recover p).map Place.node) := by
  rw [sent, sent]
  split
  · next ht =>
    obtain ⟨-, hne⟩ := hg.arms p hp (kind_of_testsError ht)
    have hsub : ((p.child? .alternative).toList ++ (p.child? .consequence).toList).map Place.node ⊆
        p.node.children := by
      intro n hn
      simp only [List.mem_map, List.mem_append, Option.mem_toList] at hn
      obtain ⟨q, hq | hq, rfl⟩ := hn <;>
        exact (Place.node_mem_of_mem_children (Place.mem_children_of_child? hq)).1
    have hnodup : (((p.child? .alternative).toList ++ (p.child? .consequence).toList).map
        Place.node).Nodup := by
      cases ha : p.child? .alternative with
      | none => cases p.child? .consequence <;> simp
      | some x =>
        cases hc : p.child? .consequence with
        | none => simp
        | some y =>
          have hxy : x.node ≠ y.node := by
            intro he
            rw [ha, hc, Place.child?_inj ha hc he] at hne
            exact hne rfl
          simpa using hxy
    have harms := (Node.Spreads.children p.node).trans
      (.of_subperm (List.subperm_of_subset hnodup hsub))
    rw [← List.flatMap_append]
    exact harms.trans (Place.spreads_flatMap fun q _ => q.spreads_arm)
  · exact .refl _

/-- No node belongs to two statements of the `try` statement. -/
theorem IsComplete.spreads_halves (hg : doc.IsComplete) (hb : body ∈ doc.places)
    (errorName : String) :
    Node.Spreads [body.node]
      ((doc.half errorName .attempt body ++ doc.half errorName .recover body).map Place.node) := by
  have hperm := List.flatMap_append_perm body.namedChildren (doc.sent errorName .attempt)
    (doc.sent errorName .recover)
  refine Node.Spreads.trans ?_ (.of_perm (hperm.map Place.node))
  have hnamed := (Node.Spreads.children body.node).trans
    (Place.spreads_of_sublist body.namedChildren_sublist)
  refine hnamed.trans (Place.spreads_flatMap fun q hq => hg.spreads_sent ?_ errorName)
  exact child_mem_places hb (body.namedChildren_sublist.subset hq)

/-- Both halves keep the order of the source. -/
theorem WellFormed.pairwise_half (hw : doc.WellFormed) (hg : doc.IsComplete)
    (hb : body ∈ doc.places)
    (branch : Branch) : (doc.half errorName branch body).Pairwise Place.Precedes := by
  have hmem : ∀ q ∈ body.namedChildren, q ∈ doc.places :=
    fun q hq => child_mem_places hb (body.namedChildren_sublist.subset hq)
  have hin : ∀ q ∈ body.namedChildren, ∀ x ∈ doc.sent errorName branch q,
      x.node ∈ q.node.preorder := by
    intro q hq x hx
    refine Place.mem_preorder_of_spreads (hg.spreads_sent (hmem q hq) errorName) ?_
    cases branch with
    | attempt => exact List.mem_append_left _ hx
    | recover => exact List.mem_append_right _ hx
  have hsent : ∀ q ∈ body.namedChildren, (doc.sent errorName branch q).Pairwise Place.Precedes := by
    intro q hq
    rw [sent]
    split
    · cases hc : q.child? branch.field with
      | none => exact List.Pairwise.nil
      | some x =>
        simpa using hw.pairwise_arm (child_mem_places (hmem q hq) (Place.mem_children_of_child? hc))
    · split
      · exact List.pairwise_singleton _ _
      · exact List.Pairwise.nil
  exact hw.pairwise_flatMap ((hw.pairwise_children hb).sublist body.namedChildren_sublist) hmem
    hsent hin

end Document
end Asyncify
