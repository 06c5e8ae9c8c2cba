import Asyncify.Proofs.Folds

/-! The parentheses around an awaited call. They are there just where the node around the call reads
from it, calls it or takes a power of it, so a chain of accesses applies to what the call gives
unless it goes through the mark of a value that is not null. -/
namespace Asyncify

namespace Place

/-- The place is what the node around it reads from or calls. -/
def Heads (p q : Place) : Prop :=
  ((q.kind = .member ∨ q.kind = .subscript) ∧ q.child? .object = some p) ∨
    q.kind = .call ∧ q.child? .function = some p

/-- The node is a value with the mark that it is not null. -/
def isMarked (p : Place) : Bool := p.node.symbol = "non_null_expression"

/-- Going up from a place, nodes that begin at the same offset and continue the expression, as far
as one that reads from it or calls it. -/
inductive Leads (start : Nat) : Place → Place → Prop
  | head {p q : Place} (h : p.Heads q) (hs : q.node.start = start) : Leads start p q
  | step {p q r : Place} (hp : p.parent? = some q) (hs : q.node.start = start)
      (hq : q.kind = .member ∨ q.kind = .subscript ∨ q.kind = .call ∨ q.isMarked)
        (h : Leads start q r) :
      Leads start p r

instance (p q : Place) : Decidable (p.Heads q) := by
  unfold Heads
  infer_instance

theorem Heads.parent? {p q : Place} (h : p.Heads q) : p.parent? = some q := by
  obtain ⟨-, h⟩ | ⟨-, h⟩ := h <;> exact parent?_of_child? h

theorem Heads.kind {p q : Place} (h : p.Heads q) :
    q.kind = .member ∨ q.kind = .subscript ∨ q.kind = .call := by
  obtain ⟨hk | hk, -⟩ | ⟨hk, -⟩ := h <;> simp [hk]

theorem kind_of_isMarked {p : Place} (h : p.isMarked) : p.kind = .other := by
  have hsym : p.node.symbol = "non_null_expression" := of_decide_eq_true h
  rw [kind, Node.kind, hsym]
  rfl

end Place

namespace Document

/-- The awaited call is held together by parentheses: it heads the node around it, or is the base of
a power. -/
def Groups (doc : Document) (c : Place) : Prop :=
  ∃ q, c.parent? = some q ∧ (c.Heads q ∨
    q.kind = .binary ∧ doc.textOf? (q.child? .operator) = "**" ∧ q.child? .left = some c)

/-- The first child of an access or a call is what is read from or called. -/
def HeadsFirst (doc : Document) : Prop :=
  ∀ q ∈ doc.places, q.kind = .member ∨ q.kind = .subscript ∨ q.kind = .call →
    ∀ p ∈ q.children, p.node.start = q.node.start → p.Heads q

instance (doc : Document) : Decidable doc.HeadsFirst :=
  inferInstanceAs (Decidable (∀ q ∈ doc.places,
    q.kind = .member ∨ q.kind = .subscript ∨ q.kind = .call →
    ∀ p ∈ q.children, p.node.start = q.node.start → p.Heads q))

variable {doc : Document} {c p q : Place}

/-- A child in a role is known by its number. -/
theorem WellFormed.child?_eq_some_iff (hw : doc.WellFormed) (hq : q ∈ doc.places)
    (hp : p ∈ doc.places)
    {f : Field} : (q.child? f).map (·.id) = some p.id ↔ q.child? f = some p := by
  constructor
  · intro h
    obtain ⟨r, hr, hid⟩ := Option.map_eq_some_iff.1 h
    rw [hr, hw.place_eq_of_id (child_mem_places hq (Place.mem_children_of_child? hr)) hp hid]
  · intro h
    rw [h]
    rfl

theorem WellFormed.needsParentheses_iff (hw : doc.WellFormed) (hc : c ∈ doc.places) :
    doc.needsParentheses c ↔ doc.Groups c := by
  rw [needsParentheses, Groups]
  cases hpar : c.parent? with
  | none => simp
  | some q =>
    have hq := (mem_children_of_parent? hc hpar).1
    have hholds (f : Field) := hw.child?_eq_some_iff hq hc (f := f)
    simp only [Option.some.injEq, exists_eq_left', Place.Heads]
    split
    · next hk =>
      rw [Bool.or_eq_true, decide_eq_true_eq, decide_eq_true_eq] at hk
      rw [decide_eq_true_eq, hholds]
      rcases hk with hk | hk <;> simp [hk]
    · next hk =>
      split
      · next hb =>
        rw [Bool.and_eq_true, decide_eq_true_eq, decide_eq_true_eq] at hb
        rw [decide_eq_true_eq, hholds]
        simp [hb]
      · next hb =>
        split
        · next hcall =>
          rw [decide_eq_true_eq, hholds]
          simp [hcall]
        · next hcall => simp_all

/-- At the head of a chain, a call gets its parentheses unless it has the mark right behind it. -/
theorem groups_iff_of_leads (hf : doc.HeadsFirst) (hc : c ∈ doc.places)
    (h : Place.Leads c.node.start c q) :
    doc.Groups c ↔ ∀ r, c.parent? = some r → r.isMarked = false := by
  have hhead {r : Place} (hr : c.Heads r) : doc.Groups c ∧ ∀ x, c.parent? = some x →
      x.isMarked = false := by
    refine ⟨⟨r, hr.parent?, Or.inl hr⟩, fun x hx => ?_⟩
    obtain rfl := Option.some.inj (hr.parent?.symm.trans hx)
    by_contra hm
    have hk := Place.kind_of_isMarked (by simpa using hm)
    have hkind := hr.kind
    simp [hk] at hkind
  cases h with
  | head h => exact iff_of_true (hhead h).1 (hhead h).2
  | @step _ r _ hp hs hr =>
    obtain ⟨hrp, hchild⟩ := mem_children_of_parent? hc hp
    cases hm : r.isMarked with
    | false =>
      have hk : r.kind = .member ∨ r.kind = .subscript ∨ r.kind = .call := by simpa [hm] using hr
      have h := hhead (hf r hrp hk c hchild hs.symm)
      exact iff_of_true h.1 h.2
    | true =>
      have hk := Place.kind_of_isMarked hm
      refine iff_of_false ?_ fun hall => ?_
      · rintro ⟨x, hx, hcases⟩
        obtain rfl := Option.some.inj (hp.symm.trans hx)
        obtain hh | ⟨hb, -⟩ := hcases
        · have hkind := hh.kind
          simp [hk] at hkind
        · simp [hk] at hb
      · rw [hall r hp] at hm
        cases hm

end Document

namespace Draft

variable {d : Draft} {c : Place} {e : Edit}

theorem editsOf_record_self (d : Draft) (e : Edit) :
    (d.record e).editsOf e.node.id = d.editsOf e.node.id ++ [e] := by
  simp [record, editsOf]

theorem editsOf_record_of_ne {id : Nat} (h : e.node.id ≠ id) :
    (d.record e).editsOf id = d.editsOf id := by
  simp [record, editsOf, h]

theorem before_record_self (d : Draft) (e : Edit) :
    (d.record e).before e.node.id = d.before e.node.id ++ e.before := by
  rw [before, before, editsOf_record_self, ← String.toList_inj, String.toList_append,
    Text.toList_intercalate_empty, Text.toList_intercalate_empty]
  simp

theorem after_record_self (d : Draft) (e : Edit) :
    (d.record e).after e.node.id = e.after ++ d.after e.node.id := by
  rw [after, after, editsOf_record_self, ← String.toList_inj, String.toList_append,
    Text.toList_intercalate_empty, Text.toList_intercalate_empty]
  simp

/-- An edit that puts texts around a node leaves its inside as it was. -/
theorem IsGrounded.render_record (h : d.IsGrounded) (hw : d.doc.WellFormed) (hp : d.IsPlaced)
    (he : e.node ∈ d.doc.nodes) (hr : e.replacement? = none) :
    (d.record e).render e.node =
      .ok (d.before e.node.id ++ e.before ++ d.inside e.node ++
        (e.after ++ d.after e.node.id)) := by
  have hp' : (d.record e).IsPlaced := by
    intro x hx
    obtain hx | hx := List.mem_append.1 hx
    · exact hp x hx
    · rw [List.mem_singleton.1 hx]
      exact he
  have hbelow : ∀ c ∈ e.node.children, ∀ m ∈ c.preorder, (d.record e).editsOf m.id =
      d.editsOf m.id := by
    intro c hc m hm
    refine editsOf_record_of_ne fun hid => ?_
    have hmn := Node.mem_preorder_trans hm (Document.child_mem_nodes he hc)
    have hlt := (Node.size_le_of_mem_preorder hm).trans_lt (Node.size_lt_of_child hc)
    rw [hw.node_eq_of_id he hmn hid] at hlt
    exact Nat.lt_irrefl _ hlt
  have hrep : (d.record e).replacement? e.node.id = d.replacement? e.node.id := by
    rw [replacement?, replacement?, editsOf_record_self]
    simp [hr]
  have hrender := h.renderWithin_of_agree hw hp hp' he hbelow hrep (Node.size_le_of_mem_preorder he)
  rw [← before_record_self, ← after_record_self]
  exact hrender

end Draft

/-- An awaited call stands in parentheses just where the node around it reads from it, calls it or
takes a power of it; elsewhere it follows a bare `await`. So at the head of a chain of accesses and
calls, the chain applies to the awaited value unless the first thing behind the call is the mark of
a value that is not null. -/
theorem Draft.await_groups_iff {d : Draft} {c : Place} (hw : d.doc.WellFormed)
    (hg : d.doc.IsComplete) (hd : d.IsRecorded) (hc : c ∈ d.doc.places) (ha : c.isAwaited = false) :
    (d.doc.Groups c → (d.recordAll (Step.ofAwait d.doc c).edits).render c.node =
        .ok (d.before c.id ++ "(await " ++ d.inside c.node ++ ")" ++ d.after c.id)) ∧
      (¬ d.doc.Groups c → (d.recordAll (Step.ofAwait d.doc c).edits).render c.node =
        .ok (d.before c.id ++ "await " ++ d.inside c.node ++ d.after c.id)) ∧
      (d.doc.HeadsFirst → ∀ q, Place.Leads c.node.start c q →
        (d.doc.Groups c ↔ ∀ r, c.parent? = some r → r.isMarked = false)) := by
  have hedits : d.recordAll (Step.ofAwait d.doc c).edits = d.record (d.doc.awaitEdit c) := by
    simp [Step.ofAwait, ha, recordAll, record]
  have hnode : (d.doc.awaitEdit c).node = c.node := by rw [Edit.node, Document.awaitEdit_place]
  have hrep : (d.doc.awaitEdit c).replacement? = none := by
    obtain hact | hact := d.doc.awaitEdit_action c <;> simp [Edit.replacement?, hact]
  have hcn : (d.doc.awaitEdit c).node ∈ d.doc.nodes := hnode ▸ Document.node_mem_nodes hc
  have hrender := (hd.isGrounded hw hg).render_record hw hd.isPlaced hcn hrep
  rw [hnode] at hrender
  rw [hedits, hrender, ← hw.needsParentheses_iff hc]
  refine ⟨fun h => ?_, fun h => ?_, fun hf q hq => ?_⟩
  · simp [Document.awaitEdit, h, Edit.before, Edit.after, Place.id, String.append_assoc]
  · simp [Document.awaitEdit, h, Edit.before, Edit.after, Place.id, String.append_assoc]
  · rw [hw.needsParentheses_iff hc]
    exact Document.groups_iff_of_leads hf hc hq

namespace Access

open Sketch

/-- A property is read from what a call gives, which has the mark that it is not null. -/
def doc : Document :=
  program [statement [] (member []
    (tree "non_null_expression" [.object] [callOn [] "Links" "findOne" [leaf "number" [] "1"],
      token "!"]) "x")]

def access : Place := doc.placeAt 2

def marked : Place := doc.placeAt 3

def call : Place := doc.placeAt 4

/-- What a call gives is called itself, and a property is read from the result. -/
def plain : Document :=
  program [statement [] (member []
    (tree "call_expression" [.object] [Sketch.call [.function] "load" [], arguments []]) "x")]

theorem wellFormed : doc.WellFormed := wellFormed_program _

theorem wellFormed_plain : plain.WellFormed := wellFormed_program _

/-- The mark stands between the call and the access. -/
theorem shape : (doc.IsComplete ∧ doc.HeadsFirst) ∧ call.parent? = some marked ∧
    marked.node.start = call.node.start ∧ marked.isMarked ∧ marked.Heads access ∧
    access.node.start = call.node.start := by
  decide +kernel

/-- The outer call stands between the inner one and the access. -/
theorem shape_plain : (plain.IsComplete ∧ plain.HeadsFirst) ∧
    (plain.placeAt 4).parent? = some (plain.placeAt 3) ∧
    (plain.placeAt 3).node.start = (plain.placeAt 4).node.start ∧ (plain.placeAt 3).kind = .call ∧
    (plain.placeAt 3).Heads (plain.placeAt 2) ∧
    (plain.placeAt 2).node.start = (plain.placeAt 4).node.start := by
  decide +kernel

theorem isComplete : doc.IsComplete := shape.1.1

theorem isComplete_plain : plain.IsComplete := shape_plain.1.1

theorem headsFirst : doc.HeadsFirst := shape.1.2

theorem headsFirst_plain : plain.HeadsFirst := shape_plain.1.2

theorem leads : Place.Leads call.node.start call access := by
  obtain ⟨-, hp, hs, hm, hh, ha⟩ := shape
  exact .step hp hs (Or.inr (Or.inr (Or.inr hm))) (.head hh ha)

theorem leads_plain :
    Place.Leads (plain.placeAt 4).node.start (plain.placeAt 4) (plain.placeAt 2) := by
  obtain ⟨-, hp, hs, hk, hh, ha⟩ := shape_plain
  exact .step hp hs (Or.inr (Or.inr (Or.inl hk))) (.head hh ha)

end Access

/-- The inner call heads a chain without the mark, and is awaited in parentheses. -/
theorem Draft.await_groups_plain :
    Access.plain.WellFormed ∧ Access.plain.IsComplete ∧ Access.plain.HeadsFirst ∧
      Draft.IsRecorded { doc := Access.plain } ∧ Access.plain.placeAt 4 ∈ Access.plain.places ∧
      (Access.plain.placeAt 4).isAwaited = false ∧
      Place.Leads (Access.plain.placeAt 4).node.start (Access.plain.placeAt 4)
        (Access.plain.placeAt 2) ∧
      (recordAll { doc := Access.plain }
        (Step.ofAwait Access.plain (Access.plain.placeAt 4)).edits).render
          (Access.plain.placeAt 4).node = .ok "(await load())" := by
  have hd : Draft.IsRecorded { doc := Access.plain } := fun e he => by cases he
  have hall : Access.plain.placeAt 4 ∈ Access.plain.places ∧
      (Access.plain.placeAt 4).isAwaited = false ∧
      (Access.plain.placeAt 4).parent? = some (Access.plain.placeAt 3) ∧
      (Access.plain.placeAt 3).isMarked = false := by
    decide +kernel
  obtain ⟨hc, ha, hp, hm⟩ := hall
  obtain ⟨hgroup, -, hiff⟩ :=
    await_groups_iff Access.wellFormed_plain Access.isComplete_plain hd hc ha
  have hgroups := (hiff Access.headsFirst_plain _ Access.leads_plain).2 fun r hr => by
    rw [← Option.some.inj (hp.symm.trans hr)]
    exact hm
  refine ⟨Access.wellFormed_plain, Access.isComplete_plain, Access.headsFirst_plain, hd, hc, ha,
    Access.leads_plain, ?_⟩
  rw [hgroup hgroups]
  have htext : (Draft.before { doc := Access.plain } (Access.plain.placeAt 4).id ++ "(await " ++
      Draft.inside { doc := Access.plain } (Access.plain.placeAt 4).node ++ ")" ++
      Draft.after { doc := Access.plain } (Access.plain.placeAt 4).id) = "(await load())" := by
    decide +kernel
  rw [htext]

/-- Behind the mark a property is read from the promise: nothing holds the `await` and its call
together. -/
theorem Draft.await_ungrouped_marked :
    Access.doc.WellFormed ∧ Access.doc.IsComplete ∧ Access.doc.HeadsFirst ∧
      Access.call ∈ Access.doc.places ∧ Access.call.kind = .call ∧ Access.call.isAwaited = false ∧
      Place.Leads Access.call.node.start Access.call Access.access ∧
      (recordAll { doc := Access.doc }
        (Step.ofAwait Access.doc Access.call).edits).source.toOption =
        some "await Links.findOne(1)!.x;" := by
  refine ⟨Access.wellFormed, Access.isComplete, Access.headsFirst, ?_, ?_, ?_, Access.leads, ?_⟩
  all_goals decide +kernel

end Asyncify
