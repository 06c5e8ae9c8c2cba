import Asyncify.Proofs.Moves
import Asyncify.Proofs.Occurrence

/-! The shape of scripts, and what it says about folding: a folded statement is written from nodes
that stand apart, and no call of a server method gets lost. -/
namespace Asyncify

/-- Some call lies at the node or below it. -/
def Node.holdsCall (n : Node) : Bool := n.preorder.any fun m => m.kind = .call

namespace Document

/-- What the grammar of scripts promises, as far as folding relies on it. -/
structure IsScript (doc : Document) : Prop where
  /-- Plain tokens and comments hold no calls. -/
  tokens : ∀ p ∈ doc.places, p.node.info.named = false ∨ p.kind = .comment →
    p.node.holdsCall = false
  /-- The calls below a call lie in what is called and in the arguments. -/
  calls : ∀ p ∈ doc.places, p.kind = .call → ∀ q ∈ p.children, q.node.holdsCall →
    p.child? .function = some q ∨ p.child? .arguments = some q
  /-- The arguments are a list or a template, apart from what is called. -/
  arguments : ∀ p ∈ doc.places, p.kind = .call → ∀ q ∈ p.child? .arguments,
    p.child? .function ≠ some q ∧ (q.kind = .arguments ∨ q.node.symbol = "template_string")
  statements : ∀ p ∈ doc.places, p.kind = .expressionStatement → p.parts.length = 1
  /-- A test of an error has its condition, what it does then, and perhaps what it does else. -/
  checks : ∀ p ∈ doc.places, ∀ name, doc.isErrorCheck name p →
    (p.child? .consequence).isSome ∧
      p.parts = [p.child? .condition, p.child? .consequence, p.child? .alternative].filterMap (·)
  elses : ∀ p ∈ doc.places, p.kind = .elseClause → p.parts.length = 1
  /-- A function of two plain parameters has calls in its body only. -/
  callbacks : ∀ p ∈ doc.places, p.isFunctionLiteral → p.functionParameters.length = 2 →
    (∀ x ∈ p.functionParameters, (doc.parameterName? x).isSome) →
      ∃ body ∈ p.child? .body, ∀ q ∈ p.children, q.node.holdsCall → q = body
  /-- A method has a name, which is no call. -/
  methods : ∀ p ∈ doc.places, p.kind = .method → ∃ q ∈ p.child? .name, q.kind ≠ .call

/-- The place calls a server method by name, where `await` may stand. -/
def IsMethodCall (doc : Document) (c name : Place) : Prop :=
  c ∈ doc.places ∧ c.barrier? = none ∧ ∃ receiver, c.memberCall? = some (receiver, name) ∧
    doc.isIdentifier "Meteor" receiver ∧ doc.textOf name.node = "call"

end Document

namespace Kind

/-- Nodes of these kinds are never taken apart by a fold, save the folded call itself. -/
def isSolid : Kind → Bool
  | call | expressionStatement | awaited => true
  | _ => false

end Kind

namespace Node

variable {m n : Node}

theorem holdsCall_iff : n.holdsCall ↔ ∃ m ∈ n.preorder, m.kind = .call := by
  simp [holdsCall]

theorem holdsCall_of_mem (hm : m ∈ n.preorder) (hc : m.holdsCall) : n.holdsCall := by
  obtain ⟨k, hk, hc⟩ := holdsCall_iff.1 hc
  exact holdsCall_iff.2 ⟨k, mem_preorder_trans hk hm, hc⟩

end Node

namespace Place

variable {p q : Place} {doc : Document} {t : Node}

theorem map_node_children (p : Place) : p.children.map node = p.node.children := by
  simp [children, Function.comp_def]

theorem spreads_of_sublist {qs : List Place} (h : qs.Sublist p.children) :
    Node.Spreads p.node.children (qs.map node) := by
  rw [← map_node_children]
  exact .of_sublist (h.map node)

theorem parts_sublist (p : Place) : p.parts.Sublist p.namedChildren := List.filter_sublist

theorem namedChildren_sublist (p : Place) : p.namedChildren.Sublist p.children :=
  List.filter_sublist

theorem exists_child (ht : t ∈ p.node.preorder) (hne : t ≠ p.node) :
    ∃ q ∈ p.children, t ∈ q.node.preorder := by
  obtain rfl | ⟨c, hc, htc⟩ := Node.mem_preorder_iff.1 ht
  · exact absurd rfl hne
  · exact ⟨p.below c, List.mem_map_of_mem hc, htc⟩

theorem mem_preorder_of_mem_children (h : q ∈ p.children) : q.node ∈ p.node.preorder :=
  Node.mem_preorder_child (node_mem_of_mem_children h).1 q.node.mem_preorder_self

theorem mem_preorder_of_child? {f : Field} (h : p.child? f = some q) : q.node ∈ p.node.preorder :=
  mem_preorder_of_mem_children (mem_children_of_child? h)

theorem mem_preorder_of_mem_namedChildren (h : q ∈ p.namedChildren) : q.node ∈ p.node.preorder :=
  mem_preorder_of_mem_children (p.namedChildren_sublist.subset h)

theorem child?_inj {f g : Field} {x y : Place} (hx : p.child? f = some x) (hy : p.child? g = some y)
    (h : x.node = y.node) : x = y := by
  obtain ⟨n, -, rfl⟩ := Option.map_eq_some_iff.1 hx
  obtain ⟨m, -, rfl⟩ := Option.map_eq_some_iff.1 hy
  obtain rfl : n = m := h
  rfl

end Place

/-- A statement that moves: if it is there, it is a node at or below the given one. If not, the tree
has no such node. -/
structure Moved.IsBelow (m : Moved) (n : Node) : Prop where
  node : ∀ k, m.node = .ok k → k ∈ n.preorder
  ending : m.ending = "" ∨ m.ending = ";"
  fault : ∀ f, m.node = .error f → f = .missingNode ∨ f = .emptyElse

namespace Document

section Below

variable {doc : Document} {p : Place} {m : Moved} {n : Node} {errorName : String}

theorem isBelow_moved (doc : Document) (branch : Branch) (hp : p.node ∈ n.preorder) :
    (doc.moved branch p).IsBelow n where
  node k hk := by rwa [← Except.ok.inj hk]
  ending := Or.inl rfl
  fault f hf := by cases hf

theorem isBelow_lost (branch : Branch) {fault : Fault}
    (h : fault = .missingNode ∨ fault = .emptyElse) :
    (lost branch fault).IsBelow n where
  node k hk := by cases hk
  ending := Or.inl rfl
  fault f hf := by rwa [← Except.error.inj hf]

theorem isBelow_armStatements {branch : Branch} {arm : Option Place}
    (ha : ∀ q ∈ arm, q.node ∈ n.preorder)
    (hm : m ∈ doc.armStatements branch arm) : m.IsBelow n := by
  have hstatements {q : Place} (hq : q.node ∈ n.preorder) (hm : m ∈ if q.kind = .block then
      q.namedChildren.map (doc.moved branch) else [doc.moved branch q]) : m.IsBelow n := by
    split at hm
    · obtain ⟨c, hc, rfl⟩ := List.mem_map.1 hm
      exact doc.isBelow_moved branch
        (Node.mem_preorder_trans (Place.mem_preorder_of_mem_namedChildren hc) hq)
    · obtain rfl := List.mem_singleton.1 hm
      exact doc.isBelow_moved branch hq
  cases arm with
  | none =>
    obtain rfl := List.mem_singleton.1 hm
    exact isBelow_lost branch (Or.inl rfl)
  | some p =>
    have hp := ha p rfl
    rw [armStatements] at hm
    dsimp only at hm
    split at hm
    · split at hm
      · next q hq =>
        have hpart :=
          Place.mem_preorder_of_mem_namedChildren (p.parts_sublist.subset (List.mem_of_getLast? hq))
        exact hstatements (Node.mem_preorder_trans hpart hp) hm
      · obtain rfl := List.mem_singleton.1 hm
        exact isBelow_lost branch (Or.inr rfl)
    · exact hstatements hp hm

theorem isBelow_sortStatement (hp : p.node ∈ n.preorder) (hm : m ∈ doc.sortStatement errorName p) :
    m.IsBelow n := by
  have hchild {f : Field} : ∀ q ∈ p.child? f, q.node ∈ n.preorder :=
    fun q hq => Node.mem_preorder_trans (Place.mem_preorder_of_child? hq) hp
  rw [sortStatement] at hm
  split at hm
  · obtain hm | hm := List.mem_append.1 hm
    · exact isBelow_armStatements hchild hm
    · split at hm
      · next q hq =>
        refine isBelow_armStatements (fun r hr => ?_) hm
        obtain rfl := Option.some.inj hr
        exact hchild q hq
      · cases hm
  · obtain rfl := List.mem_singleton.1 hm
    exact doc.isBelow_moved _ hp

/-- A fold moves nodes of the callback's body only. -/
theorem isBelow_callbackBody {body : Option Place} (hb : ∀ q ∈ body, q.node ∈ n.preorder)
    (hm : m ∈ doc.callbackBody errorName body) : m.IsBelow n := by
  cases body with
  | none =>
    obtain rfl := List.mem_singleton.1 hm
    exact isBelow_lost _ (Or.inl rfl)
  | some b =>
    have hb := hb b rfl
    rw [callbackBody] at hm
    split at hm
    · obtain ⟨p, hp, hm⟩ := List.mem_flatMap.1 hm
      exact isBelow_sortStatement
        (Node.mem_preorder_trans (Place.mem_preorder_of_mem_namedChildren hp) hb) hm
    · obtain rfl := List.mem_singleton.1 hm
      have hmoved := doc.isBelow_moved .attempt hb
      exact ⟨hmoved.node, Or.inr rfl, hmoved.fault⟩

end Below

variable {doc : Document} {p q c name : Place} {m n t : Node} {ms : List Moved}

/-- A node with a call of a server method in it, of a kind that no fold takes apart. -/
def Carries (doc : Document) (t : Node) : Prop :=
  t.kind.isSolid ∧ ∃ c name, doc.IsMethodCall c name ∧ c.node ∈ t.preorder

theorem IsMethodCall.kind (h : doc.IsMethodCall c name) : c.kind = .call := by
  obtain ⟨-, -, receiver, hm, -⟩ := h
  exact (Place.memberCall?_eq_some.1 hm).1

theorem Carries.holdsCall (h : doc.Carries t) : t.holdsCall := by
  obtain ⟨-, c, name, hc, hm⟩ := h
  exact Node.holdsCall_iff.2 ⟨c.node, hm, hc.kind⟩

/-- A child that holds a call is named and no comment. -/
theorem IsScript.mem_parts (h : doc.IsScript) (hp : p ∈ doc.places) (hq : q ∈ p.children)
    (hc : q.node.holdsCall) : q ∈ p.parts := by
  have hplace := child_mem_places hp hq
  have hnot : ¬ (q.node.info.named = false ∨ q.kind = .comment) := by
    intro ht
    rw [h.tokens q hplace ht] at hc
    cases hc
  rw [not_or] at hnot
  refine List.mem_filter.2 ⟨List.mem_filter.2 ⟨hq, by simpa using hnot.1⟩, by simpa using hnot.2⟩

theorem IsScript.exists_part (h : doc.IsScript) (hp : p ∈ doc.places) (ht : t ∈ p.node.preorder)
    (hne : t ≠ p.node) (hc : t.holdsCall) : ∃ q ∈ p.parts, t ∈ q.node.preorder := by
  obtain ⟨q, hq, htq⟩ := Place.exists_child ht hne
  exact ⟨q, h.mem_parts hp hq (Node.holdsCall_of_mem htq hc), htq⟩

/-- The text of a node with a call of a server method in it has the receiver in it. -/
theorem IsMethodCall.textOf_infix (hw : doc.WellFormed) (h : doc.IsMethodCall c name)
    (hn : n ∈ doc.nodes)
    (hc : c.node ∈ n.preorder) : "Meteor".toList <:+: (doc.textOf n).toList := by
  obtain ⟨hcp, -, receiver, hm, hr, -⟩ := h
  obtain ⟨-, callee, hf, -, ho, -⟩ := Place.memberCall?_eq_some.1 hm
  have hcallee := (Place.node_mem_of_mem_children (Place.mem_children_of_child? hf)).1
  have hreceiver := (Place.node_mem_of_mem_children (Place.mem_children_of_child? ho)).1
  have hin : receiver.node ∈ n.preorder :=
    Node.mem_preorder_of_child hreceiver (Node.mem_preorder_of_child hcallee hc)
  have htext : doc.textOf receiver.node = "Meteor" := by
    simp only [isIdentifier, Bool.and_eq_true, decide_eq_true_eq] at hr
    exact hr.2
  rw [← htext]
  exact hw.textOf_infix hn hin

/-- A text shorter than the receiver's name is that of no node around such a call. -/
theorem IsMethodCall.not_mem_preorder (hw : doc.WellFormed) (h : doc.IsMethodCall c name)
    (hn : n ∈ doc.nodes) (hl : (doc.textOf n).length < 6) : c.node ∉ n.preorder := by
  intro hc
  have hlen := (h.textOf_infix hw hn hc).length_le
  have hsix : "Meteor".toList.length = 6 := rfl
  rw [hsix, String.length_toList] at hlen
  omega

/-- Moved statements that take the place of a node: all of them can be written, they stand apart
below the node, and none of the calls in it is lost. -/
structure TakesOver (doc : Document) (ms : List Moved) (n : Node) : Prop where
  whole : ∀ m ∈ ms, ∃ k, m.node = .ok k
  spreads : Node.Spreads [n] (Fold.nodesOf ms)
  covers : ∀ t ∈ n.preorder, doc.Carries t → ∃ m ∈ Fold.nodesOf ms, t ∈ m.preorder

theorem takesOver_moved (branch : Branch) (p : Place) (ending : String) :
    doc.TakesOver [{ doc.moved branch p with ending }] p.node where
  whole := by simp [moved]
  spreads := .refl _
  covers t ht _ := ⟨p.node, by simp [Fold.nodesOf, moved, Except.toOption], ht⟩

/-- What takes the place of parts of a node takes the place of the node, if its calls lie in these
parts. -/
theorem TakesOver.join (doc : Document) (n : Node) (xs : List (Node × List Moved))
    (h : ∀ x ∈ xs, doc.TakesOver x.2 x.1)
    (hs : Node.Spreads [n] (xs.map Prod.fst))
    (hc : ∀ t ∈ n.preorder, doc.Carries t → ∃ x ∈ xs, t ∈ x.1.preorder) :
    doc.TakesOver (xs.flatMap Prod.snd) n where
  whole m hm := by
    obtain ⟨x, hx, hm⟩ := List.mem_flatMap.1 hm
    exact (h x hx).whole m hm
  spreads := by
    rw [Fold.nodesOf_flatMap]
    exact hs.trans (.flatMap fun x hx => (h x hx).spreads)
  covers t ht hcar := by
    obtain ⟨x, hx, htx⟩ := hc t ht hcar
    obtain ⟨m, hm, htm⟩ := (h x hx).covers t htx hcar
    rw [Fold.nodesOf_flatMap]
    exact ⟨m, List.mem_flatMap.2 ⟨x, hx, hm⟩, htm⟩

theorem Carries.ne_of_kind (h : doc.Carries t) (hk : n.kind.isSolid = false) : t ≠ n := by
  rintro rfl
  rw [h.1] at hk
  cases hk

/-- The named children of a block take its place. -/
theorem IsScript.takesOver_block (h : doc.IsScript) (hp : p ∈ doc.places) (hk : p.kind = .block)
    {f : Place → List Moved} (hf : ∀ q ∈ p.namedChildren, doc.TakesOver (f q) q.node) :
    doc.TakesOver (p.namedChildren.flatMap f) p.node := by
  have hjoin := TakesOver.join doc p.node (p.namedChildren.map fun q => (q.node, f q))
    (by simpa using hf) ?_ ?_
  · simpa [List.flatMap_map] using hjoin
  · rw [List.map_map]
    exact (Node.Spreads.children p.node).trans (Place.spreads_of_sublist p.namedChildren_sublist)
  · intro t ht hcar
    have hkind : p.node.kind = .block := hk
    obtain ⟨q, hq, htq⟩ := h.exists_part hp ht (hcar.ne_of_kind (by rw [hkind]; rfl)) hcar.holdsCall
    exact ⟨(q.node, f q), List.mem_map_of_mem (p.parts_sublist.subset hq), htq⟩

/-- The statements of an arm: those of a block, or the one statement. -/
theorem IsScript.takesOver_statements (h : doc.IsScript) (branch : Branch) (hp : p ∈ doc.places) :
    doc.TakesOver (if p.kind = .block then p.namedChildren.map (doc.moved branch)
      else [doc.moved branch p]) p.node := by
  split
  · next hk =>
    rw [← List.flatMap_singleton' (List.map _ _), List.flatMap_map]
    exact h.takesOver_block hp hk fun q _ => takesOver_moved branch q ""
  · exact takesOver_moved branch p ""

theorem IsScript.takesOver_arm (h : doc.IsScript) (branch : Branch) (hp : p ∈ doc.places) :
    doc.TakesOver (doc.armStatements branch (some p)) p.node := by
  rw [armStatements]
  dsimp only
  split
  · next hk =>
    obtain ⟨q, hq⟩ := List.length_eq_one_iff.1 (h.elses p hp hk)
    have hmem : q ∈ p.parts := by simp [hq]
    have hchild : q ∈ p.children := (p.parts_sublist.trans p.namedChildren_sublist).subset hmem
    rw [hq]
    have hjoin := TakesOver.join doc p.node [(q.node, if q.kind = .block then
      q.namedChildren.map (doc.moved branch) else [doc.moved branch q])] ?_ ?_ ?_
    · simpa using hjoin
    · simpa using h.takesOver_statements branch (child_mem_places hp hchild)
    · exact (Node.Spreads.children p.node).trans
        (.child (Place.node_mem_of_mem_children hchild).1)
    · intro t ht hcar
      have hkind : p.node.kind = .elseClause := hk
      obtain ⟨x, hx, htx⟩ :=
        h.exists_part hp ht (hcar.ne_of_kind (by rw [hkind]; rfl)) hcar.holdsCall
      rw [hq, List.mem_singleton] at hx
      subst hx
      exact ⟨_, List.mem_singleton_self _, htx⟩
  · exact h.takesOver_statements branch hp

/-- The name that a test of an error looks at is all that its condition says. -/
theorem isErrorCheck_iff {errorName : String} :
    doc.isErrorCheck errorName p ↔ p.kind = .ifStatement ∧
    ∃ condition x, p.child? .condition = some condition ∧ condition.kind = .parenthesized ∧
      condition.parts = [x] ∧ x.kind = .identifier ∧ doc.textOf x.node = errorName := by
  rw [isErrorCheck, Bool.and_eq_true, decide_eq_true_eq]
  refine and_congr_right fun _ => ?_
  cases p.child? .condition with
  | none => simp
  | some condition =>
    simp only [Bool.and_eq_true, decide_eq_true_eq, Option.some.injEq]
    constructor
    · rintro ⟨hk, hx⟩
      split at hx
      · next x hparts =>
        simp only [Bool.and_eq_true, decide_eq_true_eq] at hx
        exact ⟨condition, x, rfl, hk, hparts, hx⟩
      · cases hx
    · rintro ⟨_, x, rfl, hk, hparts, hx⟩
      simp [hk, hparts, hx]

/-- No call of a server method lies in the condition of a test of an error. -/
theorem IsScript.not_carries_condition (h : doc.IsScript) (hw : doc.WellFormed) {errorName : String}
    {condition : Place} (hp : p ∈ doc.places) (hl : errorName.length < 6)
    (hcheck : doc.isErrorCheck errorName p) (hc : p.child? .condition = some condition)
    (ht : t ∈ condition.node.preorder) : ¬ doc.Carries t := by
  intro hcar
  obtain ⟨-, _, x, hc', hk, hparts, -, htext⟩ := isErrorCheck_iff.1 hcheck
  obtain rfl := Option.some.inj (hc.symm.trans hc')
  have hplace := child_mem_places hp (Place.mem_children_of_child? hc)
  have hkind : condition.node.kind = .parenthesized := hk
  obtain ⟨y, hy, hty⟩ :=
    h.exists_part hplace ht (hcar.ne_of_kind (by rw [hkind]; rfl)) hcar.holdsCall
  have hchild : y ∈ condition.children :=
    (condition.parts_sublist.trans condition.namedChildren_sublist).subset hy
  rw [hparts, List.mem_singleton] at hy
  subst hy
  obtain ⟨-, c, name, hcall, hct⟩ := hcar
  refine hcall.not_mem_preorder hw (node_mem_nodes (child_mem_places hplace hchild)) ?_
    (Node.mem_preorder_trans hct hty)
  rw [htext]
  exact hl

/-- A statement of a callback is moved as it is, or in the two arms of a test of the error. -/
theorem IsScript.takesOver_sort (h : doc.IsScript) (hw : doc.WellFormed) {errorName : String}
    (hl : errorName.length < 6) (hp : p ∈ doc.places) :
    doc.TakesOver (doc.sortStatement errorName p) p.node := by
  rw [sortStatement]
  split
  · next hcheck =>
    obtain ⟨hsome, hparts⟩ := h.checks p hp errorName hcheck
    obtain ⟨consequence, hcons⟩ := Option.isSome_iff_exists.1 hsome
    obtain ⟨hk, condition, x, hcond, -⟩ := isErrorCheck_iff.1 hcheck
    have hconsp := child_mem_places hp (Place.mem_children_of_child? hcons)
    have hsub : p.parts.Sublist p.children := p.parts_sublist.trans p.namedChildren_sublist
    rw [hcond, hcons] at hparts
    -- the two arms stand apart, since both are parts of the test
    have hjoin := TakesOver.join doc p.node
      ((consequence.node, doc.armStatements .recover (some consequence)) ::
        (p.child? .alternative).toList.map fun q => (q.node, doc.armStatements .attempt (some q)))
          ?_ ?_ ?_
    · rw [hcons]
      cases halt : p.child? .alternative <;> simpa [halt] using hjoin
    · intro x hx
      obtain rfl | hx := List.mem_cons.1 hx
      · exact h.takesOver_arm .recover hconsp
      · obtain ⟨q, hq, rfl⟩ := List.mem_map.1 hx
        have halt : p.child? .alternative = some q := Option.mem_toList.1 hq
        exact h.takesOver_arm .attempt (child_mem_places hp (Place.mem_children_of_child? halt))
    · have harms : (consequence :: (p.child? .alternative).toList).Sublist p.children := by
        refine List.Sublist.trans ?_ hsub
        rw [hparts]
        cases p.child? .alternative <;> simp
      have hspread := (Node.Spreads.children p.node).trans (Place.spreads_of_sublist harms)
      simpa [Function.comp_def] using hspread
    · intro t ht hcar
      have hkind : p.node.kind = .ifStatement := hk
      obtain ⟨q, hq, htq⟩ :=
        h.exists_part hp ht (hcar.ne_of_kind (by rw [hkind]; rfl)) hcar.holdsCall
      rw [hparts] at hq
      have hcases : q = condition ∨ q = consequence ∨ p.child? .alternative = some q := by
        obtain ⟨o, ho, rfl⟩ := List.mem_filterMap.1 hq
        simpa [eq_comm] using ho
      rcases hcases with rfl | rfl | halt
      · exact absurd hcar (h.not_carries_condition hw hp hl hcheck hcond htq)
      · exact ⟨_, List.mem_cons_self, htq⟩
      · exact ⟨_, List.mem_cons_of_mem _ (List.mem_map_of_mem (by simp [halt])), htq⟩
  · exact takesOver_moved .attempt p ""

/-- The body of a callback is moved with all its calls. -/
theorem IsScript.takesOver_body (h : doc.IsScript) (hw : doc.WellFormed) {errorName : String}
    (hl : errorName.length < 6) (hp : p ∈ doc.places) :
    doc.TakesOver (doc.callbackBody errorName (some p)) p.node := by
  rw [callbackBody]
  dsimp only
  split
  · next hk =>
    exact h.takesOver_block hp hk fun q hq =>
      h.takesOver_sort hw hl (child_mem_places hp (p.namedChildren_sublist.subset hq))
  · exact takesOver_moved .attempt p ";"

end Document

namespace Callback

variable {doc : Document} {c : Place} {cb : Callback}

theorem length_of_isErrorName {s : String} (h : isErrorName s) : s.length < 6 := by
  have hlen : (foldCase s).length = s.length := by
    rw [foldCase, String.length_ofList, List.length_map, String.length_toList]
  have hmem : foldCase s ∈ ["err", "error"] := by simpa [isErrorName] using h
  rw [← hlen]
  simp only [List.mem_cons, List.not_mem_nil, or_false] at hmem
  rcases hmem with h | h <;> rw [h] <;> decide

theorem of?_eq_some (h : of? doc c = some cb) :
    c.callArguments.getLast? = some cb.function ∧ cb.function.isFunctionLiteral ∧
      cb.function.functionParameters.length = 2 ∧
      (∀ x ∈ cb.function.functionParameters, (doc.parameterName? x).isSome) ∧
      isErrorName cb.errorName ∧ isResultName cb.resultName := by
  rw [of?] at h
  cases hlast : c.callArguments.getLast? with
  | none => simp [hlast] at h
  | some function =>
    rw [hlast] at h
    dsimp only at h
    split at h
    · next hlit =>
      split at h
      · next e r hparams =>
        split at h
        · next errorName resultName he hr =>
          split at h
          · next hnames =>
            cases h
            rw [Bool.and_eq_true] at hnames
            refine ⟨rfl, hlit, by simp [hparams], ?_, hnames⟩
            simp [hparams, he, hr]
          · cases h
        · cases h
      · cases h
    · cases h

end Callback

namespace Document

variable {doc : Document} {s c : Place} {cb : Callback} {indent : Except Fault String} {t : Node}

/-- The nodes that a folded statement is written from: what is called, the arguments that stay, and
the statements of the callback. -/
def foldNodes (doc : Document) (c : Place) (cb : Callback) : List Node :=
  (c.child? .function).toList.map Place.node ++ c.callArguments.dropLast.map Place.node ++
    Fold.nodesOf (doc.callbackBody cb.errorName (cb.function.child? .body))

/-- The callback is the last of the arguments, and its body takes its place. -/
theorem IsScript.exists_body (h : doc.IsScript) (hw : doc.WellFormed) (hc : c ∈ doc.places)
    (hcb : Callback.of? doc c = some cb) :
    ∃ args body, c.child? .arguments = some args ∧
      args.parts = c.callArguments.dropLast ++ [cb.function] ∧ cb.function ∈ doc.places ∧
      cb.function.child? .body = some body ∧
      (∀ q ∈ cb.function.children, q.node.holdsCall → q = body) ∧
      doc.TakesOver (doc.callbackBody cb.errorName (some body)) body.node := by
  obtain ⟨hlast, hlit, hlen, hnames, herr, -⟩ := Callback.of?_eq_some hcb
  have hmem := List.mem_of_getLast? hlast
  have hfun := Place.callArguments_mem_places hc hmem
  obtain ⟨args, hargs, -⟩ := Place.exists_of_mem_callArguments hmem
  have hparts : c.callArguments = args.parts := by simp [Place.callArguments, hargs]
  obtain ⟨body, hbody, honly⟩ := h.callbacks _ hfun hlit hlen hnames
  have hbody' : cb.function.child? .body = some body := hbody
  refine ⟨args, body, hargs, ?_, hfun, hbody', honly, ?_⟩
  · rw [← hparts, List.dropLast_append_getLast? _ hlast]
  · exact h.takesOver_body hw (Callback.length_of_isErrorName herr)
      (child_mem_places hfun (Place.mem_children_of_child? hbody'))

theorem IsScript.fold_isWhole (h : doc.IsScript) (hw : doc.WellFormed) (hc : c ∈ doc.places)
    (hm : c.memberCall?.isSome) (hcb : Callback.of? doc c = some cb) (unit : String) :
    (doc.fold s c cb (.ok unit)).IsWhole := by
  obtain ⟨x, hx⟩ := Option.isSome_iff_exists.1 hm
  obtain ⟨-, callee, hcallee, -⟩ := Place.memberCall?_eq_some.1 hx
  obtain ⟨args, body, -, -, -, hbody, -, htakes⟩ := h.exists_body hw hc hcb
  refine ⟨⟨_, rfl⟩, ⟨callee.node, by simp [fold, hcallee]⟩, ?_⟩
  intro m hmem
  rw [fold, hbody] at hmem
  exact htakes.whole m hmem

/-- The nodes of a fold stand apart below the folded statement. -/
theorem IsScript.spreads_fold (h : doc.IsScript) (hw : doc.WellFormed) (hc : c ∈ doc.places)
    (hk : c.kind = .call) (hs : c.statement? = some s) (hcb : Callback.of? doc c = some cb) :
    Node.Spreads s.node.children (doc.foldNodes c cb) := by
  obtain ⟨hpar, -⟩ := Option.filter_eq_some_iff.1 hs
  obtain ⟨-, hchild⟩ := mem_children_of_parent? hc hpar
  obtain ⟨args, body, hargs, hparts, hfun, hbody, -, htakes⟩ := h.exists_body hw hc hcb
  have hcalleeArgs : Node.Spreads c.node.children
      ((c.child? .function).toList.map Place.node ++ [args.node]) := by
    have hsub : ((c.child? .function).toList.map Place.node ++ [args.node]) ⊆ c.node.children := by
      intro n hn
      simp only [List.mem_append, List.mem_map, Option.mem_toList, List.mem_singleton] at hn
      obtain ⟨q, hq, rfl⟩ | rfl := hn
      · exact (Place.node_mem_of_mem_children (Place.mem_children_of_child? hq)).1
      · exact (Place.node_mem_of_mem_children (Place.mem_children_of_child? hargs)).1
    refine .of_subperm (List.subperm_of_subset ?_ hsub)
    cases hf : c.child? .function with
    | none => simp
    | some callee =>
      have hne : callee.node ≠ args.node := by
        intro he
        obtain rfl := Place.child?_inj hf hargs he
        exact (h.arguments c hc hk callee hargs).1 hf
      simpa using hne
  have hlist : Node.Spreads [args.node]
      (c.callArguments.dropLast.map Place.node ++ [cb.function.node]) := by
    have hsub := (Node.Spreads.children args.node).trans
      (Place.spreads_of_sublist (args.parts_sublist.trans args.namedChildren_sublist))
    rw [hparts] at hsub
    simpa using hsub
  have hbodyNodes : Node.Spreads [cb.function.node]
      (Fold.nodesOf (doc.callbackBody cb.errorName (cb.function.child? .body))) := by
    rw [hbody]
    exact (Node.Spreads.children cb.function.node).trans
      ((Node.Spreads.child (Place.node_mem_of_mem_children
        (Place.mem_children_of_child? hbody)).1).trans htakes.spreads)
  have hcall : Node.Spreads s.node.children c.node.children :=
    (Node.Spreads.child (Place.node_mem_of_mem_children hchild).1).trans (.children c.node)
  rw [foldNodes, List.append_assoc]
  exact (hcall.trans hcalleeArgs).trans
    (.append (.refl _) (hlist.trans (.append (.refl _) hbodyNodes)))

/-- Whatever carries a call of a server method below the folded statement is written with one of the
nodes of the fold. -/
theorem IsScript.fold_covers (h : doc.IsScript) (hw : doc.WellFormed) (hc : c ∈ doc.places)
    (hk : c.kind = .call) (hs : c.statement? = some s) (hcb : Callback.of? doc c = some cb)
    (ht : t ∈ s.node.preorder) (hcar : doc.Carries t) (hns : t ≠ s.node) (hnc : t ≠ c.node) :
    ∃ m ∈ doc.foldNodes c cb, t ∈ m.preorder := by
  obtain ⟨hpar, hstat⟩ := Option.filter_eq_some_iff.1 hs
  obtain ⟨hsp, hchild⟩ := mem_children_of_parent? hc hpar
  obtain ⟨args, body, hargs, hparts, hfun, hbody, honly, htakes⟩ := h.exists_body hw hc hcb
  have hargsp := child_mem_places hc (Place.mem_children_of_child? hargs)
  simp only [foldNodes, List.mem_append, List.mem_map, Option.mem_toList]
  -- down from the statement to the call
  obtain ⟨x, hx⟩ := List.length_eq_one_iff.1 (h.statements s hsp (of_decide_eq_true hstat))
  have hcpart : c ∈ s.parts :=
    h.mem_parts hsp hchild (Node.holdsCall_iff.2 ⟨c.node, c.node.mem_preorder_self, hk⟩)
  obtain ⟨q, hq, htq⟩ := h.exists_part hsp ht hns hcar.holdsCall
  rw [hx, List.mem_singleton] at hcpart hq
  obtain rfl : q = c := hq.trans hcpart.symm
  -- from the call to the callee or an argument
  obtain ⟨r, hr, htr⟩ := Place.exists_child htq hnc
  obtain hf | ha := h.calls q hc hk r hr (Node.holdsCall_of_mem htr hcar.holdsCall)
  · exact ⟨r.node, Or.inl (Or.inl ⟨r, hf, rfl⟩), htr⟩
  obtain rfl := Option.some.inj (ha.symm.trans hargs)
  have hsolid : r.node.kind.isSolid = false := by
    obtain hkind | hsym := (h.arguments q hc hk r hargs).2
    · rw [show r.node.kind = .arguments from hkind]
      rfl
    · rw [Node.kind, hsym]
      rfl
  obtain ⟨a, ha, hta⟩ := h.exists_part hargsp htr (hcar.ne_of_kind hsolid) hcar.holdsCall
  rw [hparts, List.mem_append, List.mem_singleton] at ha
  obtain ha | rfl := ha
  · exact ⟨a.node, Or.inl (Or.inr ⟨a, ha, rfl⟩), hta⟩
  -- from the callback to its body
  have hlit : cb.function.node.kind.isSolid = false := by
    rcases Place.kind_of_isFunctionLiteral (Callback.of?_eq_some hcb).2.1 with hkind | hkind <;>
      rw [show cb.function.node.kind = _ from hkind] <;> rfl
  obtain ⟨b, hb, htb⟩ := Place.exists_child hta (hcar.ne_of_kind hlit)
  obtain rfl := honly b hb (Node.holdsCall_of_mem htb hcar.holdsCall)
  obtain ⟨m, hm, htm⟩ := htakes.covers t htb hcar
  rw [hbody]
  exact ⟨m, Or.inr hm, htm⟩

end Document
end Asyncify
