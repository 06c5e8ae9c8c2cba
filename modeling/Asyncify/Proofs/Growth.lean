import Asyncify.Proofs.Depiction
import Asyncify.Proofs.Plans

/-! The tree of an edited text. A renamed node has its new text, an awaited call stands in an
`await_expression` that takes over its place and its role, and an async function has the keyword as
a child. -/
namespace Asyncify

namespace Mark

variable (m : Mark) (i : NodeInfo) (body : List Sketch)

def isWrapped : Bool := m.before.contains "(await "

def isAwait : Bool := m.isWrapped || m.before.contains "await "

/-- How often `async` is put before the node. -/
def keywords : Nat := m.before.count "async "

/-- The mark puts an `await` first, if any, then keywords, and closes a parenthesis that it
opens. -/
structure IsRegular : Prop where
  before : m.before =
    (if m.isAwait then [if m.isWrapped then "(await " else "await "] else []) ++
      List.replicate m.keywords "async "
  after : m.after = if m.isWrapped then [")"] else []

/-- The keywords as tokens. -/
def keywordTokens (k : Nat) : List Sketch :=
  (List.replicate k [Sketch.token "async", .gap " "]).flatten

/-- A function takes its keywords in. -/
def takesKeywords : Bool := (Kind.ofSymbol i.symbol).isFunction

/-- The keywords before any other node, such as the name of a method, are its siblings. -/
def lead : List Sketch := if takesKeywords i then [] else keywordTokens m.keywords

/-- The node itself. An operand of `await` has no role. -/
def core : Sketch :=
  .node { i with fields := if m.isAwait then [] else i.fields }
    (if takesKeywords i then keywordTokens m.keywords ++ body else body)

def awaitNode (fields : List Field) : Sketch :=
  .node { i with symbol := "await_expression", fields }
    ([Sketch.token "await", .gap " "] ++ m.lead i ++ [m.core i body])

/-- An awaited call. -/
def awaiting : Sketch :=
  if m.isWrapped then
    .node { i with symbol := "parenthesized_expression" }
      [Sketch.token "(", m.awaitNode i body [], Sketch.token ")"]
  else m.awaitNode i body i.fields

/-- The node with the `await` around it, if there is one. -/
def outer : Sketch := if m.isAwait then m.awaiting i body else m.core i body

/-- What stands in the place of a node. -/
def sprout : List Sketch := (if m.isAwait then [] else m.lead i) ++ [m.outer i body]

end Mark

namespace Document

variable (doc : Document) (marks : Node → Mark)

mutual

def grow : Node → List Sketch
  | .mk i cs =>
    (marks (.mk i cs)).sprout i
      (match (marks (.mk i cs)).new with
        | some text => [.gap text]
        | none => growRow i.start cs i.stop)

/-- Siblings with the source between them. -/
def growRow (cursor : Nat) : List Node → Nat → List Sketch
  | [], stop => [.gap (doc.slice cursor stop)]
  | c :: cs, stop => .gap (doc.slice cursor c.start) :: (grow c ++ growRow c.stop cs stop)

end

/-- The document with all marks in it. -/
def grown : Document :=
  { Sketch.document
      (.gap (doc.slice 0 doc.root.start) ::
        (doc.grow marks doc.root ++
          [.gap (doc.slice doc.root.stop (Text.byteLength doc.chars))])) with
    columns := doc.columns }

/-- What stands inside a node: its new text, or its children. -/
def inside (n : Node) : List Sketch :=
  match (marks n).new with
  | some text => [.gap text]
  | none => doc.growRow marks n.start n.children n.stop

theorem grow_eq (n : Node) : doc.grow marks n = (marks n).sprout n.info (doc.inside marks n) := by
  cases n
  rw [grow]
  rfl

end Document

/-- The tree of the text that a draft is written out to. -/
def Draft.regrown (d : Draft) : Document := d.doc.grown (Mark.ofEdits d.edits)

namespace Sketch

theorem texts_append (ss ts : List Sketch) : texts (ss ++ ts) = texts ss ++ texts ts := by
  induction ss with
  | nil => simp [texts]
  | cons s ss ih => simp [texts, ih, String.append_assoc]

@[simp] theorem text_token (t : String) : text (token t) = t := by
  simp [token, text, texts]

end Sketch

namespace Mark

variable {m : Mark} {i : NodeInfo} {body : List Sketch}

theorem texts_keywordTokens (k : Nat) :
    Sketch.texts (keywordTokens k) = String.join (List.replicate k "async ") := by
  induction k with
  | zero => rfl
  | succ k ih =>
    rw [keywordTokens] at ih ⊢
    rw [List.replicate_succ, List.flatten_cons, Sketch.texts_append, ih]
    simp [Sketch.texts, Sketch.text, List.replicate_succ]

/-- Wherever the keywords go, they stand before the node. -/
theorem texts_operand :
    Sketch.texts (m.lead i ++ [m.core i body]) =
      String.join (List.replicate m.keywords "async ") ++ Sketch.texts body := by
  rw [Sketch.texts_append, lead, core]
  cases takesKeywords i <;>
    simp [Sketch.texts, Sketch.text, Sketch.texts_append, texts_keywordTokens]

theorem text_awaitNode (fields : List Field) : Sketch.text (m.awaitNode i body fields) =
    "await " ++ (String.join (List.replicate m.keywords "async ") ++ Sketch.texts body) := by
  rw [awaitNode, Sketch.text, List.append_assoc, Sketch.texts_append, texts_operand]
  simp [Sketch.texts, Sketch.text]

/-- A regular mark puts its texts around the node. -/
theorem texts_sprout (h : m.IsRegular) :
    Sketch.texts (m.sprout i body) =
      String.join m.before ++ Sketch.texts body ++ String.join m.after := by
  rw [h.before, h.after, sprout, outer]
  cases ha : m.isAwait with
  | false =>
    have hw : m.isWrapped = false := by
      rw [isAwait, Bool.or_eq_false_iff] at ha
      exact ha.1
    simp [texts_operand, hw]
  | true =>
    cases hw : m.isWrapped with
    | false => simp [awaiting, hw, Sketch.texts, text_awaitNode, String.append_assoc]
    | true =>
      have hopen (s : String) : "(" ++ ("await " ++ s) = "(await " ++ s := by
        rw [← String.append_assoc]
        rfl
      simp [awaiting, hw, Sketch.texts, Sketch.text, text_awaitNode, String.append_assoc, hopen]

theorem mem_keywordTokens {k : Nat} {s : Sketch} (h : s ∈ keywordTokens k) :
    s = .token "async" ∨ s = .gap " " := by
  obtain ⟨ss, hss, hs⟩ := List.mem_flatten.1 h
  rw [List.eq_of_mem_replicate hss] at hs
  simpa using hs

theorem exists_lead (m : Mark) (i : NodeInfo) : ∃ k, m.lead i = keywordTokens k := by
  rw [lead]
  split
  · exact ⟨0, rfl⟩
  · exact ⟨m.keywords, rfl⟩

theorem exists_sprout (m : Mark) (i : NodeInfo) (body : List Sketch) :
    ∃ k, m.sprout i body = keywordTokens k ++ [m.outer i body] := by
  obtain ⟨k, hk⟩ := m.exists_lead i
  rw [sprout, hk]
  cases m.isAwait with
  | true => exact ⟨0, rfl⟩
  | false => exact ⟨k, rfl⟩

theorem isNode_outer (m : Mark) (i : NodeInfo) (body : List Sketch) : (m.outer i body).isNode := by
  rw [outer, awaiting]
  cases m.isAwait <;> cases m.isWrapped <;> rfl

end Mark

namespace Document

variable {doc : Document} {marks : Node → Mark}

/-- What a node grows to reads as what is spliced in for it. -/
theorem texts_grow {n : Node} (h : ∀ m ∈ n.preorder, (marks m).IsRegular) :
    Sketch.texts (doc.grow marks n) = doc.assemble (n.splice marks) := by
  induction n using Node.induction with
  | h i cs ih =>
    have hchild : ∀ c ∈ cs, Sketch.texts (doc.grow marks c) = doc.assemble (c.splice marks) := by
      intro c hc
      exact ih c hc fun m hm => h m (Node.mem_preorder_child hc hm)
    have hrow : ∀ (ds : List Node) (cursor : Nat), (∀ d ∈ ds, d ∈ cs) →
        Sketch.texts (doc.growRow marks cursor ds i.stop) =
          doc.assemble (Node.spliceRow marks cursor ds i.stop) := by
      intro ds
      induction ds with
      | nil =>
        intro cursor _
        simp [growRow, Node.spliceRow, Sketch.texts, Sketch.text, assemble_copied]
      | cons d ds ihd =>
        intro cursor hds
        have hd := hchild d (hds d List.mem_cons_self)
        have hrest := ihd d.stop fun x hx => hds x (List.mem_cons_of_mem _ hx)
        rw [growRow, Node.spliceRow, Sketch.texts, Sketch.text, Sketch.texts_append, hd, hrest,
          ← List.singleton_append, assemble_append, assemble_append, assemble_copied]
    rw [grow_eq, Mark.texts_sprout (h _ (Node.mem_preorder_self _)), Node.splice_eq,
      assemble_append, assemble_append, assemble_map_added, assemble_map_added, inside]
    cases (marks (.mk i cs)).new with
    | some text => simp [Sketch.texts, Sketch.text, assemble_added]
    | none =>
      exact congrArg (fun row => String.join (marks (.mk i cs)).before ++ row ++
        String.join (marks (.mk i cs)).after) (hrow cs i.start fun _ hd => hd)

theorem text_grown (h : ∀ n ∈ doc.nodes, (marks n).IsRegular) :
    (doc.grown marks).text = doc.assemble (doc.splice marks) := by
  have hroot : Sketch.texts (doc.grow marks doc.root) = doc.assemble (doc.root.splice marks) :=
    texts_grow h
  rw [splice, ← List.singleton_append, assemble_append, assemble_append, assemble_copied,
    assemble_copied, ← hroot]
  simp [text, grown, Sketch.document, Document.ofParse, Sketch.texts, Sketch.texts_append,
    Sketch.text]

theorem getLast?_grow (doc : Document) (marks : Node → Mark) (front back : String) :
    ((.gap front :: (doc.grow marks doc.root ++ [.gap back])).filter Sketch.isNode).getLast? =
      some ((marks doc.root).outer doc.root.info (doc.inside marks doc.root)) := by
  have hnode := (marks doc.root).isNode_outer doc.root.info (doc.inside marks doc.root)
  rw [grow_eq, Mark.sprout]
  simp [hnode]

theorem depicts_root_grown (doc : Document) (marks : Node → Mark) :
    Sketch.Depicts (doc.grown marks).chars
      ((marks doc.root).outer doc.root.info (doc.inside marks doc.root)) (doc.grown marks).root :=
  Sketch.depicts_root (doc.getLast?_grow marks _ _)

theorem wellFormed_grown (doc : Document) (marks : Node → Mark) : (doc.grown marks).WellFormed := by
  have h := Sketch.wellFormed_document (doc.getLast?_grow marks (doc.slice 0 doc.root.start)
    (doc.slice doc.root.stop (Text.byteLength doc.chars)))
  exact ⟨h.ids, h.rows, h.bounds⟩

end Document

/-- A draft with regular marks is written out to the text of its tree. -/
theorem Draft.source_eq_regrown {d : Draft} (hw : d.doc.WellFormed)
    (hl : ∀ e ∈ d.edits, e.isLiteral) (hn : ∀ e ∈ d.edits, e.node ∈ d.doc.nodes)
    (hr : ∀ n ∈ d.doc.nodes, (Mark.ofEdits d.edits n).IsRegular) :
    d.source = .ok d.regrown.text := by
  rw [source_eq_splice hw hl hn, regrown, Document.text_grown hr]

end Asyncify
