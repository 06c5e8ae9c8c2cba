import Mathlib.Data.List.Forall2
import Asyncify.Proofs.Sketch
import Asyncify.Proofs.WellFormed

/-! The document of a sketch is well formed. Its nodes are those of the sketch, each with the text
of its parts. -/
namespace Asyncify

namespace Node

variable {a b c k : Nat} {cs ds : List Node}

theorem InRow.append (h : InRow a cs b) (h' : InRow b ds c) : InRow a (cs ++ ds) c := by
  induction cs generalizing a with
  | nil =>
    have hab : a ≤ b := h
    cases ds with
    | nil => exact hab.trans h'
    | cons d ds => exact ⟨hab.trans h'.1, h'.2⟩
  | cons x cs ih => exact ⟨h.1, h.2.1, ih h.2.2⟩

theorem numberFrom_mk (k : Nat) (i : NodeInfo) (cs : List Node) :
    (numberFrom k (mk i cs)).1 = mk { i with id := k } (numberAll (k + 1) cs).1 := rfl

theorem numberAll_cons (k : Nat) (n : Node) (ns : List Node) :
    (numberAll k (n :: ns)).1 = (numberFrom k n).1 :: (numberAll (numberFrom k n).2 ns).1 := rfl

theorem InRow.number (h : InRow a cs b) (k : Nat) : InRow a (numberAll k cs).1 b := by
  induction cs generalizing a k with
  | nil => exact h
  | cons c cs ih =>
    cases c with
    | mk i ds => exact ⟨h.1, h.2.1, ih h.2.2 _⟩

mutual

/-- The numbers of a subtree follow one another in document order. -/
theorem number_ids (k : Nat) : (n : Node) →
    (numberFrom k n).1.preorder.map Node.id = List.range' k n.size ∧ (numberFrom k n).2 = k + n.size
  | mk i cs => by
    obtain ⟨hids, hnext⟩ := numberAll_ids (k + 1) cs
    constructor
    · rw [numberFrom_mk, preorder, List.map_cons, hids, size, List.range'_succ]
      rfl
    · show (numberAll (k + 1) cs).2 = k + (sizes cs + 1)
      omega

theorem numberAll_ids (k : Nat) : (ns : List Node) →
    (preorders (numberAll k ns).1).map Node.id = List.range' k (sizes ns) ∧
      (numberAll k ns).2 = k + sizes ns
  | [] => ⟨rfl, rfl⟩
  | n :: ns => by
    obtain ⟨hn, hk⟩ := number_ids k n
    obtain ⟨hns, hlast⟩ := numberAll_ids (numberFrom k n).2 ns
    constructor
    · rw [numberAll_cons, preorders, List.map_append, hn, hns, hk, sizes]
      simp
    · show (numberAll (numberFrom k n).2 ns).2 = k + (n.size + sizes ns)
      omega

end

theorem nodup_ids_number (n : Node) : (n.number.preorder.map Node.id).Nodup := by
  rw [number, (number_ids 0 n).1]
  exact List.nodup_range'

end Node

namespace Sketch

variable {chars : List Char} {s : Sketch} {ss parts : List Sketch} {n m : Node}
  {ns : List Node}

def isNode : Sketch → Bool
  | gap _ => false
  | node _ _ => true

@[simp] theorem isNode_gap (t : String) : (gap t).isNode = false := rfl

@[simp] theorem isNode_node (i : NodeInfo) (parts : List Sketch) : (node i parts).isNode = true :=
  rfl

@[simp] theorem isNode_token (t : String) : (token t).isNode = true := rfl

/-- The node shows the sketch: it says the same of itself, its span holds the text of the sketch,
and its children show the parts, one behind the other. -/
inductive Depicts (chars : List Char) : Sketch → Node → Prop
  | node {i j : NodeInfo} {parts : List Sketch} {ds : List Node} (symbol : j.symbol = i.symbol)
      (named : j.named = i.named) (fields : j.fields = i.fields)
      (text : String.ofList (Text.slice chars j.start j.stop) = texts parts)
      (bounds : Text.isBoundary chars j.start ∧ Text.isBoundary chars j.stop)
      (row : Node.InRow j.start ds j.stop)
      (children : List.Forall₂ (Depicts chars) (parts.filter isNode) ds) :
      Depicts chars (.node i parts) (.mk j ds)

theorem Depicts.ofList_slice (h : Depicts chars s n) :
    String.ofList (Text.slice chars n.start n.stop) = text s := by
  cases h with
  | node symbol named fields text bounds row children => exact text

mutual

theorem depicts_nodes (chars : List Char) : (s : Sketch) → (pre post : List Char) →
    chars = pre ++ (text s).toList ++ post →
    List.Forall₂ (Depicts chars) ([s].filter isNode) (nodes (Text.byteLength pre) s) ∧
      Node.InRow (Text.byteLength pre) (nodes (Text.byteLength pre) s)
        (Text.byteLength pre + (text s).utf8ByteSize)
  | gap t, pre, post, h => ⟨.nil, Nat.le_add_right _ _⟩
  | node i parts, pre, post, h => by
    have hlen : Text.byteLength pre + (texts parts).utf8ByteSize =
        Text.byteLength (pre ++ (texts parts).toList) := by
      rw [Text.byteLength_append, Text.byteLength_toList]
    have hchars : chars = pre ++ (texts parts).toList ++ post := h
    obtain ⟨hparts, hrow⟩ := depicts_rows chars parts pre post hchars
    refine ⟨.cons (.node rfl rfl rfl ?_ ⟨?_, ?_⟩ hrow hparts) .nil, le_rfl,
      Nat.le_add_right _ _, le_rfl⟩
    · show String.ofList (Text.slice chars (Text.byteLength pre)
        (Text.byteLength pre + (texts parts).utf8ByteSize)) = texts parts
      rw [hlen, hchars, Text.slice_append, String.ofList_toList]
    · rw [hchars, List.append_assoc]
      exact Text.isBoundary_byteLength _ _
    · show Text.isBoundary chars (Text.byteLength pre + (texts parts).utf8ByteSize)
      rw [hlen, hchars]
      exact Text.isBoundary_byteLength _ _

theorem depicts_rows (chars : List Char) : (ss : List Sketch) → (pre post : List Char) →
    chars = pre ++ (texts ss).toList ++ post →
    List.Forall₂ (Depicts chars) (ss.filter isNode) (rows (Text.byteLength pre) ss) ∧
      Node.InRow (Text.byteLength pre) (rows (Text.byteLength pre) ss)
        (Text.byteLength pre + (texts ss).utf8ByteSize)
  | [], pre, post, h => ⟨.nil, Nat.le_add_right _ _⟩
  | s :: ss, pre, post, h => by
    rw [texts, String.toList_append] at h
    obtain ⟨hs, hrow⟩ := depicts_nodes chars s pre ((texts ss).toList ++ post) (by simpa using h)
    obtain ⟨hss, hrows⟩ := depicts_rows chars ss (pre ++ (text s).toList) post (by simpa using h)
    rw [Text.byteLength_append, Text.byteLength_toList] at hss hrows
    constructor
    · rw [rows, ← List.singleton_append, List.filter_append]
      exact List.rel_append hs hss
    · rw [rows, texts, String.utf8ByteSize_append, ← Nat.add_assoc]
      exact hrow.append hrows

end

theorem Depicts.numberFrom (h : Depicts chars s n) (k : Nat) :
    Depicts chars s (n.numberFrom k).1 := by
  induction n using Node.induction generalizing s k with
  | h j ds ih =>
    cases h with
    | node symbol named fields text bounds row children =>
      refine .node symbol named fields text bounds (row.number _) ?_
      have hall (xs : List Sketch) (ds : List Node) (hc : List.Forall₂ (Depicts chars) xs ds)
          (hd : ∀ d ∈ ds, ∀ {s : Sketch}, Depicts chars s d →
            ∀ k, Depicts chars s (d.numberFrom k).1)
          (k : Nat) : List.Forall₂ (Depicts chars) xs (Node.numberAll k ds).1 := by
        induction hc generalizing k with
        | nil => exact .nil
        | cons hx _ ihc =>
          rw [Node.numberAll_cons]
          exact .cons (hd _ List.mem_cons_self hx k)
            (ihc (fun d hm => hd d (List.mem_cons_of_mem _ hm)) _)
      exact hall _ _ children (fun d hd => ih d hd) _

theorem exists_depicts (h : List.Forall₂ (Depicts chars) ss ns) (hn : n ∈ ns) :
    ∃ s ∈ ss, Depicts chars s n := by
  induction h with
  | nil => cases hn
  | cons hs _ ih =>
    obtain rfl | hn := List.mem_cons.1 hn
    · exact ⟨_, List.mem_cons_self, hs⟩
    · obtain ⟨s, hm, hs⟩ := ih hn
      exact ⟨s, List.mem_cons_of_mem _ hm, hs⟩

/-- Everything below a node that shows a sketch lies in order and between characters. -/
theorem Depicts.inRow (h : Depicts chars s n) (hm : m ∈ n.preorder) :
    Node.InRow m.start m.children m.stop ∧
      Text.isBoundary chars m.start ∧ Text.isBoundary chars m.stop := by
  induction n using Node.induction generalizing s with
  | h j ds ih =>
    cases h with
    | node symbol named fields text bounds row children =>
      obtain rfl | ⟨d, hd, hm⟩ := Node.mem_preorder_iff.1 hm
      · exact ⟨row, bounds⟩
      · obtain ⟨x, -, hx⟩ := exists_depicts children hd
        exact ih d hd hx hm

/-- The root of a document shows the last node of the sketch. -/
theorem depicts_root (h : (parts.filter isNode).getLast? = some s) :
    Depicts (document parts).chars s (document parts).root := by
  obtain ⟨hrows, -⟩ := depicts_rows (texts parts).toList parts [] [] (by simp)
  obtain ⟨front, hfront⟩ := List.getLast?_eq_some_iff.1 h
  rw [hfront, ← List.forall₂_reverse_iff, List.reverse_append] at hrows
  obtain ⟨n, ns, hn, -, hlast⟩ := List.forall₂_cons_left_iff.1 hrows
  have hroot : (rows 0 parts).getLastD default = n := by
    rw [← List.reverse_reverse (rows 0 parts)]
    rw [show (rows 0 parts).reverse = n :: ns from hlast, List.reverse_cons]
    simp
  rw [document, Document.ofParse, hroot]
  exact hn.numberFrom 0

theorem wellFormed_document (h : (parts.filter isNode).getLast? = some s) :
    (document parts).WellFormed where
  ids := Node.nodup_ids_number _
  rows _ hn := ((depicts_root h).inRow hn).1
  bounds _ hn := ((depicts_root h).inRow hn).2

theorem wellFormed_program (parts : List Sketch) : (program parts).WellFormed :=
  wellFormed_document rfl

end Sketch
end Asyncify
