import Asyncify.Proofs.Moves
import Asyncify.Proofs.Splice

/-! A printer that goes once through the tree and writes every node as it stands, apart from the
marks that a plan puts on it. A pass of renamings and awaits writes out the text of its plan. -/
namespace Asyncify

namespace Document

variable (doc : Document) (style : Place → Mark)

mutual

/-- Prints a node: what stands before it, then its new text or else its own with the children
printed in their places, then what stands behind it. -/
def printNode (above : List Node) : Node → String
  | .mk i cs =>
    let mark := style ⟨.mk i cs, above⟩
    String.join mark.before ++
      (match mark.new with
        | some text => text
        | none => printRow (.mk i cs :: above) i.start cs i.stop) ++
      String.join mark.after

/-- Prints siblings with the source between them. -/
def printRow (above : List Node) (cursor : Nat) : List Node → Nat → String
  | [], stop => doc.slice cursor stop
  | c :: cs, stop => doc.slice cursor c.start ++ printNode above c ++ printRow above c.stop cs stop

end

/-- Prints the whole text; what lies outside the root stays. -/
def print : String :=
  doc.slice 0 doc.root.start ++ doc.printNode style [] doc.root ++
    doc.slice doc.root.stop (Text.byteLength doc.chars)

variable {doc style}

theorem assemble_append (doc : Document) (ks ls : List Chunk) :
    doc.assemble (ks ++ ls) = doc.assemble ks ++ doc.assemble ls := by
  simp [assemble, String.ofList_append]

theorem assemble_copied (doc : Document) (start stop : Nat) :
    doc.assemble [.copied start stop] = doc.slice start stop := by
  simp [assemble, Chunk.chars, slice]

theorem assemble_map_added (doc : Document) (texts : List String) :
    doc.assemble (texts.map .added) = String.join texts := by
  rw [← String.toList_inj]
  simp [assemble, List.flatMap_map, Chunk.chars, String.toList_join]

theorem assemble_added (doc : Document) (text : String) : doc.assemble [.added text] = text := by
  simp [assemble, Chunk.chars]

theorem assemble_spliceRow {marks : Node → Mark} {above : List Node} {cs : List Node}
    {cursor stop : Nat}
    (hc : ∀ c ∈ cs, doc.assemble (c.splice marks) = doc.printNode style above c) :
    doc.assemble (Node.spliceRow marks cursor cs stop) =
      doc.printRow style above cursor cs stop := by
  induction cs generalizing cursor with
  | nil => rw [Node.spliceRow, printRow, assemble_copied]
  | cons c cs ih =>
    have hrest : doc.assemble (Node.spliceRow marks c.stop cs stop) =
        doc.printRow style above c.stop cs stop := ih fun d hd => hc d (List.mem_cons_of_mem _ hd)
    rw [Node.spliceRow, printRow, ← List.singleton_append, assemble_append, assemble_append,
      assemble_copied, hc c List.mem_cons_self, hrest, String.append_assoc]

/-- Marks on the nodes print as the same marks on the places. -/
theorem assemble_splice_node {marks : Node → Mark} {n : Node} {above : List Node}
    (hm : ∀ p ∈ Place.under above n, marks p.node = style p) :
    doc.assemble (n.splice marks) = doc.printNode style above n := by
  induction n using Node.induction generalizing above with
  | h i cs ih =>
    have hself : marks (.mk i cs) = style ⟨.mk i cs, above⟩ := by
      refine hm ⟨.mk i cs, above⟩ ?_
      rw [Place.under_eq]
      exact List.mem_cons_self
    have hrow : doc.assemble (Node.spliceRow marks i.start cs i.stop) =
        doc.printRow style (.mk i cs :: above) i.start cs i.stop := by
      refine assemble_spliceRow fun c hc => ih c hc fun p hp => hm p ?_
      rw [Place.under_eq]
      exact List.mem_cons_of_mem _ (List.mem_flatMap.2 ⟨c, hc, hp⟩)
    rw [Node.splice_eq, printNode, assemble_append, assemble_append, assemble_map_added,
      assemble_map_added, hself]
    cases (style ⟨.mk i cs, above⟩).new with
    | some text => rw [assemble_added]
    | none => rw [← hrow]; rfl

theorem assemble_splice_eq_print {marks : Node → Mark}
    (hm : ∀ p ∈ doc.places, marks p.node = style p) :
    doc.assemble (doc.splice marks) = doc.print style := by
  have hroot : doc.assemble (doc.root.splice marks) = doc.printNode style [] doc.root :=
    assemble_splice_node fun p hp => hm p (by rwa [places_eq_under])
  rw [splice, print, ← List.singleton_append, assemble_append, assemble_append, assemble_copied,
    assemble_copied, hroot, String.append_assoc]

end Document
end Asyncify
