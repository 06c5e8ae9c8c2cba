import Asyncify.Proofs.Lists
import Mathlib.Data.List.Perm.Subperm
import Asyncify.Proofs.Splice

/-! How a draft writes a node: as fixed texts with other nodes between them. The print of a draft is
the tree that these layouts span, and its text is what the draft writes out. -/
namespace Asyncify

/-- A part of what is written for a node: a stretch of the source, a text that came in with an edit,
another node, or a statement that is moved to another indentation. -/
inductive Slot where
  | copied (text : String)
  | added (text : String)
  | node (n : Node)
  | moved (n : Node) (width : Nat) (indent newline ending : String)

namespace Slot

def node? : Slot → Option Node
  | node n => some n
  | moved n _ _ _ _ => some n
  | _ => none

def nodes (slots : List Slot) : List Node := slots.filterMap node?

/-- The text of a part, given the texts of the nodes. -/
def text (write : Node → String) : Slot → String
  | copied s => s
  | added s => s
  | node n => write n
  | moved n width indent newline ending => Text.reindent (write n) width indent newline ++ ending

def texts (write : Node → String) : List Slot → String
  | [] => ""
  | s :: ss => s.text write ++ texts write ss

variable {write : Node → String}

@[simp] theorem texts_append (ss ts : List Slot) :
    texts write (ss ++ ts) = texts write ss ++ texts write ts := by
  induction ss with
  | nil => simp [texts]
  | cons s ss ih => simp [texts, ih, String.append_assoc]

@[simp] theorem nodes_append (ss ts : List Slot) : nodes (ss ++ ts) = nodes ss ++ nodes ts :=
  List.filterMap_append

@[simp] theorem nodes_nil : nodes [] = [] := rfl

@[simp] theorem nodes_copied (s : String) (ss : List Slot) : nodes (copied s :: ss) = nodes ss :=
  rfl

@[simp] theorem nodes_added (s : String) (ss : List Slot) : nodes (added s :: ss) = nodes ss := rfl

@[simp] theorem nodes_node (n : Node) (ss : List Slot) : nodes (node n :: ss) = n :: nodes ss := rfl

@[simp] theorem nodes_moved (n : Node) (width : Nat) (indent newline ending : String)
    (ss : List Slot) :
    nodes (moved n width indent newline ending :: ss) = n :: nodes ss := rfl

/-- Nodes with commas between them. -/
def listed : List Node → List Slot
  | [] => []
  | [n] => [node n]
  | n :: ns => node n :: added ", " :: listed ns

theorem nodes_listed (ns : List Node) : nodes (listed ns) = ns := by
  fun_induction listed ns with
  | case1 => rfl
  | case2 n => rfl
  | case3 n ns _ ih => simp [ih]

end Slot

namespace Text

/-- Every text with the separator before it. -/
def led (sep : String) : List String → String
  | [] => ""
  | s :: ss => sep ++ s ++ led sep ss

theorem led_append (sep : String) (ss ts : List String) :
    led sep (ss ++ ts) = led sep ss ++ led sep ts := by
  induction ss with
  | nil => simp [led]
  | cons s ss ih => simp [led, ih, String.append_assoc]

theorem intercalate_cons (sep s : String) (ss : List String) :
    sep.intercalate (s :: ss) = s ++ led sep ss := by
  induction ss generalizing s with
  | nil => simp [led]
  | cons u ss ih =>
    rw [String.intercalate_cons_cons, ih, led, String.append_assoc, String.append_assoc]

end Text

theorem Slot.texts_listed (write : Node → String) (ns : List Node) :
    texts write (listed ns) = ", ".intercalate (ns.map write) := by
  fun_induction listed ns with
  | case1 => rfl
  | case2 n => simp [texts, text, Text.intercalate_cons, Text.led]
  | case3 n ns hne ih =>
    obtain ⟨m, ms, rfl⟩ := List.exists_cons_of_ne_nil fun h => hne h
    simp only [texts, text, ih, List.map_cons, Text.intercalate_cons, Text.led, String.append_assoc]

namespace Fold

variable (f : Fold)

/-- Everything that the fold is to be written from is there. -/
structure IsWhole : Prop where
  inner : ∃ s, f.inner = .ok s
  callee : ∃ n, f.callee = .ok n
  body : ∀ m ∈ f.body, ∃ n, m.node = .ok n

/-- The statements of one half, each on a line of its own. -/
def armSlots (inner newline : String) (branch : Branch) : List Slot :=
  (f.body.filter fun m => m.branch = branch).flatMap fun m =>
    match m.node with
    | .ok n => [.added newline, .moved n m.width inner newline m.ending]
    | .error _ => []

def slots (newline : String) : List Slot :=
  match f.inner, f.callee with
  | .ok inner, .ok callee =>
    [.added ("try \x7b" ++ newline ++ inner ++ "const " ++ f.resultName ++ " = await "),
        .node callee, .added "("] ++ Slot.listed f.args ++ [.added ");"] ++
          f.armSlots inner newline .attempt ++
      [.added (newline ++ f.base ++ "\x7d catch (" ++ f.errorName ++ ") \x7b")] ++
      f.armSlots inner newline .recover ++ [.added (newline ++ f.base ++ "\x7d")]
  | _, _ => []

/-- The nodes of moved statements. -/
def nodesOf (ms : List Moved) : List Node := ms.filterMap fun m => m.node.toOption

/-- The nodes that a fold is written from, as far as they are there. -/
def nodes : List Node := f.callee.toOption.toList ++ f.args ++ nodesOf f.body

@[simp] theorem nodesOf_append (ms ms' : List Moved) :
    nodesOf (ms ++ ms') = nodesOf ms ++ nodesOf ms' :=
  List.filterMap_append

theorem nodesOf_flatMap {α : Type} (l : List α) (h : α → List Moved) :
    nodesOf (l.flatMap h) = l.flatMap fun a => nodesOf (h a) := by
  simp [nodesOf, List.filterMap_flatMap]

theorem nodes_armSlots (inner newline : String) (branch : Branch) :
    Slot.nodes (f.armSlots inner newline branch) =
      nodesOf (f.body.filter fun m => m.branch = branch) := by
  rw [armSlots, nodesOf]
  induction f.body.filter fun m => m.branch = branch with
  | nil => rfl
  | cons m ms ih =>
    rw [List.flatMap_cons, Slot.nodes_append, ih]
    cases hm : m.node <;> simp [Except.toOption, hm]

variable {f}

/-- A fold is written from its callee, the arguments that stay, and the statements of both
halves. -/
theorem nodes_slots {newline inner : String} {callee : Node} (hi : f.inner = .ok inner)
    (hc : f.callee = .ok callee) :
    (Slot.nodes (f.slots newline)).Perm (callee :: f.args ++ nodesOf f.body) := by
  have hbranch : (nodesOf (f.body.filter fun m => m.branch = .attempt) ++
      nodesOf (f.body.filter fun m => m.branch = .recover)).Perm (nodesOf f.body) := by
    rw [← nodesOf_append]
    have hneg : (f.body.filter fun m => m.branch = .recover) =
        f.body.filter fun m => !decide (m.branch = .attempt) :=
      List.filter_congr fun m _ => by cases m.branch <;> rfl
    rw [hneg]
    exact (List.filter_append_perm _ _).filterMap _
  have heq : Slot.nodes (f.slots newline) = callee :: (f.args ++
      (nodesOf (f.body.filter fun m => m.branch = .attempt) ++
        nodesOf (f.body.filter fun m => m.branch = .recover))) := by
    rw [slots, hi, hc]
    simp [Slot.nodes_listed, nodes_armSlots]
  rw [heq, List.cons_append]
  exact (hbranch.append_left f.args).cons callee

/-- How a fold is written depends on how its nodes are. -/
theorem write_congr {render render' : Node → Except Fault String}
    (h : ∀ n ∈ f.nodes, render n = render' n)
    (newline : String) : f.write render newline = f.write render' newline := by
  have hargs : f.args.mapM render = f.args.mapM render' :=
    Except.mapM_congr fun n hn => h n (by simp [nodes, hn])
  have hbody (inner : String) : (f.body.mapM fun m => do
      let text ← render (← m.node)
      return (m.branch, Text.reindent text m.width inner newline ++ m.ending)) =
        f.body.mapM fun m => do
          let text ← render' (← m.node)
          return (m.branch, Text.reindent text m.width inner newline ++ m.ending) := by
    refine Except.mapM_congr fun m hm => ?_
    cases hn : m.node with
    | error e => rfl
    | ok n =>
      have hin : n ∈ nodesOf f.body := List.mem_filterMap.2 ⟨m, hm, by rw [hn]; rfl⟩
      simp only [bind, Except.bind, h n (by simp [nodes, hin])]
  rw [write, write]
  cases hc : f.callee with
  | error e => rfl
  | ok callee =>
    have hcallee : render callee = render' callee := h callee (by simp [nodes, hc, Except.toOption])
    simp only [hargs, hbody]
    simp only [bind, Except.bind, hcallee]

/-- The line of a moved statement. -/
def line (write : Node → String) (inner newline : String) (m : Moved) : String :=
  match m.node with
  | .ok n => Text.reindent (write n) m.width inner newline ++ m.ending
  | .error _ => ""

theorem texts_armSlots {write : Node → String} {inner newline : String} {branch : Branch}
    (hb : ∀ m ∈ f.body, ∃ n, m.node = .ok n) :
    Slot.texts write (f.armSlots inner newline branch) =
      Text.led newline (linesOf branch (f.body.map fun m =>
        (m.branch, line write inner newline m))) := by
  rw [armSlots, linesOf, List.filter_map, List.map_map]
  have hsub : ∀ m ∈ f.body.filter fun m => m.branch = branch, ∃ n, m.node = .ok n :=
    fun m hm => hb m (List.mem_of_mem_filter hm)
  have hfilter : (f.body.filter ((fun x : Branch × String => decide (x.1 = branch)) ∘
      fun m => (m.branch, line write inner newline m))) = f.body.filter fun m =>
        m.branch = branch := rfl
  rw [hfilter]
  generalize f.body.filter (fun m => m.branch = branch) = ms at hsub
  induction ms with
  | nil => rfl
  | cons m ms ih =>
    obtain ⟨n, hn⟩ := hsub m List.mem_cons_self
    rw [List.flatMap_cons, Slot.texts_append, ih fun x hx => hsub x (List.mem_cons_of_mem _ hx)]
    simp [hn, Slot.texts, Slot.text, Text.led, line]

/-- A whole fold is written as its slots say, if the nodes in it can be written. -/
theorem write_eq_texts {render : Node → Except Fault String} {write : Node → String}
    {newline : String}
    (hw : f.IsWhole) (hr : ∀ n ∈ Slot.nodes (f.slots newline), render n = .ok (write n)) :
    f.write render newline = .ok (Slot.texts write (f.slots newline)) := by
  obtain ⟨inner, hi⟩ := hw.inner
  obtain ⟨callee, hc⟩ := hw.callee
  have hmem (n : Node) (hn : n ∈ callee :: f.args ++ nodesOf f.body) : render n = .ok (write n) :=
    hr n ((nodes_slots hi hc).mem_iff.2 hn)
  have hcallee := hmem callee (by simp)
  have hargs : f.args.mapM render = .ok (f.args.map write) :=
    Except.mapM_eq_map fun n hn => hmem n (by simp [hn])
  have hbody : (f.body.mapM fun m => do
      let text ← render (← m.node)
      return (m.branch, Text.reindent text m.width inner newline ++ m.ending)) =
        .ok (f.body.map fun m => (m.branch, line write inner newline m)) := by
    refine Except.mapM_eq_map fun m hm => ?_
    obtain ⟨n, hn⟩ := hw.body m hm
    have hin : n ∈ nodesOf f.body := List.mem_filterMap.2 ⟨m, hm, by rw [hn]; rfl⟩
    simp [hn, bind, Except.bind, pure, Except.pure, hmem n (by simp [hin]), line]
  rw [Fold.write, hi, hc]
  simp only [bind, Except.bind, pure, Except.pure] at hbody ⊢
  rw [hcallee, hargs]
  dsimp only
  rw [hbody, slots, hi, hc]
  simp only [Slot.texts_append, texts_armSlots hw.body, Slot.texts_listed]
  simp only [List.cons_append, List.nil_append, Text.intercalate_cons, Text.led, Text.led_append,
    Slot.texts, Slot.text, String.append_assoc, String.append_empty]

end Fold

/-- The nodes among pieces. -/
def Piece.nodes (pieces : List Piece) : List Node :=
  pieces.filterMap fun
    | .text _ => none
    | .node n => some n

namespace Replacement

/-- What is written in place of a node. -/
def slots (newline : String) : Replacement → List Slot
  | literal v => [.added v.display]
  | joined pieces => pieces.map fun
    | .text s => .added s
    | .node m => .node m
  | folded f => f.slots newline

/-- The nodes that a replacement is written from. -/
def nodes : Replacement → List Node
  | literal _ => []
  | joined pieces => Piece.nodes pieces
  | folded f => f.nodes

theorem write_congr {render render' : Node → Except Fault String} {r : Replacement}
    (h : ∀ n ∈ r.nodes, render n = render' n) (newline : String) :
    r.write render newline = r.write render' newline := by
  cases r with
  | literal v => rfl
  | joined pieces =>
    have hpieces : (pieces.mapM fun
        | .text s => Except.ok s
        | .node n => render n) = pieces.mapM fun
        | .text s => .ok s
        | .node n => render' n := by
      refine Except.mapM_congr fun piece hp => ?_
      cases piece with
      | text s => rfl
      | node n => exact h n (List.mem_filterMap.2 ⟨.node n, hp, rfl⟩)
    exact congrArg (fun texts => texts >>= fun texts => pure ("".intercalate texts)) hpieces
  | folded f => exact f.write_congr h newline

variable {render : Node → Except Fault String} {write : Node → String} {newline : String}

theorem mem_slots_of_mem_nodes {r : Replacement} {m : Node} (h : ∀ f, r = folded f → f.IsWhole)
    (hm : m ∈ r.nodes) : m ∈ Slot.nodes (r.slots newline) := by
  cases r with
  | literal v => cases hm
  | joined pieces =>
    obtain ⟨piece, hp, hn⟩ := List.mem_filterMap.1 hm
    cases piece with
    | text s => cases hn
    | node n =>
      obtain rfl : n = m := Option.some.inj hn
      exact List.mem_filterMap.2 ⟨.node n, List.mem_map.2 ⟨_, hp, rfl⟩, rfl⟩
  | folded f =>
    obtain ⟨⟨inner, hi⟩, ⟨callee, hc⟩, -⟩ := h f rfl
    refine (Fold.nodes_slots hi hc).mem_iff.2 ?_
    simpa [nodes, Fold.nodes, hc, Except.toOption] using hm

theorem joined_eq_texts {pieces : List Piece}
    (hr : ∀ n ∈ Slot.nodes ((joined pieces).slots newline), render n = .ok (write n)) :
    (joined pieces).write render newline =
      .ok (Slot.texts write ((joined pieces).slots newline)) := by
  have htexts : (pieces.mapM fun
      | .text s => Except.ok s
      | .node n => render n) = .ok (((joined pieces).slots newline).map (Slot.text write)) := by
    rw [slots, List.map_map]
    refine Except.mapM_eq_map fun piece hp => ?_
    cases piece with
    | text s => rfl
    | node n =>
      refine hr n (List.mem_filterMap.2 ⟨.node n, ?_, rfl⟩)
      exact List.mem_map.2 ⟨_, hp, rfl⟩
  have hjoin (ss : List Slot) : "".intercalate (ss.map (Slot.text write)) =
      Slot.texts write ss := by
    rw [← String.toList_inj, Text.toList_intercalate_empty]
    induction ss with
    | nil => rfl
    | cons s ss ih => simp [Slot.texts, ih]
  rw [← hjoin]
  exact congrArg (fun texts => texts >>= fun texts => pure ("".intercalate texts)) htexts

/-- A replacement is written as its slots say, if the nodes in it can be written. -/
theorem write_eq_texts {r : Replacement} (h : ∀ f, r = folded f → f.IsWhole)
    (hr : ∀ n ∈ Slot.nodes (r.slots newline), render n = .ok (write n)) :
    r.write render newline = .ok (Slot.texts write (r.slots newline)) := by
  cases r with
  | literal v => simp [Replacement.write, slots, Slot.texts, Slot.text]
  | joined pieces => exact joined_eq_texts hr
  | folded f => exact Fold.write_eq_texts (h f rfl) hr

end Replacement

/-- The nodes `ms` stand apart from one another, each somewhere at or below one of `ns`. -/
def Node.Spreads (ns ms : List Node) : Prop := (ms.flatMap preorder).Subperm (ns.flatMap preorder)

namespace Node.Spreads

variable {ns ms ls ns' ms' : List Node} {m n x : Node}

theorem refl (ns : List Node) : Spreads ns ns := List.Subperm.refl _

theorem trans (h : Spreads ns ms) (h' : Spreads ms ls) : Spreads ns ls := List.Subperm.trans h' h

theorem append (h : Spreads ns ms) (h' : Spreads ns' ms') : Spreads (ns ++ ns') (ms ++ ms') := by
  rw [Spreads, List.flatMap_append, List.flatMap_append]
  exact List.Subperm.append h h'

theorem of_sublist (h : ms.Sublist ns) : Spreads ns ms := by
  induction h with
  | slnil => exact refl _
  | cons a _ ih =>
    rw [Spreads, List.flatMap_cons]
    exact List.Subperm.trans ih (List.sublist_append_right _ _).subperm
  | cons_cons a _ ih => exact append (refl [a]) ih

theorem of_perm (h : ms.Perm ns) : Spreads ns ms := (h.flatMap_right preorder).subperm

theorem of_subperm (h : ms.Subperm ns) : Spreads ns ms := by
  obtain ⟨ls, hp, hs⟩ := h
  exact (of_sublist hs).trans (of_perm hp.symm)

theorem children (n : Node) : Spreads [n] n.children := by
  rw [Spreads, List.flatMap_singleton, preorder_eq n]
  exact (List.sublist_cons_self _ _).subperm

theorem child (h : m ∈ n.children) : Spreads n.children [m] :=
  of_sublist (List.singleton_sublist.2 h)

theorem flatMap {α : Type} {l : List α} {k : α → Node} {f : α → List Node}
    (h : ∀ a ∈ l, Spreads [k a] (f a)) : Spreads (l.map k) (l.flatMap f) := by
  induction l with
  | nil => exact refl _
  | cons a l ih =>
    exact append (h a List.mem_cons_self) (ih fun b hb => h b (List.mem_cons_of_mem _ hb))

/-- Every one of the nodes lies at or below one of those they are spread over. -/
theorem exists_mem (h : Spreads ns ms) (hm : m ∈ ms) : ∃ n ∈ ns, m ∈ n.preorder :=
  List.mem_flatMap.1 (h.subset (List.mem_flatMap.2 ⟨m, hm, m.mem_preorder_self⟩))

theorem size_lt (h : Spreads n.children ms) (hm : m ∈ ms) : m.size < n.size := by
  have hsub := (h.trans (of_sublist (List.singleton_sublist.2 hm))).length_le
  rw [List.flatMap_singleton] at hsub
  rw [← length_preorder m, ← length_preorder n, preorder_eq n, List.length_cons]
  omega

end Node.Spreads

namespace Draft

variable (d : Draft)

/-- The children of a node with the source between them. -/
def rowSlots (cursor : Nat) : List Node → Nat → List Slot
  | [], stop => [.copied (d.doc.slice cursor stop)]
  | c :: cs, stop => .copied (d.doc.slice cursor c.start) :: .node c :: rowSlots c.stop cs stop

def bodySlots (n : Node) : List Slot :=
  match d.replacement? n.id with
  | some (.literal v) => [.added v.display]
  | some (.joined pieces) => pieces.map fun
    | .text s => .added s
    | .node m => .node m
  | some (.folded f) => f.slots d.doc.newline
  | none =>
    if d.isTouched n then d.rowSlots n.start n.children n.stop else [.copied (d.doc.textOf n)]

/-- What is written for a node: the texts before it, its body, and the texts behind it. -/
def layout (n : Node) : List Slot :=
  .added (d.before n.id) :: (d.bodySlots n ++ [.added (d.after n.id)])

/-- The nodes that are written for a node. -/
def next (n : Node) : List Node := Slot.nodes (d.bodySlots n)

theorem nodes_layout (n : Node) : Slot.nodes (d.layout n) = d.next n := by
  simp [layout, next]

/-- Whatever stands for a node can be written, from nodes below it that stand apart. -/
structure IsLaid : Prop where
  whole : ∀ n ∈ d.doc.nodes, ∀ f, d.replacement? n.id = some (.folded f) → f.IsWhole
  spreads : ∀ n ∈ d.doc.nodes, Node.Spreads n.children (d.next n)

variable {d} {n m : Node} {render : Node → Except Fault String} {write : Node → String}

theorem nodes_rowSlots (cursor : Nat) (cs : List Node) (stop : Nat) :
    Slot.nodes (d.rowSlots cursor cs stop) = cs := by
  induction cs generalizing cursor with
  | nil => rfl
  | cons c cs ih => simp [rowSlots, ih]

theorem weave_eq_texts {cursor stop : Nat} {cs : List Node}
    (hr : ∀ c ∈ cs, render c = .ok (write c)) :
    d.weave render cursor cs stop = .ok (Slot.texts write (d.rowSlots cursor cs stop)) := by
  induction cs generalizing cursor with
  | nil => simp [weave, rowSlots, Slot.texts, Slot.text]
  | cons c cs ih =>
    rw [weave, hr c List.mem_cons_self, ih fun e he => hr e (List.mem_cons_of_mem _ he)]
    simp [bind, Except.bind, pure, Except.pure, rowSlots, Slot.texts, Slot.text,
      String.append_assoc]

theorem bodySlots_of_replacement? {r : Replacement} (h : d.replacement? n.id = some r) :
    d.bodySlots n = r.slots d.doc.newline := by
  rw [bodySlots, h]
  cases r <;> rfl

/-- The body of a node is written as its slots say, if the nodes in it can be written. -/
theorem body_eq_texts (write : Node → String)
    (h : ∀ f, d.replacement? n.id = some (.folded f) → f.IsWhole)
    (hr : ∀ m ∈ d.next n, render m = .ok (write m)) :
    d.body render n = .ok (Slot.texts write (d.bodySlots n)) := by
  rw [next] at hr
  cases hrep : d.replacement? n.id with
  | none =>
    rw [bodySlots, hrep] at hr
    rw [body, bodySlots, hrep]
    cases ht : d.isTouched n with
    | true =>
      simp only [ht, if_true, nodes_rowSlots] at hr ⊢
      exact weave_eq_texts hr
    | false => simp [Slot.texts, Slot.text]
  | some r =>
    rw [bodySlots_of_replacement? hrep] at hr ⊢
    rw [body, hrep]
    exact Replacement.write_eq_texts (fun f hf => h f (hf ▸ hrep)) hr

end Draft

/-- A text with the nodes that it was written for. -/
inductive Print where
  | copied (text : String)
  | added (text : String)
  | node (n : Node) (parts : List Print)
  | moved (part : Print) (width : Nat) (indent newline ending : String)

namespace Print

mutual

def text : Print → String
  | copied s => s
  | added s => s
  | node _ parts => texts parts
  | moved part width indent newline ending =>
    Text.reindent (text part) width indent newline ++ ending

def texts : List Print → String
  | [] => ""
  | p :: ps => text p ++ texts ps

end

mutual

/-- The prints of nodes in a print, the outer ones first. -/
def nodes : Print → List Print
  | copied _ => []
  | added _ => []
  | node n parts => node n parts :: nodesIn parts
  | moved part _ _ _ _ => nodes part

def nodesIn : List Print → List Print
  | [] => []
  | p :: ps => nodes p ++ nodesIn ps

end

end Print

namespace Slot

/-- A part with the prints of the nodes. -/
def print (write : Node → Print) : Slot → Print
  | copied s => .copied s
  | added s => .added s
  | node n => write n
  | moved n width indent newline ending => .moved (write n) width indent newline ending

variable {write : Node → Print}

theorem texts_map_print (slots : List Slot) :
    Print.texts (slots.map (print write)) = texts (fun n => (write n).text) slots := by
  induction slots with
  | nil => rfl
  | cons s ss ih =>
    rw [List.map_cons, Print.texts, texts, ih]
    cases s <;> rfl

theorem nodesIn_map_print (slots : List Slot) :
    Print.nodesIn (slots.map (print write)) = (nodes slots).flatMap fun n => (write n).nodes := by
  induction slots with
  | nil => rfl
  | cons s ss ih =>
    rw [List.map_cons, Print.nodesIn, ih]
    cases s <;> rfl

end Slot

namespace Draft

variable (d : Draft)

/-- The print of a node, with nodes inside one another at most `fuel` deep. -/
def printWithin : Nat → Node → Print
  | 0, n => .node n []
  | fuel + 1, n => .node n ((d.layout n).map (Slot.print (printWithin fuel)))

def print : Print := d.printWithin d.doc.root.size d.doc.root

theorem nodes_printWithin_succ (fuel : Nat) (n : Node) :
    (d.printWithin (fuel + 1) n).nodes =
      d.printWithin (fuel + 1) n :: (d.next n).flatMap fun m => (d.printWithin fuel m).nodes := by
  rw [printWithin, Print.nodes, Slot.nodesIn_map_print, nodes_layout]

variable {d} {n m : Node}

theorem IsLaid.mem_nodes (h : d.IsLaid) (hn : n ∈ d.doc.nodes) (hm : m ∈ d.next n) :
    m ∈ d.doc.nodes := by
  obtain ⟨c, hc, hm⟩ := (h.spreads n hn).exists_mem hm
  exact Node.mem_preorder_trans hm (Document.child_mem_nodes hn hc)

/-- A node is written as the text of its print. -/
theorem renderWithin_eq_print (h : d.IsLaid) {fuel : Nat} (hn : n ∈ d.doc.nodes)
    (hf : n.size ≤ fuel) :
    d.renderWithin fuel n = .ok (d.printWithin fuel n).text := by
  induction fuel generalizing n with
  | zero =>
    rw [Node.size_eq] at hf
    omega
  | succ fuel ih =>
    have hr : ∀ m ∈ d.next n, d.renderWithin fuel m = .ok (d.printWithin fuel m).text := by
      intro m hm
      have := (h.spreads n hn).size_lt hm
      exact ih (h.mem_nodes hn hm) (by omega)
    rw [renderWithin_succ, body_eq_texts (fun m => (d.printWithin fuel m).text) (h.whole n hn) hr,
      printWithin, Print.text, Slot.texts_map_print, layout]
    simp [Except.map, Slot.texts, Slot.text, String.append_assoc]

/-- A draft with edits is written as its print between what lies outside of the root. -/
theorem source_eq_print (h : d.IsLaid) (he : d.edits ≠ []) :
    d.source = .ok (d.doc.slice 0 d.doc.root.start ++ d.print.text ++
      d.doc.slice d.doc.root.stop (Text.byteLength d.doc.chars)) := by
  have hr := renderWithin_eq_print h d.doc.root_mem_nodes (Nat.le_refl _)
  simp [source, he, render, hr, print, bind, Except.bind, pure, Except.pure]

end Draft
end Asyncify
