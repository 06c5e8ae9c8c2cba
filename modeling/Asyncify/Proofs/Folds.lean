import Asyncify.Proofs.Arms
import Asyncify.Proofs.Depiction
import Asyncify.Proofs.Descent

/-! Drafts whose replacements are texts, texts with nodes from below, or folds of calls. All of them
can be written, and a folded call is written line by line as a `try` statement. -/
namespace Asyncify

/-- An edit at a node of the document. It puts texts around the node, or in place of it a text,
pieces with nodes from below it, or the fold of the call that it consists of. -/
inductive Document.Records (doc : Document) (e : Edit) : Prop
  | text (hn : e.node ∈ doc.nodes) (ha : e.isLiteral)
  | pieces {ps : List Piece} (hn : e.node ∈ doc.nodes) (ha : e.action = .replace (.joined ps))
      (hp : ∀ m, .node m ∈ ps → ∃ c ∈ e.node.children, m ∈ c.preorder)
  | fold {c : Place} {cb : Callback} {unit : String} (hc : c ∈ doc.places) (hk : c.kind = .call)
      (hs : c.statement? = some e.place) (hcb : Callback.of? doc c = some cb)
      (ha : e.action = .replace (.folded (doc.fold e.place c cb (.ok unit))))

def Draft.IsRecorded (d : Draft) : Prop := ∀ e ∈ d.edits, d.doc.Records e

namespace Draft

variable (d : Draft)

/-- A statement on the lines of its own that it gets in a `try` statement. -/
def movedLine (inner : String) (p : Place) : String :=
  Text.reindent (d.written p.node) (d.doc.lineIndent p.node).length inner d.doc.newline

/-- The `try` statement for a call with a callback, line by line. -/
def tryText (s callee : Place) (args : List Place) (cb : Callback) (body : Place) (unit : String) :
    String :=
  let base := d.doc.lineIndent s.node
  d.doc.newline.intercalate
    (["try \x7b", base ++ unit ++ "const " ++ cb.resultName ++ " = await " ++
      d.written callee.node ++ "(" ++
        ", ".intercalate (args.map fun a => d.written a.node) ++ ");"] ++
      (d.doc.half cb.errorName .attempt body).map (d.movedLine (base ++ unit)) ++
      [base ++ "\x7d catch (" ++ cb.errorName ++ ") \x7b"] ++
      (d.doc.half cb.errorName .recover body).map (d.movedLine (base ++ unit)) ++ [base ++ "\x7d"])

end Draft

namespace Fold

theorem linesOf_map (branch : Branch) (ms : List Moved) (line : Moved → String) :
    linesOf branch (ms.map fun m => (m.branch, line m)) =
      (ms.filter fun m => m.branch = branch).map line := by
  rw [linesOf, List.filter_map, List.map_map]
  rfl

/-- A whole fold is written line by line: the awaited call, the statements of the attempt, those of
the recovery. -/
theorem write_eq_lines {f : Fold} {render : Node → Except Fault String} {write : Node → String}
    {inner newline : String} {callee : Node} (hw : f.IsWhole) (hi : f.inner = .ok inner)
    (hc : f.callee = .ok callee)
    (hr : ∀ n ∈ Slot.nodes (f.slots newline), render n = .ok (write n)) :
    f.write render newline = .ok (newline.intercalate
      (["try \x7b", inner ++ "const " ++ f.resultName ++ " = await " ++ write callee ++ "(" ++
          ", ".intercalate (f.args.map write) ++ ");"] ++
        (f.body.filter fun m => m.branch = .attempt).map (line write inner newline) ++
        [f.base ++ "\x7d catch (" ++ f.errorName ++ ") \x7b"] ++
        (f.body.filter fun m => m.branch = .recover).map (line write inner newline) ++
        [f.base ++ "\x7d"])) := by
  rw [write_eq_texts hw hr, slots, hi, hc]
  simp only [Slot.texts_append, texts_armSlots hw.body, linesOf_map, Slot.texts_listed]
  simp only [List.cons_append, List.nil_append, Text.intercalate_cons, Text.led, Text.led_append,
    Slot.texts, Slot.text, String.append_assoc, String.append_empty]

end Fold

namespace Place

theorem mem_preorder_of_callArguments {p a : Place} (h : a ∈ p.callArguments) :
    a.node ∈ p.node.preorder := by
  obtain ⟨args, hargs, ha⟩ := exists_of_mem_callArguments h
  exact Node.mem_preorder_of_child (node_mem_of_mem_children ha).1 (mem_preorder_of_child? hargs)

end Place

namespace Document

variable {doc : Document} {c s body : Place} {cb : Callback} {e : Edit} {m : Moved} {n : Node}
  {unit : String}

theorem Records.mem_nodes (h : doc.Records e) : e.node ∈ doc.nodes := by
  cases h with
  | text hn => exact hn
  | pieces hn => exact hn
  | fold hc _ hs =>
    obtain ⟨hpar, -⟩ := Option.filter_eq_some_iff.1 hs
    exact node_mem_nodes (mem_children_of_parent? hc hpar).1

/-- Every statement that is moved is there. -/
theorem IsComplete.exists_node_of_mem_callbackBody (hg : doc.IsComplete) {errorName : String}
    (hb : body ∈ doc.places) (hm : m ∈ doc.callbackBody errorName (some body)) :
    ∃ n, m.node = .ok n := by
  by_cases hk : body.kind = .block
  · have hin : m ∈ (doc.callbackBody errorName (some body)).filter fun x => x.branch = m.branch :=
      List.mem_filter.2 ⟨hm, by simp⟩
    rw [hg.filter_callbackBody hb hk] at hin
    obtain ⟨p, -, hpm⟩ := List.mem_map.1 hin
    exact ⟨p.node, by rw [← hpm]; rfl⟩
  · simp only [callbackBody, hk, if_false, List.mem_singleton] at hm
    exact ⟨body.node, by rw [hm]; rfl⟩

/-- A folded call is written from nodes below the call. -/
theorem mem_preorder_of_fold {indent : Except Fault String} (hcb : Callback.of? doc c = some cb)
    (hn : n ∈ (doc.fold s c cb indent).nodes) : n ∈ c.node.preorder := by
  obtain ⟨hlast, -⟩ := Callback.of?_eq_some hcb
  have hfun := Place.mem_preorder_of_callArguments (List.mem_of_getLast? hlast)
  simp only [Fold.nodes, fold, List.mem_append, Option.mem_toList, Fold.nodesOf,
    List.mem_filterMap] at hn
  obtain (hcallee | hargs) | ⟨m, hm, hn⟩ := hn
  · cases hf : c.child? .function with
    | none =>
      rw [hf] at hcallee
      cases hcallee
    | some callee =>
      rw [hf] at hcallee
      obtain rfl : callee.node = n := Option.some.inj hcallee
      exact Place.mem_preorder_of_child? hf
  · obtain ⟨a, ha, rfl⟩ := List.mem_map.1 hargs
    exact Place.mem_preorder_of_callArguments (List.dropLast_subset _ ha)
  · have hbelow : m.IsBelow c.node :=
      isBelow_callbackBody
        (fun q hq => Node.mem_preorder_trans (Place.mem_preorder_of_child? hq) hfun) hm
    cases hk : m.node with
    | error e =>
      rw [hk] at hn
      cases hn
    | ok k =>
      rw [hk] at hn
      obtain rfl : k = n := Option.some.inj hn
      exact hbelow.node k hk

/-- The callback is an argument of the call, and has a body. -/
theorem IsComplete.exists_body (hg : doc.IsComplete) (hc : c ∈ doc.places)
    (hcb : Callback.of? doc c = some cb) :
    ∃ body, cb.function.child? .body = some body ∧ body ∈ doc.places ∧
      body.node ∈ c.node.preorder := by
  obtain ⟨hlast, hlit, hlen, -⟩ := Callback.of?_eq_some hcb
  have hmem := List.mem_of_getLast? hlast
  have hfun := Place.callArguments_mem_places hc hmem
  have hparams : cb.function.functionParameters ≠ [] := by
    intro he
    simp [he] at hlen
  obtain ⟨body, hbody⟩ := Option.isSome_iff_exists.1 (hg.bodies _ hfun hlit hparams)
  refine ⟨body, hbody, child_mem_places hfun (Place.mem_children_of_child? hbody), ?_⟩
  exact Node.mem_preorder_trans (Place.mem_preorder_of_child? hbody)
    (Place.mem_preorder_of_callArguments hmem)

theorem IsComplete.fold_isWhole (hg : doc.IsComplete) (hc : c ∈ doc.places) (hk : c.kind = .call)
    (hcb : Callback.of? doc c = some cb) : (doc.fold s c cb (.ok unit)).IsWhole := by
  obtain ⟨callee, hcallee⟩ := Option.isSome_iff_exists.1 (hg.callees c hc hk)
  obtain ⟨body, hbody, hb, -⟩ := hg.exists_body hc hcb
  refine ⟨⟨_, rfl⟩, ⟨callee.node, by simp [fold, hcallee]⟩, fun m hm => ?_⟩
  rw [fold, hbody] at hm
  exact hg.exists_node_of_mem_callbackBody hb hm

theorem IsComplete.mem_fold_slots (hg : doc.IsComplete) (hc : c ∈ doc.places) (hk : c.kind = .call)
    (hcb : Callback.of? doc c = some cb) {newline : String}
    (hn : n ∈ Slot.nodes ((doc.fold s c cb (.ok unit)).slots newline)) : n ∈ c.node.preorder := by
  obtain ⟨callee, hcallee⟩ := Option.isSome_iff_exists.1 (hg.callees c hc hk)
  have hfold : (doc.fold s c cb (.ok unit)).callee = .ok callee.node := by simp [fold, hcallee]
  have hmem : n ∈ (doc.fold s c cb (.ok unit)).nodes := by
    simpa [Fold.nodes, hfold, Except.toOption] using (Fold.nodes_slots rfl hfold).mem_iff.1 hn
  exact mem_preorder_of_fold hcb hmem

/-- A recorded edit draws on nodes below its own. -/
theorem Records.draws (h : doc.Records e) (hg : doc.IsComplete) : doc.Draws e := by
  have hmem := h.mem_nodes
  cases h with
  | text hn hl => exact .of_isLiteral hmem hl
  | pieces hn ha hp => exact .of_joined hmem ha hp
  | @fold c cb unit hc hk hs hcb ha' =>
    refine ⟨hmem, fun f ha => ?_, fun r ha m hm => ?_⟩
    · rw [ha'] at ha
      injection ha with ha
      injection ha with ha
      rw [← ha]
      exact hg.fold_isWhole hc hk hcb
    · rw [ha'] at ha
      injection ha with ha
      subst ha
      obtain ⟨hpar, -⟩ := Option.filter_eq_some_iff.1 hs
      have hchild := (mem_children_of_parent? hc hpar).2
      exact ⟨c.node, (Place.node_mem_of_mem_children hchild).1, hg.mem_fold_slots hc hk hcb hm⟩

end Document

namespace Draft

variable {d : Draft} {n : Node}

theorem IsRecorded.isPlaced (h : d.IsRecorded) : d.IsPlaced := fun e he => (h e he).mem_nodes

/-- A draft of recorded edits can be written: each of its replacements is written from nodes below
the one that it replaces. -/
theorem IsRecorded.isGrounded (h : d.IsRecorded) (hw : d.doc.WellFormed) (hg : d.doc.IsComplete) :
    d.IsGrounded :=
  .of_draws hw fun e he => (h e he).draws hg

/-- A call with a callback is folded into its `try` statement. -/
theorem IsGrounded.write_fold (h : d.IsGrounded) (hg : d.doc.IsComplete) {c s callee body : Place}
    {args : List Place} {cb : Callback} (unit : String) (hc : c ∈ d.doc.places)
    (hk : c.kind = .call)
    (hcb : Callback.of? d.doc c = some cb) (hcallee : c.child? .function = some callee)
    (hargs : c.callArguments = args ++ [cb.function]) (hb : cb.function.child? .body = some body)
    (hbk : body.kind = .block) :
    (d.doc.fold s c cb (.ok unit)).write d.render d.doc.newline =
      .ok (d.tryText s callee args cb body unit) := by
  have hbody : body ∈ d.doc.places := by
    obtain ⟨body', hb', hmem, -⟩ := hg.exists_body hc hcb
    rwa [Option.some.inj (hb.symm.trans hb')]
  have hfold : (d.doc.fold s c cb (.ok unit)).callee = .ok callee.node := by
    simp [Document.fold, hcallee]
  have hline (inner : String) (branch : Branch) (p : Place) :
      Fold.line d.written inner d.doc.newline (d.doc.moved branch p) = d.movedLine inner p := by
    simp [Fold.line, Document.moved, movedLine]
  have hhalf (inner : String) (branch : Branch) :
      (((d.doc.fold s c cb (.ok unit)).body.filter fun m => m.branch = branch).map
        (Fold.line d.written inner d.doc.newline)) =
      (d.doc.half cb.errorName branch body).map (d.movedLine inner) := by
    simp only [Document.fold, hb]
    rw [hg.filter_callbackBody hbody hbk, List.map_map]
    exact List.map_congr_left fun p _ => hline inner branch p
  have hr : ∀ n ∈ Slot.nodes ((d.doc.fold s c cb (.ok unit)).slots d.doc.newline),
      d.render n = .ok (d.written n) := by
    intro n hn
    exact h.render_eq (Node.mem_preorder_trans (hg.mem_fold_slots hc hk hcb hn)
      (Document.node_mem_nodes hc))
  rw [Fold.write_eq_lines (hg.fold_isWhole hc hk hcb) rfl hfold hr, hhalf, hhalf]
  simp [Document.fold, tryText, hargs, Function.comp_def]

end Draft

/-- Folding loses, doubles and reorders nothing. A call that is a statement, with an error-first
callback, is replaced by a `try` statement that awaits it with its other arguments; the statements
of the callback follow, each with all its edits, in the two halves that they belong to. No node
belongs to two of them, and each half keeps the order of the source. -/
theorem Draft.fold_keeps_statements {d : Draft} {c s body : Place} {cb : Callback}
    (hw : d.doc.WellFormed) (hg : d.doc.IsComplete) (hd : d.IsRecorded) (hc : c ∈ d.doc.places)
    (hk : c.kind = .call) (hs : c.statement? = some s) (hcb : Callback.of? d.doc c = some cb)
    (hb : cb.function.child? .body = some body) (hbk : body.kind = .block) (unit : String) :
    (∀ n ∈ d.doc.nodes, d.render n = .ok (d.written n)) ∧
      (∃ callee args e r, c.child? .function = some callee ∧
        c.callArguments = args ++ [cb.function] ∧
        (d.doc.foldEdit c cb (.ok unit)).value = some e ∧ e.place = s ∧ e.action = .replace r ∧
        r.write d.render d.doc.newline = .ok (d.tryText s callee args cb body unit) ∧
        (d.replacement? s.id = some r →
          d.written s.node = d.before s.id ++ d.tryText s callee args cb body unit ++
            d.after s.id)) ∧
      (((d.doc.half cb.errorName .attempt body ++ d.doc.half cb.errorName .recover body).map
        Place.node).flatMap Node.preorder).Nodup ∧
      ∀ branch, (d.doc.half cb.errorName branch body).Pairwise Place.Precedes := by
  have hground := hd.isGrounded hw hg
  obtain ⟨callee, hcallee⟩ := Option.isSome_iff_exists.1 (hg.callees c hc hk)
  obtain ⟨hlast, -⟩ := Callback.of?_eq_some hcb
  obtain ⟨args, hargs⟩ := List.getLast?_eq_some_iff.1 hlast
  obtain ⟨body', hb', hbody, -⟩ := hg.exists_body hc hcb
  obtain rfl := Option.some.inj (hb.symm.trans hb')
  obtain ⟨hpar, -⟩ := Option.filter_eq_some_iff.1 hs
  have hsn : s.node ∈ d.doc.nodes :=
    Document.node_mem_nodes (Document.mem_children_of_parent? hc hpar).1
  have hwrite := hground.write_fold (s := s) hg unit hc hk hcb hcallee hargs hb hbk
  refine ⟨fun n hn => hground.render_eq hn, ?_, ?_, fun branch => hw.pairwise_half hg hbody branch⟩
  · refine ⟨callee, args, ⟨s, .replace (.folded (d.doc.fold s c cb (.ok unit))), _⟩, _,
      hcallee, hargs, by rw [Document.foldEdit, hs]; rfl, rfl, rfl, hwrite, ?_⟩
    intro hr
    have hinside := (hground.write_eq_inside hsn hr).symm.trans hwrite
    rw [hground.written_eq hsn, Except.ok.inj hinside]
    rfl
  · have hall : d.doc.nodes.Nodup := hw.ids.of_map _
    obtain ⟨l, hl, hsub⟩ := hg.spreads_halves hbody cb.errorName
    rw [List.flatMap_singleton] at hsub
    exact hl.nodup_iff.1
      ((hall.sublist (Node.preorder_sublist (Document.node_mem_nodes hbody))).sublist hsub)

namespace Checks

open Sketch

def handler : Sketch :=
  functionWith [] ["err", "res"] (block [.body] "\n  " "\n"
    [leaf "comment" [] "// note", gap "\n  ",
      check [] "err"
        [block [.consequence] " " " " [statement [] (call [] "a" [])], gap " ",
          otherwise (statement [] (call [] "b" []))],
      gap "\n  ", statement [] (call [] "c" [leaf "identifier" [] "res"]), gap "\n  ",
      check [] "err" [leaving [.consequence]]])

/-- A call whose callback has a comment, a statement, and two tests of the error, one of them with
an `else`. -/
def doc : Document :=
  program [statement [] (call [] "load" [leaf "number" [] "1", handler]), gap "\n"]

def folded : Place := doc.placeAt 2

def callback : Callback := ⟨doc.placeAt 8, "err", "res"⟩

def body : Place := doc.placeAt 16

/-- One of the statements is awaited before the call is folded. -/
def draft : Draft where
  doc
  edits := [⟨doc.placeAt 45, .insert "await ", ""⟩,
    ⟨doc.placeAt 1, .replace (.folded (doc.fold (doc.placeAt 1) folded callback (.ok "  "))), ""⟩]

theorem wellFormed : doc.WellFormed := wellFormed_program _

theorem isComplete : doc.IsComplete := by decide +kernel

/-- Where the call and its callback stand. -/
theorem findings :
    folded ∈ doc.places ∧ folded.kind = .call ∧ folded.statement? = some (doc.placeAt 1) ∧
      Callback.of? doc folded = some callback ∧ callback.function.child? .body = some body ∧
      body.kind = .block ∧ (doc.placeAt 45).node ∈ doc.nodes := by
  decide +kernel

/-- What is called, the argument that stays, and the `try` statement that the draft has for them. -/
theorem text :
    folded.child? .function = some (doc.placeAt 3) ∧
      folded.callArguments = [doc.placeAt 6] ++ [callback.function] ∧
      draft.before (doc.placeAt 1).id = "" ∧ draft.after (doc.placeAt 1).id = "" ∧
      draft.tryText (doc.placeAt 1) (doc.placeAt 3) [doc.placeAt 6] callback body "  " =
        "try \x7b\n  const res = await load(1);\n  // note\n  b();\n  await c(res);\n" ++
          "\x7d catch (err) \x7b\n  a();\n  return;\n\x7d" := by
  decide +kernel

theorem replacement? : draft.replacement? (doc.placeAt 1).id =
    some (.folded (doc.fold (doc.placeAt 1) folded callback (.ok "  "))) := by
  have hid : (doc.placeAt 45).node.id = 45 ∧ (doc.placeAt 1).node.id = 1 := by decide +kernel
  simp [Draft.replacement?, Draft.editsOf, draft, Edit.node, Place.id, hid, Edit.replacement?]

theorem isRecorded : draft.IsRecorded := by
  obtain ⟨hc, hk, hs, hcb, -, -, hn⟩ := findings
  intro e he
  simp only [draft, List.mem_cons, List.not_mem_nil, or_false] at he
  obtain rfl | rfl := he
  · exact .text hn rfl
  · exact .fold hc hk hs hcb rfl

end Checks

/-- The statement is written as a `try` statement, in which the awaited call still has its
`await`. -/
theorem Draft.fold_keeps_statements_checks :
    Checks.doc.WellFormed ∧ Checks.doc.IsComplete ∧ Checks.draft.IsRecorded ∧
      Checks.folded ∈ Checks.doc.places ∧ Checks.folded.kind = .call ∧
      Checks.folded.statement? = some (Checks.doc.placeAt 1) ∧
      Callback.of? Checks.doc Checks.folded = some Checks.callback ∧
      Checks.callback.function.child? .body = some Checks.body ∧ Checks.body.kind = .block ∧
      Checks.draft.written (Checks.doc.placeAt 1).node =
        "try \x7b\n  const res = await load(1);\n  // note\n  b();\n  await c(res);\n" ++
          "\x7d catch (err) \x7b\n  a();\n  return;\n\x7d" := by
  obtain ⟨hc, hk, hs, hcb, hb, hbk, -⟩ := Checks.findings
  obtain ⟨hcallee, hargs, hbefore, hafter, htext⟩ := Checks.text
  obtain ⟨-, ⟨callee, args, e, r, hcallee', hargs', hedit, -, ha, -, hwritten⟩, -⟩ :=
    fold_keeps_statements Checks.wellFormed Checks.isComplete Checks.isRecorded hc hk hs hcb hb
      hbk "  "
  refine ⟨Checks.wellFormed, Checks.isComplete, Checks.isRecorded, hc, hk, hs, hcb, hb, hbk, ?_⟩
  obtain rfl := Option.some.inj (hcallee.symm.trans hcallee')
  obtain rfl := List.append_cancel_right (hargs.symm.trans hargs')
  rw [Document.foldEdit, hs] at hedit
  obtain rfl := Option.some.inj hedit
  injection ha with ha
  rw [hwritten (ha ▸ Checks.replacement?), hbefore, hafter]
  rw [show Checks.draft.tryText _ _ _ _ _ _ = _ from htext]
  rfl

end Asyncify
