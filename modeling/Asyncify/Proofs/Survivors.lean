import Asyncify.Proofs.Descent
import Asyncify.Proofs.Runs
import Asyncify.Proofs.Sketch

/-! Which edits show in the text: those at nodes that no replacement covers. The report names these
and no others, and they alone write the same text. -/
namespace Asyncify

namespace Edit

/-- The edit replaces a node that the given one is below. -/
def covers (e : Edit) (n : Node) : Bool :=
  e.replacement?.isSome && e.node.children.any fun c => c.preorder.any fun m => m.id = n.id

/-- The edits of a run at nodes that no edit of the run covers. -/
def uncovered (es : List Edit) : List Edit := es.filter fun e => !es.any fun x => x.covers e.node

variable {doc : Document} {e x y : Edit} {es : List Edit} {n : Node}

theorem covers_iff (hw : doc.WellFormed) (he : e.node ∈ doc.nodes) (hn : n ∈ doc.nodes) :
    e.covers n ↔ e.replacement?.isSome ∧ ∃ c ∈ e.node.children, n ∈ c.preorder := by
  simp only [covers, Bool.and_eq_true, List.any_eq_true, decide_eq_true_eq]
  refine and_congr_right fun _ => exists_congr fun c => and_congr_right fun hc => ?_
  refine ⟨?_, fun hin => ⟨n, hin, rfl⟩⟩
  rintro ⟨m, hm, hid⟩
  have hmn : m ∈ doc.nodes := Node.mem_preorder_trans hm (Document.child_mem_nodes he hc)
  exact hw.node_eq_of_id hmn hn hid ▸ hm

theorem covers_trans (hw : doc.WellFormed) (hx : x.node ∈ doc.nodes) (hy : y.node ∈ doc.nodes)
    (hn : n ∈ doc.nodes) (hxy : x.covers y.node) (hyn : y.covers n) : x.covers n := by
  obtain ⟨hr, c, hc, hyc⟩ := (covers_iff hw hx hy).1 hxy
  obtain ⟨-, b, hb, hnb⟩ := (covers_iff hw hy hn).1 hyn
  exact (covers_iff hw hx hn).2
    ⟨hr, c, hc, Node.mem_preorder_trans (Node.mem_preorder_child hb hnb) hyc⟩

/-- Among the edits of a run, an edit that they cover does not matter. -/
theorem uncovered_insert {xs ys : List Edit} (hw : doc.WellFormed)
    (hes : ∀ x ∈ xs ++ ys, x.node ∈ doc.nodes) (he : e.node ∈ doc.nodes)
    (hc : (xs ++ ys).any fun x => x.covers e.node) :
    uncovered (xs ++ e :: ys) = uncovered (xs ++ ys) := by
  obtain ⟨x, hx, hxe⟩ := List.any_eq_true.1 hc
  have hany : ∀ n ∈ doc.nodes,
      ((xs ++ e :: ys).any fun x => x.covers n) = (xs ++ ys).any fun x => x.covers n := by
    intro n hn
    rw [List.any_append, List.any_append, List.any_cons]
    cases hen : e.covers n with
    | false => rfl
    | true =>
      have hxn := covers_trans hw (hes x hx) he hn hxe hen
      have : ((xs ++ ys).any fun x => x.covers n) = true := List.any_eq_true.2 ⟨x, hx, hxn⟩
      rw [List.any_append] at this
      simp [this]
  have hkeep : ∀ zs : List Edit, (∀ z ∈ zs, z.node ∈ doc.nodes) →
      (zs.filter fun z => !(xs ++ e :: ys).any fun x => x.covers z.node) =
        zs.filter fun z => !(xs ++ ys).any fun x => x.covers z.node :=
    fun zs hzs => List.filter_congr fun z hz => by rw [hany z.node (hzs z hz)]
  rw [uncovered, uncovered, List.filter_append, List.filter_append, List.filter_cons_of_neg,
    hkeep xs fun z hz => hes z (List.mem_append_left _ hz),
    hkeep ys fun z hz => hes z (List.mem_append_right _ hz)]
  rw [hany e.node he, hc]
  simp

end Edit

namespace Node

variable {marks marks' : Node → Mark}

theorem spliceRow_congr {cs : List Node} (h : ∀ c ∈ cs, c.splice marks = c.splice marks')
    (cursor stop : Nat) : spliceRow marks cursor cs stop = spliceRow marks' cursor cs stop := by
  induction cs generalizing cursor with
  | nil => rfl
  | cons c cs ih =>
    rw [spliceRow, spliceRow, h c List.mem_cons_self,
      ih fun b hb => h b (List.mem_cons_of_mem _ hb)]

end Node

namespace Document

/-- What the report says of an edit by fixed text. -/
inductive Reports (doc : Document) : Edit → Change → Prop
  | replaced (p : Place) (v : Value) (description : String) :
    doc.Reports ⟨p, .replace (.literal v), description⟩
      ⟨.modify, description, doc.position p.node, some (doc.textOf p.node), v⟩
  | inserted (p : Place) (text description : String) :
    doc.Reports ⟨p, .insert text, description⟩
      ⟨.add, description, doc.position p.node, none, .text (Text.strip text)⟩
  | wrapped (p : Place) (before after description : String) :
    doc.Reports ⟨p, .wrap before after, description⟩
      ⟨.add, description, doc.position p.node, none, .text (Text.strip before ++ Text.strip after)⟩

variable {doc : Document} {es : List Edit} {p : Place}

theorem ofEdits_uncovered {n : Node} (hn : (es.any fun x => x.covers n) = false) :
    Mark.ofEdits (Edit.uncovered es) n = Mark.ofEdits es n := by
  have hat : ((Edit.uncovered es).filter fun e => e.node.id = n.id) =
      es.filter fun e => e.node.id = n.id := by
    rw [Edit.uncovered, List.filter_filter]
    refine List.filter_congr fun e _ => ?_
    by_cases hid : e.node.id = n.id
    · simp only [Edit.covers, hid] at hn ⊢
      simp [hn]
    · simp [hid]
  rw [Mark.ofEdits, Mark.ofEdits, hat]

/-- A node that nothing covers is written with the uncovered edits as it is with all: wherever one
more is recorded below it, a replacement on the way down takes its place. -/
theorem WellFormed.splice_uncovered (hw : doc.WellFormed) (hl : ∀ e ∈ es, e.isLiteral)
    (hes : ∀ e ∈ es, e.node ∈ doc.nodes) (hp : p ∈ doc.places)
    (hn : (es.any fun x => x.covers p.node) = false) :
    p.node.splice (Mark.ofEdits (Edit.uncovered es)) = p.node.splice (Mark.ofEdits es) := by
  induction p using Place.induction with
  | h p ih =>
    rw [Node.splice_eq, Node.splice_eq, ofEdits_uncovered hn]
    cases hnew : (Mark.ofEdits es p.node).new with
    | some text => rfl
    | none =>
      have hrow : ∀ c ∈ p.node.children,
          c.splice (Mark.ofEdits (Edit.uncovered es)) = c.splice (Mark.ofEdits es) := by
        intro c hc
        have hq : p.below c ∈ doc.places := child_mem_places hp (List.mem_map_of_mem hc)
        refine ih c hc hq (List.any_eq_false.2 fun e he hcov => ?_)
        obtain ⟨hr, hbelow⟩ := (Edit.covers_iff hw (hes e he) (node_mem_nodes hq)).1 hcov
        have habove : e.node ∈ p.node :: p.above := (hw.mem_above_iff hq (hes e he)).2 hbelow
        obtain hself | habove := List.mem_cons.1 habove
        · have hsome := (Mark.isSome_new_ofEdits hl p.node).2 ⟨e, he, congrArg Node.id hself, hr⟩
          rw [hnew] at hsome
          cases hsome
        · have hpcov : e.covers p.node :=
            (Edit.covers_iff hw (hes e he) (node_mem_nodes hp)).2
              ⟨hr, (hw.mem_above_iff hp (hes e he)).1 habove⟩
          exact List.any_eq_false.1 hn e he hpcov
      simp only [Node.spliceRow_congr hrow]

end Document

namespace Draft

variable {d : Draft} {doc : Document} {es : List Edit} {p : Place} {e : Edit}

theorem isDetached_iff (hw : d.doc.WellFormed) (hes : ∀ e ∈ d.edits, e.node ∈ d.doc.nodes)
    (hp : p ∈ d.doc.places) : d.isDetached p ↔ d.edits.any fun x => x.covers p.node := by
  rw [isDetached, List.any_eq_true, List.any_eq_true]
  constructor
  · rintro ⟨n, hn, hr⟩
    obtain ⟨e, he, hid, hsome⟩ := (d.isReplaced_iff n).1 hr
    have hnodes := (Document.exists_child_of_mem_above hp hn).1
    obtain rfl := hw.node_eq_of_id (hes e he) hnodes hid
    exact ⟨e, he, (Edit.covers_iff hw hnodes (Document.node_mem_nodes hp)).2
      ⟨hsome, (hw.mem_above_iff hp hnodes).1 hn⟩⟩
  · rintro ⟨e, he, hcov⟩
    obtain ⟨hsome, hbelow⟩ := (Edit.covers_iff hw (hes e he) (Document.node_mem_nodes hp)).1 hcov
    exact ⟨e.node, (hw.mem_above_iff hp (hes e he)).2 hbelow,
      (d.isReplaced_iff _).2 ⟨e, he, rfl, hsome⟩⟩

theorem surviving_eq_uncovered (hw : d.doc.WellFormed)
    (hes : ∀ e ∈ d.edits, e.place ∈ d.doc.places) :
    d.surviving = Edit.uncovered d.edits := by
  refine List.filter_congr fun e he => congrArg _ (Bool.eq_iff_iff.2 ?_)
  exact isDetached_iff hw (fun x hx => Document.node_mem_nodes (hes x hx)) (hes e he)

/-- The report of an edit by fixed text is there, whatever else is recorded. -/
theorem exists_change (h : e.isLiteral) : ∃ c, ∀ es, change { doc, edits := es } e = .ok c := by
  cases ha : e.action with
  | replace r =>
    obtain ⟨v, rfl⟩ := Edit.eq_literal h ha
    exact ⟨_, fun es => by simp only [change, newCode, ha]; rfl⟩
  | insert text => exact ⟨_, fun es => by simp only [change, newCode, ha]; rfl⟩
  | wrap before after => exact ⟨_, fun es => by simp only [change, newCode, ha]; rfl⟩

theorem reports_of_change {c : Change} (h : e.isLiteral) (hc : d.change e = .ok c) :
    d.doc.Reports e c := by
  obtain ⟨p, action, description⟩ := e
  cases action with
  | replace r =>
    obtain ⟨v, rfl⟩ := Edit.eq_literal h rfl
    cases hc
    exact .replaced p v description
  | insert text =>
    cases hc
    exact .inserted p text description
  | wrap before after =>
    cases hc
    exact .wrapped p before after description

/-- The report of edits by fixed text is one of the uncovered edits. -/
theorem changes_eq_uncovered (hw : doc.WellFormed) (hl : ∀ e ∈ es, e.isLiteral)
    (hes : ∀ e ∈ es, e.place ∈ doc.places) :
    ∃ cs, changes { doc, edits := es } = .ok cs ∧
      (Edit.uncovered es).map (change { doc }) = cs.map .ok := by
  have hchange : ∀ e ∈ Edit.uncovered es, ∃ c, ∀ es, change { doc, edits := es } e = .ok c :=
    fun e he => exists_change (hl e (List.mem_of_mem_filter he))
  obtain ⟨cs, hcs⟩ := (Except.exists_mapM_iff (f := change { doc, edits := es })).2 fun e he =>
    (hchange e he).imp fun c hc => hc es
  refine ⟨cs, ?_, ?_⟩
  · rw [changes, surviving_eq_uncovered hw hes, hcs]
  · rw [← Except.mapM_eq_ok_iff.1 hcs]
    refine List.map_congr_left fun e he => ?_
    obtain ⟨c, hc⟩ := hchange e he
    rw [hc, hc]

theorem source_uncovered (hw : doc.WellFormed) (hl : ∀ e ∈ es, e.isLiteral)
    (hes : ∀ e ∈ es, e.node ∈ doc.nodes) :
    source { doc, edits := Edit.uncovered es } = source { doc, edits := es } := by
  have hsub : ∀ e ∈ Edit.uncovered es, e ∈ es := fun e he => List.mem_of_mem_filter he
  have hroot : (es.any fun x => x.covers doc.root) = false := by
    refine List.any_eq_false.2 fun e he hcov => ?_
    obtain ⟨-, hbelow⟩ := (Edit.covers_iff hw (hes e he) doc.root_mem_nodes).1 hcov
    cases (hw.mem_above_iff doc.root_mem_places (hes e he)).2 hbelow
  have hsplice := hw.splice_uncovered hl hes doc.root_mem_places hroot
  rw [source_eq_splice (d := { doc, edits := es }) hw hl hes,
    source_eq_splice (d := { doc, edits := Edit.uncovered es }) hw (fun e he => hl e (hsub e he))
      fun e he => hes e (hsub e he)]
  simp only [Document.splice]
  rw [show doc.root.splice (Mark.ofEdits (Edit.uncovered es)) = doc.root.splice (Mark.ofEdits es)
    from hsplice]

/-- Around a detached place some replacement is outermost, and survives. -/
theorem exists_surviving (hn : (d.doc.nodes.map Node.id).Nodup)
    (hes : ∀ e ∈ d.edits, e.place ∈ d.doc.places) (hp : p ∈ d.doc.places) (h : d.isDetached p) :
    ∃ e, e ∈ d.surviving := by
  revert h
  refine Document.places_induction (P := fun p => d.isDetached p → ∃ e, e ∈ d.surviving) ?_ ?_ hp
  · intro h
    cases h
  · intro q c hq ih hc hdetached
    by_cases hdq : d.isDetached q
    · exact ih hdq
    · rw [isDetached, (Place.node_mem_of_mem_children hc).2, List.any_cons, Bool.or_eq_true]
        at hdetached
      obtain ⟨e, he, hid, -⟩ := (d.isReplaced_iff _).1 (hdetached.resolve_right hdq)
      obtain rfl : e.place = q := Document.place_eq_of_nodup hn (hes e he) hq hid
      exact ⟨e, List.mem_filter.2 ⟨he, by simpa using hdq⟩⟩

/-- However edits are nested, one of them shows. -/
theorem surviving_eq_nil_iff (hn : (d.doc.nodes.map Node.id).Nodup)
    (hes : ∀ e ∈ d.edits, e.place ∈ d.doc.places) : d.surviving = [] ↔ d.edits = [] := by
  refine ⟨fun hnil => List.eq_nil_iff_forall_not_mem.2 fun e he => ?_,
    fun hnil => by simp [surviving, hnil]⟩
  cases hdet : d.isDetached e.place with
  | true =>
    obtain ⟨x, hx⟩ := exists_surviving hn hes (hes e he) hdet
    simp [hnil] at hx
  | false =>
    have hx : e ∈ d.surviving := List.mem_filter.2 ⟨he, by simp [hdet]⟩
    simp [hnil] at hx

theorem changes_eq_nil_iff (hn : (d.doc.nodes.map Node.id).Nodup)
    (hes : ∀ e ∈ d.edits, e.place ∈ d.doc.places) {cs : List Change} (h : d.changes = .ok cs) :
    cs = [] ↔ d.edits = [] := by
  have hmap := Except.mapM_eq_ok_iff.1 h
  rw [← surviving_eq_nil_iff hn hes]
  constructor
  · rintro rfl
    exact List.map_eq_nil_iff.1 hmap
  · intro hnil
    rw [hnil] at hmap
    exact List.map_eq_nil_iff.1 hmap.symm

/-- Edits that draw on nodes below their own can all be reported. -/
theorem exists_changes (hw : d.doc.WellFormed) (h : ∀ e ∈ d.edits, d.doc.Draws e) :
    ∃ cs, d.changes = .ok cs := by
  have hg : d.IsGrounded := .of_draws hw h
  have hcode : ∀ e ∈ d.surviving, ∃ code, d.newCode e = .ok code := by
    intro e he
    have hdraws := h e (List.mem_of_mem_filter he)
    have hwrite : ∀ r, e.action = .replace r →
        ∃ text, r.write d.render d.doc.newline = .ok text := by
      intro r ha
      refine ⟨Slot.texts d.written (r.slots d.doc.newline),
        Replacement.write_eq_texts (fun f hf => hdraws.whole f (hf ▸ ha)) fun m hm => ?_⟩
      obtain ⟨c, hc, hmc⟩ := hdraws.below r ha m hm
      exact hg.render_eq (Node.mem_preorder_trans hmc (Document.child_mem_nodes hdraws.node hc))
    fun_cases newCode d e with
    | case1 v => exact ⟨v, rfl⟩
    | case2 r _ ha =>
      obtain ⟨text, ht⟩ := hwrite r ha
      exact ⟨.text text, by rw [ht]; rfl⟩
    | case3 text => exact ⟨_, rfl⟩
    | case4 before after => exact ⟨_, rfl⟩
  refine Except.exists_mapM_iff.2 fun e he => ?_
  obtain ⟨code, hc⟩ := hcode e he
  exact ⟨_, by rw [change, hc]; rfl⟩

/-- The report of a run of edits by fixed text has a record for each edit that nothing covers, in
their order: its kind, its description, where its node starts, the text of a node it replaces and
what it writes. These edits alone write the same text, and no edit at a covered node changes the
text or the report, whenever it is recorded. -/
theorem changes_of_literal_edits (hw : doc.WellFormed) (hl : ∀ e ∈ es, e.isLiteral)
    (hes : ∀ e ∈ es, e.place ∈ doc.places) :
    (∃ cs, (es.foldl record { doc }).changes = .ok cs ∧
        List.Forall₂ doc.Reports (Edit.uncovered es) cs) ∧
      (∃ text, (es.foldl record { doc }).source = .ok text ∧
        ((Edit.uncovered es).foldl record { doc }).source = .ok text) ∧
      ∀ xs ys e, es = xs ++ ys → e.isLiteral → e.place ∈ doc.places →
        (es.any fun x => x.covers e.node) →
        ((xs ++ e :: ys).foldl record { doc }).source = (es.foldl record { doc }).source ∧
          ((xs ++ e :: ys).foldl record { doc }).changes = (es.foldl record { doc }).changes := by
  have hnodes : ∀ e ∈ es, e.node ∈ doc.nodes := fun e he => Document.node_mem_nodes (hes e he)
  simp only [foldl_record_fresh]
  obtain ⟨cs, hcs, hmap⟩ := changes_eq_uncovered hw hl hes
  have hsource := source_eq_splice (d := { doc, edits := es }) hw hl hnodes
  have hreports : List.Forall₂ doc.Reports (Edit.uncovered es) cs :=
    Except.forall₂_of_mapM (Except.mapM_eq_ok_iff.2 hmap) fun e he c hc =>
      reports_of_change (hl e (List.mem_of_mem_filter he)) hc
  refine ⟨⟨cs, hcs, hreports⟩, ⟨_, hsource, (source_uncovered hw hl hnodes).trans hsource⟩, ?_⟩
  rintro xs ys e rfl hle hpe hcov
  have hmore {P : Edit → Prop} (h : ∀ x ∈ xs ++ ys, P x) (he : P e) : ∀ x ∈ xs ++ e :: ys, P x := by
    intro x hx
    obtain hx | rfl | hx := by simpa using hx
    · exact h x (List.mem_append_left _ hx)
    · exact he
    · exact h x (List.mem_append_right _ hx)
  have hsame := Edit.uncovered_insert hw hnodes (Document.node_mem_nodes hpe) hcov
  constructor
  · rw [← source_uncovered hw (hmore hl hle) (hmore hnodes (Document.node_mem_nodes hpe)), hsame,
      source_uncovered hw hl hnodes]
  · obtain ⟨cs', hcs', hmap'⟩ := changes_eq_uncovered hw (hmore hl hle) (hmore hes hpe)
    rw [hsame, hmap] at hmap'
    have heq : cs = cs' := List.map_injective_iff.2 (fun _ _ h => Except.ok.inj h) hmap'
    rw [hcs', hcs, heq]

end Draft

namespace Sample

/-- What stands around the call. -/
def above : List Node := [statement, doc.root]

/-- The call is replaced, with edits inside and around it. -/
def nested : List Edit :=
  [⟨⟨inner, argument :: arguments :: call :: above⟩, .insert "!", "a"⟩,
    ⟨⟨call, above⟩, .replace (.literal (.text "g()")), "b"⟩,
    ⟨⟨statement, [doc.root]⟩, .insert "await ", "c"⟩,
    ⟨⟨argument, arguments :: call :: above⟩, .replace (.literal (.text "0")), "d"⟩]

theorem nested_mem_places : ∀ e ∈ nested, e.place ∈ doc.places := by decide +kernel

end Sample

/-- Of the four edits the two at the call and around it are reported. -/
theorem Draft.changes_of_nested_edits :
    Sample.doc.WellFormed ∧ (∀ e ∈ Sample.nested, e.isLiteral) ∧
      (∀ e ∈ Sample.nested, e.place ∈ Sample.doc.places) ∧
      (Sample.nested.foldl record { doc := Sample.doc }).changes =
        .ok [⟨.modify, "b", ⟨1, 1⟩, some "é(a)", .text "g()"⟩,
          ⟨.add, "c", ⟨1, 1⟩, none, .text "await"⟩] ∧
      ∃ text, (Sample.nested.foldl record { doc := Sample.doc }).source = .ok text ∧
        ((Edit.uncovered Sample.nested).foldl record { doc := Sample.doc }).source = .ok text ∧
        text = "await g();x" := by
  have hl : ∀ e ∈ Sample.nested, e.isLiteral := by decide
  have huncovered : Edit.uncovered Sample.nested =
      [⟨⟨Sample.call, Sample.above⟩, .replace (.literal (.text "g()")), "b"⟩,
        ⟨⟨Sample.statement, [Sample.doc.root]⟩, .insert "await ", "c"⟩] := rfl
  obtain ⟨⟨cs, hcs, hreports⟩, ⟨text, h1, h2⟩, -⟩ :=
    changes_of_literal_edits Sample.wellFormed hl Sample.nested_mem_places
  rw [huncovered] at hreports
  obtain _ | ⟨⟨_, _, _⟩, _ | ⟨⟨_, _, _⟩, _ | _⟩⟩ := hreports
  have hsource : (Sample.nested.foldl record { doc := Sample.doc }).source = .ok "await g();x" := by
    decide +kernel
  exact ⟨Sample.wellFormed, hl, Sample.nested_mem_places, hcs, text, h1, h2,
    Except.ok.inj (h1.symm.trans hsource)⟩

end Asyncify
