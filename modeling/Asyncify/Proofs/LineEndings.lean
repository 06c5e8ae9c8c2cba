import Asyncify.Proofs.Awaits
import Asyncify.Proofs.Landing
import Asyncify.Proofs.Rewrites
import Asyncify.Proofs.Script

/-! Documents whose lines end in CR LF. A built-in rule writes a CR before every LF of its output,
however deep statements are moved from one callback into another. -/
namespace Asyncify

namespace Text

variable {cs xs ys l : List Char} {ls : List (List Char)} {cr : Bool} {a b : Nat}

/-- Every LF has a CR right before it; `cr` tells whether one stands before the text. -/
def isCRLFAfter (cr : Bool) : List Char → Bool
  | [] => true
  | c :: cs => (c != '\n' || cr) && isCRLFAfter (c == '\r') cs

/-- Every LF in the text comes right after a CR. -/
def isCRLF (cs : List Char) : Bool := isCRLFAfter false cs

/-- The offset lies between a CR and the LF behind it. -/
def cutsCRLF (cs : List Char) (k : Nat) : Bool :=
  0 < k && slice cs (k - 1) (k + 1) = ['\r', '\n']

/-- The last character is a CR; `cr` tells this of what stands before the text. -/
def endsCR (cr : Bool) (cs : List Char) : Bool := cs.foldl (fun _ c => c == '\r') cr

theorem isCRLFAfter_append (cr : Bool) (xs ys : List Char) :
    isCRLFAfter cr (xs ++ ys) = (isCRLFAfter cr xs && isCRLFAfter (endsCR cr xs) ys) := by
  induction xs generalizing cr with
  | nil => rfl
  | cons x xs ih =>
    rw [List.cons_append, isCRLFAfter, ih, isCRLFAfter, Bool.and_assoc]
    rfl

theorem isCRLFAfter_of_isCRLF (cr : Bool) (h : isCRLF cs) : isCRLFAfter cr cs := by
  cases cs with
  | nil => rfl
  | cons c cs =>
    simp only [isCRLF, isCRLFAfter, Bool.or_false, Bool.and_eq_true] at h ⊢
    exact ⟨by simp [h.1], h.2⟩

/-- Only a leading LF asks for what stands before the text. -/
theorem isCRLF_of_head? (h : isCRLFAfter cr cs) (hh : cs.head? ≠ some '\n') : isCRLF cs := by
  cases cs with
  | nil => rfl
  | cons c cs =>
    have hc : c ≠ '\n' := by simpa using hh
    simp only [isCRLF, isCRLFAfter, Bool.and_eq_true] at h ⊢
    exact ⟨by simp [hc], h.2⟩

theorem isCRLF_append (hx : isCRLF xs) (hy : isCRLF ys) : isCRLF (xs ++ ys) := by
  rw [isCRLF, isCRLFAfter_append, Bool.and_eq_true]
  exact ⟨hx, isCRLFAfter_of_isCRLF _ hy⟩

theorem isCRLF_toList_append {s t : String} (hs : isCRLF s.toList) (ht : isCRLF t.toList) :
    isCRLF (s ++ t).toList := by
  rw [String.toList_append]
  exact isCRLF_append hs ht

theorem isCRLF_of_not_mem (h : '\n' ∉ cs) : isCRLF cs := by
  rw [isCRLF]
  generalize false = cr
  induction cs generalizing cr with
  | nil => rfl
  | cons c cs ih =>
    obtain ⟨hc, hcs⟩ := not_or.1 (fun hm => h (List.mem_cons.2 hm))
    rw [isCRLFAfter, ih hcs]
    simp [Ne.symm hc]

theorem exists_of_endsCR (h : endsCR false xs) : ∃ ws, xs = ws ++ ['\r'] := by
  obtain rfl | ⟨ws, x, rfl⟩ := List.eq_nil_or_concat xs
  · cases h
  · simp only [endsCR, List.concat_eq_append, List.foldl_append, List.foldl_cons, List.foldl_nil,
      beq_iff_eq] at h
    exact ⟨ws, by simp [h]⟩

/-- A slice that does not begin inside a line ending keeps the CR before every LF. -/
theorem isCRLF_slice (h : isCRLF cs) (ha : isBoundary cs a) (hb : isBoundary cs b) (hab : a ≤ b)
    (hcut : cutsCRLF cs a = false) : isCRLF (slice cs a b) := by
  obtain ⟨xs, ys, zs, rfl, rfl, rfl⟩ := exists_split ha hb hab
  rw [slice_append]
  have hy : isCRLFAfter (endsCR false xs) ys := by
    rw [isCRLF, isCRLFAfter_append, isCRLFAfter_append, Bool.and_eq_true, Bool.and_eq_true] at h
    exact h.1.2
  by_cases hhead : ys.head? = some '\n'
  · cases hx : endsCR false xs with
    | false => rwa [hx] at hy
    | true =>
      obtain ⟨ws, rfl⟩ := exists_of_endsCR hx
      obtain ⟨ys, rfl⟩ := List.head?_eq_some_iff.1 hhead
      have hs := slice_append ws ['\r', '\n'] (ys ++ zs)
      have hr : ('\r' : Char).utf8Size = 1 := by decide
      have hn : ('\n' : Char).utf8Size = 1 := by decide
      simp [cutsCRLF, hr, hn] at hcut hs
      exact absurd hs hcut
  · exact isCRLF_of_head? hy hhead

theorem isCRLF_joinWith {sep : List Char} (hs : isCRLF sep) (h : ∀ l ∈ ls, isCRLF l) :
    isCRLF (joinWith sep ls) := by
  fun_induction joinWith sep ls with
  | case1 => rfl
  | case2 l => exact h l List.mem_cons_self
  | case3 l ls _ ih =>
    refine isCRLF_append (isCRLF_append (h l List.mem_cons_self) hs) (ih fun m hm => ?_)
    exact h m (List.mem_cons_of_mem _ hm)

theorem isCRLF_intercalate {sep : String} (hs : isCRLF sep.toList) {ss : List String}
    (h : ∀ s ∈ ss, isCRLF s.toList) : isCRLF (sep.intercalate ss).toList := by
  induction ss with
  | nil => simp [isCRLF, isCRLFAfter]
  | cons s ss ih =>
    have hrest := ih fun t ht => h t (List.mem_cons_of_mem _ ht)
    cases ss with
    | nil => simpa using h s List.mem_cons_self
    | cons t ss =>
      rw [String.intercalate_cons_cons]
      exact isCRLF_toList_append (isCRLF_toList_append (h s List.mem_cons_self) hs) hrest

theorem not_mem_of_mem_prepend {c : Char} (hc : c ≠ '\n') (h : ∀ l ∈ ls, '\n' ∉ l)
    (hl : l ∈ prepend c ls) : '\n' ∉ l := by
  cases ls with
  | nil =>
    obtain rfl := List.mem_singleton.1 hl
    simpa using hc.symm
  | cons m ls =>
    obtain rfl | hl := List.mem_cons.1 hl
    · simpa using ⟨hc.symm, h m List.mem_cons_self⟩
    · exact h l (List.mem_cons_of_mem _ hl)

/-- The lines between the line endings have no LF. -/
theorem not_mem_of_mem_splitFrom {skip : Nat} (h : isCRLF (cs.drop skip))
    (hl : l ∈ splitFrom ['\r', '\n'] skip cs) : '\n' ∉ l := by
  fun_induction splitFrom ['\r', '\n'] skip cs generalizing l with
  | case1 =>
    obtain rfl := List.mem_singleton.1 hl
    simp
  | case2 skip c rest hpos ih =>
    obtain ⟨k, rfl⟩ : ∃ k, skip = k + 1 := ⟨skip - 1, by omega⟩
    exact ih h hl
  | case3 skip c rest hzero hpre ih =>
    obtain rfl : skip = 0 := by omega
    obtain ⟨tail, htail⟩ := List.isPrefixOf_iff_prefix.1 hpre
    obtain ⟨rfl, rfl⟩ := List.cons.inj htail
    obtain rfl | hl := List.mem_cons.1 hl
    · simp
    · exact ih (by simpa [isCRLF, isCRLFAfter] using h) hl
  | case4 skip c rest hzero hpre ih =>
    obtain rfl : skip = 0 := by omega
    simp only [List.drop_zero, isCRLF, isCRLFAfter, Bool.or_false, Bool.and_eq_true,
      bne_iff_ne] at h
    obtain ⟨hc, hrest⟩ := h
    -- An LF behind this character would need a CR here, and the two would be a line ending.
    have hhead : rest.head? ≠ some '\n' := by
      intro hh
      obtain ⟨tail, rfl⟩ := List.head?_eq_some_iff.1 hh
      simp only [isCRLFAfter, Bool.and_eq_true, Bool.or_eq_true, beq_iff_eq] at hrest
      obtain rfl : c = '\r' := by simpa using hrest.1
      simp at hpre
    exact not_mem_of_mem_prepend hc (fun m hm => ih (isCRLF_of_head? hrest hhead) hm) hl

theorem mem_of_mem_dropOrKeepLast {n : Int} {c : Char} (h : c ∈ dropOrKeepLast n cs) : c ∈ cs := by
  rw [dropOrKeepLast] at h
  split at h <;> exact List.mem_of_mem_drop h

theorem not_mem_reindentLine {width : Int} {indent : List Char} (hi : '\n' ∉ indent)
    (hl : '\n' ∉ l) :
    '\n' ∉ reindentLine width indent l := by
  rw [reindentLine]
  split
  · simp
  · rw [List.mem_append, not_or]
    exact ⟨hi, fun h => hl (mem_of_mem_dropOrKeepLast h)⟩

/-- A statement that moves to another indentation keeps its line endings. -/
theorem isCRLF_reindent {text indent : String} {width : Int} (ht : isCRLF text.toList)
    (hi : '\n' ∉ indent.toList) : isCRLF (reindent text width indent "\r\n").toList := by
  rw [reindent, String.toList_ofList]
  refine isCRLF_joinWith (by decide) fun l hl => isCRLF_of_not_mem ?_
  have hlines : ∀ l ∈ splitOn "\r\n".toList text.toList, '\n' ∉ l :=
    fun l hl => not_mem_of_mem_splitFrom (by simpa using ht) hl
  cases hs : splitOn "\r\n".toList text.toList with
  | nil =>
    rw [hs] at hl
    cases hl
  | cons first rest =>
    rw [hs] at hl hlines
    obtain rfl | hl := List.mem_cons.1 hl
    · rw [List.mem_append, not_or]
      exact ⟨hi, hlines first List.mem_cons_self⟩
    · obtain ⟨m, hm, rfl⟩ := List.mem_map.1 hl
      exact not_mem_reindentLine hi (hlines m (List.mem_cons_of_mem _ hm))

theorem not_mem_indentation (cs : List Char) : '\n' ∉ indentation cs := by
  intro h
  have hc := List.all_eq_true.1 List.all_takeWhile _ h
  simp at hc

end Text

namespace Document

/-- The document has a CR LF, every LF in it comes right after a CR, and no node begins or ends
between the two. -/
structure IsCRLF (doc : Document) : Prop where
  some : Text.hasCRLF doc.chars
  all : Text.isCRLF doc.chars
  whole : ∀ n ∈ doc.nodes, Text.cutsCRLF doc.chars n.start = false ∧
    Text.cutsCRLF doc.chars n.stop = false

theorem IsCRLF.newline_eq {doc : Document} (h : doc.IsCRLF) : doc.newline = "\r\n" := by
  rw [newline, if_pos h.some]

theorem not_mem_lineIndent (doc : Document) (n : Node) : '\n' ∉ (doc.lineIndent n).toList := by
  rw [lineIndent, String.toList_ofList]
  exact Text.not_mem_indentation _

end Document

/-- A statement that moves is a node of the document. -/
structure Moved.IsPlain (m : Moved) (doc : Document) : Prop where
  node : ∀ n, m.node = .ok n → n ∈ doc.nodes
  ending : '\n' ∉ m.ending.toList

/-- The parts of a folded statement are nodes of the document, and no LF comes in with it. -/
structure Fold.IsPlain (f : Fold) (doc : Document) : Prop where
  base : '\n' ∉ f.base.toList
  inner : ∀ s, f.inner = .ok s → '\n' ∉ s.toList
  errorName : '\n' ∉ f.errorName.toList
  resultName : '\n' ∉ f.resultName.toList
  callee : ∀ n, f.callee = .ok n → n ∈ doc.nodes
  args : ∀ n ∈ f.args, n ∈ doc.nodes
  body : ∀ m ∈ f.body, m.IsPlain doc

/-- No LF comes in with the edit. -/
def Action.IsPlain (doc : Document) : Action → Prop
  | .insert text => '\n' ∉ text.toList
  | .wrap before after => '\n' ∉ before.toList ∧ '\n' ∉ after.toList
  | .replace (.literal v) => '\n' ∉ v.display.toList
  | .replace (.joined _) => False
  | .replace (.folded f) => f.IsPlain doc

namespace Fold

variable {f : Fold} {doc : Document} {render : Node → Except Fault String} {text : String}

/-- A folded statement is made of lines with line endings between them. -/
theorem isCRLF_write (hf : f.IsPlain doc)
    (hr : ∀ n ∈ doc.nodes, ∀ t, render n = .ok t → Text.isCRLF t.toList)
    (h : f.write render "\r\n" = .ok text) : Text.isCRLF text.toList := by
  rw [write] at h
  obtain ⟨inner, hinner, h⟩ := Except.bind_eq_ok.1 h
  obtain ⟨calleeNode, hnode, h⟩ := Except.bind_eq_ok.1 h
  obtain ⟨callee, hcallee, h⟩ := Except.bind_eq_ok.1 h
  obtain ⟨args, hargs, h⟩ := Except.bind_eq_ok.1 h
  obtain ⟨moved, hmoved, h⟩ := Except.bind_eq_ok.1 h
  obtain rfl := Except.ok.inj h
  have hin := Text.isCRLF_of_not_mem (hf.inner inner hinner)
  have hbase := Text.isCRLF_of_not_mem hf.base
  have herror := Text.isCRLF_of_not_mem hf.errorName
  have hresult := Text.isCRLF_of_not_mem hf.resultName
  have hcall := hr calleeNode (hf.callee _ hnode) callee hcallee
  have hlist : Text.isCRLF (", ".intercalate args).toList := by
    refine Text.isCRLF_intercalate (by decide) fun s hs => ?_
    obtain ⟨n, hn, hs⟩ := (Except.mem_of_mapM hargs s).1 hs
    exact hr n (hf.args n hn) s hs
  have hlines : ∀ branch, ∀ s ∈ linesOf branch moved, Text.isCRLF s.toList := by
    intro branch s hs
    obtain ⟨x, hx, rfl⟩ := List.mem_map.1 hs
    obtain ⟨m, hm, hx⟩ := (Except.mem_of_mapM hmoved x).1 (List.mem_of_mem_filter hx)
    obtain ⟨n, hn, hx⟩ := Except.bind_eq_ok.1 hx
    obtain ⟨t, ht, hx⟩ := Except.bind_eq_ok.1 hx
    obtain rfl := Except.ok.inj hx
    exact Text.isCRLF_toList_append
      (Text.isCRLF_reindent (hr n ((hf.body m hm).node n hn) t ht) (hf.inner inner hinner))
      (Text.isCRLF_of_not_mem (hf.body m hm).ending)
  refine Text.isCRLF_intercalate (by decide) fun s hs => ?_
  simp only [List.mem_append, List.mem_cons, List.not_mem_nil, or_false] at hs
  obtain ((((rfl | rfl) | hs) | rfl) | hs) | rfl := hs
  · decide
  · have hname : Text.isCRLF (inner ++ "const " ++ f.resultName ++ " = await ").toList :=
      Text.isCRLF_toList_append
        (Text.isCRLF_toList_append (Text.isCRLF_toList_append hin (by decide)) hresult) (by decide)
    have hcalls :
        Text.isCRLF (inner ++ "const " ++ f.resultName ++ " = await " ++ callee ++ "(").toList :=
      Text.isCRLF_toList_append (Text.isCRLF_toList_append hname hcall) (by decide)
    exact Text.isCRLF_toList_append (Text.isCRLF_toList_append hcalls hlist) (by decide)
  · exact hlines _ s hs
  · exact Text.isCRLF_toList_append
      (Text.isCRLF_toList_append (Text.isCRLF_toList_append hbase (by decide)) herror) (by decide)
  · exact hlines _ s hs
  · exact Text.isCRLF_toList_append hbase (by decide)

end Fold

namespace Draft

variable {d : Draft} {n : Node} {text : String}

theorem isCRLF_before (he : ∀ e ∈ d.edits, e.action.IsPlain d.doc) (id : Nat) :
    Text.isCRLF (d.before id).toList := by
  refine Text.isCRLF_intercalate rfl fun s hs => Text.isCRLF_of_not_mem ?_
  obtain ⟨e, hm, rfl⟩ := List.mem_map.1 hs
  have hp := he e (List.mem_of_mem_filter hm)
  rw [Edit.before]
  cases ha : e.action with
  | replace r => simp
  | insert text => simpa [ha, Action.IsPlain] using hp
  | wrap before after =>
    rw [ha] at hp
    exact hp.1

theorem isCRLF_after (he : ∀ e ∈ d.edits, e.action.IsPlain d.doc) (id : Nat) :
    Text.isCRLF (d.after id).toList := by
  refine Text.isCRLF_intercalate rfl fun s hs => Text.isCRLF_of_not_mem ?_
  obtain ⟨e, hm, rfl⟩ := List.mem_map.1 (List.mem_reverse.1 hs)
  have hp := he e (List.mem_of_mem_filter hm)
  rw [Edit.after]
  cases ha : e.action with
  | replace r => simp
  | insert text => simp
  | wrap before after =>
    rw [ha] at hp
    exact hp.2

/-- Nodes that are written with their line endings make up a row that keeps its own. -/
theorem isCRLF_weave {render : Node → Except Fault String} (hw : d.doc.WellFormed)
    (hc : d.doc.IsCRLF)
    (hr : ∀ n ∈ d.doc.nodes, ∀ t, render n = .ok t → Text.isCRLF t.toList) {cs : List Node}
    {cursor stop : Nat} (hrow : Node.InRow cursor cs stop) (hcs : ∀ c ∈ cs, c ∈ d.doc.nodes)
    (hb : Text.isBoundary d.doc.chars cursor) (he : Text.isBoundary d.doc.chars stop)
    (hcut : Text.cutsCRLF d.doc.chars cursor = false)
    (h : d.weave render cursor cs stop = .ok text) : Text.isCRLF text.toList := by
  induction cs generalizing cursor text with
  | nil =>
    obtain rfl := Except.ok.inj h
    rw [Document.slice, String.toList_ofList]
    exact Text.isCRLF_slice hc.all hb he hrow hcut
  | cons c cs ih =>
    obtain ⟨h1, h2, h3⟩ := hrow
    have hmem := hcs c List.mem_cons_self
    obtain ⟨hcb, hce⟩ := hw.bounds c hmem
    rw [weave] at h
    obtain ⟨t, ht, h⟩ := Except.bind_eq_ok.1 h
    obtain ⟨rest, hrest, h⟩ := Except.bind_eq_ok.1 h
    obtain rfl := Except.ok.inj h
    refine Text.isCRLF_toList_append (Text.isCRLF_toList_append ?_ (hr c hmem t ht)) ?_
    · rw [Document.slice, String.toList_ofList]
      exact Text.isCRLF_slice hc.all hb hcb h1 hcut
    · exact ih h3 (fun b hb => hcs b (List.mem_cons_of_mem _ hb)) hce (hc.whole c hmem).2 hrest

theorem isCRLF_body {render : Node → Except Fault String} (hw : d.doc.WellFormed)
    (hc : d.doc.IsCRLF) (he : ∀ e ∈ d.edits, e.action.IsPlain d.doc)
    (hr : ∀ n ∈ d.doc.nodes, ∀ t, render n = .ok t → Text.isCRLF t.toList) (hn : n ∈ d.doc.nodes)
    (h : d.body render n = .ok text) : Text.isCRLF text.toList := by
  obtain ⟨hb, hs⟩ := hw.bounds n hn
  have hcut := (hc.whole n hn).1
  rw [body] at h
  cases hrep : d.replacement? n.id with
  | some r =>
    rw [hrep] at h
    obtain ⟨e, hm, hx⟩ := List.mem_filterMap.1 (List.mem_of_getLast? hrep)
    have hp := he e (List.mem_of_mem_filter hm)
    have ha : e.action = .replace r := by
      rw [Edit.replacement?] at hx
      split at hx
      · next ha => rw [ha, Option.some.inj hx]
      · cases hx
    rw [ha] at hp
    cases r with
    | literal v =>
      obtain rfl := Except.ok.inj h
      exact Text.isCRLF_of_not_mem hp
    | joined pieces => exact hp.elim
    | folded f =>
      simp only [hc.newline_eq] at h
      exact Fold.isCRLF_write hp hr h
  | none =>
    rw [hrep] at h
    dsimp only at h
    split at h
    · exact isCRLF_weave hw hc hr (hw.rows n hn) (fun c hm => Document.child_mem_nodes hn hm) hb
        hs hcut h
    · obtain rfl := Except.ok.inj h
      rw [Document.textOf, Document.slice, String.toList_ofList]
      exact Text.isCRLF_slice hc.all hb hs (hw.start_le_stop hn) hcut

/-- Whatever a draft of such edits writes for a node has a CR before every LF. -/
theorem isCRLF_renderWithin (hw : d.doc.WellFormed) (hc : d.doc.IsCRLF)
    (he : ∀ e ∈ d.edits, e.action.IsPlain d.doc) {fuel : Nat} (hn : n ∈ d.doc.nodes)
    (h : d.renderWithin fuel n = .ok text) : Text.isCRLF text.toList := by
  induction fuel generalizing n text with
  | zero => cases h
  | succ fuel ih =>
    rw [renderWithin_succ] at h
    cases hb : d.body (d.renderWithin fuel) n with
    | error e => rw [hb] at h; cases h
    | ok t =>
      rw [hb] at h
      obtain rfl := Except.ok.inj h
      have hbody := isCRLF_body hw hc he (fun m hm t ht => ih hm ht) hn hb
      exact Text.isCRLF_toList_append (Text.isCRLF_toList_append (isCRLF_before he _) hbody)
        (isCRLF_after he _)

theorem isCRLF_source (hw : d.doc.WellFormed) (hc : d.doc.IsCRLF)
    (he : ∀ e ∈ d.edits, e.action.IsPlain d.doc) (h : d.source = .ok text) :
    Text.isCRLF text.toList := by
  rw [source] at h
  split at h
  · obtain rfl := Except.ok.inj h
    rw [Document.text, String.toList_ofList]
    exact hc.all
  · have hroot := d.doc.root_mem_nodes
    obtain ⟨hb, hs⟩ := hw.bounds _ hroot
    obtain ⟨body, hbody, h⟩ := Except.bind_eq_ok.1 h
    obtain rfl := Except.ok.inj h
    refine Text.isCRLF_toList_append (Text.isCRLF_toList_append ?_ ?_) ?_
    · rw [Document.slice, String.toList_ofList]
      exact Text.isCRLF_slice hc.all (Text.isBoundary_zero _) hb (Nat.zero_le _)
        (by simp [Text.cutsCRLF])
    · exact isCRLF_renderWithin hw hc he hroot hbody
    · rw [Document.slice, String.toList_ofList]
      exact Text.isCRLF_slice hc.all hs (Text.isBoundary_end _) (Text.le_byteLength hs)
        (hc.whole _ hroot).2

end Draft

namespace Callback

variable {s : String}

theorem not_mem_of_foldCase (h : '\n' ∉ (foldCase s).toList) : '\n' ∉ s.toList := by
  intro hm
  refine h ?_
  rw [foldCase, String.toList_ofList]
  exact List.mem_map.2 ⟨'\n', hm, by decide⟩

theorem not_mem_of_isErrorName (h : isErrorName s) : '\n' ∉ s.toList := by
  have hmem : foldCase s ∈ ["err", "error"] := by simpa [isErrorName] using h
  have hall : ∀ t ∈ ["err", "error"], '\n' ∉ t.toList := by decide
  exact not_mem_of_foldCase (hall _ hmem)

theorem not_mem_of_isResultName (h : isResultName s) : '\n' ∉ s.toList := by
  have hmem : foldCase s ∈ ["result", "data", "res"] := by simpa [isResultName] using h
  have hall : ∀ t ∈ ["result", "data", "res"], '\n' ∉ t.toList := by decide
  exact not_mem_of_foldCase (hall _ hmem)

end Callback

namespace Document

variable {doc : Document} {p : Place} {m : Moved}

theorem child?_mem_places {field : Field} (hp : p ∈ doc.places) {q : Place}
    (hq : q ∈ p.child? field) :
    q ∈ doc.places :=
  child_mem_places hp (Place.mem_children_of_child? hq)

theorem isPlain_callbackBody {errorName : String} {body : Option Place}
    (hb : ∀ q ∈ body, q ∈ doc.places) (hm : m ∈ doc.callbackBody errorName body) :
    m.IsPlain doc := by
  obtain ⟨hnode, hending⟩ : m.IsBelow doc.root :=
    isBelow_callbackBody (fun q hq => node_mem_nodes (hb q hq)) hm
  refine ⟨hnode, ?_⟩
  rcases hending with he | he <;> rw [he] <;> decide

/-- A call that is folded with its callback brings no LF of its own. -/
theorem isPlain_fold {statement call : Place} {cb : Callback} {unit : String}
    (hc : call ∈ doc.places) (hcb : Callback.of? doc call = some cb) (hu : '\n' ∉ unit.toList) :
    (doc.fold statement call cb (.ok unit)).IsPlain doc := by
  obtain ⟨hlast, -, -, -, herr, hres⟩ := Callback.of?_eq_some hcb
  have hfun := Place.callArguments_mem_places hc (List.mem_of_getLast? hlast)
  have hbase := doc.not_mem_lineIndent statement.node
  refine ⟨hbase, ?_, Callback.not_mem_of_isErrorName herr, Callback.not_mem_of_isResultName hres,
    ?_, ?_, ?_⟩
  · intro s hs
    rw [← Except.ok.inj hs, String.toList_append, List.mem_append, not_or]
    exact ⟨hbase, hu⟩
  · intro n hn
    cases hf : call.child? .function with
    | none => simp [fold, hf] at hn
    | some callee =>
      have he : callee.node = n := by simpa [fold, hf] using hn
      rw [← he]
      exact node_mem_nodes (child?_mem_places hc hf)
  · intro n hn
    obtain ⟨a, ha, rfl⟩ := List.mem_map.1 hn
    exact node_mem_nodes (Place.callArguments_mem_places hc (List.dropLast_subset _ ha))
  · intro m hm
    exact isPlain_callbackBody (fun q hq => child?_mem_places hfun hq) hm

theorem isPlain_awaitEdit (doc : Document) (p : Place) : (doc.awaitEdit p).action.IsPlain doc := by
  obtain ha | ha := doc.awaitEdit_action p <;> rw [ha]
  · show '\n' ∉ "await ".toList
    decide
  · show '\n' ∉ "(await ".toList ∧ '\n' ∉ ")".toList
    decide

end Document

/-- No new name in the table has an LF. -/
def MethodTable.IsPlain (table : MethodTable) : Prop :=
  ∀ m ∈ table.toList, '\n' ∉ m.2.display.toList

instance (table : MethodTable) : Decidable table.IsPlain :=
  inferInstanceAs (Decidable (∀ m ∈ table.toList, '\n' ∉ m.2.display.toList))

theorem MethodTable.IsPlain.not_mem {table : MethodTable} (h : table.IsPlain) {name : Key}
    {v : Value} (hv : table.get? name = some v) : '\n' ∉ v.display.toList := by
  obtain ⟨m, hm, -, rfl⟩ := Entries.mem_of_get? hv
  exact h m hm

namespace Rule

variable {r : Renaming} {table : MethodTable} {doc : Document} {p : Place} {e : Edit}

theorem isPlain_of_mem_move (ht : table.IsPlain) (he : e ∈ (r.move table p).edits) :
    e.action.IsPlain r.doc := by
  obtain ⟨x, hx, rfl⟩ | rfl := Renaming.mem_edits_move he
  · obtain ⟨-, receiver, -, -, hv⟩ := Renaming.found?_eq_some hx
    exact ht.not_mem hv
  · exact r.doc.isPlain_awaitEdit p

theorem isPlain_of_mem_rolesMove (ht : table.IsPlain) (he : e ∈ (rolesMove r table p).edits) :
    e.action.IsPlain r.doc := by
  rw [rolesMove] at he
  split at he
  · obtain rfl := List.mem_singleton.1 he
    show '\n' ∉ newRolesPackage.toList
    decide
  · exact isPlain_of_mem_move ht he

theorem isPlain_of_mem_callMove (ht : table.IsPlain) (hp : p ∈ r.doc.places)
    (he : e ∈ (callMove r table (.ok "  ") p).edits) : e.action.IsPlain r.doc := by
  rw [callMove] at he
  cases hx : r.found? table p with
  | none => simp [hx] at he
  | some x =>
    rw [hx] at he
    obtain rfl | he := List.mem_cons.1 he
    · obtain ⟨-, receiver, -, -, hv⟩ := Renaming.found?_eq_some hx
      exact ht.not_mem hv
    · cases hf : r.doc.foldMark? p (.ok "  ") with
      | none =>
        rw [hf] at he
        obtain ⟨-, rfl⟩ := Step.mem_edits_ofAwait.1 he
        exact r.doc.isPlain_awaitEdit p
      | some mark =>
        rw [hf] at he
        obtain rfl := List.mem_singleton.1 he
        obtain ⟨cb, hcb, -, ha⟩ := Document.foldMark?_eq_some hf
        rw [ha]
        exact Document.isPlain_fold hp hcb (by decide)

theorem isPlain_of_mem_routeMove (he : e ∈ (routeMove doc p).edits) : e.action.IsPlain doc := by
  rw [routeMove] at he
  split at he
  · cases he
  · split at he
    · obtain ⟨-, rfl⟩ := Step.mem_edits_ofAwait.1 he
      exact doc.isPlain_awaitEdit p
    · cases he

/-- No LF comes in with any step of a built-in rule. -/
theorem exists_plain_steps {s : Sweep} {pass : Pass} (hs : s ∈ sweeps) (h : pass.IsStandard s) :
    ∃ g late, s.Follows pass g late ∧
      ∀ p ∈ pass.doc.places, ∀ e ∈ (g p).edits, e.action.IsPlain pass.doc := by
  simp only [sweeps, List.mem_cons, List.not_mem_nil, or_false] at hs
  rcases hs with rfl | rfl | rfl | rfl | rfl | rfl | rfl | rfl
  · exact ⟨_, _, asyncApi_follows h, fun _ _ _ he => isPlain_of_mem_move (by decide +kernel) he⟩
  · exact ⟨_, _, cursorAsync_follows h, fun _ _ _ he => isPlain_of_mem_move (by decide +kernel) he⟩
  · exact ⟨_, _, callAsync_follows h,
      fun _ hp _ he => isPlain_of_mem_callMove (by decide +kernel) hp he⟩
  · exact ⟨_, _, userAsync_follows h, fun _ _ _ he => isPlain_of_mem_move (by decide +kernel) he⟩
  · exact ⟨_, _, indexAsync_follows h, fun _ _ _ he => isPlain_of_mem_move (by decide +kernel) he⟩
  · exact ⟨_, _, fastRenderAsync_follows, fun _ _ _ he => isPlain_of_mem_routeMove he⟩
  · exact ⟨_, _, rolesMigration_follows h,
      fun _ _ _ he => isPlain_of_mem_rolesMove (by decide +kernel) he⟩
  · refine ⟨_, _, follows_of_does callbackReport_does (fun _ => .rest) (by decide) (by decide), ?_⟩
    intro _ _ _ he
    cases he

end Rule

/-- What a pass leaves brings no LF into the document. -/
theorem Sweep.isPlain_of_mem_draft {s : Sweep} {pass : Pass} {d : Draft} {k : Nat}
    (hs : s ∈ Rule.sweeps) (ho : pass.IsStandard s) (hd : (s.draft pass).value = .ok (d, k)) :
    d.doc = pass.doc ∧ ∀ e ∈ d.edits, e.action.IsPlain d.doc := by
  obtain ⟨g, late, h, hplain⟩ := Rule.exists_plain_steps hs ho
  obtain ⟨l, -, rfl, -⟩ := h.draft_inv hd
  refine ⟨rfl, fun e he => ?_⟩
  obtain he | ⟨f, -, hf⟩ := Document.mem_afterPass.1 he
  · obtain ⟨p, hp, he⟩ := Document.mem_afterSteps.1 he
    exact hplain p hp e he
  · rw [(Document.asyncMark?_eq_some hf).1]
    show '\n' ∉ "async ".toList
    decide

/-- A rule gives back a text just where its pass leaves edits that can be written out. -/
theorem Sweep.exists_output_iff {s : Sweep} {pass : Pass} {text : String} :
    (∃ outcome, (s.rule.visit pass).value = .ok outcome ∧ outcome.output = some text) ↔
      ∃ d k, (s.draft pass).value = .ok (d, k) ∧ d.edits ≠ [] ∧ d.source = .ok text := by
  have hmap : (∃ outcome, (s.rule.visit pass).value = .ok outcome ∧ outcome.output = some text) ↔
      (s.rule.visit pass).value.map Outcome.output = .ok (some text) := by
    cases (s.rule.visit pass).value <;> simp [Except.map]
  rw [hmap, s.value_visit]
  constructor
  · intro h
    cases hd : (s.draft pass).value with
    | error e => rw [hd] at h; cases h
    | ok x =>
      rw [hd] at h
      simp only [Except.map, Except.bind] at h
      split at h
      · cases h
      · next he =>
        refine ⟨x.1, x.2, rfl, by simpa using he, ?_⟩
        cases hs : x.1.source with
        | error e => rw [hs] at h; cases h
        | ok t => rw [hs] at h; rw [Option.some.inj (Except.ok.inj h)]
  · rintro ⟨d, k, hd, he, hs⟩
    simp [hd, hs, he, Except.map, Except.bind]

/-- In what a built-in rule writes for a document with CR LF line endings, every LF comes right
after a CR. -/
theorem Sweep.isCRLF_of_visit {s : Sweep} {pass : Pass} {outcome : Outcome} {text : String}
    (hs : s ∈ Rule.sweeps) (ho : pass.IsStandard s) (hw : pass.doc.WellFormed)
    (hc : pass.doc.IsCRLF)
    (hv : (s.rule.visit pass).value = .ok outcome) (ht : outcome.output = some text) :
    Text.isCRLF text.toList := by
  obtain ⟨d, k, hd, -, hsource⟩ := Sweep.exists_output_iff.1 ⟨outcome, hv, ht⟩
  obtain ⟨hdoc, hplain⟩ := Sweep.isPlain_of_mem_draft hs ho hd
  exact Draft.isCRLF_source (by rwa [hdoc]) (by rwa [hdoc]) hplain hsource

namespace CrlfSample

open Sketch

/-- A call in the callback of a call in the callback of a call. -/
def doc : Document :=
  program
    [functionNamed [] "f" (block [.body] "\r\n  " "\r\n"
      [Folding.numbered "1" [functionWith [] ["err", "res"] (block [.body] "\r\n    " "\r\n  "
        [Folding.numbered "2" [functionWith [] ["error", "data"]
          (block [.body] "\r\n      " "\r\n    "
          [Folding.numbered "3" []])]])]]),
      gap "\r\n"]

def pass : Pass := { path := "a.js", doc, options := .empty }

def draft : Draft :=
  doc.afterPass
    (Rule.callMove (Rule.renameOn doc Rule.callTable "Meteor") Rule.callTable (.ok "  ")) []

theorem wellFormed : doc.WellFormed := wellFormed_program _

theorem isCRLF : doc.IsCRLF := by
  have hall : Text.hasCRLF doc.chars ∧ Text.isCRLF doc.chars ∧ ∀ n ∈ doc.nodes,
      Text.cutsCRLF doc.chars n.start = false ∧ Text.cutsCRLF doc.chars n.stop = false := by
    decide +kernel
  exact ⟨hall.1, hall.2.1, hall.2.2⟩

/-- Both callbacks are folded, one inside the other. -/
def output : String :=
  "async function f() \x7b\r\n  try \x7b\r\n    const res = await Meteor.callAsync(1);\r\n" ++
    "    try \x7b\r\n      const data = await Meteor.callAsync(2);\r\n" ++
    "      await Meteor.callAsync(3);\r\n    \x7d catch (error) \x7b\r\n    \x7d\r\n" ++
    "  \x7d catch (err) \x7b\r\n  \x7d\r\n\x7d\r\n"

theorem follows : Rule.callAsync.Follows pass
    (Rule.callMove (Rule.renameOn doc Rule.callTable "Meteor") Rule.callTable (.ok "  "))
    fun _ => .ok [] :=
  Rule.callAsync_follows (Or.inl rfl)

/-- The pass ends, and its edits can be written out. -/
theorem findings :
    ((doc.queue (Rule.callMove (Rule.renameOn doc Rule.callTable "Meteor") Rule.callTable
      (.ok "  ")) []).all fun f => f.asyncAnchor?.isSome) ∧
      0 < draft.edits.length ∧ draft.source = .ok output := by
  decide +kernel

theorem source_eq : draft.source = .ok output := findings.2.2

end CrlfSample

/-- A fold inside a fold keeps the line endings. -/
theorem Sweep.isCRLF_of_visit_nested :
    Rule.callAsync ∈ Rule.sweeps ∧ CrlfSample.pass.IsStandard Rule.callAsync ∧
      CrlfSample.doc.WellFormed ∧ CrlfSample.doc.IsCRLF ∧
      ∃ outcome, (Rule.callAsync.rule.visit CrlfSample.pass).value = .ok outcome ∧
        outcome.output = some CrlfSample.output ∧ Text.isCRLF CrlfSample.output.toList := by
  have hs : Rule.callAsync ∈ Rule.sweeps := by simp [Rule.sweeps]
  have ho : CrlfSample.pass.IsStandard Rule.callAsync := Or.inl rfl
  obtain ⟨hanchor, hne, -⟩ := CrlfSample.findings
  obtain ⟨k, hk⟩ := CrlfSample.follows.exists_draft rfl hanchor
  obtain ⟨outcome, hv, ht⟩ :=
    exists_output_iff.2 ⟨_, k, hk, List.length_pos_iff.1 hne, CrlfSample.source_eq⟩
  exact ⟨hs, ho, CrlfSample.wellFormed, CrlfSample.isCRLF, outcome, hv, ht,
    isCRLF_of_visit hs ho CrlfSample.wellFormed CrlfSample.isCRLF hv ht⟩

end Asyncify
