import Asyncify.Proofs.Growth

/-! How the places of a document and of the document grown from it stand for one another. -/
namespace Asyncify

/-- What an edit adds to a text. -/
def additions : List String := ["await ", "async ", "Async", "meteor/roles"]

def IsEdited (text : String) : Prop := ∃ a ∈ additions, a.toList <:+: text.toList

instance (text : String) : Decidable (IsEdited text) :=
  inferInstanceAs (Decidable (∃ a ∈ additions, a.toList <:+: text.toList))

namespace IsEdited

variable {s t : String}

theorem of_mem (h : s ∈ additions) : IsEdited s := ⟨s, h, List.infix_rfl⟩

theorem append_right (h : IsEdited s) (t : String) : IsEdited (s ++ t) := by
  obtain ⟨a, ha, hs⟩ := h
  refine ⟨a, ha, hs.trans ?_⟩
  rw [String.toList_append]
  exact (List.prefix_append _ _).isInfix

theorem append_left (h : IsEdited t) (s : String) : IsEdited (s ++ t) := by
  obtain ⟨a, ha, ht⟩ := h
  refine ⟨a, ha, ht.trans ?_⟩
  rw [String.toList_append]
  exact (List.suffix_append _ _).isInfix

end IsEdited

/-- The marks of a pass that renames and awaits: only calls are awaited, and only names of
properties and pieces of strings get a new text. -/
structure Document.Marked (doc : Document) (marks : Node → Mark) : Prop where
  regular : ∀ n ∈ doc.nodes, (marks n).IsRegular
  call : ∀ n ∈ doc.nodes, (marks n).isAwait → n.kind = .call
  renamed : ∀ n ∈ doc.nodes, ∀ text, (marks n).new = some text →
    IsEdited text ∧ (n.kind = .propertyName ∨ n.kind = .other)

namespace Mirror

variable (doc : Document) (marks : Node → Mark)

/-- The node stands in the grown document for the given one, without the `await` around it. -/
def Shows (n n' : Node) : Prop :=
  Sketch.Depicts (doc.grown marks).chars ((marks n).core n.info (doc.inside marks n)) n'

/-- The node stands for the given one, with the `await` around it if there is one. -/
def Holds (n n' : Node) : Prop :=
  Sketch.Depicts (doc.grown marks).chars ((marks n).outer n.info (doc.inside marks n)) n'

/-- The children that a node keeps. -/
def kept (n : Node) : List Node := if (marks n).new.isSome then [] else n.children

/-- A keyword that came in. -/
structure IsKeyword (n : Node) : Prop where
  symbol : n.symbol = "async"
  named : n.info.named = false
  fields : n.info.fields = []
  children : n.children = []

/-- Siblings stand for siblings, with keywords between them. -/
inductive Row : List Node → List Node → Prop
  | nil : Row [] []
  | keyword {t : Node} {cs ds : List Node} (ht : IsKeyword t) (h : Row cs ds) : Row cs (t :: ds)
  | cons {c d : Node} {cs ds : List Node} (hd : Holds doc marks c d) (h : Row cs ds) :
      Row (c :: cs) (d :: ds)

variable {doc marks} {n n' c d : Node} {cs ds : List Node}

theorem children_of_token {chars : List Char} {t : String} (h : Sketch.Depicts chars (.token t) n) :
    n.symbol = t ∧ n.info.named = false ∧ n.info.fields = [] ∧ n.children = [] := by
  cases h with
  | node symbol named fields text bounds row children =>
    cases children
    exact ⟨symbol, named, fields, rfl⟩

theorem row_keywords {k : Nat} {ss : List Sketch}
    (h : List.Forall₂ (Sketch.Depicts (doc.grown marks).chars)
      ((Mark.keywordTokens k ++ ss).filter Sketch.isNode) ds)
    (hss : ∀ ds, List.Forall₂ (Sketch.Depicts (doc.grown marks).chars)
      (ss.filter Sketch.isNode) ds → Row doc marks cs ds) :
    Row doc marks cs ds := by
  induction k generalizing ds with
  | zero => exact hss ds h
  | succ k ih =>
    have hsplit : (Mark.keywordTokens (k + 1) ++ ss).filter Sketch.isNode =
        Sketch.token "async" :: (Mark.keywordTokens k ++ ss).filter Sketch.isNode := rfl
    rw [hsplit] at h
    obtain ⟨t, ts, ht, hts, rfl⟩ := List.forall₂_cons_left_iff.1 h
    obtain ⟨h1, h2, h3, h4⟩ := children_of_token ht
    exact .keyword ⟨h1, h2, h3, h4⟩ (ih hts)

theorem row_of_depicts {cursor stop : Nat}
    (h : List.Forall₂ (Sketch.Depicts (doc.grown marks).chars)
      ((doc.growRow marks cursor cs stop).filter Sketch.isNode) ds) :
    Row doc marks cs ds := by
  induction cs generalizing cursor ds with
  | nil =>
    rw [Document.growRow] at h
    cases h
    exact .nil
  | cons c cs ih =>
    obtain ⟨k, hk⟩ := (marks c).exists_sprout c.info (doc.inside marks c)
    have hgrow : (doc.growRow marks cursor (c :: cs) stop).filter Sketch.isNode =
        (Mark.keywordTokens k ++ ((marks c).outer c.info (doc.inside marks c) ::
          doc.growRow marks c.stop cs stop)).filter Sketch.isNode := by
      rw [Document.growRow, Document.grow_eq, hk]
      simp
    rw [hgrow] at h
    refine row_keywords h fun ds h => ?_
    rw [List.filter_cons_of_pos ((marks c).isNode_outer c.info (doc.inside marks c))] at h
    obtain ⟨d, ds, hd, hds, rfl⟩ := List.forall₂_cons_left_iff.1 h
    exact .cons hd (ih hds)

namespace Shows

theorem symbol (h : Shows doc marks n n') : n'.symbol = n.symbol := by
  cases h with
  | node symbol named fields text bounds row children => exact symbol

theorem kind (h : Shows doc marks n n') : n'.kind = n.kind := by
  rw [Node.kind, Node.kind, h.symbol]

theorem named (h : Shows doc marks n n') : n'.info.named = n.info.named := by
  cases h with
  | node symbol named fields text bounds row children => exact named

theorem fields (h : Shows doc marks n n') (ha : (marks n).isAwait = false) :
    n'.info.fields = n.info.fields := by
  cases h with
  | node symbol named fields text bounds row children => simpa [ha] using fields

/-- The children of a node stand for those that it keeps. -/
theorem row (h : Shows doc marks n n') : Row doc marks (kept marks n) n'.children := by
  have hinside : ∀ ds, List.Forall₂ (Sketch.Depicts (doc.grown marks).chars)
      ((doc.inside marks n).filter Sketch.isNode) ds → Row doc marks (kept marks n) ds := by
    intro ds hds
    rw [Document.inside] at hds
    rw [kept]
    cases hn : (marks n).new with
    | some text =>
      rw [hn] at hds
      cases hds
      exact .nil
    | none =>
      rw [hn] at hds
      exact row_of_depicts hds
  cases h with
  | node symbol named fields text bounds row children =>
    split at children
    · exact row_keywords children hinside
    · exact hinside _ children

end Shows

/-- Next to an awaited call there are only tokens. -/
def IsTokenOr (d : Node) (good : Prop) : Prop := (d.kind = .other ∧ d.children = []) ∨ good

variable (doc marks) in
/-- The `await_expression` of a call. -/
structure IsAwaitOf (n w : Node) : Prop where
  symbol : w.symbol = "await_expression"
  text : IsEdited ((doc.grown marks).textOf w)
  children : ∀ d ∈ w.children, IsTokenOr d (Shows doc marks n d)

variable (doc marks) in
/-- The parentheses around it. -/
structure IsWrapOf (n w : Node) : Prop where
  symbol : w.symbol = "parenthesized_expression"
  text : IsEdited ((doc.grown marks).textOf w)
  children : ∀ d ∈ w.children, IsTokenOr d (IsAwaitOf doc marks n d)

theorem textOf_of_depicts {s : Sketch} (h : Sketch.Depicts (doc.grown marks).chars s n) :
    (doc.grown marks).textOf n = s.text :=
  h.ofList_slice

theorem isTokenOr_of_token {t : String} {good : Prop} {chars : List Char}
    (h : Sketch.Depicts chars (.token t) d) (ht : Kind.ofSymbol t = .other) : IsTokenOr d good := by
  obtain ⟨hs, -, -, hc⟩ := children_of_token h
  exact Or.inl ⟨by rw [Node.kind, hs, ht], hc⟩

theorem isAwaitOf_of_depicts {fields : List Field}
    (h : Sketch.Depicts (doc.grown marks).chars
      ((marks n).awaitNode n.info (doc.inside marks n) fields) n') : IsAwaitOf doc marks n n' := by
  have htext : IsEdited ((doc.grown marks).textOf n') := by
    rw [textOf_of_depicts h, Mark.text_awaitNode]
    exact (IsEdited.of_mem (by decide)).append_right _
  cases h with
  | node symbol named fields text bounds row children =>
    refine ⟨symbol, htext, fun d hd => ?_⟩
    obtain ⟨s, hs, hsd⟩ := Sketch.exists_depicts children hd
    obtain ⟨k, hk⟩ := (marks n).exists_lead n.info
    obtain ⟨hs, hnode⟩ := List.mem_filter.1 hs
    rw [hk] at hs
    simp only [List.mem_append, List.mem_cons, List.not_mem_nil, or_false] at hs
    rcases hs with ((rfl | rfl) | hs) | rfl
    · exact isTokenOr_of_token hsd (by decide)
    · cases hnode
    · rcases Mark.mem_keywordTokens hs with rfl | rfl
      · exact isTokenOr_of_token hsd (by decide)
      · cases hnode
    · exact Or.inr hsd

namespace Holds

theorem shows_of_not_isAwait (h : Holds doc marks n n') (ha : (marks n).isAwait = false) :
    Shows doc marks n n' := by
  rwa [Holds, Mark.outer, if_neg (by simp [ha])] at h

theorem named_fields (h : Holds doc marks n n') :
    n'.info.named = n.info.named ∧ n'.info.fields = n.info.fields := by
  cases ha : (marks n).isAwait with
  | false =>
    have hs := h.shows_of_not_isAwait ha
    exact ⟨hs.named, hs.fields ha⟩
  | true =>
    rw [Holds, Mark.outer, if_pos ha, Mark.awaiting] at h
    split at h
    · cases h with
      | node symbol named fields text bounds row children => exact ⟨named, fields⟩
    · cases h with
      | node symbol named fields text bounds row children => exact ⟨named, fields⟩

theorem isAwaitOf_or (h : Holds doc marks n n') (ha : (marks n).isAwait) :
    IsAwaitOf doc marks n n' ∨ IsWrapOf doc marks n n' := by
  rw [Holds, Mark.outer, if_pos ha, Mark.awaiting] at h
  split at h
  · right
    have htext : IsEdited ((doc.grown marks).textOf n') := by
      rw [textOf_of_depicts h, Sketch.text, Sketch.texts, Sketch.texts, Mark.text_awaitNode]
      exact (((IsEdited.of_mem (by decide)).append_right _).append_right _).append_left _
    cases h with
    | node symbol named fields text bounds row children =>
      refine ⟨symbol, htext, fun d hd => ?_⟩
      obtain ⟨s, hs, hsd⟩ := Sketch.exists_depicts children hd
      obtain ⟨hs, -⟩ := List.mem_filter.1 hs
      simp only [List.mem_cons, List.not_mem_nil, or_false] at hs
      rcases hs with rfl | rfl | rfl
      · exact isTokenOr_of_token hsd (by decide)
      · exact Or.inr (isAwaitOf_of_depicts hsd)
      · exact isTokenOr_of_token hsd (by decide)
  · exact Or.inl (isAwaitOf_of_depicts h)

end Holds

/-- What a regular mark puts around a text shows, unless it is nothing. -/
theorem around_eq_or_isEdited {m : Mark} (h : m.IsRegular) (s : String) :
    String.join m.before ++ s ++ String.join m.after = s ∨
      IsEdited (String.join m.before ++ s ++ String.join m.after) := by
  have hedited : IsEdited (String.join m.before) →
      IsEdited (String.join m.before ++ s ++ String.join m.after) :=
    fun he => (he.append_right _).append_right _
  cases ha : m.isAwait with
  | true =>
    refine Or.inr (hedited ?_)
    rw [h.before, if_pos ha, List.singleton_append, String.join_cons]
    split
    · have hopen : IsEdited "(await " :=
        (IsEdited.of_mem (s := "await ") (by decide)).append_left "("
      exact hopen.append_right _
    · exact (IsEdited.of_mem (by decide)).append_right _
  | false =>
    have hw : m.isWrapped = false := by
      rw [Mark.isAwait, Bool.or_eq_false_iff] at ha
      exact ha.1
    cases hk : m.keywords with
    | zero =>
      left
      rw [h.before, h.after, ha, hw, hk]
      simp
    | succ k =>
      refine Or.inr (hedited ?_)
      rw [h.before, ha, hk, List.replicate_succ]
      simp only [Bool.false_eq_true, if_false, List.nil_append, String.join_cons]
      exact (IsEdited.of_mem (by decide)).append_right _

theorem texts_growRow (hw : doc.WellFormed) {cursor stop : Nat}
    (hc : ∀ c ∈ cs, c ∈ doc.nodes ∧ (Sketch.texts (doc.grow marks c) = doc.textOf c ∨
      IsEdited (Sketch.texts (doc.grow marks c))))
    (hb : Text.isBoundary doc.chars cursor) (hs : Text.isBoundary doc.chars stop)
    (hr : Node.InRow cursor cs stop) :
    Sketch.texts (doc.growRow marks cursor cs stop) = doc.slice cursor stop ∨
      IsEdited (Sketch.texts (doc.growRow marks cursor cs stop)) := by
  induction cs generalizing cursor with
  | nil =>
    left
    simp [Document.growRow, Sketch.texts, Sketch.text]
  | cons c cs ih =>
    obtain ⟨hr1, hr2, hr3⟩ := hr
    obtain ⟨hcn, hce⟩ := hc c List.mem_cons_self
    obtain ⟨hb1, hb2⟩ := hw.bounds c hcn
    have hrest := ih (fun x hx => hc x (List.mem_cons_of_mem _ hx)) hb2 hr3
    rw [Document.growRow, Sketch.texts, Sketch.text, Sketch.texts_append]
    rcases hce with hce | hce
    · rcases hrest with hre | hre
      · left
        rw [hce, hre, Document.textOf, Document.slice, Document.slice, Document.slice,
          Document.slice, ← String.ofList_append, ← String.ofList_append,
          Text.slice_join hb1 hb2 hs hr2 hr3.le, Text.slice_join hb hb1 hs hr1 (hr2.trans hr3.le)]
      · exact Or.inr ((hre.append_left _).append_left _)
    · exact Or.inr ((hce.append_right _).append_left _)

/-- Where an edit touches the inside of a node, the text shows it. -/
theorem texts_inside (hw : doc.WellFormed) (hm : doc.Marked marks) (hn : n ∈ doc.nodes) :
    (Sketch.texts (doc.inside marks n) = doc.textOf n ∧ (marks n).new = none) ∨
      IsEdited (Sketch.texts (doc.inside marks n)) := by
  induction n using Node.induction with
  | h i cs ih =>
    cases hnew : (marks (.mk i cs)).new with
    | some text =>
      right
      rw [Document.inside, hnew]
      simpa [Sketch.texts, Sketch.text] using (hm.renamed _ hn text hnew).1
    | none =>
      have hchild : ∀ c ∈ cs, c ∈ doc.nodes ∧ (Sketch.texts (doc.grow marks c) = doc.textOf c ∨
          IsEdited (Sketch.texts (doc.grow marks c))) := by
        intro c hc
        have hcn : c ∈ doc.nodes := Document.child_mem_nodes hn hc
        have hr := hm.regular c hcn
        refine ⟨hcn, ?_⟩
        rw [Document.grow_eq, Mark.texts_sprout hr]
        rcases ih c hc hcn with ⟨he, -⟩ | he
        · rw [← he]
          exact around_eq_or_isEdited hr _
        · exact Or.inr ((he.append_left _).append_right _)
      obtain ⟨hstart, hstop⟩ := hw.bounds _ hn
      rw [Document.inside, hnew]
      rcases texts_growRow hw hchild hstart hstop (hw.rows _ hn) with he | he
      · exact Or.inl ⟨he, rfl⟩
      · exact Or.inr he

/-- A node whose text shows no edit has the text that it had. -/
theorem Shows.textOf_eq (hw : doc.WellFormed) (hm : doc.Marked marks) (hn : n ∈ doc.nodes)
    (h : Shows doc marks n n') (he : ¬ IsEdited ((doc.grown marks).textOf n')) :
    doc.textOf n = (doc.grown marks).textOf n' ∧ (marks n).new = none := by
  have htext : (doc.grown marks).textOf n' = Sketch.texts (doc.inside marks n) := by
    rw [textOf_of_depicts h, Mark.core, Sketch.text] at he ⊢
    by_cases ht : Mark.takesKeywords n.info = true
    · rw [if_pos ht, Sketch.texts_append, Mark.texts_keywordTokens] at he ⊢
      cases hk : (marks n).keywords with
      | zero => simp
      | succ k =>
        rw [hk, List.replicate_succ, String.join_cons] at he
        exact absurd (((IsEdited.of_mem (by decide)).append_right _).append_right _) he
    · rw [if_neg ht]
  rcases texts_inside hw hm hn with ⟨h1, h2⟩ | h1
  · exact ⟨(htext.trans h1).symm, h2⟩
  · rw [htext] at he
    exact absurd h1 he

/-- An awaited call shows its `await`. -/
theorem Holds.shows_of_not_isEdited (h : Holds doc marks n n')
    (he : ¬ IsEdited ((doc.grown marks).textOf n')) : Shows doc marks n n' := by
  cases ha : (marks n).isAwait with
  | false => exact h.shows_of_not_isAwait ha
  | true =>
    rcases h.isAwaitOf_or ha with hw | hw
    · exact absurd hw.text he
    · exact absurd hw.text he

end Mirror
end Asyncify
