import Asyncify.Proofs.Mirror

/-! What the rules ask of a place in a grown document, they could have asked of the place that it
stands for. -/
namespace Asyncify

namespace Mirror

variable {doc : Document} {marks : Node → Mark} {n n' c d w : Node} {cs ds : List Node}

/-- Siblings that a test picks stand for siblings that a matching test picks. -/
theorem Row.filter {P Q : Node → Bool} (h : Row doc marks cs ds)
    (ht : ∀ t, IsKeyword t → Q t = false) (hd : ∀ c ∈ cs, ∀ d, Holds doc marks c d → Q d = P c) :
    List.Forall₂ (Holds doc marks) (cs.filter P) (ds.filter Q) := by
  induction h with
  | nil => exact .nil
  | keyword hk _ ih =>
    rw [List.filter_cons_of_neg (by simp [ht _ hk])]
    exact ih hd
  | @cons c d cs ds hcd _ ih =>
    have hrest := ih fun c hc => hd c (List.mem_cons_of_mem _ hc)
    have heq : Q d = P c := hd c List.mem_cons_self d hcd
    by_cases hp : P c = true
    · rw [List.filter_cons_of_pos hp, List.filter_cons_of_pos (heq.trans hp)]
      exact .cons hcd hrest
    · rw [List.filter_cons_of_neg hp, List.filter_cons_of_neg (by rwa [heq])]
      exact hrest

theorem Row.mem (h : Row doc marks cs ds) (hd : d ∈ ds) :
    IsKeyword d ∨ ∃ c ∈ cs, Holds doc marks c d := by
  induction h with
  | nil => cases hd
  | keyword hk _ ih =>
    rcases List.mem_cons.1 hd with rfl | hd
    · exact Or.inl hk
    · exact ih hd
  | cons hcd _ ih =>
    rcases List.mem_cons.1 hd with rfl | hd
    · exact Or.inr ⟨_, List.mem_cons_self, hcd⟩
    · rcases ih hd with hk | ⟨c, hc, hcd⟩
      · exact Or.inl hk
      · exact Or.inr ⟨c, List.mem_cons_of_mem _ hc, hcd⟩

theorem mem_kept (h : c ∈ kept marks n) : c ∈ n.children ∧ (marks n).new = none := by
  rw [kept] at h
  split at h
  · cases h
  · next hn => exact ⟨h, by simpa using hn⟩

theorem kept_eq (h : (marks n).new = none) : kept marks n = n.children := by
  rw [kept, h]
  rfl

variable (doc marks) in
/-- Ancestors stand for ancestors, with new `await` expressions and parentheses between them. -/
inductive Above : List Node → List Node → Prop
  | nil : Above [] []
  | node {n n' : Node} {ns ns' : List Node} (hn : n ∈ doc.nodes) (h : Shows doc marks n n')
      (hnew : (marks n).new = none) (above : Above ns ns') : Above (n :: ns) (n' :: ns')
  | wrapper {w : Node} {ns ns' : List Node} (hk : w.kind = .awaited ∨ w.kind = .parenthesized)
      (above : Above ns ns') : Above ns (w :: ns')

variable (doc marks) in
/-- The place stands for the given one, without an `await`. -/
structure Mirrors (p p' : Place) : Prop where
  mem : p.node ∈ doc.nodes
  node : Shows doc marks p.node p'.node
  above : Above doc marks p.above p'.above

variable (doc marks) in
/-- The place stands for the given one, with its `await` if there is one. -/
structure Stands (p p' : Place) : Prop where
  mem : p.node ∈ doc.nodes
  node : Holds doc marks p.node p'.node
  above : Above doc marks p.above p'.above

variable {p p' c' : Place}

theorem IsAwaitOf.kind (h : IsAwaitOf doc marks n w) : w.kind = .awaited := by
  rw [Node.kind, h.symbol]
  rfl

theorem IsWrapOf.kind (h : IsWrapOf doc marks n w) : w.kind = .parenthesized := by
  rw [Node.kind, h.symbol]
  rfl

theorem Holds.kind_of_isAwait (h : Holds doc marks n n') (ha : (marks n).isAwait) :
    n'.kind = .awaited ∨ n'.kind = .parenthesized := by
  rcases h.isAwaitOf_or ha with hw | hw
  · exact Or.inl hw.kind
  · exact Or.inr hw.kind

theorem Stands.mirrors (h : Stands doc marks p p')
    (hk : p'.kind ≠ .awaited ∧ p'.kind ≠ .parenthesized) :
    Mirrors doc marks p p' := by
  cases ha : (marks p.node).isAwait with
  | false => exact ⟨h.mem, h.node.shows_of_not_isAwait ha, h.above⟩
  | true =>
    rcases h.node.kind_of_isAwait ha with hw | hw
    · exact absurd hw hk.1
    · exact absurd hw hk.2

/-- A place is as it was, or it was a call and is awaited now. -/
theorem Stands.mirrors_or (hm : doc.Marked marks) (h : Stands doc marks p p') :
    Mirrors doc marks p p' ∨
      (p.kind = .call ∧ (p'.kind = .awaited ∨ p'.kind = .parenthesized)) := by
  cases ha : (marks p.node).isAwait with
  | false => exact Or.inl ⟨h.mem, h.node.shows_of_not_isAwait ha, h.above⟩
  | true => exact Or.inr ⟨hm.call _ h.mem ha, h.node.kind_of_isAwait ha⟩

namespace Mirrors

theorem kind (h : Mirrors doc marks p p') : p'.kind = p.kind := h.node.kind

theorem below (h : Mirrors doc marks p p') (hc : c ∈ kept marks p.node) (hd : Holds doc marks c d) :
    Stands doc marks (p.below c) (p'.below d) := by
  obtain ⟨hc, hnew⟩ := mem_kept hc
  exact ⟨Document.child_mem_nodes h.mem hc, hd, .node h.mem h.node hnew h.above⟩

/-- The first child that a test finds stands for the first one that a matching test finds. -/
theorem find?_rel {P Q : Node → Bool} (h : Mirrors doc marks p p')
    (hnew : (marks p.node).new = none) (ht : ∀ t, IsKeyword t → Q t = false)
    (hd : ∀ c ∈ p.node.children, ∀ d, Holds doc marks c d → Q d = P c) :
    Option.Rel (fun c d => Stands doc marks (p.below c) (p'.below d))
      (p.node.children.find? P) (p'.node.children.find? Q) := by
  have hrel := h.node.row.filter ht fun c hc => hd c (mem_kept hc).1
  rw [← kept_eq hnew, ← List.head?_filter, ← List.head?_filter]
  cases hcs : (kept marks p.node).filter P with
  | nil =>
    rw [hcs] at hrel
    rw [List.forall₂_nil_left_iff.1 hrel]
    exact .none
  | cons c cs =>
    rw [hcs] at hrel
    obtain ⟨d, ds, hcd, -, hds⟩ := List.forall₂_cons_left_iff.1 hrel
    have hmem : c ∈ kept marks p.node := List.mem_of_mem_filter (hcs ▸ List.mem_cons_self)
    rw [hds]
    exact .some (h.below hmem hcd)

theorem child?_rel (h : Mirrors doc marks p p') (hnew : (marks p.node).new = none) (f : Field) :
    Option.Rel (Stands doc marks) (p.child? f) (p'.child? f) := by
  have hrel := h.find?_rel hnew (fun t ht => by simp [ht.fields])
    fun c _ d hcd => congrArg (fun fs : List Field => fs.contains f) hcd.named_fields.2
  rw [Place.child?, Place.child?, Node.child?, Node.child?]
  revert hrel
  generalize p.node.children.find? _ = x
  generalize p'.node.children.find? _ = y
  intro hrel
  cases hrel with
  | none => exact .none
  | some hs => exact .some hs

/-- A node with a new text has no children left. -/
theorem new_eq_none (h : Mirrors doc marks p p') (hd : d ∈ p'.node.children) (hk : ¬ IsKeyword d) :
    (marks p.node).new = none := by
  rcases h.node.row.mem hd with hkey | ⟨c, hc, -⟩
  · exact absurd hkey hk
  · exact (mem_kept hc).2

theorem child? {f : Field} (h : Mirrors doc marks p p') (hc : p'.child? f = some c') :
    ∃ c, p.child? f = some c ∧ Stands doc marks c c' := by
  have hnew : (marks p.node).new = none := by
    obtain ⟨d, hd, rfl⟩ := Option.map_eq_some_iff.1 hc
    refine h.new_eq_none (Node.mem_children_of_child? hd) fun hk => ?_
    have hf := List.find?_some hd
    simp [hk.fields] at hf
  have hrel := h.child?_rel hnew f
  rw [hc] at hrel
  cases hp : p.child? f with
  | none => rw [hp] at hrel; cases hrel
  | some c =>
    rw [hp] at hrel
    cases hrel with
    | some hs => exact ⟨c, rfl, hs⟩

/-- A call of a method was one before: its name is where it was, and its receiver may be awaited. -/
theorem memberCall? {receiver' name' : Place} (h : Mirrors doc marks p p')
    (hc : p'.memberCall? = some (receiver', name')) :
    ∃ receiver name, p.memberCall? = some (receiver, name) ∧ Stands doc marks receiver receiver' ∧
      Mirrors doc marks name name' := by
  obtain ⟨hk, callee', hf, hck, ho, hn, hnk⟩ := Place.memberCall?_eq_some.1 hc
  obtain ⟨callee, hfc, hs⟩ := h.child? hf
  have hcallee := hs.mirrors (by simp [hck])
  obtain ⟨receiver, hr, hrs⟩ := hcallee.child? ho
  obtain ⟨name, hname, hns⟩ := hcallee.child? hn
  have hmn := hns.mirrors (by simp [hnk])
  refine ⟨receiver, name, ?_, hrs, hmn⟩
  exact Place.memberCall?_eq_some.2 ⟨h.kind ▸ hk, callee, hfc, hcallee.kind ▸ hck, hr, hname,
    hmn.kind ▸ hnk⟩

end Mirrors

/-- A kind that has nothing to do with `await` is where it was. -/
theorem Holds.kind_eq_iff (hm : doc.Marked marks) (hn : n ∈ doc.nodes) (h : Holds doc marks n n')
    {k : Kind} (hk : k ≠ .call ∧ k ≠ .awaited ∧ k ≠ .parenthesized) : n'.kind = k ↔ n.kind = k := by
  cases ha : (marks n).isAwait with
  | false => rw [(h.shows_of_not_isAwait ha).kind]
  | true =>
    have hcall := hm.call n hn ha
    constructor
    · intro hn'
      rcases h.kind_of_isAwait ha with hw | hw
      · exact absurd (hn'.symm.trans hw) hk.2.1
      · exact absurd (hn'.symm.trans hw) hk.2.2
    · intro hn
      exact absurd (hn.symm.trans hcall) hk.1

/-- A symbol that has nothing to do with `await` is where it was. -/
theorem Holds.symbol_eq_iff (hm : doc.Marked marks) (hn : n ∈ doc.nodes) (h : Holds doc marks n n')
    {s : String} (hs : Kind.ofSymbol s ≠ .call ∧ Kind.ofSymbol s ≠ .awaited ∧
      Kind.ofSymbol s ≠ .parenthesized) : n'.symbol = s ↔ n.symbol = s := by
  cases ha : (marks n).isAwait with
  | false => rw [(h.shows_of_not_isAwait ha).symbol]
  | true =>
    have hcall := hm.call n hn ha
    constructor
    · rintro rfl
      rcases h.kind_of_isAwait ha with hk | hk
      · exact absurd hk hs.2.1
      · exact absurd hk hs.2.2
    · rintro rfl
      exact absurd hcall hs.1

end Mirror

namespace Place

/-- Whether an ancestor lets `await` stand below it, if it decides that. -/
def decision (q : Place) : Option Bool :=
  match q.verdict with
  | .allowed => some true
  | .refused _ => some false
  | .undecided => none

theorem isNone_barrier? (p : Place) :
    p.barrier?.isNone = (p.ancestors.findSome? decision).getD true := by
  rw [barrier?]
  induction p.ancestors with
  | nil => rfl
  | cons q qs ih =>
    rw [firstBarrier?, List.findSome?_cons, decision]
    cases q.verdict with
    | allowed => rfl
    | refused b => rfl
    | undecided => exact ih

theorem decision_eq (q : Place) :
    q.decision =
      if q.kind = .field ∨ q.kind = .parameters then some false
      else if q.isFunctionLike then some !(q.kind = .method && q.isAccessor)
      else none := by
  rw [decision, verdict]
  by_cases hf : q.kind = .field
  · simp [hf]
  by_cases hp : q.kind = .parameters
  · simp [hp]
  have hn : ¬ (q.kind = .field ∨ q.kind = .parameters) := by simp [hf, hp]
  rw [if_neg hf, if_neg hp, if_neg hn]
  by_cases hl : q.isFunctionLike = true
  · rw [if_pos hl, if_pos hl]
    by_cases hk : q.kind = .property
    · -- the value of such a property is a function literal, so it is no accessor
      obtain ⟨v, hv, hlit⟩ := exists_value_of_isFunctionLike hk hl
      rcases kind_of_isFunctionLiteral hlit with hvk | hvk <;> simp [asyncTarget?, hk, hv, hvk]
    · have ht : q.asyncTarget? = some q := by simp [asyncTarget?, hk]
      rw [ht]
      cases hr : (q.kind = .method && q.isAccessor : Bool) <;> simp [hr]
  · rw [if_neg hl, if_neg hl]

end Place
namespace Mirror

variable {doc : Document} {marks : Node → Mark} {n n' c d w : Node} {ns ns' : List Node}
  {p p' q' : Place}

theorem Stands.isFunctionLiteral (hm : doc.Marked marks) (h : Stands doc marks p p') :
    p'.isFunctionLiteral = p.isFunctionLiteral := by
  rw [Place.isFunctionLiteral, Place.isFunctionLiteral]
  rcases h.mirrors_or hm with hp | ⟨hk, hk' | hk'⟩
  · rw [hp.kind]
  · rw [hk, hk']
    rfl
  · rw [hk, hk']
    rfl

namespace Mirrors

theorem isFunctionLike (hm : doc.Marked marks) (h : Mirrors doc marks p p')
    (hnew : (marks p.node).new = none) : p'.isFunctionLike = p.isFunctionLike := by
  have hvalue : ((p'.child? .value).map Place.isFunctionLiteral).getD false =
      ((p.child? .value).map Place.isFunctionLiteral).getD false := by
    have hrel := h.child?_rel hnew .value
    revert hrel
    generalize p.child? .value = x
    generalize p'.child? .value = y
    intro hrel
    cases hrel with
    | none => rfl
    | some hs => exact hs.isFunctionLiteral hm
  rw [Place.isFunctionLike, Place.isFunctionLike, h.kind, hvalue]

theorem isAccessor (hm : doc.Marked marks) (h : Mirrors doc marks p p')
    (hnew : (marks p.node).new = none) : p'.isAccessor = p.isAccessor := by
  have hsymbol : ∀ c ∈ p.node.children, ∀ d, Holds doc marks c d →
      (d.symbol = "get" || d.symbol = "set" : Bool) =
        (c.symbol = "get" || c.symbol = "set" : Bool) := by
    intro c hc d hcd
    have hn := Document.child_mem_nodes h.mem hc
    have hget := hcd.symbol_eq_iff hm hn (s := "get") (by decide)
    have hset := hcd.symbol_eq_iff hm hn (s := "set") (by decide)
    simp [hget, hset]
  have hrel := h.find?_rel hnew (fun t ht => by simp [ht.symbol]) hsymbol
  rw [Place.isAccessor, Place.isAccessor, ← List.isSome_find?, ← List.isSome_find?]
  exact Lists.isSome_eq_of_rel hrel

/-- An ancestor decides about `await` as it did. -/
theorem decision (hm : doc.Marked marks) (h : Mirrors doc marks p p')
    (hnew : (marks p.node).new = none) : p'.decision = p.decision := by
  rw [Place.decision_eq, Place.decision_eq, h.kind, h.isFunctionLike hm hnew, h.isAccessor hm hnew]

end Mirrors

namespace Above

theorem findSome?_decision (hm : doc.Marked marks) (h : Above doc marks ns ns') :
    (Place.chain ns').findSome? Place.decision = (Place.chain ns).findSome? Place.decision := by
  induction h with
  | nil => rfl
  | @node n n' ns ns' hn hs hnew above ih =>
    have hd : Place.decision ⟨n', ns'⟩ = Place.decision ⟨n, ns⟩ :=
      Mirrors.decision hm ⟨hn, hs, above⟩ hnew
    rw [Place.chain, Place.chain, List.findSome?_cons, List.findSome?_cons, hd, ih]
  | @wrapper w ns ns' hk above ih =>
    have hd : Place.decision ⟨w, ns'⟩ = none := by
      rw [Place.decision_eq, Place.isFunctionLike, Place.kind]
      rcases hk with hk | hk <;> simp [hk, Kind.isFunction]
    rw [Place.chain, List.findSome?_cons, hd, ih]

theorem awaitedBy (h : Above doc marks ns ns') (ha : Place.awaitedBy ns) : Place.awaitedBy ns' := by
  induction h with
  | nil => exact ha
  | node hn hs hnew above ih =>
    rw [Place.awaitedBy] at ha ⊢
    rw [hs.kind]
    split at ha
    · next hk =>
      rw [if_pos hk]
      exact ih ha
    · next hk => rwa [if_neg hk]
  | wrapper hk above ih =>
    rw [Place.awaitedBy]
    rcases hk with hk | hk
    · simp [hk]
    · rw [if_pos hk]
      exact ih ha

theorem exists_mirrors (h : Above doc marks ns ns') (hq : q' ∈ Place.chain ns') :
    (∃ q ∈ Place.chain ns, Mirrors doc marks q q') ∨
      (q'.kind = .awaited ∨ q'.kind = .parenthesized) := by
  induction h with
  | nil => cases hq
  | node hn hs hnew above ih =>
    rcases List.mem_cons.1 hq with rfl | hq
    · exact Or.inl ⟨_, List.mem_cons_self, hn, hs, above⟩
    · rcases ih hq with ⟨q, hq, hmq⟩ | hk
      · exact Or.inl ⟨q, List.mem_cons_of_mem _ hq, hmq⟩
      · exact Or.inr hk
  | wrapper hk above ih =>
    rcases List.mem_cons.1 hq with rfl | hq
    · exact Or.inr hk
    · exact ih hq

end Above

namespace Mirrors

theorem barrier?_eq_none (hm : doc.Marked marks) (h : Mirrors doc marks p p') :
    p'.barrier? = none ↔ p.barrier? = none := by
  rw [← Option.isNone_iff_eq_none, ← Option.isNone_iff_eq_none, Place.isNone_barrier?,
    Place.isNone_barrier?, Place.ancestors, Place.ancestors, h.above.findSome?_decision hm]

theorem isAwaited (h : Mirrors doc marks p p') (ha : p.isAwaited) : p'.isAwaited :=
  h.above.awaitedBy ha

end Mirrors

variable (doc marks) in
/-- The place is a token, an `await` or a parenthesis, or it stands for a place below the node and
is awaited if that one is to be. -/
def IsFound (above : List Node) (n : Node) (p' : Place) : Prop :=
  (∃ p ∈ Place.under above n, Mirrors doc marks p p' ∧ ((marks p.node).isAwait → p'.isAwaited)) ∨
    p'.kind = .awaited ∨ p'.kind = .parenthesized ∨ p'.kind = .other

variable {above above' : List Node}

theorem IsFound.of_child (hc : c ∈ n.children) (h : IsFound doc marks (n :: above) c p') :
    IsFound doc marks above n p' := by
  rcases h with ⟨p, hp, h⟩ | hk
  · refine Or.inl ⟨p, ?_, h⟩
    rw [Place.under_eq]
    exact List.mem_cons_of_mem _ (List.mem_flatMap.2 ⟨c, hc, hp⟩)
  · exact Or.inr hk

theorem isFound_of_token (hd : d.kind = .other ∧ d.children = []) (hp : p' ∈ Place.under above' d) :
    IsFound doc marks above n p' := by
  rw [Place.under_eq, hd.2] at hp
  obtain rfl : p' = ⟨d, above'⟩ := by simpa using hp
  exact Or.inr (Or.inr (Or.inr hd.1))

/-- Below a node that stands for another there are only tokens and what stands for its children. -/
theorem isFound_of_shows (hn : n ∈ doc.nodes) (habove : Above doc marks above above')
    (ha : (marks n).isAwait → Place.awaitedBy above') (hs : Shows doc marks n n')
    (hchild : ∀ c ∈ n.children, ∀ d, Holds doc marks c d → (marks n).new = none →
      p' ∈ Place.under (n' :: above') d → IsFound doc marks (n :: above) c p')
    (hp : p' ∈ Place.under above' n') : IsFound doc marks above n p' := by
  rw [Place.under_eq] at hp
  rcases List.mem_cons.1 hp with rfl | hp
  · refine Or.inl ⟨⟨n, above⟩, ?_, ⟨hn, hs, habove⟩, ha⟩
    rw [Place.under_eq]
    exact List.mem_cons_self
  · obtain ⟨d, hd, hp⟩ := List.mem_flatMap.1 hp
    rcases hs.row.mem hd with hk | ⟨c, hc, hcd⟩
    · have hkind : d.kind = .other := by
        rw [Node.kind, hk.symbol]
        rfl
      exact isFound_of_token ⟨hkind, hk.children⟩ hp
    · obtain ⟨hc, hnew⟩ := mem_kept hc
      exact .of_child hc (hchild c hc d hcd hnew hp)

theorem isFound_of_isAwaitOf (hw : IsAwaitOf doc marks n w)
    (hcore : ∀ d, Shows doc marks n d → p' ∈ Place.under (w :: above') d →
      IsFound doc marks above n p')
    (hp : p' ∈ Place.under above' w) : IsFound doc marks above n p' := by
  rw [Place.under_eq] at hp
  rcases List.mem_cons.1 hp with rfl | hp
  · exact Or.inr (Or.inl hw.kind)
  · obtain ⟨d, hd, hp⟩ := List.mem_flatMap.1 hp
    rcases hw.children d hd with ht | hs
    · exact isFound_of_token ht hp
    · exact hcore d hs hp

theorem isFound_of_isWrapOf (hw : IsWrapOf doc marks n w)
    (hawait : ∀ d, IsAwaitOf doc marks n d → p' ∈ Place.under (w :: above') d →
      IsFound doc marks above n p')
    (hp : p' ∈ Place.under above' w) : IsFound doc marks above n p' := by
  rw [Place.under_eq] at hp
  rcases List.mem_cons.1 hp with rfl | hp
  · exact Or.inr (Or.inr (Or.inl hw.kind))
  · obtain ⟨d, hd, hp⟩ := List.mem_flatMap.1 hp
    rcases hw.children d hd with ht | hs
    · exact isFound_of_token ht hp
    · exact hawait d hs hp

theorem isFound_of_holds (n : Node) (hn : n ∈ doc.nodes) (habove : Above doc marks above above')
    (hh : Holds doc marks n n') (hp : p' ∈ Place.under above' n') :
    IsFound doc marks above n p' := by
  induction n using Node.induction generalizing above above' n' with
  | h i cs ih =>
    -- the node itself, below whatever came in around it
    have hcore : ∀ {ws : List Node} {d : Node}, Above doc marks above ws →
        ((marks (.mk i cs)).isAwait → Place.awaitedBy ws) → Shows doc marks (.mk i cs) d →
        p' ∈ Place.under ws d → IsFound doc marks above (.mk i cs) p' := by
      intro ws d hws ha hs hp
      refine isFound_of_shows hn hws ha hs (fun c hc e hce hnew hp => ?_) hp
      exact ih c hc (Document.child_mem_nodes hn hc) (.node hn hs hnew hws) hce hp
    have hawait : ∀ {ws : List Node} {w : Node}, Above doc marks above ws →
        IsAwaitOf doc marks (.mk i cs) w → p' ∈ Place.under ws w →
        IsFound doc marks above (.mk i cs) p' := by
      intro ws w hws hw hp
      refine isFound_of_isAwaitOf hw (fun d hs hp => ?_) hp
      refine hcore (.wrapper (Or.inl hw.kind) hws) (fun _ => ?_) hs hp
      simp [Place.awaitedBy, hw.kind]
    cases ha : (marks (.mk i cs)).isAwait with
    | false => exact hcore habove (by simp [ha]) (hh.shows_of_not_isAwait ha) hp
    | true =>
      rcases hh.isAwaitOf_or ha with hw | hw
      · exact hawait habove hw hp
      · refine isFound_of_isWrapOf hw (fun d hd hp => ?_) hp
        exact hawait (.wrapper (Or.inr hw.kind) habove) hd hp

/-- Every place of the grown document that the rules look at stands for a place of the document. -/
theorem exists_mirrors (hp : p' ∈ (doc.grown marks).places)
    (hk : p'.kind ≠ .awaited ∧ p'.kind ≠ .parenthesized ∧ p'.kind ≠ .other) :
    ∃ p ∈ doc.places, Mirrors doc marks p p' ∧ ((marks p.node).isAwait → p'.isAwaited) := by
  rw [Document.places_eq_under] at hp ⊢
  rcases isFound_of_holds doc.root doc.root_mem_nodes .nil (doc.depicts_root_grown marks) hp
    with h | h
  · exact h
  · rcases h with h | h | h
    · exact absurd h hk.1
    · exact absurd h hk.2.1
    · exact absurd h hk.2.2

end Mirror
end Asyncify
