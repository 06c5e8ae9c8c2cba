import Asyncify.Proofs.Reflection
import Asyncify.Proofs.Rewrites

/-! A rule that comes to the document grown from its first pass finds nothing there that it did not
see to. -/
namespace Asyncify

/-- The words that a rule looks for in a document, the keys of its table apart. -/
def soughtWords : List String :=
  ["require", Rule.oldRolesPackage, "FastRender", "onAllRoutes", "subscribe", "Meteor", "Roles"] ++
    Cursors.defaultQueryMethods

/-- No edit makes a word that a rule looks for. -/
theorem not_isEdited_of_mem {text : String} (h : text ∈ soughtWords) : ¬ IsEdited text := by
  have hall : ∀ text ∈ soughtWords, ¬ IsEdited text := by decide +kernel
  exact hall text h

namespace Mirror

variable {doc : Document} {marks : Node → Mark} {n n' : Node} {p p' a' f f' : Place}

theorem Mirrors.textOf_eq (hw : doc.WellFormed) (hm : doc.Marked marks) (h : Mirrors doc marks p p')
    {text : String} (ht : (doc.grown marks).textOf p'.node = text) (he : ¬ IsEdited text) :
    doc.textOf p.node = text ∧ (marks p.node).new = none := by
  subst ht
  exact h.node.textOf_eq hw hm h.mem he

/-- The parts of a place stand for the parts that it had, unless it has a new text. -/
theorem Mirrors.parts (hm : doc.Marked marks) (h : Mirrors doc marks p p')
    (hnew : (marks p.node).new = none) :
    List.Forall₂ (Stands doc marks) p.parts p'.parts := by
  have hparts (q : Place) : q.parts =
      (q.node.children.filter fun c => c.info.named && c.kind ≠ .comment).map q.below := by
    simp only [Place.parts, Place.namedChildren, Place.children, List.filter_map,
      List.filter_filter]
    congr 1
    exact List.filter_congr fun c _ => Bool.and_comm _ _
  have htest : ∀ c ∈ kept marks p.node, ∀ d, Holds doc marks c d →
      (d.info.named && d.kind ≠ .comment : Bool) = (c.info.named && c.kind ≠ .comment : Bool) := by
    intro c hc d hcd
    have hn := Document.child_mem_nodes h.mem (mem_kept hc).1
    simp [hcd.named_fields.1, hcd.kind_eq_iff hm hn (k := .comment) (by decide)]
  have hrel := h.node.row.filter (fun t ht => by simp [ht.named]) htest
  rw [hparts, hparts, List.forall₂_map_left_iff, List.forall₂_map_right_iff, ← kept_eq hnew]
  have hboth := (List.forall₂_and_left _ _).2 ⟨fun c hc => List.mem_of_mem_filter hc, hrel⟩
  exact hboth.imp fun c d hcd => h.below hcd.1 hcd.2

theorem Mirrors.parts_eq_nil (h : Mirrors doc marks p p') (hnew : (marks p.node).new ≠ none) :
    p'.parts = [] := by
  refine List.eq_nil_iff_forall_not_mem.2 fun a ha => hnew ?_
  obtain ⟨hchild, hnamed⟩ := List.mem_filter.1 (List.mem_of_mem_filter ha)
  refine h.new_eq_none (Place.node_mem_of_mem_children hchild).1 fun hk => ?_
  rw [hk.named] at hnamed
  cases hnamed

theorem Stands.kind_of_mem_children (hm : doc.Marked marks) (h : Stands doc marks p p')
    (ha : (marks p.node).isAwait) (hc : a' ∈ p'.children) :
    a'.kind = .other ∨ a'.kind = .call ∨ a'.kind = .awaited := by
  have hmem := (Place.node_mem_of_mem_children hc).1
  rcases h.node.isAwaitOf_or ha with hw | hw
  · rcases hw.children _ hmem with ht | hs
    · exact Or.inl ht.1
    · exact Or.inr (Or.inl (hs.kind.trans (hm.call _ h.mem ha)))
  · rcases hw.children _ hmem with ht | hs
    · exact Or.inl ht.1
    · exact Or.inr (Or.inr hs.kind)

/-- The arguments of a call stand for the arguments that it had. Where a call stood in the role of
the arguments, there is nothing that a rule looks for. -/
theorem Mirrors.callArguments (hm : doc.Marked marks) (h : Mirrors doc marks p p') :
    List.Forall₂ (Stands doc marks) p.callArguments p'.callArguments ∨
      ∀ a' ∈ p'.callArguments, a'.kind ≠ .string ∧ a'.isFunctionLiteral = false := by
  cases hc' : p'.child? .arguments with
  | none =>
    right
    intro a' ha
    simp [Place.callArguments, hc'] at ha
  | some args' =>
    obtain ⟨args, hc, hs⟩ := h.child? hc'
    have hargs' : p'.callArguments = args'.parts := by rw [Place.callArguments, hc']
    have hargs : p.callArguments = args.parts := by rw [Place.callArguments, hc]
    rw [hargs, hargs']
    cases ha : (marks args.node).isAwait with
    | false =>
      have hmir : Mirrors doc marks args args' :=
        ⟨hs.mem, hs.node.shows_of_not_isAwait ha, hs.above⟩
      by_cases hnew : (marks args.node).new = none
      · exact Or.inl (hmir.parts hm hnew)
      · rw [hmir.parts_eq_nil hnew]
        exact Or.inr fun a' ha' => absurd ha' List.not_mem_nil
    | true =>
      right
      intro a' ha'
      have hkind := hs.kind_of_mem_children hm ha
        (List.mem_of_mem_filter (List.mem_of_mem_filter ha'))
      rw [Place.isFunctionLiteral]
      rcases hkind with hk | hk | hk <;> simp [hk, Kind.isFunctionLiteral]

theorem Row.exists_holds {cs ds : List Node} {c : Node} (h : Row doc marks cs ds) (hc : c ∈ cs) :
    ∃ d ∈ ds, Holds doc marks c d := by
  induction h with
  | nil => cases hc
  | keyword _ _ ih =>
    obtain ⟨d, hd, hcd⟩ := ih hc
    exact ⟨d, List.mem_cons_of_mem _ hd, hcd⟩
  | cons hcd _ ih =>
    rcases List.mem_cons.1 hc with rfl | hc
    · exact ⟨_, List.mem_cons_self, hcd⟩
    · obtain ⟨d, hd, hcd⟩ := ih hc
      exact ⟨d, List.mem_cons_of_mem _ hd, hcd⟩

/-- A function that gets the keyword has it as a child. -/
theorem Shows.exists_async (h : Shows doc marks n n') (hf : n.kind.isFunction)
    (hk : 0 < (marks n).keywords) : ∃ d ∈ n'.children, d.symbol = "async" := by
  cases h with
  | @node _ j _ ds symbol named fields text bounds row children =>
    obtain ⟨k, hk⟩ := Nat.exists_eq_succ_of_ne_zero (Nat.pos_iff_ne_zero.1 hk)
    have ht : Mark.takesKeywords n.info = true := hf
    have hfirst : (if Mark.takesKeywords n.info = true then
        Mark.keywordTokens (marks n).keywords ++ doc.inside marks n else doc.inside marks n).filter
          Sketch.isNode =
        Sketch.token "async" :: (Mark.keywordTokens k ++ doc.inside marks n).filter
          Sketch.isNode := by
      rw [if_pos ht, hk]
      rfl
    rw [hfirst] at children
    obtain ⟨d, ds, hd, -, rfl⟩ := List.forall₂_cons_left_iff.1 children
    exact ⟨d, List.mem_cons_self, (children_of_token hd).1⟩

theorem isAsync_iff (hl : f.isFunctionLiteral) :
    f.isAsync ↔ ∃ c ∈ f.node.children, c.symbol = "async" := by
  have ht : f.asyncTarget? = some f := by
    rcases Place.kind_of_isFunctionLiteral hl with hk | hk <;> simp [Place.asyncTarget?, hk]
  simp [Place.isAsync, ht]

theorem Mirrors.isAsync (hm : doc.Marked marks) (h : Mirrors doc marks f f')
    (hl : f.isFunctionLiteral) (ha : f.isAsync ∨ 0 < (marks f.node).keywords) : f'.isAsync := by
  have hkind := Place.kind_of_isFunctionLiteral hl
  have hl' : f'.isFunctionLiteral := by rwa [Place.isFunctionLiteral, h.kind]
  rw [isAsync_iff hl']
  rcases ha with ha | ha
  · obtain ⟨c, hc, hs⟩ := (isAsync_iff hl).1 ha
    have hnew : (marks f.node).new = none := by
      cases hnew : (marks f.node).new with
      | none => rfl
      | some text =>
        have hk := (hm.renamed _ h.mem text hnew).2
        rw [show f.node.kind = f.kind from rfl] at hk
        rcases hkind with hf | hf <;> simp [hf] at hk
    obtain ⟨d, hd, hcd⟩ := h.node.row.exists_holds ((kept_eq hnew).symm ▸ hc)
    have hn := Document.child_mem_nodes h.mem hc
    exact ⟨d, hd, (hcd.symbol_eq_iff hm hn (by decide)).2 hs⟩
  · exact h.node.exists_async (Kind.isFunction_of_isFunctionLiteral hl) ha

end Mirror
namespace Rule

open Mirror

variable {doc : Document} {marks : Node → Mark} {w : Rewrite} {p p' q q' r r' : Place}

theorem isIdentifier_of_stands (hw : doc.WellFormed) (hm : doc.Marked marks) {name : String}
    (hname : ¬ IsEdited name) (h : Stands doc marks r r')
    (hi : (doc.grown marks).isIdentifier name r') : doc.isIdentifier name r := by
  obtain ⟨hk, ht⟩ := Bool.and_eq_true_iff.1 hi
  have hk : r'.kind = .identifier := of_decide_eq_true hk
  have hr := h.mirrors (by simp [hk])
  have htext := (hr.textOf_eq hw hm (of_decide_eq_true ht) hname).1
  simp [Document.isIdentifier, htext, ← hr.kind, hk]

/-- A call that is to be renamed was to be renamed before, so its name has a new text by now. -/
theorem Rewrite.renamed?_grown (hw : doc.WellFormed) (hm : doc.Marked marks)
    (hkeys : ∀ x ∈ w.methods, ¬ IsEdited x.1)
    (haccepts : ∀ r r', Stands doc marks r r' → w.accepts (doc.grown marks) r' → w.accepts doc r)
    (hdone : ∀ p ∈ doc.places, ∀ x, w.renamed? doc p = some x → (marks x.1.node).new.isSome)
    (hp : p' ∈ (doc.grown marks).places) : w.renamed? (doc.grown marks) p' = none := by
  rw [Option.eq_none_iff_forall_ne_some]
  intro x' hx
  obtain ⟨receiver', hc', ha', hb', hl'⟩ := renamed?_eq_some.1 hx
  have hkind := (Place.memberCall?_eq_some.1 hc').1
  obtain ⟨p, hp, hmir, -⟩ := exists_mirrors hp (by simp [hkind])
  obtain ⟨receiver, name, hc, hr, hn⟩ := hmir.memberCall? hc'
  obtain ⟨l, m, hsplit, -⟩ := List.lookup_eq_some_iff.1 hl'
  have hkey : ¬ IsEdited ((doc.grown marks).textOf x'.1.node) :=
    hkeys (_, x'.2) (hsplit ▸ List.mem_append_right _ List.mem_cons_self)
  obtain ⟨htext, hnew⟩ := hn.textOf_eq hw hm rfl hkey
  have hsome := hdone p hp (name, x'.2) (renamed?_eq_some.2
    ⟨receiver, hc, haccepts _ _ hr ha', (hmir.barrier?_eq_none hm).1 hb', htext ▸ hl'⟩)
  rw [hnew] at hsome
  cases hsome

theorem textOf?_child?_grown (hw : doc.WellFormed) (hm : doc.Marked marks)
    (h : Mirrors doc marks p p')
    {f : Field} {text : String} (he : ¬ IsEdited text) (hne : text ≠ "")
    (ht : (doc.grown marks).textOf? (p'.child? f) = text) : doc.textOf? (p.child? f) = text := by
  cases hc' : p'.child? f with
  | none =>
    rw [hc'] at ht
    exact absurd ht.symm hne
  | some c' =>
    rw [hc'] at ht
    have ht : (doc.grown marks).textOf c'.node = text := ht
    obtain ⟨c, hc, hs⟩ := h.child? hc'
    have hmc : Mirrors doc marks c c' := ⟨hs.mem, hs.node.shows_of_not_isEdited (ht ▸ he), hs.above⟩
    rw [hc]
    exact (hmc.textOf_eq hw hm ht he).1

/-- What an import or a `require` loads, it loaded before. -/
theorem loadedSource?_grown (hw : doc.WellFormed) (hm : doc.Marked marks)
    (h : Mirrors doc marks p p')
    (hq : loadedSource? (doc.grown marks) p' = some q') (hk : q'.kind = .string) :
    ∃ q, loadedSource? doc p = some q ∧ Mirrors doc marks q q' := by
  rw [loadedSource?] at hq
  rw [loadedSource?, ← h.kind]
  split at hq
  · next hi =>
    rw [if_pos hi]
    obtain ⟨q, hc, hs⟩ := h.child? hq
    exact ⟨q, hc, hs.mirrors (by simp [hk])⟩
  · next hi =>
    rw [if_neg hi]
    split at hq
    · next hr =>
      obtain ⟨hcall, ht⟩ := Bool.and_eq_true_iff.1 hr
      have he : ¬ IsEdited "require" := not_isEdited_of_mem (by simp [soughtWords])
      have htext := textOf?_child?_grown hw hm h he (by decide) (of_decide_eq_true ht)
      have hcond :
          (p'.kind = .call && doc.textOf? (p.child? .function) = "require" : Bool) = true := by
        simp [htext, of_decide_eq_true hcall]
      rw [if_pos hcond]
      split at hq
      · next x' hx =>
        cases hq
        rcases h.callArguments hm with hargs | hargs
        · rw [hx] at hargs
          obtain ⟨q, l, hs, hl, hcs⟩ := List.forall₂_cons_right_iff.1 hargs
          cases hl
          rw [hcs]
          exact ⟨q, rfl, hs.mirrors (by simp [hk])⟩
        · exact absurd hk (hargs _ (hx ▸ List.mem_cons_self)).1
      · cases hq
    · cases hq

theorem stringFragment?_eq (q : Place) :
    stringFragment? q = if q.kind = .string then
      (q.node.children.find? fun c => c.info.named && c.symbol = "string_fragment").map q.below
    else none := by
  rw [stringFragment?, Place.namedChildren, Place.children, List.find?_filter, List.find?_map]
  simp only [Function.comp_def, Bool.decide_and, Bool.decide_eq_true]
  rfl

/-- The piece of text in a string is where it was. -/
theorem stringFragment?_grown {f' : Place} (hm : doc.Marked marks) (h : Mirrors doc marks q q')
    (hs : stringFragment? q' = some f') :
    ∃ f, stringFragment? q = some f ∧ Mirrors doc marks f f' := by
  rw [stringFragment?_eq] at hs ⊢
  split at hs
  · next hk =>
    rw [if_pos (h.kind ▸ hk)]
    obtain ⟨d, hd, rfl⟩ := Option.map_eq_some_iff.1 hs
    have hds : d.symbol = "string_fragment" := by
      have hfound := List.find?_some hd
      simp only [Bool.and_eq_true, decide_eq_true_eq] at hfound
      exact hfound.2
    have hnew := h.new_eq_none (List.mem_of_find?_eq_some hd)
      fun hkey => absurd (hds.symm.trans hkey.symbol) (by decide)
    have htest : ∀ c ∈ q.node.children, ∀ d, Holds doc marks c d →
        (d.info.named && d.symbol = "string_fragment" : Bool) =
          (c.info.named && c.symbol = "string_fragment" : Bool) := by
      intro c hc d hcd
      have hn := Document.child_mem_nodes h.mem hc
      simp [hcd.named_fields.1, hcd.symbol_eq_iff hm hn (s := "string_fragment") (by decide)]
    have hrel := h.find?_rel hnew (fun t ht => by simp [ht.named]) htest
    rw [hd] at hrel
    cases hc : q.node.children.find? fun c => c.info.named && c.symbol = "string_fragment" with
    | none => rw [hc] at hrel; cases hrel
    | some c =>
      rw [hc] at hrel
      cases hrel with
      | some hst =>
        have hother : (q'.below d).kind = .other := by
          rw [Place.kind, Place.node_below, Node.kind, hds]
          rfl
        exact ⟨q.below c, rfl, hst.mirrors (by simp [hother])⟩
  · cases hs

/-- The old package is loaded nowhere, for wherever it was its name has a new text. -/
theorem oldPackageName?_grown (hw : doc.WellFormed) (hm : doc.Marked marks)
    (hdone : ∀ p ∈ doc.places, ∀ f, oldPackageName? doc p = some f → (marks f.node).new.isSome)
    (hp : p' ∈ (doc.grown marks).places) : oldPackageName? (doc.grown marks) p' = none := by
  rw [Option.eq_none_iff_forall_ne_some]
  intro f' hf'
  obtain ⟨hb', ht'⟩ := Option.filter_eq_some_iff.1 hf'
  obtain ⟨q', hq', hs'⟩ := Option.bind_eq_some_iff.1 hb'
  have hk : q'.kind = .string := by
    by_contra hk
    rw [stringFragment?, if_neg hk] at hs'
    cases hs'
  have hkind : p'.kind = .importStatement ∨ p'.kind = .call := by
    rw [loadedSource?] at hq'
    split at hq'
    · next h => exact Or.inl h
    · split at hq'
      · next h => exact Or.inr (of_decide_eq_true (Bool.and_eq_true_iff.1 h).1)
      · cases hq'
  obtain ⟨p, hp, hmir, -⟩ := exists_mirrors hp (by rcases hkind with h | h <;> simp [h])
  obtain ⟨q, hq, hmq⟩ := loadedSource?_grown hw hm hmir hq' hk
  obtain ⟨f, hf, hmf⟩ := stringFragment?_grown hm hmq hs'
  have he : ¬ IsEdited oldRolesPackage := not_isEdited_of_mem (by simp [soughtWords])
  obtain ⟨htext, hnew⟩ := hmf.textOf_eq hw hm (of_decide_eq_true ht') he
  have hsome := hdone p hp f (Option.filter_eq_some_iff.2
    ⟨Option.bind_eq_some_iff.2 ⟨q, hq, hf⟩, by simpa using htext⟩)
  rw [hnew] at hsome
  cases hsome

theorem isOnFastRender_of_mirrors (hw : doc.WellFormed) (hm : doc.Marked marks)
    (h : Mirrors doc marks p p') (hr : isOnFastRender (doc.grown marks) p') :
    isOnFastRender doc p := by
  have hr : (doc.grown marks).receiverName? p' = some "FastRender" := of_decide_eq_true hr
  rw [Document.receiverName?] at hr
  cases hc' : p'.memberCall? with
  | none => simp [hc'] at hr
  | some x =>
    rw [hc'] at hr
    dsimp only at hr
    split at hr
    · next hk =>
      obtain ⟨receiver, name, hc, hs, -⟩ := h.memberCall? hc'
      have hmr := hs.mirrors (by simp [hk])
      have he : ¬ IsEdited "FastRender" := not_isEdited_of_mem (by simp [soughtWords])
      have htext := (hmr.textOf_eq hw hm (Option.some.inj hr) he).1
      simp [isOnFastRender, Document.receiverName?, hc, ← hmr.kind, hk, htext]
    · cases hr

theorem methodName?_of_mirrors (hw : doc.WellFormed) (hm : doc.Marked marks)
    (h : Mirrors doc marks p p')
    {name : String} (he : ¬ IsEdited name) (hn : (doc.grown marks).methodName? p' = some name) :
    doc.methodName? p = some name := by
  obtain ⟨x, hc', ht⟩ := Option.map_eq_some_iff.1 hn
  obtain ⟨receiver, y, hc, -, hmn⟩ := h.memberCall? hc'
  rw [Document.methodName?, hc, Option.map_some, (hmn.textOf_eq hw hm ht he).1]

theorem isOnAllRoutes_of_mirrors (hw : doc.WellFormed) (hm : doc.Marked marks)
    (h : Mirrors doc marks p p') (hr : isOnAllRoutes (doc.grown marks) p') :
    isOnAllRoutes doc p := by
  obtain ⟨hon, hname⟩ := Bool.and_eq_true_iff.1 hr
  have he : ¬ IsEdited "onAllRoutes" := not_isEdited_of_mem (by simp [soughtWords])
  have hn := methodName?_of_mirrors hw hm h he (of_decide_eq_true hname)
  simp [isOnAllRoutes, isOnFastRender_of_mirrors hw hm h hon, hn]

theorem isSubscribe_of_mirrors (hw : doc.WellFormed) (hm : doc.Marked marks)
    (h : Mirrors doc marks p p') (hs : isSubscribe (doc.grown marks) p') : isSubscribe doc p := by
  rw [isSubscribe] at hs
  cases hc' : p'.memberCall? with
  | none => simp [hc'] at hs
  | some x =>
    rw [hc'] at hs
    obtain ⟨hk, ht⟩ := Bool.and_eq_true_iff.1 hs
    have hk : x.1.kind = .thisObject := of_decide_eq_true hk
    obtain ⟨receiver, name, hc, hst, hmn⟩ := h.memberCall? hc'
    have hmr := hst.mirrors (by simp [hk])
    have he : ¬ IsEdited "subscribe" := not_isEdited_of_mem (by simp [soughtWords])
    have htext := (hmn.textOf_eq hw hm (of_decide_eq_true ht) he).1
    simp [isSubscribe, hc, ← hmr.kind, hk, htext]

theorem kind_of_isSome_memberCall? (h : p.memberCall?.isSome) : p.kind = .call := by
  obtain ⟨x, hx⟩ := Option.isSome_iff_exists.1 h
  exact (Place.memberCall?_eq_some.1 hx).1

theorem kind_of_isOnFastRender (h : isOnFastRender doc p) : p.kind = .call := by
  apply kind_of_isSome_memberCall?
  cases hc : p.memberCall? with
  | none => simp [isOnFastRender, Document.receiverName?, hc] at h
  | some x => rfl

theorem kind_of_isSubscribe (h : isSubscribe doc p) : p.kind = .call := by
  apply kind_of_isSome_memberCall?
  cases hc : p.memberCall? with
  | none => simp [isSubscribe, hc] at h
  | some x => rfl

/-- The handlers of all routes are async by now. -/
theorem isAsync_handler_grown (hw : doc.WellFormed) (hm : doc.Marked marks)
    (hdone : ∀ p ∈ doc.places, isOnAllRoutes doc p → ∀ f, p.callArguments.head? = some f →
      f.isFunctionLiteral → f.isAsync ∨ 0 < (marks f.node).keywords)
    (hp : p' ∈ (doc.grown marks).places) (hr : isOnAllRoutes (doc.grown marks) p') {f' : Place}
    (hf : p'.callArguments.head? = some f') (hl : f'.isFunctionLiteral) : f'.isAsync := by
  have hkind := kind_of_isOnFastRender (Bool.and_eq_true_iff.1 hr).1
  obtain ⟨p, hp, hmir, -⟩ := exists_mirrors hp (by simp [hkind])
  rcases hmir.callArguments hm with hargs | hargs
  · obtain ⟨fs', hfs'⟩ := List.head?_eq_some_iff.1 hf
    rw [hfs'] at hargs
    obtain ⟨f, fs, hs, -, hfs⟩ := List.forall₂_cons_right_iff.1 hargs
    have hmf : Mirrors doc marks f f' :=
      hs.mirrors (by rcases Place.kind_of_isFunctionLiteral hl with hk | hk <;> simp [hk])
    have hlit : f.isFunctionLiteral := (hs.isFunctionLiteral hm).symm.trans hl
    exact hmf.isAsync hm hlit
      (hdone p hp (isOnAllRoutes_of_mirrors hw hm hmir hr) f (by rw [hfs]; rfl) hlit)
  · rw [(hargs f' (List.mem_of_mem_head? hf)).2] at hl
    cases hl

/-- The subscriptions for a route are awaited by now. -/
theorem isAwaited_subscribe_grown (hw : doc.WellFormed) (hm : doc.Marked marks)
    (hdone : ∀ p ∈ doc.places, isSubscribe doc p → p.ancestors.any (isOnFastRender doc) →
      p.barrier? = none → p.isAwaited ∨ (marks p.node).isAwait)
    (hp : p' ∈ (doc.grown marks).places) (hs : isSubscribe (doc.grown marks) p')
    (hr : p'.ancestors.any (isOnFastRender (doc.grown marks))) (hb : p'.barrier? = none) :
    p'.isAwaited := by
  obtain ⟨p, hp, hmir, hawait⟩ := exists_mirrors hp (by simp [kind_of_isSubscribe hs])
  have hany : p.ancestors.any (isOnFastRender doc) := by
    obtain ⟨q', hq', hon⟩ := List.any_eq_true.1 hr
    have hkind := kind_of_isOnFastRender hon
    rcases hmir.above.exists_mirrors hq' with ⟨q, hq, hmq⟩ | hk | hk
    · exact List.any_eq_true.2 ⟨q, hq, isOnFastRender_of_mirrors hw hm hmq hon⟩
    · exact absurd (hkind.symm.trans hk) (by decide)
    · exact absurd (hkind.symm.trans hk) (by decide)
  rcases hdone p hp (isSubscribe_of_mirrors hw hm hmir hs) hany ((hmir.barrier?_eq_none hm).1 hb)
    with ha | ha
  · exact hmir.isAwaited ha
  · exact hawait ha

theorem routeMove_grown (hw : doc.WellFormed) (hm : doc.Marked marks)
    (hroutes : ∀ p ∈ doc.places, isOnAllRoutes doc p → ∀ f, p.callArguments.head? = some f →
      f.isFunctionLiteral → f.isAsync ∨ 0 < (marks f.node).keywords)
    (hsubscribed : ∀ p ∈ doc.places, isSubscribe doc p → p.ancestors.any (isOnFastRender doc) →
      p.barrier? = none → p.isAwaited ∨ (marks p.node).isAwait)
    (hp : p' ∈ (doc.grown marks).places) : routeMove (doc.grown marks) p' = {} := by
  rw [routeMove]
  split
  · next hr =>
    have hnone : (p'.callArguments.head?.filter fun f => f.isFunctionLiteral && !f.isAsync) =
        none := by
      rw [Option.filter_eq_none_iff]
      intro f hf hlit
      obtain ⟨hl, hn⟩ : f.isFunctionLiteral ∧ f.isAsync = false := by simpa using hlit
      rw [isAsync_handler_grown hw hm hroutes hp hr hf hl] at hn
      cases hn
    rw [hnone]
    rfl
  · split
    · next hs =>
      simp only [Bool.and_eq_true, Option.isNone_iff_eq_none] at hs
      obtain ⟨⟨hs, hany⟩, hb⟩ := hs
      rw [Step.ofAwait, if_pos (isAwaited_subscribe_grown hw hm hsubscribed hp hs hany hb)]
    · rfl

end Rule

/-- The grammar has nothing inside an identifier. -/
def Document.IdentifiersPlain (doc : Document) : Prop :=
  ∀ n ∈ doc.nodes, n.kind = .identifier → n.children = []

namespace Cursors

open Mirror

variable {doc : Document} {marks : Node → Mark} {c : Cursors} {p p' : Place}

/-- An identifier keeps its text. -/
theorem textOf_identifier (hm : doc.Marked marks) (hi : doc.IdentifiersPlain)
    (h : Mirrors doc marks p p')
    (hk : p.kind = .identifier) : (doc.grown marks).textOf p'.node = doc.textOf p.node := by
  have hk : p.node.kind = .identifier := hk
  have hnew : (marks p.node).new = none := by
    cases hnew : (marks p.node).new with
    | none => rfl
    | some text =>
      have hkind := (hm.renamed _ h.mem text hnew).2
      simp [hk] at hkind
  have htakes : Mark.takesKeywords p.node.info = false := by
    show p.node.kind.isFunction = false
    rw [hk]
    rfl
  rw [textOf_of_depicts h.node, Mark.core, Sketch.text, if_neg (by simp [htakes]),
    Document.inside, hnew]
  simp [hi _ h.mem hk, Document.growRow, Sketch.texts, Sketch.text, Document.textOf]

theorem isQuery_of_stands (hw : doc.WellFormed) (hm : doc.Marked marks)
    (hc : ∀ m ∈ c.queryMethods, ¬ IsEdited m) (h : Stands doc marks p p')
    (hq : c.isQuery (doc.grown marks) p') : c.isQuery doc p := by
  rw [isQuery] at hq
  cases hn : (doc.grown marks).methodName? p' with
  | none => simp [hn] at hq
  | some m =>
    rw [hn] at hq
    have hmem : m ∈ c.queryMethods := by simpa using hq
    obtain ⟨x, hx, -⟩ := Option.map_eq_some_iff.1 hn
    have hkind := (Place.memberCall?_eq_some.1 hx).1
    have hmir := h.mirrors (by simp [hkind])
    rw [isQuery, Rule.methodName?_of_mirrors hw hm hmir (hc m hmem) hn]
    exact hq

theorem binding?_grown {target' value' : Place} (h : Mirrors doc marks p p')
    (hb : binding? p' = some (target', value')) :
    ∃ target value, binding? p = some (target, value) ∧ Stands doc marks target target' ∧
      Stands doc marks value value' := by
  have hpair {f g : Field}
      (hx : (do return (← p'.child? f, ← p'.child? g)) = some (target', value')) :
      ∃ target value, (do return (← p.child? f, ← p.child? g)) = some (target, value) ∧
        Stands doc marks target target' ∧ Stands doc marks value value' := by
    obtain ⟨t', ht', hx⟩ := Option.bind_eq_some_iff.1 hx
    obtain ⟨v', hv', hx⟩ := Option.bind_eq_some_iff.1 hx
    cases hx
    obtain ⟨target, ht, hts⟩ := h.child? ht'
    obtain ⟨value, hv, hvs⟩ := h.child? hv'
    exact ⟨target, value, by simp [ht, hv], hts, hvs⟩
  rw [binding?, h.kind] at hb
  rw [binding?]
  split at hb
  · exact hpair hb
  · exact hpair hb
  · cases hb

theorem mem_boundNames {name : String} :
    name ∈ c.boundNames doc ↔ ∃ p ∈ doc.places, c.boundName? doc p = some name := by
  rw [boundNames, List.mem_mergeSort, List.mem_eraseDups, List.mem_filterMap]

/-- No identifier is a cursor that was none before. -/
theorem boundNames_grown (hw : doc.WellFormed) (hm : doc.Marked marks) (hi : doc.IdentifiersPlain)
    (hc : ∀ m ∈ c.queryMethods, ¬ IsEdited m) {name : String}
    (hn : name ∈ c.boundNames (doc.grown marks)) : name ∈ c.boundNames doc := by
  obtain ⟨p', hp', hb'⟩ := mem_boundNames.1 hn
  rw [boundName?] at hb'
  cases hx : binding? p' with
  | none => simp [hx] at hb'
  | some x =>
    rw [hx] at hb'
    dsimp only at hb'
    split at hb'
    · next hcond =>
      obtain ⟨hk, hq⟩ := Bool.and_eq_true_iff.1 hcond
      have hk : x.1.kind = .identifier := of_decide_eq_true hk
      have hkind : p'.kind = .variableDeclarator ∨ p'.kind = .assignment := by
        rw [binding?] at hx
        split at hx
        · next h => exact Or.inl h
        · next h => exact Or.inr h
        · cases hx
      obtain ⟨p, hp, hmir, -⟩ := exists_mirrors hp' (by rcases hkind with h | h <;> simp [h])
      obtain ⟨target, value, hb, hts, hvs⟩ := binding?_grown hmir hx
      have hmt := hts.mirrors (by simp [hk])
      have hkt : target.kind = .identifier := hmt.kind ▸ hk
      refine mem_boundNames.2 ⟨p, hp, ?_⟩
      rw [boundName?, hb]
      rw [textOf_identifier hm hi hmt hkt] at hb'
      simpa [hkt, isQuery_of_stands hw hm hc hvs hq] using hb'
    · cases hb'

end Cursors

namespace Rule

open Mirror

variable {doc : Document} {marks : Node → Mark} {r r' p' : Place}

theorem permits_of_stands (hw : doc.WellFormed) (hm : doc.Marked marks) (hi : doc.IdentifiersPlain)
    (h : Stands doc marks r r')
    (hp : (cursorsOf (doc.grown marks)).permits (doc.grown marks) r') :
    (cursorsOf doc).permits doc r := by
  have hmethods : ∀ m ∈ Cursors.defaultQueryMethods, ¬ IsEdited m := fun m hm =>
    not_isEdited_of_mem (List.mem_append_right _ hm)
  rw [Cursors.permits, Bool.or_eq_true] at hp ⊢
  rcases hp with hq | hn
  · exact Or.inl (Cursors.isQuery_of_stands hw hm hmethods h hq)
  · right
    obtain ⟨hk, hn⟩ := Bool.and_eq_true_iff.1 hn
    have hk : r'.kind = .identifier := of_decide_eq_true hk
    have hmir := h.mirrors (by simp [hk])
    have hkr : r.kind = .identifier := hmir.kind ▸ hk
    have hmem := Cursors.boundNames_grown hw hm hi hmethods (List.contains_iff_mem.1 hn)
    rw [Cursors.textOf_identifier hm hi hmir hkr] at hmem
    exact Bool.and_eq_true_iff.2 ⟨by simp [hkr], List.contains_iff_mem.2 hmem⟩

end Rule
end Asyncify
