import Asyncify.Proofs.Settings

/-! The keys of a document that nobody knows. They leave the configuration alone as long as they can
be listed in order; if they cannot, the whole document is lost with them. -/
namespace Asyncify

namespace Config

variable {doc : Entries Value} {name : String}

/-- The entries of a document under known keys. -/
def knownPart (doc : Entries Value) : Entries Value :=
  .ofDistinct (doc.toList.filter fun e => isKnown e.1) (doc.distinct_toList.filter _)

theorem unknownKeys_knownPart (doc : Entries Value) : unknownKeys (knownPart doc) = [] := by
  simp [unknownKeys, knownPart, Entries.ofDistinct]

theorem get?_knownPart (h : isKnown (.text name)) :
    (knownPart doc).get? (.text name) = doc.get? (.text name) := by
  have hfound : ∀ e : Key × Value, (isKnown e.1 && e.1.same (.text name)) =
      e.1.same (.text name) := by
    intro e
    rw [Bool.and_eq_right_iff_imp]
    intro he
    rw [Key.same_text_iff.1 he]
    exact h
  rw [Entries.get?, Entries.get?, knownPart, Entries.toList_ofDistinct, List.find?_filter]
  simp only [Bool.decide_and, Bool.decide_eq_true, hfound]

theorem mergedRuleConfigs_knownPart (doc : Entries Value) :
    mergedRuleConfigs (knownPart doc) = mergedRuleConfigs doc := by
  rw [mergedRuleConfigs, mergedRuleConfigs, get?_knownPart (by decide)]

theorem assembled_knownPart (doc : Entries Value) : assembled (knownPart doc) = assembled doc := by
  have hfield : ∀ name unset, isKnown (.text name) →
      field (knownPart doc) name unset = field doc name unset := by
    intro name unset h
    rw [field, field, get?_knownPart h]
  funext v
  simp only [assembled, hfield "enabled_rules" _ (by decide), hfield "transforms" _ (by decide),
    hfield "plugins" _ (by decide), hfield "verbose" _ (by decide)]

theorem value_ofEntries (path : String) {keys : List Key}
    (h : Key.sort (unknownKeys doc) = .ok keys) :
    (ofEntries path doc).value = (mergedRuleConfigs doc).map (assembled doc) := by
  rw [(run_ofEntries path doc).2, h]
  rfl

theorem ofDocument_map (path : String) (doc : Entries Value) :
    ofDocument path (.map doc) = ofEntries path doc := by
  rw [ofDocument, orEmpty_map]

theorem load_of_ok (path : String) {c : Config} (h : (ofEntries path doc).value = .ok c) :
    (load path (.ok (.map doc))).run = ⟨.ok c, notice path doc⟩ := by
  rw [load_ok, ofDocument_map, (run_ofEntries path doc).1, h]

theorem load_of_error (path : String) {f : Fault} (h : (ofEntries path doc).value = .error f) :
    (load path (.ok (.map doc))).run =
      ⟨.ok standard, notice path doc ++ fallback path f.message⟩ := by
  rw [load_ok, ofDocument_map, (run_ofEntries path doc).1, h]

theorem load_of_comparable (path : String) (h : Key.Comparable (unknownKeys doc)) :
    ∃ c es, (load path (.ok (.map (knownPart doc)))).run = ⟨.ok c, es⟩ ∧
      (load path (.ok (.map doc))).run = ⟨.ok c, notice path doc ++ es⟩ := by
  obtain ⟨keys, hkeys⟩ := Key.exists_sort_iff.2 h
  have hnone : Key.sort (unknownKeys (knownPart doc)) = .ok [] := by
    rw [unknownKeys_knownPart]
    rfl
  have hquiet : notice path (knownPart doc) = [] := by rw [notice, hnone]
  have hwhole := value_ofEntries path hkeys
  have hpart := value_ofEntries path hnone
  rw [mergedRuleConfigs_knownPart, assembled_knownPart, ← hwhole] at hpart
  cases hv : (ofEntries path doc).value with
  | error f =>
    rw [load_of_error path hv, load_of_error path (hpart.trans hv), hquiet]
    exact ⟨standard, _, rfl, rfl⟩
  | ok c =>
    rw [load_of_ok path hv, load_of_ok path (hpart.trans hv), hquiet]
    exact ⟨c, [], rfl, by rw [List.append_nil]⟩

theorem load_of_not_comparable (path : String) (h : ¬ Key.Comparable (unknownKeys doc)) :
    ∃ why, (load path (.ok (.map doc))).run = ⟨.ok standard, fallback path why⟩ := by
  cases hkeys : Key.sort (unknownKeys doc) with
  | ok keys => exact (h (Key.exists_sort_iff.1 ⟨keys, hkeys⟩)).elim
  | error f =>
    have hquiet : notice path doc = [] := by rw [notice, hkeys]
    have hv : (ofEntries path doc).value = .error f := by
      rw [(run_ofEntries path doc).2, hkeys]
      rfl
    refine ⟨f.message, ?_⟩
    rw [load_of_error path hv, hquiet]
    rfl

/-- A document and the part of it under known keys give the same configuration, if the unknown keys
can be put in order: then they are named in one warning more, and that is all. If not, the
configuration is the standard one, and so it is the same just if the known part gives the standard
one as well. -/
theorem load_knownPart_iff (path : String) (doc : Entries Value) :
    ∃ whole part es, (load path (.ok (.map doc))).value = .ok whole ∧
      (load path (.ok (.map (knownPart doc)))).run = ⟨.ok part, es⟩ ∧
      (whole = part ↔ Key.Comparable (unknownKeys doc) ∨ part = standard) ∧
      (Key.Comparable (unknownKeys doc) →
        (load path (.ok (.map doc))).run = ⟨.ok part, notice path doc ++ es⟩) ∧
      (¬ Key.Comparable (unknownKeys doc) →
        ∃ why, (load path (.ok (.map doc))).run = ⟨.ok standard, fallback path why⟩) := by
  by_cases h : Key.Comparable (unknownKeys doc)
  · obtain ⟨c, es, hpart, hwhole⟩ := load_of_comparable path h
    exact ⟨c, c, es, congrArg Traced.value hwhole, hpart, iff_of_true rfl (Or.inl h),
      fun _ => hwhole, fun hnot => (hnot h).elim⟩
  · obtain ⟨why, hwhole⟩ := load_of_not_comparable path h
    have hsorted : Key.Comparable (unknownKeys (knownPart doc)) := by
      rw [unknownKeys_knownPart]
      exact Or.inl (Nat.zero_le 1)
    obtain ⟨c, es, -, hpart⟩ := load_of_comparable path hsorted
    refine ⟨standard, c, _, congrArg Traced.value hwhole, hpart, ?_, fun hc => (h hc).elim,
      fun _ => ⟨why, hwhole⟩⟩
    rw [or_iff_right h]
    exact eq_comm

end Config

namespace UnknownKeysSample

/-- Of the two keys that nobody knows, one is a number and the other a text. -/
def mixed : Entries Value :=
  .ofList [(.text "verbose", .bool true), (.int 1, .text "a"), (.text "foo", .text "b")]

/-- Both keys that nobody knows are numbers. -/
def numbered : Entries Value :=
  .ofList [(.int 2, .null), (.text "verbose", .bool true), (.bool false, .list [])]

theorem not_comparable : ¬ Key.Comparable (Config.unknownKeys mixed) := by
  rw [show Config.unknownKeys mixed = [.int 1, .text "foo"] from rfl]
  rintro (hlen | ⟨s, hs⟩)
  · exact absurd hlen (by decide)
  · have hone := hs (.int 1) List.mem_cons_self
    have htwo := hs (.text "foo") (by simp)
    cases hone
    cases htwo

end UnknownKeysSample

/-- Numbers and truth values can be put in order, and are ignored. -/
theorem Config.load_knownPart_numbered :
    Key.Comparable (unknownKeys UnknownKeysSample.numbered) ∧
      ∃ c, (load "c.yml" (.ok (.map UnknownKeysSample.numbered))).value = .ok c ∧
        c.verbose = .bool true := by
  have hnumbers : Key.Comparable (unknownKeys UnknownKeysSample.numbered) := by
    rw [show unknownKeys UnknownKeysSample.numbered = [.int 2, .bool false] from rfl]
    exact Or.inr ⟨.number, by simp [Key.scale?]⟩
  obtain ⟨whole, part, es, hwhole, hpart, hiff, -⟩ :=
    load_knownPart_iff "c.yml" UnknownKeysSample.numbered
  obtain rfl := hiff.2 (Or.inl hnumbers)
  refine ⟨hnumbers, whole, hwhole, ?_⟩
  have hknown : (load "c.yml" (.ok (.map (knownPart UnknownKeysSample.numbered)))).value =
      .ok (assembled (knownPart UnknownKeysSample.numbered) (.map standardRuleConfigs)) := rfl
  cases (congrArg Traced.value hpart).symm.trans hknown
  rfl

/-- A number and a text as further keys cost a document its known entries. -/
theorem Config.load_mixedKeys :
    (∃ c, (load "c.yml" (.ok (.map UnknownKeysSample.mixed))).value = .ok c ∧
      c.verbose = .bool false) ∧
      ∃ c, (load "c.yml" (.ok (.map (knownPart UnknownKeysSample.mixed)))).value = .ok c ∧
        c.verbose = .bool true := by
  obtain ⟨why, hload⟩ := load_of_not_comparable "c.yml" UnknownKeysSample.not_comparable
  exact ⟨⟨standard, congrArg Traced.value hload, rfl⟩, _, rfl, rfl⟩

end Asyncify
