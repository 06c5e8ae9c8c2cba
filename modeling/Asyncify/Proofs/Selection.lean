import Asyncify.Proofs.Globs
import Asyncify.Proofs.Registrations
import Asyncify.Proofs.Settings

/-! The rules that patterns select. Of the patterns and of the ids that are switched off only the
sets matter, and the rules stay in the order in which they run. -/
namespace Asyncify

/-- A list of texts. -/
def Value.texts (ss : List String) : Value := .list (ss.map .text)

namespace Registry

variable {r : Registry} {patterns disabled : List String} {id : String}

/-- The id is not switched off, and fits a pattern. -/
def isChosen (patterns disabled : List String) (id : String) : Bool :=
  !disabled.contains id && patterns.any fun p => Wildcard.isMatch p id

theorem isChosen_iff : isChosen patterns disabled id ↔
    id ∉ disabled ∧ ∃ p ∈ patterns, Wildcard.Fits p.toList id.toList := by
  simp [isChosen, Wildcard.isMatch_iff]

theorem isChosen_congr {ps ds : List String} (hp : ∀ p, p ∈ ps ↔ p ∈ patterns)
    (hd : ∀ d, d ∈ ds ↔ d ∈ disabled) : isChosen ps ds = isChosen patterns disabled := by
  funext id
  rw [Bool.eq_iff_iff, isChosen_iff, isChosen_iff, hd]
  simp only [hp]

theorem isChosen_cons_disabled (patterns disabled : List String) (d id : String) :
    isChosen patterns (d :: disabled) id = (isChosen patterns disabled id && id ≠ d) := by
  rw [Bool.eq_iff_iff, Bool.and_eq_true, isChosen_iff, isChosen_iff]
  simp only [List.mem_cons, not_or, decide_eq_true_eq]
  rw [and_assoc, and_comm]

theorem isChosen_cons_pattern (p : String) (h : isChosen patterns disabled id) :
    isChosen (p :: patterns) disabled id := by
  obtain ⟨hd, q, hq, hf⟩ := isChosen_iff.1 h
  exact isChosen_iff.2 ⟨hd, q, List.mem_cons_of_mem _ hq, hf⟩

theorem isChosen_of_star (h : "*" ∈ patterns) :
    isChosen patterns disabled id = decide (id ∉ disabled) := by
  rw [Bool.eq_iff_iff, isChosen_iff, decide_eq_true_iff]
  exact and_iff_left ⟨"*", h, Wildcard.Fits.star_self _⟩

theorem isChosen_plain {p : String} (hp : ∀ c ∈ p.toList, c ∉ ['*', '?', '[']) :
    isChosen [p] disabled id = (decide (id ∉ disabled) && decide (id = p)) := by
  rw [Bool.eq_iff_iff, Bool.and_eq_true, isChosen_iff, decide_eq_true_iff, decide_eq_true_iff]
  simp [Wildcard.fits_iff_eq hp, String.toList_inj]

theorem matchesAny_texts (id : String) (patterns : List String) :
    matchesAny id (patterns.map .text) = .ok (patterns.any fun p => Wildcard.isMatch p id) := by
  induction patterns with
  | nil => rfl
  | cons p ps ih =>
    rw [List.map_cons, matchesAny, ih, List.any_cons]
    cases Wildcard.isMatch p id <;> rfl

theorem any_same_texts (disabled : List String) (id : String) :
    ((disabled.map Key.text).any fun d => d.same (.text id)) = disabled.contains id := by
  rw [List.any_map, Bool.eq_iff_iff, List.any_eq_true, List.contains_iff_mem]
  simp [Key.same_text_iff]

theorem selects_texts (patterns disabled : List String) (id : String) :
    selects (.texts patterns) (disabled.map .text) id = .ok (isChosen patterns disabled id) := by
  rw [selects, any_same_texts, isChosen]
  cases disabled.contains id with
  | true => rfl
  | false => exact matchesAny_texts id patterns

/-- Where the choice never fails, the rules are filtered by it. -/
theorem filterRules_eq {keep : String → Except Fault Bool} {f : String → Bool}
    (h : ∀ id, keep id = .ok (f id))
    (rules : List Rule) : filterRules keep rules = .ok (rules.filter fun x => f x.info.id) := by
  induction rules with
  | nil => rfl
  | cons x xs ih =>
    rw [filterRules, h, ih, List.filter_cons]
    rfl

theorem enabled_texts (r : Registry) (patterns disabled : List String) :
    r.enabled (.texts patterns) (.texts disabled) =
      .ok (r.rules.filter fun x => isChosen patterns disabled x.info.id) := by
  cases patterns with
  | nil =>
    have hnone : (r.rules.filter fun x => isChosen [] disabled x.info.id) = [] := by simp [isChosen]
    rw [hnone]
    rfl
  | cons p ps =>
    have hkeys : (disabled.map Value.text).mapM Value.key = .ok (disabled.map .text) := by
      rw [Except.mapM_eq_ok_iff, List.map_map, List.map_map]
      rfl
    show ((disabled.map Value.text).mapM Value.key >>= fun _ => filterRules _ r.rules) = _
    rw [hkeys]
    exact filterRules_eq (selects_texts (p :: ps) disabled) r.rules

theorem Sound.filter_id (h : r.Sound) (id : String) :
    (r.rules.filter fun x => x.info.id = id) = (r.get? id).toList := by
  rw [h.get?_eq_find?]
  have hnodup := h.nodup
  generalize r.rules = rules at hnodup ⊢
  induction rules with
  | nil => rfl
  | cons x xs ih =>
    obtain ⟨hx, hxs⟩ := List.nodup_cons.1 hnodup
    by_cases hid : x.info.id = id
    · have hnone : (xs.filter fun y => y.info.id = id) = [] := by
        refine List.filter_eq_nil_iff.2 fun y hy he => hx (List.mem_map.2 ⟨y, hy, ?_⟩)
        exact (of_decide_eq_true he).trans hid.symm
      simp [hid, hnone]
    · simpa [hid] using ih hxs

/-- After any calls, texts as patterns select a part of the rules in their order, none of them
twice: those whose ids are not switched off and fit a pattern. Neither the order nor repetitions in
the two lists matter. A further pattern takes no rule away, a further id that is switched off takes
its rule away and no other, `*` selects all that is not switched off, and a pattern without
wildcards selects no rule but the one of this very id. -/
theorem enabled_after_calls (calls : List Call) (patterns disabled : List String) :
    let r := calls.foldl perform {}
    ∃ chosen, r.enabled (.texts patterns) (.texts disabled) = .ok chosen ∧
      chosen.Sublist r.rules ∧ (chosen.map (·.info.id)).Nodup ∧
      (∀ x, x ∈ chosen ↔ x ∈ r.rules ∧ x.info.id ∉ disabled ∧
        ∃ p ∈ patterns, Wildcard.Fits p.toList x.info.id.toList) ∧
      (∀ ps ds : List String, (∀ p, p ∈ ps ↔ p ∈ patterns) → (∀ d, d ∈ ds ↔ d ∈ disabled) →
        r.enabled (.texts ps) (.texts ds) = .ok chosen) ∧
      (∀ p, ∃ more, r.enabled (.texts (p :: patterns)) (.texts disabled) = .ok more ∧
        chosen.Sublist more) ∧
      (∀ d, r.enabled (.texts patterns) (.texts (d :: disabled)) =
        .ok (chosen.filter fun x => x.info.id ≠ d)) ∧
      ("*" ∈ patterns → chosen = r.rules.filter fun x => x.info.id ∉ disabled) ∧
      ∀ p : String, (∀ c ∈ p.toList, c ∉ ['*', '?', '[']) →
        r.enabled (.texts [p]) (.texts disabled) =
          .ok ((r.get? p).toList.filter fun x => x.info.id ∉ disabled) := by
  intro r
  have hs : r.Sound := by
    rw [show r = (registerAll {} (calls.flatMap Call.offered)).value from foldl_perform {} calls]
    exact sound_empty.registerAll _
  refine ⟨_, enabled_texts r patterns disabled, List.filter_sublist, ?_, ?_, ?_, ?_, ?_, ?_, ?_⟩
  · exact hs.nodup.sublist (List.filter_sublist.map _)
  · intro x
    rw [List.mem_filter, isChosen_iff]
  · intro ps ds hp hd
    rw [enabled_texts, isChosen_congr hp hd]
  · intro p
    refine ⟨_, enabled_texts r (p :: patterns) disabled, ?_⟩
    exact List.monotone_filter_right r.rules fun x hx => isChosen_cons_pattern p hx
  · intro d
    rw [enabled_texts, List.filter_filter]
    simp only [isChosen_cons_disabled, Bool.and_comm]
  · intro hstar
    simp only [isChosen_of_star hstar]
  · intro p hp
    rw [enabled_texts, ← hs.filter_id, List.filter_filter]
    simp only [isChosen_plain hp]

/-- A class that excludes one letter: alone, twice over, and with the one id that it selects
switched off. -/
theorem enabled_after_calls_globs :
    let r := RegistrySample.after
    r.enabled (.texts ["[!b]*"]) (.texts []) = .ok [RegistrySample.rule "alpha" "first"] ∧
      r.enabled (.texts ["[!b]*", "[!b]*"]) (.texts []) =
        .ok [RegistrySample.rule "alpha" "first"] ∧
      r.enabled (.texts ["[!b]*"]) (.texts ["alpha"]) = .ok [] ∧
      r.enabled (.texts ["beta"]) (.texts []) = .ok [RegistrySample.rule "beta" "rule"] := by
  have hone : RegistrySample.after.enabled (.texts ["[!b]*"]) (.texts []) =
      .ok [RegistrySample.rule "alpha" "first"] := by
    have hrules : RegistrySample.after.rules =
        [RegistrySample.rule "alpha" "first", RegistrySample.rule "beta" "rule"] := by
      rw [RegistrySample.after_eq]
      rfl
    have halpha : isChosen ["[!b]*"] [] (RegistrySample.rule "alpha" "first").info.id := by
      decide +kernel
    have hbeta : ¬ isChosen ["[!b]*"] [] (RegistrySample.rule "beta" "rule").info.id := by
      decide +kernel
    rw [enabled_texts, hrules, List.filter_cons, if_pos halpha, List.filter_cons, if_neg hbeta]
    rfl
  have hget : RegistrySample.after.get? "beta" = some (RegistrySample.rule "beta" "rule") := by
    rw [RegistrySample.after_eq]
    rfl
  obtain ⟨chosen, hc, -, -, -, hcongr, -, hoff, -, hplain⟩ :=
    enabled_after_calls RegistrySample.calls ["[!b]*"] []
  obtain rfl : chosen = [RegistrySample.rule "alpha" "first"] := Except.ok.inj (hc.symm.trans hone)
  have hbeta := hplain "beta" (by simp)
  rw [show (RegistrySample.calls.foldl perform {}).get? "beta" = _ from hget] at hbeta
  exact ⟨hone, hcongr _ _ (by simp) (by simp), hoff "alpha", hbeta⟩

end Registry
end Asyncify
