import Asyncify.Proofs.Lists
import Asyncify.Value.Reading
import Mathlib.Algebra.Order.Ring.Int
import Mathlib.Tactic.Ring

/-! Looking up a key. Being the same is an equivalence on keys, up to what lies nowhere, so what is
found in a map after a key is set depends on that key alone; and keys can be sorted just if they
share a scale. -/
namespace Asyncify

namespace Point

/-- Fractions have a denominator. -/
def IsProper : Point → Prop
  | fraction _ d => d ≠ 0
  | _ => True

variable {p q r : Point}

theorem same_comm (p q : Point) : p.same q = q.same p := by
  cases p <;> cases q <;> simp [same, eq_comm]

theorem same_trans (hq : q.IsProper) (hpq : p.same q) (hqr : q.same r) : p.same r := by
  cases p <;> cases q <;> cases r <;> simp only [same, decide_eq_true_eq, reduceCtorEq] at hpq hqr ⊢
  next m j n k l i =>
    have hk : (k : Int) ≠ 0 := by simpa [IsProper] using hq
    apply mul_right_cancel₀ hk
    calc m * i * k = m * k * i := by ring
      _ = n * j * i := by rw [hpq]
      _ = n * i * j := by ring
      _ = l * k * j := by rw [hqr]
      _ = l * j * k := by ring

theorem isProper_ofFloat? {x : Float} (h : ofFloat? x = some p) : p.IsProper := by
  rw [ofFloat?] at h
  split at h
  · cases h
  · split at h
    · cases h
      split <;> trivial
    · cases h
      exact Nat.pos_iff_ne_zero.1 (Nat.pow_pos (by decide))

end Point

namespace Key

variable {a b c : Key} {x y z : Spot} {p : Point}

theorem isProper_of_spot? (h : a.spot? = some (.number p)) : p.IsProper := by
  cases a with
  | bool b => cases h; exact Nat.one_ne_zero
  | int n => cases h; exact Nat.one_ne_zero
  | float x =>
    obtain ⟨q, hq, he⟩ := Option.map_eq_some_iff.1 h
    cases he
    exact Point.isProper_ofFloat? hq
  | moment m =>
    rw [spot?] at h
    split at h <;> cases h
  | _ => cases h

theorem Spot.same_comm (x y : Spot) : x.same y = y.same x := by
  cases x <;> cases y <;> simp [same, eq_comm, Point.same_comm]

theorem Spot.same_iff :
    x.same y ↔ (∃ p q, x = .number p ∧ y = .number q ∧ p.same q) ∨ x = y ∧ ∀ p, y ≠ .number p := by
  fun_cases same x y with
  | case1 p q => simp
  | case2 x y hnot =>
    rw [decide_eq_true_eq]
    constructor
    · rintro rfl
      exact Or.inr ⟨rfl, fun p hp => hnot p p hp hp⟩
    · rintro (⟨p, q, hp, hq, -⟩ | ⟨h, -⟩)
      · exact (hnot p q hp hq).elim
      · exact h

theorem Spot.same_trans (hy : ∀ p, y = .number p → p.IsProper) (hxy : x.same y) (hyz : y.same z) :
    x.same z := by
  obtain ⟨p, q, rfl, rfl, hpq⟩ | ⟨rfl, -⟩ := Spot.same_iff.1 hxy
  · obtain ⟨q', r, hq, rfl, hqr⟩ | ⟨rfl, hnot⟩ := Spot.same_iff.1 hyz
    · cases hq
      exact Point.same_trans (hy q rfl) hpq hqr
    · exact (hnot q rfl).elim
  · exact hyz

theorem same_iff : a.same b ↔ ∃ x y, a.spot? = some x ∧ b.spot? = some y ∧ x.same y := by
  rw [same]
  cases a.spot? <;> cases b.spot? <;> simp

theorem same_comm (a b : Key) : a.same b = b.same a := by
  rw [same, same]
  cases a.spot? <;> cases b.spot? <;> simp [Spot.same_comm]

theorem same_trans (hab : a.same b) (hbc : b.same c) : a.same c := by
  obtain ⟨x, y, hx, hy, hxy⟩ := same_iff.1 hab
  obtain ⟨y', z, hy', hz, hyz⟩ := same_iff.1 hbc
  obtain rfl := Option.some.inj (hy.symm.trans hy')
  exact same_iff.2 ⟨x, z, hx, hz, Spot.same_trans (fun p hp => isProper_of_spot? (hp ▸ hy)) hxy hyz⟩

theorem same_congr (h : b.same c) : a.same b = a.same c := by
  rw [Bool.eq_iff_iff]
  constructor
  · intro hab
    exact same_trans hab h
  · intro hac
    rw [same_comm] at h
    exact same_trans hac h

/-- Only the text itself is the same as a text. -/
theorem same_text_iff {s : String} : a.same (.text s) ↔ a = .text s := by
  constructor
  · intro h
    obtain ⟨x, y, hx, hy, hxy⟩ := same_iff.1 h
    cases hy
    cases x <;> simp [Spot.same] at hxy
    subst hxy
    cases a with
    | text t => cases hx; rfl
    | float x =>
      obtain ⟨q, -, he⟩ := Option.map_eq_some_iff.1 hx
      cases he
    | moment m =>
      rw [spot?] at hx
      split at hx <;> cases hx
    | _ => cases hx
  · rintro rfl
    simp [same, spot?, Spot.same]

/-- Keys can be put in order if there is but one, or if they lie on one scale. -/
def Comparable (ks : List Key) : Prop := ks.length ≤ 1 ∨ ∃ s, ∀ k ∈ ks, k.scale? = some s

theorem isSome_lt?_iff : (a.lt? b).isSome ↔ ∃ s, a.scale? = some s ∧ b.scale? = some s := by
  rw [lt?]
  cases a.scale? with
  | none => simp
  | some s =>
    by_cases h : b.scale? = some s
    · simp only [h, Option.isSome_some, decide_true, Bool.and_self, if_true]
      refine iff_of_true ?_ ⟨s, rfl, rfl⟩
      split <;> rfl
    · refine iff_of_false (by simp [Ne.symm h]) ?_
      rintro ⟨t, hs, ht⟩
      exact h (ht.trans hs.symm)

theorem exists_sort_iff {ks : List Key} : (∃ sorted, sort ks = .ok sorted) ↔ Comparable ks := by
  cases ks with
  | nil => exact iff_of_true ⟨[], rfl⟩ (Or.inl (by simp))
  | cons first rest =>
    have hsort : (∃ sorted, sort (first :: rest) = .ok sorted) ↔
        ∀ k ∈ rest, (k.lt? first).isSome := by
      constructor
      · rintro ⟨sorted, hs⟩ k hk
        obtain ⟨⟨⟩, hall, -⟩ := Except.bind_eq_ok.1 hs
        have hone := Except.forM_eq_ok.1 hall k hk
        cases hlt : k.lt? first with
        | none => simp [hlt] at hone
        | some b => rfl
      · intro hall
        refine ⟨_, Except.bind_eq_ok.2 ⟨(), Except.forM_eq_ok.2 fun k hk => ?_, rfl⟩⟩
        obtain ⟨b, hb⟩ := Option.isSome_iff_exists.1 (hall k hk)
        rw [hb]
    rw [hsort]
    simp only [isSome_lt?_iff]
    constructor
    · intro hall
      cases rest with
      | nil => exact Or.inl (by simp)
      | cons second rest =>
        obtain ⟨s, -, hfirst⟩ := hall second List.mem_cons_self
        refine Or.inr ⟨s, fun k hk => ?_⟩
        obtain rfl | hk := List.mem_cons.1 hk
        · exact hfirst
        · obtain ⟨t, hkt, hft⟩ := hall k hk
          rw [hkt, ← hft, hfirst]
    · rintro (hlen | ⟨s, hs⟩) k hk
      · have hpos := List.length_pos_of_mem hk
        simp only [List.length_cons] at hlen
        omega
      · exact ⟨s, hs k (List.mem_cons_of_mem _ hk), hs first List.mem_cons_self⟩

end Key

namespace Entries

variable {α : Type} {es : Entries α} {l more : List (Key × α)} {k q : Key} {v : α}

theorem eq_empty (h : es.keys.toList = []) : es = .empty := by
  obtain ⟨⟨ks, hd⟩, value⟩ := es
  obtain rfl : ks = [] := h
  exact congrArg (mk _) (funext fun i => i.elim0)

/-- What is found in a list of entries. -/
def find? (l : List (Key × α)) (q : Key) : Option α := (l.find? fun e => e.1.same q).map (·.2)

theorem find?_cons : find? ((k, v) :: l) q = if k.same q then some v else find? l q := by
  rw [find?, List.find?_cons]
  cases k.same q <;> rfl

theorem get?_congr (h : k.same q) (es : Entries α) : es.get? k = es.get? q := by
  simp only [get?, Key.same_congr h]

theorem mem_of_get? (h : es.get? q = some v) : ∃ e ∈ es.toList, e.1.same q ∧ e.2 = v := by
  obtain ⟨e, he, rfl⟩ := Option.map_eq_some_iff.1 h
  exact ⟨e, List.mem_of_find?_eq_some he, by simpa using List.find?_some he, rfl⟩

theorem find?_putIn (l : List (Key × α)) (k : Key) (v : α) (q : Key) :
    find? (putIn l k v) q = if k.same q then some v else find? l q := by
  induction l with
  | nil => rw [putIn, find?_cons]
  | cons e l ih =>
    obtain ⟨j, w⟩ := e
    rw [putIn]
    by_cases hj : j.same k
    · have hjq : j.same q = k.same q := by
        rw [Key.same_comm j q, Key.same_comm k q, Key.same_congr hj]
      rw [if_pos hj, find?_cons, find?_cons, hjq]
      by_cases hk : k.same q <;> simp [hk]
    · rw [if_neg hj, find?_cons, find?_cons, ih]
      by_cases hk : k.same q
      · have hjq : ¬ j.same q := by
          rw [← Key.same_congr hk]
          exact hj
        simp [hk, hjq]
      · simp [hk]

/-- Setting a key changes what is found under this key and nothing else. -/
theorem get?_put (es : Entries α) (k : Key) (v : α) (q : Key) :
    (es.put k v).get? q = if k.same q then some v else es.get? q := by
  show find? (es.put k v).toList q = _
  rw [toList_put, find?_putIn]
  rfl

theorem Distinct.filter (h : Distinct l) (p : Key × α → Bool) : Distinct (l.filter p) :=
  List.Pairwise.filter p h

theorem Distinct.find?_tail (hd : Distinct ((k, v) :: l)) (hq : k.same q) : find? l q = none := by
  rw [find?, Option.map_eq_none_iff, List.find?_eq_none]
  intro e he heq
  have hk := (List.pairwise_cons.1 hd).1 e he
  rw [Key.same_comm] at heq
  rw [Key.same_trans hq heq] at hk
  cases hk

theorem Distinct.get?_putAll (hd : Distinct more) (es : Entries α) (q : Key) :
    (es.putAll more).get? q = (find? more q).or (es.get? q) := by
  induction more generalizing es with
  | nil => rfl
  | cons e more ih =>
    obtain ⟨k, v⟩ := e
    show ((es.put k v).putAll more).get? q = _
    rw [ih (List.pairwise_cons.1 hd).2, get?_put, find?_cons]
    by_cases hkq : k.same q
    · simp [hkq, hd.find?_tail hkq]
    · simp [hkq]

/-- Entries laid over others: a key of the new ones has their value, any other keeps the old one. -/
theorem get?_putAll (es more : Entries α) (q : Key) :
    (es.putAll more.toList).get? q = (more.get? q).or (es.get? q) :=
  more.distinct_toList.get?_putAll es q

theorem putIn_of_new (h : ∀ e ∈ l, e.1.same k = false) : putIn l k v = l ++ [(k, v)] := by
  induction l with
  | nil => rfl
  | cons e l ih =>
    have he := h e List.mem_cons_self
    rw [putIn, if_neg (by simpa using he), ih fun f hf => h f (List.mem_cons_of_mem _ hf)]
    rfl

/-- Entries with new keys stand behind the old ones. -/
theorem toList_putAll (hd : Distinct (es.toList ++ more)) :
    (es.putAll more).toList = es.toList ++ more := by
  induction more generalizing es with
  | nil => exact (List.append_nil _).symm
  | cons e more ih =>
    have hnew : ∀ f ∈ es.toList, f.1.same e.1 = false := fun f hf =>
      (List.pairwise_append.1 hd).2.2 f hf e List.mem_cons_self
    have hput : (es.put e.1 e.2).toList = es.toList ++ [e] := by rw [toList_put, putIn_of_new hnew]
    show ((es.put e.1 e.2).putAll more).toList = _
    rw [ih (by rw [hput, List.append_assoc]; exact hd), hput, List.append_assoc]
    rfl

theorem toList_ofList (hd : Distinct l) : (ofList l).toList = l := toList_putAll hd

theorem get?_ofList (hd : Distinct l) (q : Key) : (ofList l).get? q = find? l q := by
  show find? (ofList l).toList q = _
  rw [toList_ofList hd]

theorem forall_mem_row {p : α → Prop} : ∀ {ks : List Key} {value : Fin ks.length → α},
    (∀ e ∈ row ks value, p e.2) ↔ ∀ i, p (value i)
  | [], _ => by simp [row]
  | k :: ks, value => by
    rw [row, List.forall_mem_cons, forall_mem_row]
    exact (Fin.forall_fin_succ (P := fun i => p (value i))).symm

end Entries
end Asyncify
