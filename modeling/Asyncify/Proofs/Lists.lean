import Mathlib.Data.List.Forall2

/-! Facts about lists, and about steps over a list that may fail. -/
namespace Asyncify

namespace Except

variable {ε α β : Type}

theorem bind_eq_ok {x : Except ε α} {f : α → Except ε β} {b : β} :
    x >>= f = .ok b ↔ ∃ a, x = .ok a ∧ f a = .ok b := by
  cases x with
  | error e => simp [bind, Except.bind]
  | ok a => simp [bind, Except.bind]

theorem map_eq_ok {x : Except ε α} {f : α → β} {b : β} :
    x.map f = .ok b ↔ ∃ a, x = .ok a ∧ f a = b := by
  cases x with
  | error e => simp [Except.map]
  | ok a => simp [Except.map]

theorem toOption_eq_some {x : Except ε α} {a : α} : x.toOption = some a ↔ x = .ok a := by
  cases x <;> simp [Except.toOption]

theorem exists_bind_iff {x : Except ε α} {f : α → Except ε β} :
    (∃ b, x >>= f = .ok b) ↔ ∃ a, x = .ok a ∧ ∃ b, f a = .ok b := by
  simp only [bind_eq_ok]
  exact ⟨fun ⟨b, a, ha, hb⟩ => ⟨a, ha, b, hb⟩, fun ⟨a, ha, b, hb⟩ => ⟨b, a, ha, hb⟩⟩

theorem exists_map_iff {x : Except ε α} {f : α → β} : (∃ b, x.map f = .ok b) ↔ ∃ a, x = .ok a := by
  cases x <;> simp [Except.map]

theorem exists_pure (a : α) : ∃ b, (pure a : Except ε α) = .ok b := ⟨a, rfl⟩

variable {f g : α → Except ε β} {l : List α} {bs : List β}

/-- Steps that all succeed give their results in order. -/
theorem mapM_eq_ok_iff : l.mapM f = .ok bs ↔ l.map f = bs.map .ok := by
  induction l generalizing bs with
  | nil => cases bs <;> simp [pure, Except.pure]
  | cons a l ih =>
    simp only [List.mapM_cons, bind_eq_ok, ih]
    cases bs with
    | nil => simp [pure, Except.pure]
    | cons b bs => simp [pure, Except.pure]

theorem mapM_eq_map {k : α → β} (h : ∀ a ∈ l, f a = .ok (k a)) : l.mapM f = .ok (l.map k) := by
  rw [mapM_eq_ok_iff, List.map_map]
  exact List.map_congr_left h

theorem mapM_congr (h : ∀ a ∈ l, f a = g a) : l.mapM f = l.mapM g := by
  induction l with
  | nil => rfl
  | cons a l ih =>
    rw [List.mapM_cons, List.mapM_cons, h a List.mem_cons_self,
      ih fun b hb => h b (List.mem_cons_of_mem _ hb)]

theorem exists_mapM_iff : (∃ bs, l.mapM f = .ok bs) ↔ ∀ a ∈ l, ∃ b, f a = .ok b := by
  induction l with
  | nil => exact iff_of_true ⟨[], rfl⟩ (by simp)
  | cons a l ih =>
    rw [List.forall_mem_cons, ← ih]
    simp only [List.mapM_cons, exists_bind_iff, exists_pure, and_true, exists_and_right]

theorem mem_of_mapM (h : l.mapM f = .ok bs) (b : β) : b ∈ bs ↔ ∃ a ∈ l, f a = .ok b := by
  have hmem : b ∈ bs ↔ Except.ok b ∈ bs.map (Except.ok (ε := ε)) := by simp
  rw [hmem, ← mapM_eq_ok_iff.1 h, List.mem_map]

theorem forall₂_of_mapM {R : α → β → Prop} (h : l.mapM f = .ok bs)
    (hR : ∀ a ∈ l, ∀ b, f a = .ok b → R a b) : List.Forall₂ R l bs := by
  have hmap := mapM_eq_ok_iff.1 h
  clear h
  induction l generalizing bs with
  | nil =>
    obtain rfl : bs = [] := by simpa using hmap.symm
    exact .nil
  | cons a l ih =>
    obtain ⟨b, bs, rfl⟩ : ∃ b cs, bs = b :: cs := by
      cases bs with
      | nil => cases hmap
      | cons b cs => exact ⟨b, cs, rfl⟩
    obtain ⟨ha, hl⟩ := List.cons.inj hmap
    exact .cons (hR a List.mem_cons_self b ha)
      (ih (fun x hx => hR x (List.mem_cons_of_mem _ hx)) hl)

theorem forM_eq_ok {f : α → Except ε Unit} : l.forM f = .ok () ↔ ∀ a ∈ l, f a = .ok () := by
  induction l with
  | nil => exact iff_of_true rfl (by simp)
  | cons a l ih =>
    rw [List.forall_mem_cons, ← ih]
    show (f a >>= fun _ => l.forM f) = .ok () ↔ _
    rw [bind_eq_ok]
    constructor
    · rintro ⟨⟨⟩, ha, hl⟩
      exact ⟨ha, hl⟩
    · rintro ⟨ha, hl⟩
      exact ⟨(), ha, hl⟩

/-- All the ways to fail have a property. -/
def FailsOnly (P : ε → Prop) (x : Except ε α) : Prop := ∀ e, x = .error e → P e

namespace FailsOnly

variable {P : ε → Prop} {x : Except ε α}

theorem ok (a : α) : FailsOnly P (.ok a) := by
  intro e he
  cases he

theorem error {e : ε} (h : P e) : FailsOnly (α := α) P (.error e) := by
  intro e' he
  cases he
  exact h

theorem bind (hx : FailsOnly P x) (hf : ∀ a, x = .ok a → FailsOnly P (f a)) :
    FailsOnly P (x >>= f) := by
  cases x with
  | error e => exact error (hx e rfl)
  | ok a => exact hf a rfl

theorem map (hx : FailsOnly P x) (k : α → β) : FailsOnly P (x.map k) := by
  cases x with
  | error e => exact error (hx e rfl)
  | ok a => exact ok (k a)

theorem mapM (hf : ∀ a ∈ l, FailsOnly P (f a)) : FailsOnly P (l.mapM f) := by
  induction l with
  | nil => exact ok []
  | cons a l ih =>
    obtain ⟨ha, hl⟩ := List.forall_mem_cons.1 hf
    rw [List.mapM_cons]
    exact ha.bind fun b _ => (ih hl).bind fun bs _ => ok (b :: bs)

theorem forM {f : α → Except ε Unit} (hf : ∀ a ∈ l, FailsOnly P (f a)) :
    FailsOnly P (l.forM f) := by
  induction l with
  | nil => exact ok ()
  | cons a l ih =>
    obtain ⟨ha, hl⟩ := List.forall_mem_cons.1 hf
    exact ha.bind fun _ _ => ih hl

end FailsOnly
end Except

namespace Lists

variable {α β : Type}

theorem isSome_eq_of_rel {R : α → β → Prop} {x : Option α} {y : Option β} (h : Option.Rel R x y) :
    y.isSome = x.isSome := by
  cases h <;> rfl

theorem getLast?_eq_head? {xs : List α} (h : ∀ x ∈ xs, ∀ y ∈ xs, x = y) :
    xs.getLast? = xs.head? := by
  cases xs with
  | nil => rfl
  | cons x xs =>
    obtain ⟨y, hy⟩ : ∃ y, (x :: xs).getLast? = some y := ⟨_, List.getLast?_cons⟩
    rw [hy, List.head?_cons, h y (List.mem_of_getLast? hy) x List.mem_cons_self]

variable {sep : List α}

theorem append_cons_starts_iff {x : α} (hx : x ∉ sep) (a t : List α) :
    sep <+: a ++ x :: t ↔ sep <+: a := by
  induction sep generalizing a with
  | nil => simp
  | cons y sep ih =>
    rw [List.mem_cons, not_or] at hx
    cases a with
    | nil => simp [List.cons_prefix_cons, Ne.symm hx.1]
    | cons b a => simp [List.cons_prefix_cons, ih hx.2]

theorem not_infix_append {i m : List α} (hs : ∀ x ∈ sep.head?, x ∉ i) (hne : sep ≠ [])
    (hm : ¬ sep <:+: m) : ¬ sep <:+: i ++ m := by
  obtain ⟨x, xs, rfl⟩ := List.exists_cons_of_ne_nil hne
  have hx := hs x rfl
  clear hs
  induction i with
  | nil => exact hm
  | cons c i ih =>
    rw [List.mem_cons, not_or] at hx
    intro hin
    rw [List.cons_append, List.infix_cons_iff] at hin
    obtain hp | hin := hin
    · exact hx.1 (List.cons_prefix_cons.1 hp).1
    · exact ih hx.2 hin

/-- Leaves the first member alone. -/
def onTail (f : α → α) : List α → List α
  | [] => []
  | a :: as => a :: as.map f

/-- The rows of two tables, of which the last of the one and the first of the other are one row. -/
def glue : List (List α) → List (List α) → List (List α)
  | [], ms => ms
  | ls, [] => ls
  | [l], m :: ms => (l ++ m) :: ms
  | l :: ls, ms => l :: glue ls ms

variable {f : List α → List α} {l m y : List α} {ls ms : List (List α)}

theorem glue_cons (l m : List α) (ls ms : List (List α)) :
    glue (l :: ls) (m :: ms) = if ls = [] then (l ++ m) :: ms else l :: glue ls (m :: ms) := by
  cases ls <;> simp [glue]

theorem glue_ne_nil (hl : ls ≠ []) : glue ls (m :: ms) ≠ [] := by
  obtain ⟨l, ls, rfl⟩ := List.exists_cons_of_ne_nil hl
  rw [glue_cons]
  split <;> simp

theorem exists_map_glue (ys : List (List α)) (hf : ∀ l, ∃ l', f (l ++ y) = l' ++ y) (hl : ls ≠ []) :
    ∃ ls', ls' ≠ [] ∧ (glue ls (y :: ys)).map f = glue ls' (y :: ys.map f) := by
  induction ls with
  | nil => exact absurd rfl hl
  | cons l ls ih =>
    rw [glue_cons]
    split
    · obtain ⟨l', hl'⟩ := hf l
      exact ⟨[l'], by simp, by simp [hl', glue]⟩
    · next h =>
      obtain ⟨ls', hne, heq⟩ := ih h
      exact ⟨f l :: ls', by simp, by rw [List.map_cons, heq, glue_cons, if_neg hne]⟩

theorem exists_onTail_glue (ys : List (List α)) (hf : ∀ l, ∃ l', f (l ++ y) = l' ++ y)
    (hl : ls ≠ []) : ∃ ls', ls' ≠ [] ∧ onTail f (glue ls (y :: ys)) =
      glue ls' (onTail f (y :: ys)) := by
  obtain ⟨l, ls, rfl⟩ := List.exists_cons_of_ne_nil hl
  rw [glue_cons]
  split
  · exact ⟨[l], by simp, by simp [onTail, glue]⟩
  · next h =>
    obtain ⟨ls', hne, heq⟩ := exists_map_glue ys hf h
    exact ⟨l :: ls', by simp, by rw [onTail, heq, onTail, glue_cons, if_neg hne]⟩

theorem map_glue_concat (hf : f (l ++ y) = f l ++ y) (ls ys : List (List α)) :
    (glue (ls ++ [l]) (y :: ys)).map f = glue ((ls ++ [l]).map f) (y :: ys.map f) := by
  induction ls with
  | nil => simp [glue, hf]
  | cons k ls ih =>
    rw [List.cons_append, glue_cons, if_neg (by simp), List.map_cons, ih, List.map_cons, glue_cons,
      if_neg (by simp)]

theorem onTail_glue_concat (hf : f (l ++ y) = f l ++ y) (ls ys : List (List α)) :
    onTail f (glue (ls ++ [l]) (y :: ys)) = glue (onTail f (ls ++ [l])) (y :: ys.map f) := by
  cases ls with
  | nil => simp [glue, onTail]
  | cons k ls =>
    rw [List.cons_append, glue_cons, if_neg (by simp), onTail, map_glue_concat hf, onTail,
      glue_cons, if_neg (by simp)]

end Lists
end Asyncify
