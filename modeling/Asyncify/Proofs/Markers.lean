import Asyncify.Text.Word
import Mathlib.Data.List.Basic

/-! When a text waits for something: it holds the word `await`, or a word that ends in `Async` and
is called. Words are whole; the reader that goes through the text word by word finds just these. -/
namespace Asyncify.Text

/-- The text does not end inside a word. -/
def EndsClear (cs : List Char) : Prop := ∀ x ∈ cs.getLast?, isWord x = false

/-- The text does not begin inside a word. -/
def StartsClear (cs : List Char) : Prop := ∀ x ∈ cs.head?, isWord x = false

/-- The word `await` stands in the text, or a word that ends in `Async`, with more before it, and
behind it, blanks aside, an opening parenthesis. -/
inductive Waits (cs : List Char) : Prop
  | await {a b : List Char} (ha : EndsClear a) (hb : StartsClear b)
      (h : cs = a ++ ("await".toList ++ b))
  | call {a word blanks b : List Char} (ha : EndsClear a) (hne : word ≠ [])
      (hw : ∀ x ∈ word, isWord x) (hb : ∀ x ∈ blanks, isBlank x)
      (h : cs = a ++ (word ++ "Async".toList ++ (blanks ++ '(' :: b)))

variable {word a b m rest : List Char}

theorem isWord_of_isBlank {x : Char} (h : isBlank x) : isWord x = false := by
  obtain ⟨r, hr, hx⟩ := List.any_eq_true.1 h
  simp only [Bool.and_eq_true, decide_eq_true_eq] at hx
  rw [isWord]
  split
  · next hlt =>
    have hcodes : ∀ r ∈ blankRanges, ∀ n < 128, r.1 ≤ n → n ≤ r.2 →
        ((Char.ofNat n).isAlphanum || Char.ofNat n = '_') = false := by decide +kernel
    have hcode := hcodes r hr x.toNat hlt hx.1 hx.2
    rwa [Char.ofNat_toNat] at hcode
  · have hapart : ∀ r ∈ blankRanges, ∀ w ∈ wordRanges, r.2 < w.1 ∨ w.2 < r.1 := by decide +kernel
    refine List.any_eq_false.2 fun w hw => ?_
    have hrange := hapart r hr w hw
    simp only [Bool.and_eq_true, decide_eq_true_eq, not_and, Nat.not_le]
    omega

theorem startsClear_of_blanks {blanks : List Char} (h : ∀ x ∈ blanks, isBlank x) (b : List Char) :
    StartsClear (blanks ++ '(' :: b) := by
  intro x hx
  cases blanks with
  | nil =>
    obtain rfl : '(' = x := by simpa using hx
    decide
  | cons y blanks =>
    obtain rfl : y = x := by simpa using hx
    exact isWord_of_isBlank (h y List.mem_cons_self)

theorem eq_nil_of_endsClear (ha : EndsClear a) (hw : ∀ x ∈ a, isWord x) : a = [] := by
  cases hl : a.getLast? with
  | none => exact List.getLast?_eq_none_iff.1 hl
  | some x =>
    have hx := ha x hl
    rw [hw x (List.mem_of_getLast? hl)] at hx
    cases hx

theorem EndsClear.of_append (h : EndsClear (a ++ b)) : EndsClear b := by
  intro x hx
  refine h x ?_
  rw [List.getLast?_append, hx]
  rfl

theorem EndsClear.append (ha : EndsClear a) (hb : EndsClear b) : EndsClear (b ++ a) := by
  intro x hx
  rw [List.getLast?_append] at hx
  cases hl : a.getLast? with
  | none =>
    rw [hl] at hx
    exact hb x hx
  | some y =>
    rw [hl] at hx
    exact ha x (hl.trans hx)

/-- A text has one first word only. -/
theorem eq_of_cut (hw : ∀ x ∈ word, isWord x) (hb : StartsClear b) (hm : ∀ x ∈ m, isWord x)
    (hr : StartsClear rest) (h : m ++ rest = word ++ b) : m = word ∧ rest = b := by
  have hcut {w t : List Char} (hw : ∀ x ∈ w, isWord x) (ht : StartsClear t) :
      (w ++ t).takeWhile isWord = w := by
    rw [List.takeWhile_append_of_pos hw]
    cases t with
    | nil => simp
    | cons x t => simp [ht x rfl]
  have hfirst : m = word := by rw [← hcut hm hr, h, hcut hw hb]
  subst hfirst
  exact ⟨rfl, List.append_cancel_left h⟩

/-- What begins with a word, where no word goes on, is the first word of the text and what follows,
or comes later. -/
theorem cut_cases (hw : ∀ x ∈ word, isWord x) (hb : StartsClear b) (ha : EndsClear a)
    (hm : ¬ StartsClear m) (h : a ++ m = word ++ b) :
    m = word ++ b ∨ ∃ a', EndsClear a' ∧ b.tail = a' ++ m := by
  obtain ⟨c, rfl, hc⟩ | ⟨c, rfl, rfl⟩ := List.append_eq_append_iff.1 h
  · obtain rfl := eq_nil_of_endsClear ha fun x hx => hw x (List.mem_append_left c hx)
    exact Or.inl (by simpa using hc)
  · cases c with
    | nil => exact absurd hb hm
    | cons x c => exact Or.inr ⟨c, (List.append_cons word x c ▸ ha).of_append, rfl⟩

theorem not_startsClear (hw : ∀ x ∈ word, isWord x) (hne : word ≠ []) (rest : List Char) :
    ¬ StartsClear (word ++ rest) := by
  obtain ⟨x, word, rfl⟩ := List.exists_cons_of_ne_nil hne
  intro h
  have hx := h x rfl
  rw [hw x List.mem_cons_self] at hx
  cases hx

theorem opensCall_iff :
    opensCall b ↔ ∃ blanks rest, (∀ x ∈ blanks, isBlank x) ∧ b = blanks ++ '(' :: rest := by
  rw [opensCall, decide_eq_true_eq, stripStart]
  constructor
  · intro h
    obtain ⟨rest, hrest⟩ := List.head?_eq_some_iff.1 h
    refine ⟨b.takeWhile isBlank, rest, List.all_eq_true.1 List.all_takeWhile, ?_⟩
    rw [← hrest, List.takeWhile_append_dropWhile]
  · rintro ⟨blanks, rest, hb, rfl⟩
    rw [List.dropWhile_append_of_pos hb]
    rfl

theorem not_waits_nil : ¬ Waits [] := by
  rintro (⟨-, -, h⟩ | ⟨-, -, -, -, h⟩)
  · exact absurd h (by simp)
  · exact absurd h (by simp)

/-- What waits goes on waiting with more text before it, unless a word goes on. -/
theorem Waits.append (h : Waits b) (ha : EndsClear a) : Waits (a ++ b) := by
  cases h with
  | await ha' hb h => exact .await (ha'.append ha) hb (by rw [h, ← List.append_assoc a])
  | call ha' hne hw hb h => exact .call (ha'.append ha) hne hw hb (by rw [h, ← List.append_assoc a])

/-- A text that begins with a whole word waits if the word says so, or if the rest does. -/
theorem waits_append_iff (hw : ∀ x ∈ word, isWord x) (hb : StartsClear b) :
    Waits (word ++ b) ↔ word = "await".toList ∨
      ((∃ v, v ≠ [] ∧ word = v ++ "Async".toList) ∧ opensCall b) ∨ Waits b.tail := by
  have hawait : ∀ x ∈ "await".toList, isWord x := List.all_eq_true.1 (by decide)
  have hasync : ∀ x ∈ "Async".toList, isWord x := List.all_eq_true.1 (by decide)
  constructor
  · rintro (⟨ha, hs, h⟩ | @⟨a, v, blanks, rest, ha, hne, hv, hblank, h⟩)
    · obtain hm | ⟨a', ha', ht⟩ := cut_cases hw hb ha (not_startsClear hawait (by simp) _) h.symm
      · exact Or.inl (eq_of_cut hw hb hawait hs hm).1.symm
      · exact Or.inr (Or.inr (.await ha' hs ht))
    · have hname : ∀ x ∈ v ++ "Async".toList, isWord x := List.forall_mem_append.2 ⟨hv, hasync⟩
      have hs := startsClear_of_blanks hblank rest
      obtain hm | ⟨a', ha', ht⟩ := cut_cases hw hb ha (not_startsClear hname (by simp) _) h.symm
      · obtain ⟨rfl, rfl⟩ := eq_of_cut hw hb hname hs hm
        exact Or.inr (Or.inl ⟨⟨v, hne, rfl⟩, opensCall_iff.2 ⟨blanks, rest, hblank, rfl⟩⟩)
      · exact Or.inr (Or.inr (.call ha' hne hv hblank ht))
  · have hnil : EndsClear [] := fun x hx => nomatch hx
    rintro (rfl | ⟨⟨v, hne, rfl⟩, hopen⟩ | hrest)
    · exact .await hnil hb rfl
    · obtain ⟨blanks, rest, hblank, rfl⟩ := opensCall_iff.1 hopen
      exact .call hnil hne (fun x hx => hw x (List.mem_append_left _ hx)) hblank rfl
    · cases b with
      | nil => exact absurd hrest not_waits_nil
      | cons x b =>
        have hx : EndsClear (word ++ [x]) := by
          intro y hy
          obtain rfl : x = y := by simpa using hy
          exact hb x rfl
        rw [List.append_cons]
        exact hrest.append hx

theorem isAsyncName_iff {word : List Char} :
    isAsyncName word ↔ ∃ v, v ≠ [] ∧ word.reverse = v ++ "Async".toList := by
  rw [isAsyncName, Bool.and_eq_true, List.isPrefixOf_iff_prefix, decide_eq_true_eq]
  constructor
  · rintro ⟨⟨v, rfl⟩, hlen⟩
    refine ⟨v.reverse, ?_, by simp⟩
    rintro hv
    simp [List.reverse_eq_nil_iff.1 hv] at hlen
  · rintro ⟨v, hne, h⟩
    have hword : word = "Async".toList.reverse ++ v.reverse := by
      rw [← List.reverse_append, ← h, List.reverse_reverse]
    have hpos := List.length_pos_iff.2 hne
    subst hword
    refine ⟨List.prefix_append _ _, ?_⟩
    simp
    omega

/-- The reader finds what waits in the word that it is in and in the text ahead. -/
theorem waitsFrom_iff {cs : List Char} (hw : ∀ x ∈ word, isWord x) :
    waitsFrom word cs ↔ Waits (word.reverse ++ cs) := by
  have hawait {word : List Char} : isAwait word ↔ word.reverse = "await".toList := by
    rw [isAwait, decide_eq_true_eq, List.reverse_eq_iff]
  have hrev {word : List Char} (hw : ∀ x ∈ word, isWord x) : ∀ x ∈ word.reverse, isWord x :=
    fun x hx => hw x (List.mem_reverse.1 hx)
  -- the word so far begins where no word goes on, so with what is ahead it is a text of its own
  induction cs generalizing word with
  | nil =>
    have hclear : StartsClear [] := fun x hx => nomatch hx
    rw [waitsFrom, waits_append_iff (hrev hw) hclear, hawait]
    simp [opensCall, stripStart, not_waits_nil]
  | cons c cs ih =>
    rw [waitsFrom]
    split
    · next hc =>
      have hnext : waitsFrom (c :: word) cs ↔ Waits ((c :: word).reverse ++ cs) :=
        ih (List.forall_mem_cons.2 ⟨hc, hw⟩)
      rw [hnext, List.reverse_cons, ← List.append_cons]
    · next hc =>
      have hclear : StartsClear (c :: cs) := by
        intro x hx
        obtain rfl : c = x := by simpa using hx
        simpa using hc
      have hrest : waitsFrom [] cs ↔ Waits cs := ih (by simp)
      rw [waits_append_iff (hrev hw) hclear, Bool.or_eq_true, Bool.or_eq_true,
        Bool.and_eq_true, hawait, isAsyncName_iff, hrest, or_assoc]
      rfl

theorem waits_iff (s : String) : waits s ↔ Waits s.toList := waitsFrom_iff (by simp)

end Asyncify.Text
