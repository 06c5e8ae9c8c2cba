import Asyncify.Text.Span

/-! Slices between character boundaries: what they hold, how they join, and which bytes they are. -/
namespace Asyncify.Text

variable {cs xs ys zs : List Char} {a b c k base : Nat}

/-- The offset lies between two characters, or at an end of the text. -/
def isBoundary : List Char → Nat → Bool
  | [], k => k = 0
  | c :: cs, k => k = 0 || c.utf8Size ≤ k && isBoundary cs (k - c.utf8Size)

@[simp] theorem byteLength_nil : byteLength [] = 0 := rfl

@[simp] theorem byteLength_cons (x : Char) (xs : List Char) :
    byteLength (x :: xs) = x.utf8Size + byteLength xs := rfl

@[simp] theorem byteLength_append (xs ys : List Char) :
    byteLength (xs ++ ys) = byteLength xs + byteLength ys := by
  induction xs with
  | nil => simp
  | cons x xs ih => simp [ih, Nat.add_assoc]

theorem byteLength_toList (s : String) : byteLength s.toList = s.utf8ByteSize := by
  obtain ⟨cs, rfl⟩ : ∃ cs, s = String.ofList cs := ⟨s.toList, by simp⟩
  rw [String.toList_ofList]
  induction cs with
  | nil => rfl
  | cons c cs ih =>
    rw [← List.singleton_append, String.ofList_append, String.utf8ByteSize_append, ← ih]
    simp

theorem eq_nil_of_byteLength (h : byteLength xs = 0) : xs = [] := by
  cases xs with
  | nil => rfl
  | cons x xs =>
    have := x.utf8Size_pos
    simp only [byteLength_cons] at h
    omega

theorem isBoundary_byteLength (xs ys : List Char) : isBoundary (xs ++ ys) (byteLength xs) := by
  induction xs with
  | nil => cases ys <;> simp [isBoundary]
  | cons x xs ih => simp [isBoundary, ih]

theorem isBoundary_zero (cs : List Char) : isBoundary cs 0 := isBoundary_byteLength [] cs

theorem isBoundary_end (cs : List Char) : isBoundary cs (byteLength cs) := by
  simpa using isBoundary_byteLength cs []

theorem exists_append_of_isBoundary (h : isBoundary cs k) :
    ∃ xs ys, cs = xs ++ ys ∧ byteLength xs = k := by
  induction cs generalizing k with
  | nil => exact ⟨[], [], rfl, by simpa [isBoundary, eq_comm] using h⟩
  | cons x cs ih =>
    by_cases hk : k = 0
    · exact ⟨[], x :: cs, rfl, hk.symm⟩
    · obtain ⟨hx, hb⟩ : x.utf8Size ≤ k ∧ isBoundary cs (k - x.utf8Size) := by
        simpa [isBoundary, hk] using h
      obtain ⟨xs, ys, rfl, hl⟩ := ih hb
      refine ⟨x :: xs, ys, rfl, ?_⟩
      simp only [byteLength_cons]
      omega

theorem le_byteLength (h : isBoundary cs k) : k ≤ byteLength cs := by
  obtain ⟨xs, ys, rfl, rfl⟩ := exists_append_of_isBoundary h
  simp

/-- There is only one way to cut a text at an offset. -/
theorem append_inj_of_byteLength {us vs : List Char} (h : xs ++ ys = us ++ vs)
    (hl : byteLength xs = byteLength us) : xs = us ∧ ys = vs := by
  induction xs generalizing us with
  | nil =>
    obtain rfl : us = [] := eq_nil_of_byteLength hl.symm
    exact ⟨rfl, h⟩
  | cons x xs ih =>
    cases us with
    | nil =>
      have := x.utf8Size_pos
      simp only [byteLength_cons, byteLength_nil] at hl
      omega
    | cons u us =>
      obtain ⟨rfl, ht⟩ := List.cons.inj h
      obtain ⟨rfl, rfl⟩ := ih ht (by simpa using hl)
      exact ⟨rfl, rfl⟩

/-- Two boundaries cut a text in three. -/
theorem exists_split (ha : isBoundary cs a) (hb : isBoundary cs b) (hab : a ≤ b) :
    ∃ xs ys zs, cs = xs ++ ys ++ zs ∧ byteLength xs = a ∧ byteLength (xs ++ ys) = b := by
  obtain ⟨xs, us, hx, rfl⟩ := exists_append_of_isBoundary ha
  obtain ⟨ws, vs, hw, rfl⟩ := exists_append_of_isBoundary hb
  have hpx : xs <+: cs := ⟨us, hx.symm⟩
  have hpw : ws <+: cs := ⟨vs, hw.symm⟩
  obtain ⟨ys, rfl⟩ | ⟨ys, rfl⟩ := List.prefix_or_prefix_of_prefix hpx hpw
  · exact ⟨xs, ys, vs, hw, rfl, rfl⟩
  · -- the earlier boundary cannot lie behind the later one, so the two prefixes are the same
    obtain rfl : ys = [] := by
      apply eq_nil_of_byteLength
      simp only [byteLength_append] at hab
      omega
    exact ⟨ws, [], vs, by simpa using hw, by simp, by simp⟩

theorem sliceFrom_start (h : a ≤ base) (ys zs : List Char) :
    sliceFrom base (ys ++ zs) a (base + byteLength ys) = ys := by
  induction ys generalizing base with
  | nil =>
    cases zs with
    | nil => rfl
    | cons z zs =>
      have := z.utf8Size_pos
      rw [List.nil_append, sliceFrom, if_neg (by omega), if_neg (by simp; omega)]
  | cons y ys ih =>
    rw [List.cons_append, sliceFrom, if_neg (by omega), if_pos (by simp), byteLength_cons,
      ← Nat.add_assoc, ih (by omega)]

theorem sliceFrom_append (base : Nat) (xs ys zs : List Char) :
    sliceFrom base (xs ++ ys ++ zs) (base + byteLength xs) (base + byteLength (xs ++ ys)) = ys := by
  induction xs generalizing base with
  | nil => simpa using sliceFrom_start (Nat.le_refl base) ys zs
  | cons x xs ih =>
    have := x.utf8Size_pos
    rw [List.cons_append, List.cons_append, sliceFrom, if_pos (by simp; omega), byteLength_cons,
      byteLength_cons, ← Nat.add_assoc, ← Nat.add_assoc, ih]

/-- A slice between two boundaries is what stands between them. -/
theorem slice_append (xs ys zs : List Char) :
    slice (xs ++ ys ++ zs) (byteLength xs) (byteLength (xs ++ ys)) = ys := by
  simpa [slice] using sliceFrom_append 0 xs ys zs

theorem slice_full (cs : List Char) : slice cs 0 (byteLength cs) = cs := by
  simpa using slice_append [] cs []

theorem slice_join (ha : isBoundary cs a) (hb : isBoundary cs b) (hc : isBoundary cs c)
    (hab : a ≤ b) (hbc : b ≤ c) : slice cs a b ++ slice cs b c = slice cs a c := by
  obtain ⟨xs, ys, zs, rfl, rfl, rfl⟩ := exists_split ha hb hab
  obtain ⟨us, vs, ws, hs, hu, rfl⟩ := exists_split hb hc hbc
  obtain ⟨rfl, rfl⟩ := append_inj_of_byteLength (by simpa using hs) hu.symm
  have h1 := slice_append xs ys (vs ++ ws)
  have h2 := slice_append (xs ++ ys) vs ws
  have h3 := slice_append xs (ys ++ vs) ws
  simp only [List.append_assoc] at h1 h2 h3 ⊢
  rw [h1, h2, h3]

theorem slice_infix {d : Nat} (ha : isBoundary cs a) (hb : isBoundary cs b) (hc : isBoundary cs c)
    (hd : isBoundary cs d) (hab : a ≤ b) (hbc : b ≤ c) (hcd : c ≤ d) :
    slice cs b c <:+: slice cs a d := by
  refine ⟨slice cs a b, slice cs c d, ?_⟩
  rw [slice_join ha hb hc hab hbc, slice_join ha hc hd (Nat.le_trans hab hbc) hcd]

theorem toList_intercalate_empty (ss : List String) :
    ("".intercalate ss).toList = ss.flatMap String.toList := by
  induction ss with
  | nil => simp
  | cons s ss ih =>
    cases ss with
    | nil => simp
    | cons t ss => rw [String.intercalate_cons_cons]; simpa using ih

theorem intercalate_eq_empty {ss : List String} (h : ∀ s ∈ ss, s = "") :
    "".intercalate ss = "" := by
  rw [← String.toList_inj, toList_intercalate_empty]
  refine List.flatMap_eq_nil_iff.2 fun s hs => ?_
  rw [h s hs]
  rfl

/-- The bytes of a text. -/
def utf8 (cs : List Char) : List UInt8 := cs.flatMap String.utf8EncodeChar

@[simp] theorem utf8_nil : utf8 [] = [] := rfl

@[simp] theorem utf8_append (xs ys : List Char) : utf8 (xs ++ ys) = utf8 xs ++ utf8 ys := by
  simp [utf8]

@[simp] theorem length_utf8 (cs : List Char) : (utf8 cs).length = byteLength cs := by
  induction cs with
  | nil => rfl
  | cons c cs ih => simp [utf8] at ih ⊢; omega

/-- A slice between two boundaries has just the bytes between them. -/
theorem utf8_slice (ha : isBoundary cs a) (hb : isBoundary cs b) (hab : a ≤ b) :
    utf8 (slice cs a b) = ((utf8 cs).drop a).take (b - a) := by
  obtain ⟨xs, ys, zs, rfl, rfl, rfl⟩ := exists_split ha hb hab
  rw [slice_append]
  simp [← length_utf8]

end Asyncify.Text
