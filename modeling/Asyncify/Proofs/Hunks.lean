import Asyncify.Proofs.Blocks

/-! Hunks of a diff: they lead from the old lines to the new ones, with nothing but equal lines
between them. There are none exactly if the lines are the same. -/
namespace Asyncify.Diff

theorem Level.split {xs ys : List String} {i j i' j' k : Nat} (h : Level xs ys i j i' j')
    (hk : i + k ≤ i') :
    Level xs ys i j (i + k) (j + k) ∧ Level xs ys (i + k) (j + k) i' j' := by
  have hlen := h.length_eq
  have hold := h.old_end
  have hnew := h.new_end
  have hle := h.new_le
  have hlines := h.lines
  rw [← linesBetween_append (Nat.le_add_right i k) hk,
    ← linesBetween_append (Nat.le_add_right j k) (by omega : j + k ≤ j')] at hlines
  obtain ⟨hfirst, hlast⟩ := List.append_inj hlines (by
    rw [length_linesBetween, length_linesBetween]
    omega)
  exact ⟨⟨by omega, by omega, by omega, by omega, hfirst⟩, ⟨hk, by omega, hold, hnew, hlast⟩⟩

theorem Level.eq {xs ys : List String} (h : Level xs ys 0 0 xs.length ys.length) : xs = ys := by
  have hlines := h.lines
  rwa [linesBetween_end, linesBetween_end, List.drop_zero, List.drop_zero] at hlines

/-- The region is one of the two lists, and its tag is true of it. -/
structure Region.Fits (xs ys : List String) (r : Region) : Prop where
  old_le : r.i1 ≤ r.i2
  new_le : r.j1 ≤ r.j2
  old_end : r.i2 ≤ xs.length
  new_end : r.j2 ≤ ys.length
  equal : r.tag = .equal → linesBetween xs r.i1 r.i2 = linesBetween ys r.j1 r.j2
  delete : r.tag = .delete → r.j1 = r.j2
  insert : r.tag = .insert → r.i1 = r.i2

namespace Region.Fits

variable {xs ys : List String} {r : Region}

theorem level (h : r.Fits xs ys) (ht : r.tag = .equal) : Level xs ys r.i1 r.j1 r.i2 r.j2 :=
  ⟨h.old_le, h.new_le, h.old_end, h.new_end, h.equal ht⟩

theorem of_level {i j i' j' : Nat} (h : Level xs ys i j i' j') :
    Region.Fits xs ys ⟨.equal, i, i', j, j'⟩ :=
  ⟨h.old_le, h.new_le, h.old_end, h.new_end, fun _ => h.lines, nofun, nofun⟩

/-- A common region is its first lines and a rest. -/
theorem headOf (h : r.Fits xs ys) (ht : r.tag = .equal) :
    (headOf r).Fits xs ys ∧ Level xs ys (Diff.headOf r).i2 (Diff.headOf r).j2 r.i2 r.j2 := by
  obtain ⟨tag, i1, i2, j1, j2⟩ := r
  obtain rfl : tag = .equal := ht
  have hlevel : Level xs ys i1 j1 i2 j2 := h.level rfl
  have hold := hlevel.old_le
  have hnew := hlevel.new_le
  have hlen := hlevel.length_eq
  have hi : min i2 (i1 + context) = i1 + (min i2 (i1 + context) - i1) := by omega
  have hj : min j2 (j1 + context) = j1 + (min i2 (i1 + context) - i1) := by omega
  obtain ⟨hfirst, hrest⟩ := hlevel.split (k := min i2 (i1 + context) - i1) (by omega)
  rw [← hi, ← hj] at hfirst hrest
  exact ⟨of_level hfirst, hrest⟩

/-- A common region is a beginning and its last lines. -/
theorem tailOf (h : r.Fits xs ys) (ht : r.tag = .equal) :
    (tailOf r).Fits xs ys ∧ Level xs ys r.i1 r.j1 (Diff.tailOf r).i1 (Diff.tailOf r).j1 := by
  obtain ⟨tag, i1, i2, j1, j2⟩ := r
  obtain rfl : tag = .equal := ht
  have hlevel : Level xs ys i1 j1 i2 j2 := h.level rfl
  have hold := hlevel.old_le
  have hnew := hlevel.new_le
  have hlen := hlevel.length_eq
  have hi : max i1 (i2 - context) = i1 + (max i1 (i2 - context) - i1) := by omega
  have hj : max j1 (j2 - context) = j1 + (max i1 (i2 - context) - i1) := by omega
  obtain ⟨hfirst, hrest⟩ := hlevel.split (k := max i1 (i2 - context) - i1) (by omega)
  rw [← hi, ← hj] at hfirst hrest
  exact ⟨of_level hrest, hfirst⟩

/-- What a cut leaves out of a long common region. -/
theorem middle (h : r.Fits xs ys) (ht : r.tag = .equal) (hlong : context + context < r.i2 - r.i1) :
    Level xs ys (Diff.headOf r).i2 (Diff.headOf r).j2 (Diff.tailOf r).i1 (Diff.tailOf r).j1 ∧
      (Diff.headOf r).i2 < (Diff.tailOf r).i1 ∧ (Diff.headOf r).j2 < (Diff.tailOf r).j1 := by
  obtain ⟨tag, i1, i2, j1, j2⟩ := r
  have hlevel : Level xs ys i1 j1 i2 j2 := h.level ht
  have hlen := hlevel.length_eq
  have hnew := hlevel.new_le
  dsimp only at hlong
  obtain ⟨-, hrest⟩ := hlevel.split (k := context) (by omega)
  obtain ⟨hmiddle, -⟩ := hrest.split (k := i2 - i1 - (context + context)) (by omega)
  have hi : min i2 (i1 + context) = i1 + context := by omega
  have hj : min j2 (j1 + context) = j1 + context := by omega
  have hi' : max i1 (i2 - context) = i1 + context + (i2 - i1 - (context + context)) := by omega
  have hj' : max j1 (j2 - context) = j1 + context + (i2 - i1 - (context + context)) := by omega
  rw [Diff.headOf, Diff.tailOf]
  dsimp only
  rw [hi, hj, hi', hj']
  exact ⟨hmiddle, by omega, by omega⟩

end Region.Fits

/-- Regions that lead from lines `i` and `j` to lines `m` and `n`. -/
inductive Path (xs ys : List String) (m n : Nat) : Nat → Nat → List Region → Prop where
  | nil {i j : Nat} : i = m → j = n → Path xs ys m n i j []
  | cons {i j : Nat} {r : Region} {rs : List Region} :
      r.i1 = i → r.j1 = j → r.Fits xs ys → Path xs ys m n r.i2 r.j2 rs →
      Path xs ys m n i j (r :: rs)

namespace Path

variable {xs ys : List String} {m n p q i j : Nat} {rs as bs : List Region}

theorem single {r : Region} (h : r.Fits xs ys) : Path xs ys r.i2 r.j2 r.i1 r.j1 [r] :=
  .cons rfl rfl h (.nil rfl rfl)

theorem append (ha : Path xs ys p q i j as) (hb : Path xs ys m n p q bs) :
    Path xs ys m n i j (as ++ bs) := by
  induction ha with
  | nil hi hj =>
    subst hi hj
    exact hb
  | cons hi hj hr _ ih => exact .cons hi hj hr ih

theorem fits {r : Region} (h : Path xs ys m n i j rs) (hr : r ∈ rs) : r.Fits xs ys := by
  induction h with
  | nil => cases hr
  | cons _ _ hfirst _ ih =>
    rcases List.mem_cons.1 hr with rfl | hr
    · exact hfirst
    · exact ih hr

/-- Nothing but common regions. -/
theorem level (h : Path xs ys m n i j rs) (hall : ∀ r ∈ rs, r.tag = .equal) (hi : i ≤ xs.length)
    (hj : j ≤ ys.length) : Level xs ys i j m n := by
  induction h with
  | nil hm hn =>
    subst hm hn
    exact Level.refl hi hj
  | cons hi1 hj1 hr _ ih =>
    subst hi1 hj1
    have htail := ih (fun r hr => hall r (List.mem_cons_of_mem _ hr)) hr.old_end hr.new_end
    exact (hr.level (hall _ List.mem_cons_self)).trans htail

theorem gap (hi : i ≤ m) (hj : j ≤ n) (hm : m ≤ xs.length) (hn : n ≤ ys.length) :
    Path xs ys m n i j (gap i m j n) := by
  rw [Diff.gap]
  by_cases hold : i < m <;> by_cases hnew : j < n
  · rw [if_pos ⟨hold, hnew⟩]
    exact .cons rfl rfl ⟨hi, hj, hm, hn, nofun, nofun, nofun⟩ (.nil rfl rfl)
  · rw [if_neg (fun h => hnew h.2), if_pos hold]
    have hsame : j = n := by omega
    exact .cons rfl rfl ⟨hi, hj, hm, hn, nofun, fun _ => hsame, nofun⟩ (.nil rfl rfl)
  · rw [if_neg (fun h => hold h.1), if_neg hold, if_pos hnew]
    have hsame : i = m := by omega
    exact .cons rfl rfl ⟨hi, hj, hm, hn, nofun, nofun, fun _ => hsame⟩ (.nil rfl rfl)
  · rw [if_neg (fun h => hold h.1), if_neg hold, if_neg hnew]
    exact .nil (by omega) (by omega)

end Path

section Regions

variable {xs ys : List String} {m n p q i j : Nat}

theorem path_regionsFrom {bs : List Block} (h : Chain xs ys m n i j bs) (hm : m ≤ xs.length)
    (hn : n ≤ ys.length) : Path xs ys m n i j (regionsFrom m n i j bs) := by
  induction h with
  | nil hi hj => exact Path.gap hi hj hm hn
  | cons hold hnew hb _ ih =>
    refine (Path.gap hold hnew (hb.old_le.trans hb.old_end) (hb.new_le.trans hb.new_end)).append ?_
    exact .cons rfl rfl (Region.Fits.of_level hb) ih

theorem path_regions (xs ys : List String) : Path xs ys xs.length ys.length 0 0 (regions xs ys) :=
  path_regionsFrom (chain_blocks xs ys) (Nat.le_refl _) (Nat.le_refl _)

theorem path_trimHead {rs : List Region} (h : Path xs ys m n i j rs) (hi : i ≤ xs.length)
    (hj : j ≤ ys.length) :
    ∃ p q, Level xs ys i j p q ∧ Path xs ys m n p q (trimHead rs) := by
  cases h with
  | nil hm hn => exact ⟨i, j, Level.refl hi hj, .nil hm hn⟩
  | @cons _ _ r rs hi1 hj1 hr hrs =>
    subst hi1 hj1
    rw [trimHead]
    by_cases ht : r.tag = .equal
    · rw [if_pos ht]
      exact ⟨_, _, (hr.tailOf ht).2, .cons rfl rfl (hr.tailOf ht).1 hrs⟩
    · rw [if_neg ht]
      exact ⟨r.i1, r.j1, Level.refl hi hj, .cons rfl rfl hr hrs⟩

theorem path_trimLast {rs : List Region} (h : Path xs ys m n i j rs) (hm : m ≤ xs.length)
    (hn : n ≤ ys.length) :
    ∃ p q, Path xs ys p q i j (trimLast rs) ∧ Level xs ys p q m n := by
  induction h with
  | nil hi hj => exact ⟨m, n, .nil hi hj, Level.refl hm hn⟩
  | @cons i j r rs hi hj hr hrs ih =>
    cases hrs with
    | nil hi2 hj2 =>
      subst hi hj hi2 hj2
      rw [trimLast]
      by_cases ht : r.tag = .equal
      · rw [if_pos ht]
        exact ⟨_, _, Path.single (hr.headOf ht).1, (hr.headOf ht).2⟩
      · rw [if_neg ht]
        exact ⟨_, _, Path.single hr, Level.refl hm hn⟩
    | cons =>
      obtain ⟨p, q, hpath, hlevel⟩ := ih
      exact ⟨p, q, .cons hi hj hr hpath, hlevel⟩

end Regions

/-- Hunks that lead from lines `i` and `j` to the ends of the lists, over equal lines between them.
Only the last one can reach an end. -/
inductive Script (xs ys : List String) : Nat → Nat → List (List Region) → Prop where
  | nil {i j : Nat} : Level xs ys i j xs.length ys.length → Script xs ys i j []
  | cons {i j p q m n : Nat} {h : List Region} {hs : List (List Region)} :
      Level xs ys i j p q → Path xs ys m n p q h → m ≤ xs.length → n ≤ ys.length →
      (hs ≠ [] → m < xs.length ∧ n < ys.length) → Script xs ys m n hs → Script xs ys i j (h :: hs)

namespace Script

variable {xs ys : List String} {m n p q i j : Nat} {hs : List (List Region)}

theorem before (h : Script xs ys p q hs) (hlevel : Level xs ys i j p q) : Script xs ys i j hs := by
  cases h with
  | nil hend => exact .nil (hlevel.trans hend)
  | cons hl hp hm hn hlast hs => exact .cons (hlevel.trans hl) hp hm hn hlast hs

theorem exists_path {rs : List Region} (h : Script xs ys i j hs) (hrs : rs ∈ hs) :
    ∃ p q m n, Path xs ys m n p q rs := by
  induction h with
  | nil => cases hrs
  | @cons i j p q m n _ _ _ hpath _ _ _ _ ih =>
    rcases List.mem_cons.1 hrs with rfl | hrs
    · exact ⟨p, q, m, n, hpath⟩
    · exact ih hrs

/-- A hunk without a change is equal lines. -/
theorem filter {f : List Region → Bool} (hf : ∀ h, f h = false → ∀ r ∈ h, r.tag = .equal)
    (h : Script xs ys i j hs) : Script xs ys i j (hs.filter f) := by
  induction h with
  | nil hend => exact .nil hend
  | @cons i j p q m n h hs hl hp hm hn hlast _ ih =>
    by_cases hchange : f h
    · rw [List.filter_cons_of_pos hchange]
      refine .cons hl hp hm hn (fun hne => hlast ?_) ih
      rintro rfl
      exact hne rfl
    · rw [List.filter_cons_of_neg hchange]
      have hall := hf h (by simpa using hchange)
      exact ih.before (hl.trans (hp.level hall hl.old_end hl.new_end))

end Script

section Hunks

variable {xs ys : List String} {m n p q i j : Nat}

/-- The regions after a hunk begun at lines `p` and `q`. A cut leaves out at least one line. -/
theorem script_hunksFrom {hunk rs : List Region} {i₀ j₀ : Nat} (hl : Level xs ys i₀ j₀ i j)
    (hhunk : Path xs ys p q i j hunk) (hrs : Path xs ys m n p q rs)
    (hend : Level xs ys m n xs.length ys.length) : Script xs ys i₀ j₀ (hunksFrom hunk rs) := by
  induction rs generalizing hunk i j i₀ j₀ p q with
  | nil =>
    cases hrs with
    | nil hpm hqn =>
      subst hpm hqn
      exact .cons hl hhunk hend.old_le hend.new_le (fun h => absurd rfl h) (.nil hend)
  | cons r rs ih =>
    cases hrs with
    | cons hi hj hr hrest =>
      subst hi hj
      rw [hunksFrom]
      split
      · rename_i hcut
        obtain ⟨ht, hlong⟩ : r.tag = .equal ∧ context + context < r.i2 - r.i1 := by simpa using hcut
        obtain ⟨hhead, -⟩ := hr.headOf ht
        obtain ⟨htail, -⟩ := hr.tailOf ht
        have hmiddle := hr.middle ht hlong
        refine .cons hl (hhunk.append (Path.single hhead)) hhead.old_end hhead.new_end
          (fun _ => ?_) ?_
        · have hold := htail.old_le.trans htail.old_end
          have hnew := htail.new_le.trans htail.new_end
          exact ⟨by omega, by omega⟩
        · exact ih hmiddle.1 (Path.single htail) hrest
      · exact ih hl (hhunk.append (Path.single hr)) hrest

theorem script_hunks (xs ys : List String) : Script xs ys 0 0 (hunks xs ys) := by
  obtain ⟨p, q, hfirst, hhead⟩ := path_trimHead (path_regions xs ys) (Nat.zero_le _) (Nat.zero_le _)
  obtain ⟨m, n, hpath, hlast⟩ := path_trimLast hhead (Nat.le_refl _) (Nat.le_refl _)
  refine (script_hunksFrom hfirst (.nil rfl rfl) hpath hlast).filter ?_
  intro h hnone
  simpa using hnone

theorem exists_change_of_mem_hunks {h : List Region} (hh : h ∈ hunks xs ys) :
    ∃ r ∈ h, r.tag ≠ .equal := by
  have hany := (List.mem_filter.1 hh).2
  simpa using hany

theorem tag_of_mem_hunksFrom {hunk rs : List Region} (hhunk : ∀ r ∈ hunk, r.tag = .equal)
    (hrs : ∀ r ∈ rs, r.tag = .equal) : ∀ h ∈ hunksFrom hunk rs, ∀ r ∈ h, r.tag = .equal := by
  induction rs generalizing hunk with
  | nil =>
    intro h hh
    obtain rfl : h = hunk := List.mem_singleton.1 hh
    exact hhunk
  | cons r rs ih =>
    have hr := hrs r List.mem_cons_self
    have hrest : ∀ s ∈ rs, s.tag = .equal := fun s hs => hrs s (List.mem_cons_of_mem _ hs)
    have happend : ∀ x : Region, x.tag = .equal → ∀ s ∈ hunk ++ [x], s.tag = .equal := by
      intro x hx s hs
      rcases List.mem_append.1 hs with hs | hs
      · exact hhunk s hs
      · exact List.mem_singleton.1 hs ▸ hx
    intro h hh
    rw [hunksFrom] at hh
    split at hh
    · rcases List.mem_cons.1 hh with rfl | hh
      · exact happend _ hr
      · have htail : ∀ s ∈ [tailOf r], s.tag = .equal := by
          intro s hs
          rw [List.mem_singleton.1 hs]
          exact hr
        exact ih htail hrest h hh
    · exact ih (happend r hr) hrest h hh

theorem hunks_self (xs : List String) : hunks xs xs = [] := by
  by_cases hxs : xs = []
  · subst hxs
    decide
  · have hregions : regions xs xs = [⟨.equal, 0, xs.length, 0, xs.length⟩] := by
      rw [regions, blocks_self hxs, regionsFrom, regionsFrom]
      simp [gap]
    have htrimmed : ∀ r ∈ trimLast (trimHead (regions xs xs)), r.tag = .equal := by
      rw [hregions]
      simp [trimHead, trimLast, tailOf, headOf]
    rw [hunks, List.filter_eq_nil_iff]
    intro h hh
    simpa using tag_of_mem_hunksFrom (List.forall_mem_nil _) htrimmed h hh

/-- There are no hunks exactly if the lines are the same. -/
theorem hunks_eq_nil_iff : hunks xs ys = [] ↔ xs = ys := by
  constructor
  · intro h
    have hscript := script_hunks xs ys
    rw [h] at hscript
    cases hscript with
    | nil hend => exact hend.eq
  · rintro rfl
    exact hunks_self xs

end Hunks
end Asyncify.Diff
