import Asyncify.Config.Search
import Mathlib.Data.List.Infix

/-! The way up from a directory to the root. The configuration file that counts lies in the nearest
directory that has one, and there it has the name that comes first. -/
namespace Asyncify.Config

/-- The directory that a search from a path starts in: the one around a file, and otherwise the
place itself, whether there is anything or not. -/
inductive IsHome (fs : Files) (names : List String) : List String → Prop
  | file {bytes : List Nat} (h : fs.at? names = some (.file bytes)) : IsHome fs names names.dropLast
  | other (h : ∀ bytes, fs.at? names ≠ some (.file bytes)) : IsHome fs names names

/-- A directory has an entry of that name. -/
def Holds (fs : Files) (dir : List String) (name : String) : Prop := (fs.at? (dir ++ [name])).isSome

instance (fs : Files) (dir : List String) (name : String) : Decidable (Holds fs dir name) :=
  inferInstanceAs (Decidable ((fs.at? (dir ++ [name])).isSome = true))

/-- A directory has an entry with one of the names of configuration files. -/
def IsConfigured (fs : Files) (dir : List String) : Prop := ∃ name ∈ fileNames, Holds fs dir name

/-- A directory has an entry of that name, and none of a name that is preferred to it. -/
structure Prefers (fs : Files) (dir : List String) (name : String) : Prop where
  holds : Holds fs dir name
  first : ∃ before after, fileNames = before ++ name :: after ∧
    ∀ other ∈ before, ¬ Holds fs dir other

/-- Of a directory and those around it, the one with a configuration file that all others with one
lie around. -/
structure IsNearest (fs : Files) (home dir : List String) : Prop where
  around : dir <+: home
  configured : IsConfigured fs dir
  nearest : ∀ d, d <+: home → IsConfigured fs d → d <+: dir

variable {fs : Files} {dir home file : List String}

theorem isHome_startDirectory (fs : Files) (start : String) :
    IsHome fs (fs.normalize start) (startDirectory fs start) := by
  rw [startDirectory]
  split
  · next bytes h => exact .file h
  · next h => exact .other h

theorem inDirectory?_eq_some_iff :
    inDirectory? fs dir = some file ↔ ∃ name, Prefers fs dir name ∧ file = dir ++ [name] := by
  rw [inDirectory?, candidates, List.find?_map, Option.map_eq_some_iff]
  refine exists_congr fun name => and_congr ?_ eq_comm
  rw [List.find?_eq_some_iff_append]
  constructor
  · rintro ⟨hholds, before, after, heq, hnone⟩
    exact ⟨hholds, before, after, heq, by simpa [Holds] using hnone⟩
  · rintro ⟨hholds, before, after, heq, hnone⟩
    exact ⟨hholds, before, after, heq, by simpa [Holds] using hnone⟩

theorem inDirectory?_eq_none_iff : inDirectory? fs dir = none ↔ ¬ IsConfigured fs dir := by
  simp [inDirectory?, candidates, IsConfigured, Holds]

/-- The directories around one are itself and those around its parent. -/
theorem around_iff (dir home : List String) : dir <+: home ↔ dir = home ∨ dir <+: parent home := by
  obtain rfl | ⟨names, name, rfl⟩ := List.eq_nil_or_concat home
  · simp [parent]
  · rw [parent, List.concat_eq_append, List.dropLast_concat, List.prefix_concat_iff]

/-- Above the root there is nothing. -/
theorem eq_of_around_root (hroot : parent home = home) (h : dir <+: home) : dir = home := by
  obtain rfl | hne := eq_or_ne home []
  · exact List.prefix_nil.1 h
  · have hlen := congrArg List.length hroot
    have hpos := List.length_pos_iff.2 hne
    rw [parent, List.length_dropLast] at hlen
    omega

theorem isNearest_self_iff (h : IsConfigured fs home) : IsNearest fs home dir ↔ dir = home := by
  constructor
  · intro hn
    exact hn.around.eq_of_length_le (hn.nearest home List.prefix_rfl h).length_le
  · rintro rfl
    exact ⟨List.prefix_rfl, h, fun d hd _ => hd⟩

theorem isNearest_parent_iff (h : ¬ IsConfigured fs home) :
    IsNearest fs home dir ↔ IsNearest fs (parent home) dir := by
  have hup {d : List String} (hd : IsConfigured fs d) : d <+: home ↔ d <+: parent home := by
    rw [around_iff, or_iff_right]
    rintro rfl
    exact h hd
  constructor
  · rintro ⟨ha, hc, hn⟩
    exact ⟨(hup hc).1 ha, hc, fun d hd hcd => hn d ((hup hcd).2 hd) hcd⟩
  · rintro ⟨ha, hc, hn⟩
    exact ⟨(hup hc).2 ha, hc, fun d hd hcd => hn d ((hup hcd).1 hd) hcd⟩

/-- The search stops in the nearest directory with a configuration file. -/
theorem searchUp_eq_some_iff :
    searchUp fs home = some file ↔ ∃ dir, IsNearest fs home dir ∧
    inDirectory? fs dir = some file := by
  fun_induction searchUp fs home with
  | case1 home found h =>
    have hc : IsConfigured fs home := by
      by_contra hc
      rw [inDirectory?_eq_none_iff.2 hc] at h
      cases h
    simp [isNearest_self_iff hc, h]
  | case2 home h hroot =>
    have hc := inDirectory?_eq_none_iff.1 h
    constructor
    · intro hs
      cases hs
    · rintro ⟨dir, hn, -⟩
      rw [eq_of_around_root hroot hn.around] at hn
      exact absurd hn.configured hc
  | case3 home h hroot ih =>
    rw [ih]
    simp only [isNearest_parent_iff (inDirectory?_eq_none_iff.1 h)]

theorem searchUp_eq_none_iff :
    searchUp fs home = none ↔ ∀ dir, dir <+: home → ¬ IsConfigured fs dir := by
  fun_induction searchUp fs home with
  | case1 home found h =>
    have hc : ¬ ¬ IsConfigured fs home := by
      rw [← inDirectory?_eq_none_iff, h]
      simp
    simpa using ⟨home, List.prefix_rfl, not_not.1 hc⟩
  | case2 home h hroot =>
    refine ⟨fun _ dir hd => ?_, fun _ => rfl⟩
    rw [eq_of_around_root hroot hd]
    exact inDirectory?_eq_none_iff.1 h
  | case3 home h hroot ih =>
    rw [ih]
    simp only [around_iff _ home, forall_eq_or_imp]
    exact (and_iff_right (inDirectory?_eq_none_iff.1 h)).symm

/-- The search for a configuration file finds one just if the directory that it starts in, or one
around it, has an entry with one of the names. What it finds lies in the nearest such directory, and
has the first of the names that there are. -/
theorem find?_is_nearest (fs : Files) (start : String) :
    ∃ home, IsHome fs (fs.normalize start) home ∧
      ((find? fs start).isSome ↔ ∃ dir, dir <+: home ∧ IsConfigured fs dir) ∧
      ∀ file, find? fs start = some file ↔
        ∃ dir name, IsNearest fs home dir ∧ Prefers fs dir name ∧ file = dir ++ [name] := by
  refine ⟨startDirectory fs start, isHome_startDirectory fs start, ?_, fun file => ?_⟩
  · rw [find?, ← not_iff_not, Option.not_isSome_iff_eq_none, searchUp_eq_none_iff]
    simp
  · rw [find?, searchUp_eq_some_iff]
    simp only [inDirectory?_eq_some_iff, exists_and_left]

namespace Workshop

/-- A file in a directory without a configuration. The directory around it has two entries with a
name that counts, one of them a directory, and the root has one with a name that comes before
theirs. -/
def files : Files where
  entries := [(["a", "b", "x.js"], .file []), (["a", "meteor-codemod.yml"], .file []),
    (["a", ".meteor-codemod.yaml"], .directory), ([".meteor-codemod.yml"], .file [])]
  workingDirectory := ["a"]

theorem isNearest : IsNearest files ["a", "b"] ["a"] where
  around := by simp
  configured := ⟨".meteor-codemod.yaml", by decide, by decide +kernel⟩
  nearest d hd hc := by
    have hnot : inDirectory? files ["a", "b"] = none := by decide +kernel
    obtain rfl | hd := (around_iff d _).1 hd
    · exact absurd hc (inDirectory?_eq_none_iff.1 hnot)
    · exact hd

end Workshop

theorem find?_is_nearest_workshop :
    find? Workshop.files "b/x.js" = some ["a", ".meteor-codemod.yaml"] := by
  obtain ⟨home, hhome, -, hfile⟩ := find?_is_nearest Workshop.files "b/x.js"
  have hnames : Workshop.files.normalize "b/x.js" = ["a", "b", "x.js"] := by decide +kernel
  have hentry : Workshop.files.at? ["a", "b", "x.js"] = some (.file []) := by decide +kernel
  rw [hnames] at hhome
  cases hhome with
  | other h => exact absurd hentry (h [])
  | file h =>
    refine (hfile _).2 ⟨["a"], ".meteor-codemod.yaml", Workshop.isNearest,
      ⟨by decide +kernel, ?_⟩, rfl⟩
    exact ⟨[".meteor-codemod.yml"], ["meteor-codemod.yml", "meteor-codemod.yaml"],
      rfl, by decide +kernel⟩

end Asyncify.Config
