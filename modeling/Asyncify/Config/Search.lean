import Asyncify.Files

/-! The search for a configuration file. -/
namespace Asyncify.Config

/-- Names of configuration files, the preferred first. -/
def fileNames : List String :=
  [".meteor-codemod.yml", ".meteor-codemod.yaml", "meteor-codemod.yml", "meteor-codemod.yaml"]

/-- The configuration files that a directory may hold. -/
def candidates (dir : List String) : List (List String) := fileNames.map fun n => dir ++ [n]

/-- The first configuration file in a directory. -/
def inDirectory? (fs : Files) (dir : List String) : Option (List String) :=
  (candidates dir).find? fun f => (fs.at? f).isSome

/-- The directory that a directory lies in. The root lies in itself. -/
def parent (dir : List String) : List String := dir.dropLast

theorem length_parent {dir : List String} (h : parent dir ≠ dir) :
    (parent dir).length < dir.length := by
  cases dir with
  | nil => exact absurd rfl h
  | cons name names => simp [parent]

/-- A directory and those it lies in, up to the root. -/
def upward (dir : List String) : List (List String) :=
  (List.range (dir.length + 1)).reverse.map dir.take

/-- Goes up from a directory until one of them holds a configuration file, or none is left. -/
def searchUp (fs : Files) (dir : List String) : Option (List String) :=
  match inDirectory? fs dir with
  | some file => some file
  | none => if parent dir = dir then none else searchUp fs (parent dir)
termination_by dir.length
decreasing_by exact length_parent ‹_›

/-- Where the search starts: a directory, or the one that holds the file. -/
def startDirectory (fs : Files) (start : String) : List String :=
  let names := fs.normalize start
  match fs.at? names with
  | some (.file _) => parent names
  | _ => names

/-- The configuration file nearest to a path, going up from its directory. -/
def find? (fs : Files) (start : String) : Option (List String) :=
  searchUp fs (startDirectory fs start)

end Asyncify.Config
