import Asyncify.Cli.Run
import Asyncify.Exchange
import Asyncify.ParseTable

/-! The program. Source text and configuration files are parsed by a server: it takes a request from
one pipe and writes its answer to another. -/
namespace Asyncify.Cli

/-- Every place that a run can look at. -/
def reach (fs : Files) (a : Arguments) : List (List String) :=
  let start := fs.normalize (a.paths.headD ".")
  (a.config.toList ++ a.paths).flatMap fs.trail ++ (Config.upward start).flatMap Config.candidates

/-- What lies at a place. Error number 21 is that of reading a directory. -/
def look (names : List String) : IO (Option FileEntry) := do
  try
    let bytes ← IO.FS.readBinFile (Files.absolute names)
    return some (.file (bytes.toList.map UInt8.toNat))
  catch
    | .inappropriateType _ 21 _ => return some .directory
    | _ => return none

def lookAll (fs : Files) (places : List (List String)) : IO Files := do
  let found ← places.eraseDups.filterMapM fun names => return (← look names).map (names, ·)
  return { fs with entries := found }

/-- Asks the server whose pipes are in the directory that the environment names. -/
def ask (language text : String) : IO (List String) := do
  match ← IO.getEnv "METEOR_CODEMOD_PARSER" with
  | none => throw (IO.userError "METEOR_CODEMOD_PARSER is not set")
  | some dir =>
    IO.FS.writeFile (dir ++ "/requests") (Exchange.request language text ++ "\n")
    return (← IO.FS.lines (dir ++ "/answers")).toList

/-- The document in the configuration file, if there is such a file. -/
def fetchDocument (fs : Files) (a : Arguments) : IO (Except Fault Value) := do
  match (configFile? fs a).bind (·.place) with
  | none => return .ok .null
  | some names =>
    match fs.readAt names with
    | .error _ => return .ok .null
    | .ok text => return Exchange.document (← ask "yaml" text)

/-- Repeats a run until every parse it wants is known. -/
partial def settle {α : Type} (run : Parse → Traced α) (known : ParseTable) : IO (Traced α) := do
  let r := run known.parse
  match known.missing? r.events with
  | none => return r
  | some (grammar, text) =>
    match Exchange.node? (← ask grammar.name text) with
    | some n => settle run (known ++ [((grammar, text), n)])
    | none => throw (IO.userError "the parser gave no tree")

def execute (words : List String) : IO UInt32 := do
  let directory := (Files.parts (← IO.currentDir).toString).filter (· ≠ "")
  let bare : Files := { entries := [], workingDirectory := directory }
  let (files, doc) ← match Arguments.parse words with
    | .error _ => pure (bare, .ok .null)
    | .ok a => do
      let files ← lookAll bare (reach bare a)
      pure (files, ← fetchDocument files a)
  let r ← settle
    (fun parse => (run { files, parse, readDocument := fun _ => doc, packages := [] } words).run) []
  match r.value with
  | .ok out =>
    IO.eprint out.stderr
    IO.print out.stdout
    return out.exit.toUInt32
  | .error e =>
    IO.eprintln e.message
    return 1

end Asyncify.Cli

def main (words : List String) : IO UInt32 := Asyncify.Cli.execute words
