import Asyncify.Batch
import Asyncify.Cli.Arguments
import Asyncify.Config.Load
import Asyncify.Config.Search
import Asyncify.Diff
import Asyncify.Registry.Package
import Asyncify.Text.Blank
import Asyncify.Value.Json

/-! What the command line prints. -/
namespace Asyncify

namespace Change

def toValue (c : Change) : Value :=
  .map (.ofList [(.text "type", .text c.kind.name), (.text "description", .text c.description),
    (.text "line", .int c.position.line), (.text "column", .int c.position.column),
    (.text "oldCode", (c.oldCode.map Value.text).getD .null), (.text "newCode", c.newCode)])

end Change

namespace Result

def toValue (r : Result) : Value :=
  .map (.ofList [(.text "path", .text r.path), (.text "source", .text r.source),
    (.text "hasChanges", .bool r.hasChanges), (.text "changes", .list (r.changes.map (·.toValue)))])

end Result

namespace Cli

/-- What the program can reach: files, a parser for source text and one for configuration files, and
packages with further rules. -/
structure World where
  files : Files
  parse : Parse
  readDocument : String → Except Fault Value
  packages : List (String × Package)

structure Output where
  exit : Nat
  stdout : String
  stderr : String
  deriving DecidableEq, Repr

def program : String := "meteor-codemod"

def helpText : String :=
  "usage: meteor-codemod [-h] [--config FILE] [--rules RULES] [--disable RULE] [--list-rules]\n" ++
    "                      [--diff | --json] [--verbose] [FILE ...]\n"

def misuse (message : String) : String := program ++ ": error: " ++ message ++ "\n"

/-- A configuration file: its name for messages, and where it is, if it is anywhere. -/
structure ConfigFile where
  name : String
  place : Option (List String)

/-- The configuration file that is named, or the nearest one to the first path. -/
def configFile? (fs : Files) (a : Arguments) : Option ConfigFile :=
  match a.config.filter (· ≠ "") with
  | some name => some ⟨name, (fs.resolve name).toOption⟩
  | none =>
    (Config.find? fs (a.paths.headD ".")).map fun names => ⟨Files.absolute names, some names⟩

/-- A file that is not there counts as none. -/
def loadConfig (w : World) (file : Option ConfigFile) : Run Fault Config :=
  match file.bind fun f => f.place.map (f.name, ·) with
  | none => return Config.standard
  | some (name, place) =>
    Config.load name <|
      match w.files.readAt place with
      | .error r => .error (.unread r.kind (r.message name))
      | .ok text => w.readDocument text

/-- The patterns in a list with commas. -/
def patternsIn (s : String) : List String :=
  ((Text.splitOn [','] s.toList).map fun p => Text.strip (String.ofList p)).filter (· ≠ "")

/-- The configuration as the command line changes it. -/
def adjust (a : Arguments) (c : Config) : Except Fault Config :=
  let c := match a.rules.filter (· ≠ "") with
    | some s => { c with enabledRules := .list ((patternsIn s).map .text) }
    | none => c
  c.disableAll (a.disable.map fun
    | some rule => .text rule
    | none => .list [])

def padRight (width : Nat) (s : String) : String :=
  s ++ String.ofList (List.replicate (width - s.length) ' ')

def ruleLine (r : Rule) : String := padRight 20 r.info.id ++ " " ++ r.info.description ++ "\n"

def summaryLine (r : Result) : String :=
  "Would update: " ++ r.path ++ " (" ++ toString r.changes.length ++ " changes)\n"

/-- What is printed for the files that were processed. Only JSON can fail. -/
def report (a : Arguments) (ps : List Engine.Processed) : Except Fault String :=
  let changed := ps.filter fun p => p.result.hasChanges
  if a.json then (Json.ofValue (.list (ps.map fun p => p.result.toValue))).map (· ++ "\n")
  else if a.diff then
    .ok ("".intercalate (changed.map fun p =>
      Diff.unified p.result.path p.source p.result.source))
  else
    .ok ("".intercalate (changed.map fun p => summaryLine p.result) ++ toString changed.length ++
      " of " ++ toString a.paths.length ++ " files would change\n")

/-- How the main part ends: with an exit code and a text, or with a complaint about the
arguments. -/
inductive Ending where
  | printed (exit : Nat) (stdout : String)
  | refused (message : String)

/-- The main part, once the configuration is there. -/
def body (w : World) (a : Arguments) (name : String) (config : Config) : Run Error Ending := do
  Traced.debug ("Using config: " ++ name)
  let config ← Run.ofExcept Error.fault (adjust a config)
  let registry ← Run.mapError Error.fault (Registry.withPlugins w.packages config.plugins)
  if a.listRules then return .printed 0 ("".intercalate (registry.rules.map ruleLine))
  if a.paths.isEmpty then return .refused "no files given"
  let engine : Engine := { registry, config, parse := w.parse }
  let rules ← Run.ofExcept Error.fault engine.enabledRules
  Traced.debug ("Running " ++ toString rules.length ++ " rules: " ++
    (Value.list (rules.map fun r => .text r.info.id)).quoted)
  let ps ← engine.processFiles w.files a.paths
  let text ← Run.ofExcept Error.fault (report a ps)
  return .printed (if ps.length = a.paths.length then 0 else 1) text

def levelLine (r : Record) : String := r.level.name ++ ": " ++ r.message ++ "\n"

/-- Records as they are printed: those of loading the configuration bare, as the level to print is
known only after it. -/
def logText (verbose : Bool) (loading running : List Event) : String :=
  let early := Record.atLeast .warning (Event.records loading)
  let late := Record.atLeast (if verbose then .debug else .warning) (Event.records running)
  "".intercalate (early.map fun r => r.message ++ "\n") ++ "".intercalate (late.map levelLine)

/-- The main part and what it prints, after the events of loading the configuration. -/
def runWith (w : World) (a : Arguments) (name : String) (loading : List Event) (config : Config) :
    Run Error Output :=
  let ending := body w a name config
  let log := logText (a.verbose || config.verbose.isSet) loading ending.run.events
  ExceptT.mk ⟨ending.run.value.map fun
    | .printed exit stdout => ⟨exit, stdout, log⟩
    | .refused m => ⟨2, "", log ++ misuse m⟩, loading ++ ending.run.events⟩

/-- Runs the program. A fault that nobody handles is the answer. -/
def run (w : World) (words : List String) : Run Error Output :=
  match Arguments.parse words with
  | .error .help => return ⟨0, helpText, ""⟩
  | .error (.misuse m) => return ⟨2, "", misuse m⟩
  | .ok a =>
    let file := configFile? w.files a
    let loading := (loadConfig w file).run
    match loading.value with
    | .error f => ExceptT.mk ⟨.error (.fault f), loading.events⟩
    | .ok config => runWith w a ((file.map (·.name)).getD "defaults") loading.events config

end Cli
end Asyncify
