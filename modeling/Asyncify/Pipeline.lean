import Asyncify.Config
import Asyncify.Registry
import Asyncify.Tree.Defect

/-! Running rules over a source text, one after the other. -/
namespace Asyncify

/-- How source text is parsed. -/
abbrev Parse := Grammar → String → Node

/-- Parses a text with the grammar of its path. -/
def Parse.run (parse : Parse) (path text : String) : Traced Node :=
  ⟨parse (.ofPath path) text, [.parsed (.ofPath path) text]⟩

/-- Why a file has no result. -/
inductive Error where
  | unknownRule (id : String)
  | badSource (path : String) (position : Position)
  | ruleFailed (id : String) (fault : Fault)
  | fault (f : Fault)
  deriving DecidableEq, Repr

namespace Error

def message : Error → String
  | unknownRule id => "Rule " ++ id ++ " not found"
  | badSource path pos =>
    "Syntax error in " ++ path ++ " at line " ++ toString pos.line ++ ", column " ++
      toString pos.column
  | ruleFailed id f => "Rule " ++ id ++ " failed: " ++ f.message
  | fault f => f.message

end Error

/-- The rule of an id, which must be there. -/
def Registry.require (r : Registry) (id : String) : Except Error Rule :=
  match r.get? id with
  | some rule => .ok rule
  | none => .error (.unknownRule id)

structure Result where
  path : String
  source : String
  hasChanges : Bool
  changes : List Change

/-- The rules, their configuration and the parser. -/
structure Engine where
  registry : Registry
  config : Config
  parse : Parse

namespace Engine

variable (e : Engine)

/-- The rules that the configuration selects, in the order they run. -/
def enabledRules : Except Fault (List Rule) := do
  e.registry.enabled e.config.enabledRules (.list ((← e.config.disabledRules).map .scalar))

/-- Refuses a text that does not parse. The column of the first defect counts bytes. -/
def checkSource (source path : String) : Run Error Unit := do
  let root ← e.parse.run path source
  match root.firstDefect? with
  | some n => throw (.badSource path (.ofOffsetBytes source.toList n.start))
  | none => return ()

/-- Runs one rule. Its output must parse. -/
def applyRule (rule : Rule) (source path : String) : Run Fault (String × List Change) := do
  let options ← e.config.optionsFor rule.info.id
  let root ← e.parse.run path source
  let outcome ← rule.visit { path, doc := .ofParse source root, options }
  match outcome.output with
  | none => return (source, [])
  | some output =>
    if output = source then return (source, [])
    let root ← e.parse.run path output
    if root.firstDefect?.isSome then throw .brokenOutput
    return (output, ← outcome.changes)

/-- Runs rules one after the other, each on what the last one left. A rule that fails is logged and
changes nothing. -/
def applyRules (path : String) (source : String) : List Rule → Traced (String × List Change)
  | [] => return (source, [])
  | rule :: rules => do
    match ← (e.applyRule rule source path).run with
    | .error f =>
      Traced.log .error ("Rule " ++ rule.info.id ++ " failed on " ++ path ++ ": " ++ f.message)
      applyRules path source rules
    | .ok (output, changes) =>
      unless changes.isEmpty do
        Traced.log .info (rule.info.id ++ ": " ++ toString changes.length ++ " changes in " ++ path)
      let (final, more) ← applyRules path output rules
      return (final, changes ++ more)

/-- Runs every selected rule over a text. -/
def transform (source path : String) : Run Error Result := do
  e.checkSource source path
  let rules ← Run.ofExcept Error.fault e.enabledRules
  let (final, changes) ← e.applyRules path source rules
  return { path, source := final, hasChanges := final != source, changes }

/-- Runs a single rule, selected or not. -/
def runRule (id source path : String) : Run Error Result := do
  let rule ← e.registry.require id
  e.checkSource source path
  match ← (e.applyRule rule source path).attempt with
  | .error f => throw (.ruleFailed id f)
  | .ok (output, changes) =>
    return { path, source := output, hasChanges := output != source, changes }

/-- The bare output of a rule with the given options. Neither the text nor the output has to
parse. -/
def ruleOutput (id source path : String) (options : Value) : Run Error (Option String) := do
  let rule ← e.registry.require id
  let root ← e.parse.run path source
  let entries ← Run.ofExcept Error.fault (if options.isSet then options.entries else .ok .empty)
  let outcome ← Run.mapError Error.fault
    (rule.visit { path, doc := .ofParse source root, options := entries })
  return outcome.output

/-- What to do next to a text: all selected rules, or one by its id. -/
inductive Stage where
  | all
  | one (id : String)
  deriving DecidableEq, Repr

/-- Takes stages one after the other, each on what the last successful one left. -/
def stages (path source : String) : List Stage → Traced (List (Except Error Result))
  | [] => return []
  | s :: ss => do
    let r ← (match s with
      | .all => e.transform source path
      | .one id => e.runRule id source path).run
    let rest ← stages path (match r with
      | .ok result => result.source
      | .error _ => source) ss
    return r :: rest

end Engine
end Asyncify
