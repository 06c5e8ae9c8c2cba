import Asyncify.Trace
import Asyncify.Value.Display
import Asyncify.Value.Reading

/-! Configuration: which rules run, and with which options. The fields hold what the file says, and
are judged where they are used. -/
namespace Asyncify

structure Config where
  enabledRules : Value
  transforms : Value := .empty
  ruleConfigs : Value := .empty
  plugins : Value := .list []
  verbose : Value := .bool false

namespace Config

def standardRuleConfigs : Entries Value :=
  .ofList [(.text "meteor-call-async",
      .map (.ofList [(.text "decompose_callbacks", .bool true), (.text "indent", .text "  ")])),
    (.text "cursor-async",
      .map (.ofList [(.text "query_methods", .list [.text "find", .text "findOne"])]))]

/-- What holds without a configuration file. -/
def standard : Config :=
  { enabledRules := .list [.text "*"], ruleConfigs := .map standardRuleConfigs }

/-- The rules that are switched off by name. -/
def disabledRules (c : Config) : Except Fault (List Key) :=
  match c.transforms with
  | .map es => .ok (es.toList.filterMap fun
    | (k, .bool false) => some k
    | _ => none)
  | v => .error (.notMap v.shape "items")

/-- The options of one rule. -/
def optionsFor (c : Config) (rule : String) : Except Fault (Entries Value) :=
  match c.ruleConfigs with
  | .map es =>
    let options := (es.get? (.text rule)).getD .null
    if options.isSet then options.entries else .ok .empty
  | v => .error (.notMap v.shape "get")

/-- Sets the options of one rule. -/
def withOptions (c : Config) (rule : String) (options : Value) : Except Fault Config :=
  match c.ruleConfigs with
  | .map es => .ok { c with ruleConfigs := .map (es.put (.text rule) options) }
  | v => .error (.notWritable v.shape)

/-- Switches a rule off. -/
def disable (c : Config) (rule : Value) : Except Fault Config :=
  match c.transforms with
  | .map es => do return { c with transforms := .map (es.put (← rule.key) (.bool false)) }
  | v => .error (.notWritable v.shape)

def disableAll (c : Config) : List Value → Except Fault Config
  | [] => .ok c
  | r :: rs => do disableAll (← c.disable r) rs

end Config
end Asyncify
