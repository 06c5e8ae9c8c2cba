import Asyncify.Config

/-! Configuration from a document. The document is taken as a whole or not at all. -/
namespace Asyncify.Config

def knownKeys : List String := ["enabled_rules", "transforms", "rule_configs", "plugins", "verbose"]

def isKnown : Key → Bool
  | .text s => knownKeys.contains s
  | _ => false

/-- The value of a key, or the given one if the document has no such key. -/
def field (doc : Entries Value) (name : String) (unset : Value) : Value :=
  (doc.get? (.text name)).getD unset

def orEmpty (v : Value) : Value := if v.isSet then v else .empty

/-- Lays the options of a rule over those it has. A rule without any takes them as they are. -/
def mergeRule (base : Entries Value) (rule : Key) (options : Value) :
    Except Fault (Entries Value) :=
  match base.get? rule with
  | some (.map es) => do
    let more ← (orEmpty options).entries
    return base.put rule (.map (es.putAll more.toList))
  | _ => .ok (base.put rule (orEmpty options))

def mergeRules (base : Entries Value) : List (Key × Value) → Except Fault (Entries Value)
  | [] => .ok base
  | (rule, options) :: rest => do mergeRules (← mergeRule base rule options) rest

/-- The options of all rules: the standard ones with those of the document over them. -/
def mergedRuleConfigs (doc : Entries Value) : Except Fault Value :=
  match doc.get? (.text "rule_configs") with
  | none => .ok (.map standardRuleConfigs)
  | some v =>
    match orEmpty v with
    | .map es => (mergeRules standardRuleConfigs es.toList).map .map
    | w => .error (.notMap w.shape "items")

/-- One text stands for a list of one pattern. -/
def asPatterns : Value → Value
  | .text s => .list [.text s]
  | v => v

def orUnset (v unset : Value) : Value :=
  match v with
  | .null => unset
  | w => w

/-- The configuration that a document of entries gives. Keys it does not know are named in a
warning. -/
def ofEntries (path : String) (doc : Entries Value) : Run Fault Config := do
  let unknown ← Key.sort (doc.keys.toList.filter fun k => !isKnown k)
  unless unknown.isEmpty do
    Traced.warn ("Ignoring unknown config keys in " ++ path ++ ": " ++
      (Value.list (unknown.map .scalar)).quoted)
  let ruleConfigs ← mergedRuleConfigs doc
  return {
    enabledRules := asPatterns (field doc "enabled_rules" standard.enabledRules)
    transforms := orUnset (field doc "transforms" standard.transforms) standard.transforms
    ruleConfigs
    plugins := orUnset (field doc "plugins" standard.plugins) standard.plugins
    verbose := field doc "verbose" standard.verbose }

def ofDocument (path : String) (doc : Value) : Run Fault Config :=
  match orEmpty doc with
  | .map es => ofEntries path es
  | _ => throw .notDocument

/-- The kinds of failure after which the standard configuration is used. -/
def handles : FailureKind → Bool
  | .system | .markup | .value | .type | .attribute => true
  | _ => false

/-- The configuration that a document gives, or the standard one with two warnings. `read` is the
document, or why it could not be read. A failure of a kind that is not handled is passed on. -/
def load (path : String) (read : Except Fault Value) : Run Fault Config :=
  tryCatch (read >>= fun doc => ofDocument path doc) fun f => do
    if handles f.kind then
      Traced.warn ("Failed to load config from " ++ path ++ ": " ++ f.message)
      Traced.warn "Using default configuration."
      return standard
    else throw f

end Asyncify.Config
