import Asyncify.Text.DigitRanges
import Asyncify.Text.Quoted

/-! The words of the command line. -/
namespace Asyncify.Cli

inductive Flag where
  | help | config | rules | disable | listRules | diff | json | verbose
  deriving DecidableEq, Repr

/-- The spellings of the flags. -/
def spellings : List (String × Flag) :=
  [("-h", .help), ("--help", .help), ("--config", .config), ("--rules", .rules),
    ("--disable", .disable), ("--list-rules", .listRules), ("--diff", .diff), ("--json", .json),
    ("--verbose", .verbose), ("-v", .verbose)]

namespace Flag

def takesValue : Flag → Bool
  | config | rules | disable => true
  | _ => false

/-- All spellings of a flag, as messages name it. -/
def name (f : Flag) : String :=
  "/".intercalate ((spellings.filter fun s => s.2 = f).map (·.1))

end Flag

/-- What a command line asks for. A flag whose value is the word `--` is there without one. -/
structure Arguments where
  paths : List String := []
  config : Option String := none
  rules : Option String := none
  disable : List (Option String) := []
  listRules : Bool := false
  diff : Bool := false
  json : Bool := false
  verbose : Bool := false
  deriving DecidableEq, Repr

/-- Why the command line is not carried out. -/
inductive Stop where
  | help
  | misuse (message : String)
  deriving DecidableEq, Repr

/-- A word of the command line. A flag may have its value in the same word, behind `=` or, after a
single dash, right behind its letter. -/
inductive Word where
  | plain (s : String)
  /-- The word `--`, behind which no word is a flag. -/
  | dashes
  | flag (f : Flag) (long : Bool) (attached : Option String)
  | unknown (s : String)
  deriving DecidableEq, Repr

/-- The part of a word up to the first `=`, and what is behind it. -/
def cutEquals (s : String) : String × Option String :=
  let front := s.toList.takeWhile (· ≠ '=')
  match s.toList.drop front.length with
  | _ :: rest => (String.ofList front, some (String.ofList rest))
  | [] => (s, none)

/-- Digits with at most one point, and digits behind it. A line feed may follow. -/
def isNumber (cs : List Char) : Bool :=
  let whole := cs.takeWhile Text.isDigit
  match cs.drop whole.length with
  | [] | ['\n'] => !whole.isEmpty
  | '.' :: rest =>
    let fraction := rest.takeWhile Text.isDigit
    !fraction.isEmpty && [[], ['\n']].contains (rest.drop fraction.length)
  | _ => false

/-- Such words are paths, as no flag looks like them. -/
def isNegativeNumber (s : String) : Bool :=
  match s.toList with
  | '-' :: rest => isNumber rest
  | _ => false

/-- The flags whose spelling begins like the word, each with its spelling. -/
def abbreviated (front : String) : List (String × Flag) :=
  spellings.filter fun s => front.toList.isPrefixOf s.1.toList

/-- What a word that begins with a dash and is no flag as it stands may be. -/
def readDashed (s : String) : Except Stop Word :=
  let (front, value) := cutEquals s
  match value.bind fun _ => spellings.lookup front with
  | some f => .ok (.flag f (front.toList.take 2 = ['-', '-']) value)
  | none =>
    let otherwise : Word :=
      if isNegativeNumber s || s.toList.contains ' ' then .plain s else .unknown s
    if s.toList.take 2 = ['-', '-'] then
      match abbreviated front with
      | [] => .ok otherwise
      | [(_, f)] => .ok (.flag f true value)
      | fs =>
        .error (.misuse ("ambiguous option: " ++ s ++ " could match " ++
          ", ".intercalate (fs.map (·.1))))
    else
      match spellings.lookup (String.ofList (s.toList.take 2)) with
      | some f => .ok (.flag f false (some (String.ofList (s.toList.drop 2))))
      | none => .ok otherwise

/-- Reads one word. A flag may be shortened as long as it is clear which one is meant. -/
def readWord (s : String) : Except Stop Word :=
  if s.toList.head? ≠ some '-' then .ok (.plain s)
  else
    match spellings.lookup s with
    | some f => .ok (.flag f (s.toList.take 2 = ['-', '-']) none)
    | none => if s.toList.length = 1 then .ok (.plain s) else readDashed s

def readWords : List String → Except Stop (List Word)
  | [] => .ok []
  | s :: ss =>
    if s = "--" then .ok (.dashes :: ss.map .plain)
    else do
      let w ← readWord s
      let ws ← readWords ss
      return w :: ws

/-- The state of reading: the arguments so far, words that belong nowhere, and whether the run of
paths is over. Only one run of words is taken for paths. -/
structure Reading where
  args : Arguments := {}
  extras : List String := []
  closed : Bool := false

namespace Reading

variable (r : Reading)

def positional (s : String) : Reading :=
  if r.closed then { r with extras := r.extras ++ [s] }
  else { r with args := { r.args with paths := r.args.paths ++ [s] } }

/-- A flag ends the run of paths, once it has begun. -/
def close : Reading := { r with closed := r.closed || !r.args.paths.isEmpty }

def extra (s : String) : Reading := { r with extras := r.extras ++ [s] }

def clash (f g : Flag) : Except Stop Reading :=
  .error (.misuse ("argument " ++ f.name ++ ": not allowed with argument " ++ g.name))

/-- Carries out a flag. -/
def apply (f : Flag) (value : Option String) : Except Stop Reading :=
  let a := r.args
  match f with
  | .help => .error .help
  | .config => .ok { r with args := { a with config := value } }
  | .rules => .ok { r with args := { a with rules := value } }
  | .disable => .ok { r with args := { a with disable := a.disable ++ [value] } }
  | .listRules => .ok { r with args := { a with listRules := true } }
  | .diff => if a.json then clash f .json else .ok { r with args := { a with diff := true } }
  | .json => if a.diff then clash f .diff else .ok { r with args := { a with json := true } }
  | .verbose => .ok { r with args := { a with verbose := true } }

def applyAll (r : Reading) : List Flag → Except Stop Reading
  | [] => .ok r
  | f :: fs => do applyAll (← r.apply f none) fs

end Reading

def ignored {α : Type} (f : Flag) (value : String) : Except Stop α :=
  .error (.misuse ("argument " ++ f.name ++ ": ignored explicit argument " ++ Text.quoted value))

/-- One-letter flags in one word, behind a first one. -/
def cluster (f : Flag) : List Char → Except Stop (List Flag)
  | [] => .ok [f]
  | c :: rest =>
    match spellings.lookup (String.ofList ['-', c]) with
    | none => ignored f (String.ofList (c :: rest))
    | some g => do return f :: (← cluster g rest)

/-- Reads the words in order. -/
def readArguments (r : Reading) : List Word → Except Stop Reading
  | [] => .ok r
  | .plain s :: ws => readArguments (r.positional s) ws
  | .dashes :: ws => readArguments (r.positional "--") ws
  | .unknown s :: ws => readArguments (r.close.extra s) ws
  | .flag f _ none :: ws =>
    if f.takesValue then
      match ws with
      | .plain s :: rest => do readArguments (← r.close.apply f (some s)) rest
      | _ => .error (.misuse ("argument " ++ f.name ++ ": expected one argument"))
    else do readArguments (← r.close.apply f none) ws
  | .flag f long (some value) :: ws => do
    if f.takesValue then
      readArguments (← r.close.apply f (if value = "--" then none else some value)) ws
    else
      let fs ← if long || value = "" then ignored f value else cluster f value.toList
      readArguments (← r.close.applyAll fs) ws

/-- Reads a command line. The first `--` among the paths only marks them. -/
def Arguments.parse (words : List String) : Except Stop Arguments := do
  let r ← readArguments {} (← readWords words)
  if r.extras.isEmpty then return { r.args with paths := r.args.paths.erase "--" }
  throw (.misuse ("unrecognized arguments: " ++ " ".intercalate r.extras))

end Asyncify.Cli
