import Asyncify.Registry
import Asyncify.Rule.Catalogue
import Asyncify.Text.Lines
import Asyncify.Value.Display

/-! Rules that come from packages. -/
namespace Asyncify

/-- What happens when a package is loaded. -/
inductive Loading where
  | loaded
  | refused (message : String)
  | crashed (message : String)
  deriving DecidableEq, Repr, Inhabited

/-- A member of a list of rules: a rule, a class that makes one or fails to, or a value that is
none. -/
inductive Offer where
  | rule (r : Rule)
  | maker (made : Except String Rule)
  | value (v : Value)

/-- The rule to register for a member. -/
def Offer.take : Offer → Except Fault Rule
  | rule r => .ok r
  | maker (.ok r) => .ok r
  | maker (.error message) => .error (.crashed message)
  | value v => .error (.notRule v.shape)

/-- What a package has in the place of its list of rules. Null stands for nothing at all. -/
inductive Listing where
  | offers (os : List Offer)
  | other (shape : Value.Shape)
  deriving Inhabited

/-- A package: how it loads, the rules it lists, and the packages inside if it can hold any. -/
inductive Package where
  | mk (loading : Loading) (listing : Listing) (inside : Option (List (String × Package)))
  deriving Inhabited

namespace Package

def loading : Package → Loading
  | mk l _ _ => l

def inside : Package → Option (List (String × Package))
  | mk _ _ i => i

/-- Why a package is not there. -/
inductive Absence where
  | unavailable (message : String)
  | fault (f : Fault)

/-- Follows a dotted name. `path` is the part followed so far, and `here` what lies inside it. -/
def follow (path : String) (here : Option (List (String × Package))) (found : Option Package) :
    List String → Except Absence Package
  | [] =>
    match found with
    | some p => .ok p
    | none => .error (.fault .emptyName)
  | name :: names =>
    let full := if found.isSome then path ++ "." ++ name else name
    match here with
    | none =>
      .error (.unavailable ("No module named " ++ Text.quoted full ++ "; " ++ Text.quoted path ++
        " is not a package"))
    | some scope =>
      match scope.lookup name with
      | none => .error (.unavailable ("No module named " ++ Text.quoted full))
      | some p =>
        match p.loading with
        | .loaded => follow full p.inside (some p) names
        | .refused m => .error (.unavailable m)
        | .crashed m => .error (.fault (.crashed m))

/-- Loads the package of a dotted name, after those it lies in. -/
def load (known : List (String × Package)) : Value → Except Absence Package
  | .text name =>
    if name = "" then .error (.fault .emptyName)
    else if name.toList.head? = some '.' then .error (.fault (.relativeName name))
    else follow "" (some known) none ((Text.splitOn ['.'] name.toList).map String.ofList)
  | v => .error (.fault (.notName v.shape))

/-- One step of a discovery. -/
inductive LoadStep where
  | offer (listing : Listing)
  | skip (name message : String)
  | crash (message : String)

mutual

/-- The steps through a package and all inside it. What cannot be loaded is not entered. -/
def steps (name : String) : Package → List LoadStep
  | mk (.refused m) _ _ => [.skip name m]
  | mk (.crashed m) _ _ => [.crash m]
  | mk .loaded listing none => [.offer listing]
  | mk .loaded listing (some ps) =>
    .offer listing :: ((stepsInside name ps).mergeSort fun a b => a.1 ≤ b.1).flatMap (·.2)

def stepsInside (name : String) : List (String × Package) → List (String × List LoadStep)
  | [] => []
  | (n, p) :: ps => (n, steps (name ++ "." ++ n) p) :: stepsInside name ps

end

end Package

namespace Registry

/-- Registers what is offered, up to the first member that gives no rule. -/
def registerOffers (r : Registry) : List Offer → Traced (Registry × Option Fault)
  | [] => return (r, none)
  | o :: os =>
    match o.take with
    | .ok rule => do registerOffers (← r.register rule) os
    | .error f => return (r, some f)

/-- Registers the members of a list of rules. What is no list is passed over. -/
def registerListing (r : Registry) : Listing → Traced (Registry × Option Fault)
  | .offers os => r.registerOffers os
  | .other _ => return (r, none)

/-- Takes the steps up to a crash, if there is one. -/
def takeSteps (r : Registry) : List Package.LoadStep → Traced (Registry × Option Fault)
  | [] => return (r, none)
  | .offer listing :: ss => do
    match ← r.registerListing listing with
    | (r', none) => takeSteps r' ss
    | (r', some f) => return (r', some f)
  | .skip name message :: ss => do
    Traced.warn ("Failed to import " ++ name ++ ": " ++ message)
    takeSteps r ss
  | .crash message :: _ => return (r, some (.crashed message))

/-- Registers the rules of packages, by name. Rules found before a fault stay. -/
def discoverIn (known : List (String × Package)) (r : Registry) :
    List Value → Traced (Registry × Option Fault)
  | [] => return (r, none)
  | name :: names =>
    match Package.load known name with
    | .error (.unavailable m) => do
      Traced.warn ("Could not import rule package " ++ name.display ++ ": " ++ m)
      discoverIn known r names
    | .error (.fault f) => return (r, some f)
    | .ok p => do
      match ← r.takeSteps (p.steps name.display) with
      | (r', none) => discoverIn known r' names
      | (r', some f) => return (r', some f)

/-- Registers the rules of packages and counts the new ones. -/
def discover (known : List (String × Package)) (r : Registry) (names : Value) :
    Traced (Registry × Except Fault Nat) :=
  match names.members with
  | .error f => return (r, .error f)
  | .ok ns => do
    match ← r.discoverIn known ns with
    | (r', none) => return (r', .ok (r'.size - r.size))
    | (r', some f) => return (r', .error f)

def builtIn : Registry := (registerAll {} Rule.catalogue).value

/-- The built-in rules, then those of the named packages. -/
def withPlugins (known : List (String × Package)) (plugins : Value) : Run Fault Registry := do
  let names ← plugins.members
  if names.isEmpty then return builtIn
  let (r, count) ← builtIn.discover known (.list names)
  Traced.log .info ("Discovered " ++ toString (← count) ++ " plugin rules from " ++
    (Value.list names).quoted)
  return r

end Registry
end Asyncify
