import Asyncify.Grammar

/-! What a run leaves behind besides its result: log records and requests to parse. -/
namespace Asyncify

inductive Level where
  | debug | info | warning | error
  deriving DecidableEq, Repr

namespace Level

def name : Level → String
  | debug => "DEBUG"
  | info => "INFO"
  | warning => "WARNING"
  | error => "ERROR"

def rank : Level → Nat
  | debug => 0
  | info => 1
  | warning => 2
  | error => 3

end Level

structure Record where
  level : Level
  message : String
  deriving DecidableEq, Repr

inductive Event where
  | log (record : Record)
  | parsed (grammar : Grammar) (text : String)
  deriving DecidableEq, Repr

/-- A value with the events on the way to it, oldest first. -/
structure Traced (α : Type) where
  value : α
  events : List Event := []

namespace Traced

variable {α β : Type}

instance : Monad Traced where
  pure a := ⟨a, []⟩
  bind m f :=
    let r := f m.value
    ⟨r.value, m.events ++ r.events⟩

@[simp] theorem value_pure (a : α) : (pure a : Traced α).value = a := rfl

@[simp] theorem events_pure (a : α) : (pure a : Traced α).events = [] := rfl

@[simp] theorem value_bind (m : Traced α) (f : α → Traced β) :
    (m >>= f).value = (f m.value).value := rfl

@[simp] theorem events_bind (m : Traced α) (f : α → Traced β) :
    (m >>= f).events = m.events ++ (f m.value).events := rfl

instance : LawfulMonad Traced :=
  .mk' Traced (fun m => by simp [Functor.map]) (fun a f => by simp [bind, pure])
    (fun m f g => by simp [bind])

def log (level : Level) (message : String) : Traced Unit := ⟨(), [.log ⟨level, message⟩]⟩

def warn (message : String) : Traced Unit := log .warning message

def debug (message : String) : Traced Unit := log .debug message

end Traced

/-- A traced computation that may fail; what it logged before the failure stays. -/
abbrev Run (ε α : Type) := ExceptT ε Traced α

namespace Run

variable {ε δ α : Type}

/-- Takes over a plain result, with its failure read as another. -/
def ofExcept (f : ε → δ) (r : Except ε α) : Run δ α := ExceptT.mk ⟨r.mapError f, []⟩

/-- Reads the failure of a computation as another. -/
def mapError (f : ε → δ) (m : Run ε α) : Run δ α :=
  ExceptT.mk ⟨m.run.value.mapError f, m.run.events⟩

/-- Gives the failure of a computation as a value. -/
def attempt (m : Run ε α) : Run δ (Except ε α) := ExceptT.mk ⟨.ok m.run.value, m.run.events⟩

end Run

namespace Event

/-- The log records of a run. Each grammar is announced when it is first used. -/
def recordsFrom (seen : List Grammar) : List Event → List Record
  | [] => []
  | .log r :: es => r :: recordsFrom seen es
  | .parsed g _ :: es =>
    if seen.contains g then recordsFrom seen es
    else ⟨.debug, g.name ++ " parser initialized"⟩ :: recordsFrom (g :: seen) es

def records (es : List Event) : List Record := recordsFrom [] es

end Event

def Record.atLeast (level : Level) (rs : List Record) : List Record :=
  rs.filter fun r => level.rank ≤ r.level.rank

end Asyncify
