import Asyncify.Decimal.Reading
import Asyncify.Text.Lines
import Asyncify.Tree.Node
import Asyncify.Value.Reading

/-! The text that passes between the program and an outside parser. A request is one line. An answer
has one line for each node of a tree, or each part of a value, with the members before what they are
in. -/
namespace Asyncify.Exchange

/-- A text on one line. -/
def escape : List Char → List Char
  | [] => []
  | '\\' :: cs => '\\' :: '\\' :: escape cs
  | '\n' :: cs => '\\' :: 'n' :: escape cs
  | c :: cs => c :: escape cs

/-- Refuses a backslash that begins no escape. -/
def unescape : List Char → Option (List Char)
  | [] => some []
  | '\\' :: '\\' :: cs => (unescape cs).map ('\\' :: ·)
  | '\\' :: 'n' :: cs => (unescape cs).map ('\n' :: ·)
  | '\\' :: _ => none
  | c :: cs => (unescape cs).map (c :: ·)

theorem unescape_escape (cs : List Char) : unescape (escape cs) = some cs := by
  fun_induction escape cs with
  | case1 => rfl
  | case2 cs ih => simp [unescape, ih]
  | case3 cs ih => simp [unescape, ih]
  | case4 c cs h _ ih => rw [unescape] <;> simp_all

def request (language text : String) : String :=
  language ++ " " ++ String.ofList (escape text.toList)

/-- The words of a line; the last one holds the rest, blanks and all. -/
def words : Nat → List Char → List (List Char)
  | 0, cs => [cs]
  | n + 1, cs =>
    match cs.dropWhile (· ≠ ' ') with
    | [] => [cs]
    | _ :: rest => cs.takeWhile (· ≠ ' ') :: words n rest

def nat? (cs : List Char) : Option Nat := (String.ofList cs).toNat?

/-- Takes the last `n` off a stack, oldest first. -/
def pop? {α : Type} (n : Nat) (stack : List α) : Option (List α × List α) :=
  if n ≤ stack.length then some ((stack.take n).reverse, stack.drop n) else none

def fieldsOf (cs : List Char) : List Field :=
  (Text.splitOn [','] cs).filterMap fun f => Field.ofName? (String.ofList f)

/-- A line of a tree: the number of children, the marks (1 for a named node, 2 for a missing one, 4
for one with an error in it), the span, the roles and the symbol. -/
def pushNode (stack : List Node) (line : String) : Option (List Node) :=
  match words 5 line.toList with
  | [count, marks, start, stop, roles, symbol] => do
    let (children, rest) ← pop? (← nat? count) stack
    let marks ← nat? marks
    let info : NodeInfo := {
      symbol := String.ofList (← unescape symbol)
      named := marks % 2 = 1
      missing := marks / 2 % 2 = 1
      hasError := marks / 4 % 2 = 1
      fields := fieldsOf roles
      start := ← nat? start
      stop := ← nat? stop }
    return .mk info children :: rest
  | _ => none

def pairUp : List Value → Option (List (Key × Value))
  | .scalar k :: v :: rest => (pairUp rest).map ((k, v) :: ·)
  | [] => some []
  | _ => none

/-- Numbers with dashes between them. -/
def numbers? (s : String) : Option (List Nat) := (Text.splitOn ['-'] s.toList).mapM nat?

def day? (s : String) : Option Day := do
  match ← numbers? s with
  | [year, month, day] => Day.of? year month day
  | _ => none

def moment? (s : String) (ahead : Option Int) : Option Moment := do
  match ← numbers? s with
  | [year, month, day, hour, minute, second, micro] =>
    Moment.of? (← Day.of? year month day) hour minute second micro ahead
  | _ => none

def byte? (n : Nat) : Option UInt8 := if n < 256 then some (.ofNat n) else none

/-- A line of a value: its sort, and its text, its numbers or the number of its members. -/
def pushValue (stack : List Value) (line : String) : Option (List Value) :=
  match (words 2 line.toList).map String.ofList with
  | ["null"] => some (.null :: stack)
  | ["true"] => some (.bool true :: stack)
  | ["false"] => some (.bool false :: stack)
  | ["int", n] => (n.toInt?).map (.int · :: stack)
  | ["float", x] => (Decimal.float? x).map (.float · :: stack)
  | "text" :: rest => do
    return .text (String.ofList (← unescape (" ".intercalate rest).toList)) :: stack
  | ["day", d] => do return .scalar (.day (← day? d)) :: stack
  | ["moment", m] => do return .scalar (.moment (← moment? m none)) :: stack
  | ["moment", m, ahead] => do
    return .scalar (.moment (← moment? m (some (← ahead.toInt?)))) :: stack
  | ["bytes"] => some (.bytes [] :: stack)
  | ["bytes", bs] => do return .bytes (← (← numbers? bs).mapM byte?) :: stack
  | ["list", n] => do
    let (items, rest) ← pop? (← n.toNat?) stack
    return .list items :: rest
  | ["set", n] => do
    let (items, rest) ← pop? (← n.toNat?) stack
    return .set (.ofList (← items.mapM fun v => v.key.toOption)) :: rest
  | ["map", n] => do
    let (items, rest) ← pop? (2 * (← n.toNat?)) stack
    return .map (.ofList (← pairUp items)) :: rest
  | _ => none

def only? {α : Type} : List α → Option α
  | [x] => some x
  | _ => none

/-- Reads a tree. -/
def node? (lines : List String) : Option Node := (lines.foldlM pushNode []).bind only?

/-- Reads a value. -/
def value? (lines : List String) : Option Value := (lines.foldlM pushValue []).bind only?

def failureKind? : String → Option FailureKind
  | "system" => some .system
  | "markup" => some .markup
  | "type" => some .type
  | "value" => some .value
  | "attribute" => some .attribute
  | "key" => some .key
  | "index" => some .index
  | "recursion" => some .recursion
  | "runtime" => some .runtime
  | _ => none

/-- A line that tells why there is no value: the kind of the failure, and its message. -/
def failure? (line : String) : Option Fault :=
  match (words 2 line.toList).map String.ofList with
  | ["failed", kind, message] => do
    return .unread (← failureKind? kind) (String.ofList (← unescape message.toList))
  | _ => none

/-- Reads a document, or why there is none. -/
def document (lines : List String) : Except Fault Value :=
  match value? lines with
  | some v => .ok v
  | none => .error (((only? lines).bind failure?).getD (.unread .markup "not a document"))

end Asyncify.Exchange
