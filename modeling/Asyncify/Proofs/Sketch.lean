import Asyncify.Callback
import Asyncify.Proofs.Places

/-! Small documents for witnesses, written as trees without offsets, and equality of places so that
facts about such documents can be decided. -/
namespace Asyncify

namespace Node

mutual

def decEq : (m n : Node) → Decidable (m = n)
  | mk i cs, mk j ds =>
    if h : i = j then
      match decEqs cs ds with
      | isTrue hs => isTrue (by rw [h, hs])
      | isFalse hs => isFalse fun he => hs (by injection he)
    else isFalse fun he => h (by injection he)

def decEqs : (ms ns : List Node) → Decidable (ms = ns)
  | [], [] => isTrue rfl
  | [], _ :: _ => isFalse (by simp)
  | _ :: _, [] => isFalse (by simp)
  | m :: ms, n :: ns =>
    match decEq m n, decEqs ms ns with
    | isTrue h, isTrue hs => isTrue (by rw [h, hs])
    | isFalse h, _ => isFalse fun he => h (by injection he)
    | _, isFalse hs => isFalse fun he => hs (by injection he)

end

instance : DecidableEq Node := decEq

end Node

deriving instance DecidableEq for Place
deriving instance DecidableEq for Callback
deriving instance DecidableEq for Document

/-- A tree as it is read off a text, without offsets: a node has its parts and the text between
them. -/
inductive Sketch where
  | gap (text : String)
  | node (info : NodeInfo) (parts : List Sketch)

namespace Sketch

def info (symbol : String) (named : Bool) (fields : List Field) : NodeInfo where
  symbol
  named
  missing := false
  hasError := false
  fields
  start := 0
  stop := 0

def token (text : String) : Sketch := node (info text false []) [gap text]

def leaf (symbol : String) (fields : List Field) (text : String) : Sketch :=
  node (info symbol true fields) [gap text]

def tree (symbol : String) (fields : List Field) (parts : List Sketch) : Sketch :=
  node (info symbol true fields) parts

section Builders

variable (fields : List Field)

/-- Parts between round brackets, with commas. -/
def listed : List Sketch → List Sketch
  | [] => [token "(", token ")"]
  | s :: ss => [token "(", s] ++ ss.flatMap (fun t => [token ",", gap " ", t]) ++ [token ")"]

def arguments (args : List Sketch) : Sketch := tree "arguments" [.arguments] (listed args)

def call (callee : String) (args : List Sketch) : Sketch :=
  tree "call_expression" fields [leaf "identifier" [.function] callee, arguments args]

def member (object : Sketch) (name : String) : Sketch :=
  tree "member_expression" fields [object, token ".", leaf "property_identifier" [.property] name]

def methodCall (receiver : Sketch) (name : String) (args : List Sketch) : Sketch :=
  tree "call_expression" fields [member [.function] receiver name, arguments args]

/-- A call of a method of what a variable holds. -/
def callOn (receiver name : String) (args : List Sketch) : Sketch :=
  methodCall fields (leaf "identifier" [.object] receiver) name args

def awaited (call : Sketch) : Sketch :=
  tree "await_expression" fields [token "await", gap " ", call]

def grouped (e : Sketch) : Sketch :=
  tree "parenthesized_expression" fields [token "(", e, token ")"]

def statement (e : Sketch) : Sketch := tree "expression_statement" fields [e, token ";"]

def returning (e : Sketch) : Sketch :=
  tree "return_statement" fields [token "return", gap " ", e, token ";"]

/-- A `return` without a value. -/
def leaving : Sketch := tree "return_statement" fields [token "return", token ";"]

/-- A block with some space after it is opened and before it is closed. -/
def block (inner outer : String) (parts : List Sketch) : Sketch :=
  tree "statement_block" fields ([token "\x7b", gap inner] ++ parts ++ [gap outer, token "\x7d"])

/-- A test of an error, with what is done if there is one. -/
def check (error : String) (arms : List Sketch) : Sketch :=
  tree "if_statement" fields
    ([token "if", gap " ", grouped [.condition] (leaf "identifier" [] error), gap " "] ++ arms)

/-- An `else` as the other arm of a test. -/
def otherwise (arm : Sketch) : Sketch :=
  tree "else_clause" [.alternative] [token "else", gap " ", arm]

def parameters (names : List String) : Sketch :=
  tree "formal_parameters" [.parameters] (listed (names.map (leaf "identifier" [])))

/-- A function, with what stands before its keyword and what after it. -/
def functionTree (symbol : String) (before name : List Sketch) (names : List String)
    (body : Sketch) :
    Sketch :=
  tree symbol fields
    (before ++ [token "function", gap " "] ++ name ++ [parameters names, gap " ", body])

/-- A function without a name. -/
def functionWith (names : List String) (body : Sketch) : Sketch :=
  functionTree fields "function_expression" [] [] names body

/-- A function with a name and no parameters. -/
def functionNamed (name : String) (body : Sketch) : Sketch :=
  functionTree fields "function_declaration" [] [leaf "identifier" [.name] name] [] body

end Builders

mutual

def text : Sketch → String
  | gap t => t
  | node _ parts => texts parts

def texts : List Sketch → String
  | [] => ""
  | s :: ss => text s ++ texts ss

end

mutual

/-- The node of a sketch that begins at the given offset. A gap has none. -/
def nodes (start : Nat) : Sketch → List Node
  | gap _ => []
  | node i parts =>
    [.mk { i with start, stop := start + (texts parts).utf8ByteSize } (rows start parts)]

def rows (start : Nat) : List Sketch → List Node
  | [] => []
  | s :: ss => nodes start s ++ rows (start + (text s).utf8ByteSize) ss

end

/-- The document of a text whose last node is the root. -/
def document (parts : List Sketch) : Document :=
  .ofParse (texts parts) ((rows 0 parts).getLastD default)

/-- The document of a whole program. -/
def program (parts : List Sketch) : Document := document [tree "program" [] parts]

end Sketch

/-- The place with that number in document order. -/
def Document.placeAt (doc : Document) (id : Nat) : Place :=
  (doc.places.find? fun p => p.id = id).getD (.ofRoot doc.root)

end Asyncify
