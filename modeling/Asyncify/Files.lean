import Asyncify.Fault
import Asyncify.Text.Lines
import Asyncify.Text.Utf8

/-! A directory of files, seen from inside. -/
namespace Asyncify

inductive FileEntry where
  | file (bytes : List Nat)
  | directory
  deriving DecidableEq, Repr

/-- A file system: its files and directories by their names from the root down, and the directory
that relative paths start from. A directory is also there if something lies in it. -/
structure Files where
  entries : List (List String × FileEntry)
  workingDirectory : List String

/-- Why a file cannot be read. -/
inductive ReadError where
  | notFound
  | isDirectory
  | notDirectory
  | longName
  | invalid (i : Utf8.Invalid)
  deriving DecidableEq, Repr

namespace ReadError

def hex (n : Nat) : String := String.ofList (Text.hexDigits 2 n)

def message (path : String) : ReadError → String
  | notFound => "[Errno 2] No such file or directory: " ++ Text.quoted path
  | isDirectory => "[Errno 21] Is a directory: " ++ Text.quoted path
  | notDirectory => "[Errno 20] Not a directory: " ++ Text.quoted path
  | longName => "[Errno 36] File name too long: " ++ Text.quoted path
  | invalid i =>
    "'utf-8' codec can't decode " ++
      (if i.length = 1 then "byte 0x" ++ hex i.first ++ " in position " ++ toString i.offset
        else "bytes in position " ++ toString i.offset ++ "-" ++
          toString (i.offset + i.length - 1)) ++
      ": " ++ i.reason.message

def kind : ReadError → FailureKind
  | invalid _ => .value
  | _ => .system

end ReadError

namespace Files

/-- The parts of a path between slashes. -/
def parts (path : String) : List String := (Text.splitOn ['/'] path.toList).map String.ofList

/-- The path from the root to a place. -/
def absolute (names : List String) : String := "/" ++ "/".intercalate names

/-- One part of a path, taken by its word alone. -/
def step (names : List String) (part : String) : List String :=
  if part = "" || part = "." then names
  else if part = ".." then names.dropLast
  else names ++ [part]

variable (fs : Files)

def at? (names : List String) : Option FileEntry :=
  match fs.entries.lookup names with
  | some entry => some entry
  | none =>
    if names.isPrefixOf fs.workingDirectory || fs.entries.any fun f => names.isPrefixOf f.1 then
      some .directory
    else none

/-- The place that the parts of a path start from. -/
def start (path : String) : List String :=
  if path.toList.head? = some '/' then [] else fs.workingDirectory

/-- Where a path leads by its words alone: `..` undoes the part before it. -/
def normalize (path : String) : List String := (parts path).foldl step (fs.start path)

/-- The places that a path passes, by its words alone. -/
def trail (path : String) : List (List String) :=
  let ps := parts path
  (List.range (ps.length + 1)).map fun n => (ps.take n).foldl step (fs.start path)

/-- Goes on to a part of a path. Only a directory has parts. -/
def enter (names : List String) (part : String) : Except ReadError (List String) :=
  match fs.at? names with
  | none => .error .notFound
  | some (.file _) => .error .notDirectory
  | some .directory =>
    let next := step names part
    if 255 < part.utf8ByteSize then .error .longName
    else if (fs.at? next).isSome then .ok next
    else .error .notFound

/-- Follows a path to the place it leads to. It must have less than 4096 bytes, and its parts no
more than 255. -/
def resolve (path : String) : Except ReadError (List String) :=
  if path = "" then .error .notFound
  else if 4096 ≤ path.utf8ByteSize then .error .longName
  else (parts path).foldlM fs.enter (fs.start path)

/-- The text at a place. It must be UTF-8; every kind of line ending is read as a line feed. -/
def readAt (names : List String) : Except ReadError String :=
  match fs.at? names with
  | none => .error .notFound
  | some .directory => .error .isDirectory
  | some (.file bytes) =>
    match Utf8.decode bytes with
    | .error i => .error (.invalid i)
    | .ok cs => .ok (String.ofList (Text.unifyNewlines cs))

def read (path : String) : Except ReadError String := do fs.readAt (← fs.resolve path)

end Files
end Asyncify
