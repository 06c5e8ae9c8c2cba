import Asyncify.Files
import Asyncify.Pipeline

/-! Running the rules over files. Files are read, never written. -/
namespace Asyncify.Engine

variable (e : Engine)

/-- A file as it was read, with its result. -/
structure Processed where
  source : String
  result : Result

/-- Reads and transforms one file. A file that cannot be read or parsed is logged and gives none. -/
def processFile (fs : Files) (path : String) : Run Error (Option Processed) := do
  if path.toList.contains '\x00' then throw (.fault .nullPath)
  let skip (why : String) : Run Error (Option Processed) := do
    Traced.log .error ("Error processing " ++ path ++ ": " ++ why)
    return none
  match fs.read path with
  | .error r => skip (r.message path)
  | .ok source =>
    match ← (e.transform source path).attempt with
    | .ok result => return some ⟨source, result⟩
    | .error (.badSource p pos) => skip (Error.badSource p pos).message
    | .error err => throw err

def processFiles (fs : Files) (paths : List String) : Run Error (List Processed) := do
  return (← paths.mapM (e.processFile fs)).filterMap (·)

/-- The results of the files that could be read and parsed, in order. -/
def transformFiles (fs : Files) (paths : List String) : Run Error (List Result) := do
  return (← e.processFiles fs paths).map (·.result)

end Asyncify.Engine
