/-! The grammar a source file is read with. -/
namespace Asyncify

inductive Grammar where
  | javascript | typescript | tsx
  deriving DecidableEq, Repr

namespace Grammar

def name : Grammar → String
  | javascript => "javascript"
  | typescript => "typescript"
  | tsx => "tsx"

/-- File extensions with a grammar of their own. -/
def byExtension : List (String × Grammar) :=
  [(".js", javascript), (".jsx", javascript), (".mjs", javascript), (".cjs", javascript),
    (".ts", typescript), (".tsx", tsx)]

def extensions : List String := byExtension.map (·.1)

/-- The extension of the last part of a path, with its dot. Dots that only lead the name start
none. -/
def extension (path : String) : String :=
  let base := (path.toList.reverse.takeWhile (· ≠ '/')).reverse
  let after := (base.reverse.takeWhile (· ≠ '.')).reverse
  let stem := base.take (base.length - after.length - 1)
  if base.contains '.' && stem.any (· ≠ '.') then String.ofList ('.' :: after) else ""

/-- Every path without a known extension is read as JavaScript. -/
def ofPath (path : String) : Grammar :=
  (byExtension.lookup (extension path).toLower).getD javascript

end Grammar
end Asyncify
