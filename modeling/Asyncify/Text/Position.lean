import Asyncify.Text.Span

/-! Lines and columns of byte offsets. -/
namespace Asyncify

/-- A place in a text for a reader: both numbers count from one. -/
structure Position where
  line : Nat
  column : Nat
  deriving DecidableEq, Repr

namespace Position

/-- Lines end at line feeds; columns count characters. -/
def ofOffset (cs : List Char) (offset : Nat) : Position :=
  let before := Text.slice cs 0 offset
  ⟨before.count '\n' + 1, (Text.lastLine before).length + 1⟩

/-- Columns count bytes. -/
def ofOffsetBytes (cs : List Char) (offset : Nat) : Position :=
  let before := Text.slice cs 0 offset
  ⟨before.count '\n' + 1,
    offset - (Text.byteLength before - Text.byteLength (Text.lastLine before)) + 1⟩

end Position
end Asyncify
