import Asyncify.Fault

/-! Reading a value as a sequence, as entries or as a set of names. -/
namespace Asyncify

namespace Value

/-- The members of a value: the items of a list, the members of a set, the keys of a map, the
characters of a text and the numbers of bytes. -/
def members : Value → Except Fault (List Value)
  | text s => .ok (s.toList.map fun c => text (String.singleton c))
  | bytes bs => .ok (bs.map fun b => int b.toNat)
  | list vs => .ok vs
  | set ks => .ok (ks.toList.map scalar)
  | map es => .ok (es.keys.toList.map scalar)
  | v => .error (.notSequence v.shape)

/-- A value without members is a key. -/
def key : Value → Except Fault Key
  | scalar k => .ok k
  | v => .error (.notKey v.shape)

/-- A member of a list read as one entry. -/
def entryAt (index : Nat) (v : Value) : Except Fault (Key × Value) :=
  match v.members with
  | .error _ => .error (.notPair index)
  | .ok [k, w] => k.key.map (·, w)
  | .ok vs => .error (.pairLength index vs.length)

def entriesFrom (index : Nat) : List Value → Except Fault (List (Key × Value))
  | [] => .ok []
  | v :: vs => do
    let e ← entryAt index v
    let es ← entriesFrom (index + 1) vs
    return e :: es

/-- The entries of a map, or of a sequence of pairs. -/
def entries : Value → Except Fault (Entries Value)
  | map es => .ok es
  | v => do return .ofList (← entriesFrom 0 (← v.members))

/-- The texts among the members of a value; every member must be fit for a key. -/
def names (v : Value) : Except Fault (List String) := do
  let ks ← (← v.members).mapM key
  return ks.filterMap fun
    | .text s => some s
    | _ => none

end Value

/-- Puts keys in order. Keys on different scales have none. -/
def Key.sort (keys : List Key) : Except Fault (List Key) := do
  match keys with
  | [] => return []
  | first :: rest =>
    rest.forM fun k =>
      match k.lt? first with
      | some _ => .ok ()
      | none => .error (.unordered (.ofKey k) (.ofKey first))
    return keys.mergeSort fun a b => !(b.lt? a).getD false

end Asyncify
