import Asyncify.Calendar
import Asyncify.Point

/-! Keys of maps. -/
namespace Asyncify

/-- A value without members, which can be a key. -/
inductive Key where
  | null
  | bool (b : Bool)
  | int (n : Int)
  | float (x : Float)
  | text (s : String)
  | day (d : Day)
  | moment (m : Moment)
  | bytes (bs : List UInt8)

namespace Key

/-- What keys are compared on. -/
inductive Scale where
  | number | text | day | ownClock | universalTime | bytes
  deriving DecidableEq, Repr

/-- The scale that a key lies on. Null lies on none. -/
def scale? : Key → Option Scale
  | null => none
  | bool _ | int _ | float _ => some .number
  | text _ => some .text
  | day _ => some .day
  | moment m => some (if m.ahead.isSome then .universalTime else .ownClock)
  | bytes _ => some .bytes

/-- Where a key lies on its scale, or that it is null. -/
inductive Spot where
  | null
  | number (p : Point)
  | text (s : String)
  | day (d : Day)
  | ownClock (count : Int)
  | universalTime (count : Int)
  | bytes (bs : List UInt8)
  deriving DecidableEq

/-- Truth values count as zero and one. What is not a number lies nowhere. -/
def spot? : Key → Option Spot
  | null => some .null
  | bool b => some (.number (.ofInt (if b then 1 else 0)))
  | int n => some (.number (.ofInt n))
  | float x => (Point.ofFloat? x).map .number
  | text s => some (.text s)
  | day d => some (.day d)
  | moment m => some (if m.ahead.isSome then .universalTime m.count else .ownClock m.count)
  | bytes bs => some (.bytes bs)

namespace Spot

def same : Spot → Spot → Bool
  | number p, number q => p.same q
  | x, y => x = y

def lt : Spot → Spot → Bool
  | number p, number q => !q.le p
  | text s, text t => s < t
  | day d, day e => d.number < e.number
  | ownClock m, ownClock n => m < n
  | universalTime m, universalTime n => m < n
  | bytes bs, bytes cs => bs < cs
  | _, _ => false

end Spot

/-- Two keys are the same if they lie in one spot. -/
def same (a b : Key) : Bool :=
  match a.spot?, b.spot? with
  | some x, some y => x.same y
  | _, _ => false

/-- Whether a key comes before another, where the two have an order: if they lie on one scale. What
lies nowhere on it comes before none. -/
def lt? (a b : Key) : Option Bool :=
  if a.scale?.isSome && a.scale? = b.scale? then
    match a.spot?, b.spot? with
    | some x, some y => some (x.lt y)
    | _, _ => some false
  else none

end Key

/-- Keys in order, of which no two are the same. -/
structure Keys where
  toList : List Key
  distinct : toList.Pairwise fun a b => a.same b = false

namespace Keys

def empty : Keys := ⟨[], .nil⟩

def contains (ks : Keys) (k : Key) : Bool := ks.toList.any fun j => j.same k

/-- Adds a key at the end, unless it is there. -/
def add (ks : Keys) (k : Key) : Keys :=
  if h : ks.contains k then ks
  else
    ⟨ks.toList ++ [k], by
      refine List.pairwise_append.2 ⟨ks.distinct, List.pairwise_singleton _ _, fun j hj i hi => ?_⟩
      rw [List.mem_singleton.1 hi, Bool.eq_false_iff]
      exact fun he => h (List.any_eq_true.2 ⟨j, hj, he⟩)⟩

def ofList (ks : List Key) : Keys := ks.foldl add empty

end Keys
end Asyncify
