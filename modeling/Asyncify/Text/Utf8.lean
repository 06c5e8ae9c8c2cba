/-! Reading bytes as UTF-8. -/
namespace Asyncify.Utf8

/-- Why bytes are no character. -/
inductive Reason where
  | start | continuation | truncated
  deriving DecidableEq, Repr

def Reason.message : Reason → String
  | start => "invalid start byte"
  | continuation => "invalid continuation byte"
  | truncated => "unexpected end of data"

/-- The least and greatest first byte of a sequence, its length, and the bounds of its second byte.
The bounds keep out surrogates, overlong forms and code points that are too large. -/
structure Lead where
  first : Nat
  last : Nat
  length : Nat
  low : Nat := 0x80
  high : Nat := 0xbf

def leads : List Lead :=
  [{ first := 0x00, last := 0x7f, length := 1 },
    { first := 0xc2, last := 0xdf, length := 2 },
    { first := 0xe0, last := 0xe0, length := 3, low := 0xa0 },
    { first := 0xe1, last := 0xec, length := 3 },
    { first := 0xed, last := 0xed, length := 3, high := 0x9f },
    { first := 0xee, last := 0xef, length := 3 },
    { first := 0xf0, last := 0xf0, length := 4, low := 0x90 },
    { first := 0xf1, last := 0xf3, length := 4 },
    { first := 0xf4, last := 0xf4, length := 4, high := 0x8f }]

def lead? (b : Nat) : Option Lead := leads.find? fun l => l.first ≤ b && b ≤ l.last

/-- How many of the bytes continue a sequence that wants `wanted` more; the next must lie between
the bounds, and all later ones are ordinary continuation bytes. -/
def continuing : Nat → Nat → Nat → List Nat → Nat
  | 0, _, _, _ => 0
  | _, _, _, [] => 0
  | wanted + 1, low, high, b :: bs =>
    if low ≤ b && b ≤ high then continuing wanted 0x80 0xbf bs + 1 else 0

/-- The payload of the first byte of a sequence. -/
def payload (length b : Nat) : Nat :=
  match length with
  | 1 => b
  | 2 => b % 0x20
  | 3 => b % 0x10
  | _ => b % 0x08

/-- What stands at the front of some bytes: a character, or bytes that are none. Either takes at
least one byte. -/
inductive Item where
  | char (c : Char) (extra : Nat)
  | bad (reason : Reason) (extra : Nat)
  deriving DecidableEq, Repr

def next (b : Nat) (rest : List Nat) : Item :=
  match lead? b with
  | none => .bad .start 0
  | some l =>
    let n := continuing (l.length - 1) l.low l.high rest
    if n = l.length - 1 then
      .char (Char.ofNat ((rest.take n).foldl (fun acc x => acc * 0x40 + x % 0x40)
        (payload l.length b))) n
    else .bad (if rest.length = n then .truncated else .continuation) n

def Item.extra : Item → Nat
  | char _ n => n
  | bad _ n => n

/-- The units of some bytes, each with the offset of its first byte. -/
def units (offset : Nat) : List Nat → List (Nat × Item)
  | [] => []
  | b :: rest =>
    (offset, next b rest) :: units (offset + (next b rest).extra + 1)
    (rest.drop (next b rest).extra)
termination_by bs => bs.length
decreasing_by
  simp only [List.length_drop, List.length_cons]
  omega

/-- Reads bytes and passes over those that are no characters. -/
def decodeLossy (bytes : List Nat) : List Char :=
  (units 0 bytes).filterMap fun
    | (_, .char c _) => some c
    | _ => none

/-- The first bytes of a text that are no character. -/
structure Invalid where
  offset : Nat
  length : Nat
  first : Nat
  reason : Reason
  deriving DecidableEq, Repr

def firstInvalid? (bytes : List Nat) : Option Invalid :=
  (units 0 bytes).findSome? fun
    | (offset, .bad reason extra) => some ⟨offset, extra + 1, (bytes.drop offset).headD 0, reason⟩
    | _ => none

/-- Reads bytes that must be characters throughout. -/
def decode (bytes : List Nat) : Except Invalid (List Char) :=
  match firstInvalid? bytes with
  | some i => .error i
  | none => .ok (decodeLossy bytes)

end Asyncify.Utf8
