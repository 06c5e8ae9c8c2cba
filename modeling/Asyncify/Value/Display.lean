import Asyncify.Text.Quoted
import Asyncify.Value

/-! Values as text. -/
namespace Asyncify

namespace Day

def quoted (d : Day) : String :=
  "datetime.date(" ++ ", ".intercalate ([d.year, d.month, d.day].map toString) ++ ")"

end Day

namespace Moment

/-- By how much a clock is ahead. What is behind is counted from a whole day behind. -/
def aheadQuoted (minutes : Int) : String :=
  if minutes = 0 then "datetime.timezone.utc"
  else
    "datetime.timezone(datetime.timedelta(" ++
      (if minutes < 0 then "days=-1, " else "") ++ "seconds=" ++
        toString (minutes % 1440 * 60) ++ "))"

/-- Seconds and microseconds are left out from the end on as long as they are zero. -/
def quoted (m : Moment) : String :=
  let fine := if m.micro ≠ 0 then [m.second, m.micro] else if m.second ≠ 0 then [m.second] else []
  "datetime.datetime(" ++
    ", ".intercalate
      (([m.day.year, m.day.month, m.day.day, m.hour, m.minute] ++ fine).map toString ++
      (m.ahead.map fun minutes => "tzinfo=" ++ aheadQuoted minutes).toList) ++ ")"

end Moment

namespace Text

/-- Bytes are quoted as the characters that they number, of which only those of ASCII are shown. -/
def quotedBytes (bs : List UInt8) : String :=
  let cs := bs.map fun b => Char.ofNat b.toNat
  let q := quoteFor cs
  String.ofList ('b' :: q :: cs.flatMap (fun c =>
    if c.toNat < 128 then escaped q c else '\\' :: 'x' :: hexDigits 2 c.toNat) ++ [q])

end Text

namespace Key

/-- A number with the fewest digits that read back. -/
def floatText (x : Float) : String :=
  if x.isNaN then "nan"
  else
    (if Point.isNegative x then "-" else "") ++
      if x.isInf then "inf" else String.ofList (Binary.ofBits x.toBits).shortest.text

/-- A key as it stands in a message: texts are quoted. -/
def quoted : Key → String
  | null => "None"
  | bool b => if b then "True" else "False"
  | int n => toString n
  | float x => floatText x
  | text s => Text.quoted s
  | day d => d.quoted
  | moment m => m.quoted
  | bytes bs => Text.quotedBytes bs

/-- A key put into a text: texts, days and moments stand as they are. -/
def display : Key → String
  | text s => s
  | day d => d.text
  | moment m => m.text
  | k => k.quoted

end Key

namespace Value

mutual

/-- A value as it stands in a message: texts are quoted. -/
def quoted : Value → String
  | scalar k => k.quoted
  | list vs => "[" ++ ", ".intercalate (quotedItems vs) ++ "]"
  | set ks =>
    if ks.toList.isEmpty then "set()"
    else "\x7b" ++ ", ".intercalate (ks.toList.map Key.quoted) ++ "\x7d"
  | map es =>
    "\x7b" ++ ", ".intercalate ((quotedEntries es).map fun e => e.1.quoted ++ ": " ++ e.2) ++ "\x7d"

def quotedItems : List Value → List String
  | [] => []
  | v :: vs => v.quoted :: quotedItems vs

def quotedEntries : Entries Value → List (Key × String)
  | ⟨ks, value⟩ => Entries.row ks.toList fun i => (value i).quoted

end

/-- A value put into a text: texts stand as they are. -/
def display : Value → String
  | scalar k => k.display
  | v => v.quoted

end Value
end Asyncify
